import Kuberecord.Filings
import Kuberecord.ScopeEpochs
import Kuberecord.Watch.BootClosings

/-!
The scope log as its readers take it: the row with the greatest timestamp says whether the scope is
being recorded. The recorder dates an edge with the instant of its pass, a boot goroutine dates a
closing with the clock.
-/

namespace Kuberecord

open Threads Tallies

/-- There is one latest row, and it is a start exactly while the scope is held. -/
def Truthful (rows : List ScopeEvent) (held : Prop) : Prop :=
  rows = [] ∧ ¬ held ∨
    ∃ row ∈ rows, rows.filter (fun x => row.ts ≤ x.ts) = [row] ∧ (row.action = .started ↔ held)

instance (rows : List ScopeEvent) (held : Prop) [Decidable held] : Decidable (Truthful rows held) :=
  inferInstanceAs (Decidable (_ ∨ _))

def rowsOf (rows : List (String × ScopeEvent)) (ref : ScopeRef) : List ScopeEvent :=
  (rows.filter fun row => (⟨row.1, row.2.scope⟩ : ScopeRef) = ref).map Prod.snd

theorem truthful_of_split {before after : List ScopeEvent} {row : ScopeEvent} {held : Prop}
    (hlt : ∀ x ∈ before ++ after, x.ts < row.ts) (ha : row.action = .started ↔ held) :
    Truthful (before ++ row :: after) held := by
  refine .inr ⟨row, by simp, ?_, ha⟩
  have hnone (l : List ScopeEvent) (hl : ∀ x ∈ l, x.ts < row.ts) : l.filter (fun x =>
    row.ts ≤ x.ts) = [] :=
    List.filter_eq_nil_iff.mpr fun x hx => by simpa using hl x hx
  rw [List.filter_append, List.filter_cons_of_pos (by simp),
    hnone before fun x hx => hlt x (List.mem_append_left _ hx),
    hnone after fun x hx => hlt x (List.mem_append_right _ hx)]
  rfl

theorem last_latest {l : List ScopeEvent} {row : ScopeEvent} (h : (l ++ [row]).Pairwise (·.ts < ·.ts)) :
    ∀ x ∈ l, x.ts < row.ts :=
  fun x hx => (List.pairwise_append.mp h).2.2 x hx row (.head _)

theorem exists_latest {l l' : List ScopeEvent} (h : l.Pairwise (·.ts < ·.ts))
    (h' : l'.Pairwise (·.ts < ·.ts)) (hne : ∀ x ∈ l, ∀ y ∈ l', x.ts ≠ y.ts) (hnil : l ++ l' ≠ []) :
    ∃ before row after, l ++ l' = before ++ row :: after ∧ (∀ x ∈ before ++ after, x.ts < row.ts) ∧
      (row ∈ l.getLast? ∨ row ∈ l') := by
  rcases List.eq_nil_or_concat l with rfl | ⟨pre, e,
    rfl⟩ <;> rcases List.eq_nil_or_concat l' with rfl | ⟨pre', b, rfl⟩
  · exact absurd rfl hnil
  · rw [List.concat_eq_append] at h' ⊢
    exact ⟨pre', b, [], rfl, by simpa using last_latest h', .inr (by simp)⟩
  · rw [List.concat_eq_append] at h ⊢
    exact ⟨pre, e, [], by simp, by simpa using last_latest h, .inl (by simp)⟩
  · simp only [List.concat_eq_append] at h h' hne ⊢
    have he := last_latest h
    have hb := last_latest h'
    rcases lt_or_gt_of_ne (hne e (by simp) b (by simp)) with hlt | hlt
    · refine ⟨pre ++ [e] ++ pre', b, [], by simp, fun x hx => ?_, .inr (by simp)⟩
      simp only [List.append_nil, List.mem_append, List.mem_singleton] at hx
      rcases hx with (hx | rfl) | hx
      · exact (he x hx).trans hlt
      · exact hlt
      · exact hb x hx
    · refine ⟨pre, e, pre' ++ [b], by simp, fun x hx => ?_, .inl (by simp)⟩
      simp only [List.mem_append, List.mem_singleton] at hx
      rcases hx with hx | hx | rfl
      · exact he x hx
      · exact (hb x hx).trans hlt
      · exact hlt

variable {Sel : Type} {lib : WatchLib Sel} {queueLimit : Nat} {w w' : Watching Sel} {ref : ScopeRef}

def PassPhase.instant? : PassPhase Sel → Option Nat
  | .idle | .snapped | .translated _ => none
  | .stamped _ instant | .stopping _ instant _ | .evicting _ instant _ _ | .halting _ instant _
  | .launching _ instant _ | .starting _ instant _ => some instant

def PassPhase.stops : PassPhase Sel → Bool
  | .stamped _ _ | .stopping _ _ _ | .evicting _ _ _ _ => true
  | _ => false

def PassPhase.Due (ref : ScopeRef) : PassPhase Sel → Prop
  | .idle | .snapped | .translated _ => False
  | .stamped desired _ | .stopping desired _ _ | .evicting desired _ _ _ | .halting desired _ _
  | .launching desired _ _ => ∃ i ∈ desired, i.ref = ref
  | .starting _ _ serving => ∃ i ∈ serving, i.ref = ref

def PassPhase.starts? : PassPhase Sel → Option (ScopeInterest Sel × Nat)
  | .starting _ instant (i :: _) => some (i, instant)
  | _ => none

instance (ref : ScopeRef) (p : PassPhase Sel) : Decidable (p.Due ref) := by
  unfold PassPhase.Due
  split <;> infer_instance

namespace RecorderSystem

variable {T : Type} [DecidableEq T] (s : RecorderSystem T) (transition : ScopeTransition T)

def eventsOf {T : Type} (s : RecorderSystem T) (ref : ScopeRef) : List ScopeEvent :=
  (s.enqueued.filter (·.ref = ref)).map PendingScopeEvent.event

omit [DecidableEq T] in
theorem eventsOf_edge (event : PendingScopeEvent) (r : Recorder T) (queued : Bool) :
    (s.edge event (r, queued)).eventsOf ref =
      if queued = true ∧ event.ref = ref then s.eventsOf ref ++ [event.event] else s.eventsOf ref := by
  cases queued with
  | false => rfl
  | true => by_cases h : event.ref = ref <;> simp [eventsOf, edge, List.filter_append, h]

theorem started_edge (queueLimit : Nat) (ref : ScopeRef) {s' : RecorderSystem T}
    (hs : s' = s.edge (transition.pending .started) (s.recorder.scopeStarted queueLimit transition)) :
    s'.eventsOf ref = s.eventsOf ref ∧
      ((s'.recorder.active ref).Nonempty ↔ (s.recorder.active ref).Nonempty) ∨
      transition.ref = ref ∧ ¬ (s.recorder.active ref).Nonempty ∧ (s'.recorder.active ref).Nonempty ∧
        s'.eventsOf ref = s.eventsOf ref ++ [transition.eventFor .started] := by
  subst hs
  rcases Recorder.scopeStarted_cases queueLimit s.recorder transition with ⟨he, hr⟩ | ⟨hne, hr⟩
  · rw [hr, eventsOf_edge]
    by_cases href : transition.ref = ref
    · subst href
      refine .inr ⟨rfl, by simp [he], ?_, by simp [ScopeTransition.pending, PendingScopeEvent.ref,
        ScopeTransition.eventFor]⟩
      simp [edge, Recorder.signal, Recorder.enqueueLocked, Recorder.hold]
    · refine .inl ⟨by simp [href], ?_⟩
      simp [edge, Recorder.signal, Recorder.enqueueLocked, Recorder.hold,
        Function.update_of_ne (Ne.symm href)]
  · rw [hr, eventsOf_edge]
    refine .inl ⟨by simp, ?_⟩
    by_cases href : ref = transition.ref
    · subst href
      simp [edge, Recorder.hold, hne]
    · simp [edge, Recorder.hold, Function.update_of_ne href]

theorem stopped_edge (queueLimit : Nat) (ref : ScopeRef) {s' : RecorderSystem T}
    (hs : s' = s.edge (transition.pending .stopped) (s.recorder.scopeStopped queueLimit transition)) :
    s'.eventsOf ref = s.eventsOf ref ∧
      ((s'.recorder.active ref).Nonempty ↔ (s.recorder.active ref).Nonempty) ∨
      transition.ref = ref ∧ (s.recorder.active ref).Nonempty ∧ ¬ (s'.recorder.active ref).Nonempty ∧
        s'.eventsOf ref = s.eventsOf ref ++ [transition.eventFor .stopped] := by
  subst hs
  rcases Recorder.scopeStopped_cases queueLimit s.recorder transition with ⟨he, hr⟩ | ⟨targets, hne, hr⟩
  · rw [hr, eventsOf_edge]
    by_cases href : transition.ref = ref
    · subst href
      refine .inr ⟨rfl, by simp [he], ?_, by simp [ScopeTransition.pending, PendingScopeEvent.ref,
        ScopeTransition.eventFor]⟩
      simp [edge, Recorder.signal, Recorder.enqueueLocked, Recorder.hold]
    · refine .inl ⟨by simp [href], ?_⟩
      simp [edge, Recorder.signal, Recorder.enqueueLocked, Recorder.hold,
        Function.update_of_ne (Ne.symm href)]
  · rw [hr, eventsOf_edge]
    refine .inl ⟨by simp, ?_⟩
    by_cases href : ref = transition.ref
    · subst href
      simpa [edge, Recorder.hold] using hne
    · simp [edge, Recorder.hold, Function.update_of_ne href]

omit [DecidableEq T] in
theorem Alternates.last {s : RecorderSystem T} (h : s.Alternates ref) :
    ((s.recorder.active ref).Nonempty → s.eventsOf ref ≠ []) ∧
      ∀ e ∈ (s.eventsOf ref).getLast?, e.action = .started ↔ (s.recorder.active ref).Nonempty := by
  obtain ⟨n, hn, hodd⟩ := h
  have hmap : (s.eventsOf ref).map ScopeEvent.action = epochs n := by
    rw [← hn, eventsOf, edgesOf, List.map_map]
    rfl
  refine ⟨fun hne hnil => ?_, fun e he => ?_⟩
  · rw [hnil] at hmap
    have hlen := congrArg List.length hmap
    simp only [epochs, List.map_nil, List.length_nil, List.length_map, List.length_range] at hlen
    have := hodd.mpr hne
    omega
  · have hlast : (epochs n).getLast? = some e.action := by
      rw [← hmap, List.getLast?_map, Option.mem_def.mp he]
      rfl
    cases n with
    | zero => cases hlast
    | succ n =>
      rw [epochs_succ, List.getLast?_concat, Option.some.injEq] at hlast
      rw [← hodd, ← hlast]
      by_cases hn : n % 2 = 0
      · rw [if_pos hn]
        exact iff_of_true rfl (by omega)
      · rw [if_neg hn]
        exact iff_of_false (by simp) (by omega)

end RecorderSystem

namespace Watching

def edges (w : Watching Sel) (ref : ScopeRef) : List ScopeEvent := w.recorder.eventsOf ref

def Holds (w : Watching Sel) (ref : ScopeRef) : Prop := (w.recorder.recorder.active ref).Nonempty

instance (w : Watching Sel) (ref : ScopeRef) : Decidable (w.Holds ref) :=
  inferInstanceAs (Decidable (Finset.Nonempty _))

inductive Edged (w : Watching Sel) (ref : ScopeRef) (a : WatchStep Sel) (w' : Watching Sel) : Prop
  | same : w'.edges ref = w.edges ref → (w'.Holds ref ↔ w.Holds ref) → Edged w ref a w'
  | started (desired : List (ScopeInterest Sel)) (i : ScopeInterest Sel)
      (serving : List (ScopeInterest Sel)) (e : ScopeEvent) :
      a = .scopeStarted → w.phase = .starting desired e.ts (i :: serving) →
      i.ref = ref →
      ¬ w.Holds ref → w'.Holds ref → e.action = .started → w'.edges ref = w.edges ref ++ [e] →
      Edged w ref a w'
  | stopped (desired : List (ScopeInterest Sel)) (i : ScopeInterest Sel)
      (removed : List (ScopeInterest Sel)) (e : ScopeEvent) :
      w.phase = .stopping desired e.ts (i :: removed) → w.Holds ref → ¬ w'.Holds ref →
      e.action = .stopped → w'.edges ref = w.edges ref ++ [e] → Edged w ref a w'

theorem Move.edged {a : WatchStep Sel} (h : Move lib queueLimit w a w') (ref : ScopeRef) :
    Edged w ref a w' := by
  cases h with
  | scopeStarted desired instant i serving hp =>
    rcases w.recorder.started_edge (i.transition instant) queueLimit ref rfl with ⟨he, ha⟩ | ⟨hr,
      hn, ha, he⟩
    · exact .same he ha
    · exact .started desired i serving _ rfl hp hr hn ha rfl he
  | scopeStopped desired instant i removed hp =>
    rcases w.recorder.stopped_edge (i.transition instant) queueLimit ref rfl with ⟨he, ha⟩ | ⟨hr,
      hh, ha, he⟩
    · exact .same he ha
    · exact .stopped desired i removed _ hp hh ha rfl he
  | flush step recorder hstep hr =>
    rcases RecorderSystem.step_cases hr with ⟨transition, rfl, -⟩ | ⟨transition, rfl, -⟩ | ⟨he, ha, -⟩
    · exact absurd rfl (hstep transition).1
    · exact absurd rfl (hstep transition).2
    · exact .same (by simp only [edges, RecorderSystem.eventsOf, he]) (by simp only [Holds, ha])
  | snapshot | translate | stamp | replace | evicted | retain | halt | halted | launch | serve
  | finish | receive =>
    exact .same rfl Iff.rfl

theorem Move.recorder_step {a : WatchStep Sel} (h : Move lib queueLimit w a w') :
    w'.recorder = w.recorder ∨ ∃ step, w.recorder.step queueLimit step = some w'.recorder := by
  cases h with
  | scopeStarted desired instant i => exact .inr ⟨.started (i.transition instant), rfl⟩
  | scopeStopped desired instant i => exact .inr ⟨.stopped (i.transition instant), rfl⟩
  | flush step recorder _ hr => exact .inr ⟨step, hr⟩
  | _ => exact .inl rfl

theorem Move.timed {a : WatchStep Sel} (h : Move lib queueLimit w a w') (ref : ScopeRef) :
    (∃ t, a = .stamp t ∧ w'.clock = t ∧ w'.phase.instant? = some t ∧ w'.recorder = w.recorder) ∨
      w'.clock = w.clock ∧ (∀ t ∈ w'.phase.instant?, t ∈ w.phase.instant?) ∧
        (w'.phase.stops = true → w.phase.stops = true) ∧ (w'.phase.Due ref → w.phase.Due ref) := by
  cases h with
  | stamp desired t hp => exact .inl ⟨t, rfl, rfl, rfl, rfl⟩
  | receive | flush => exact .inr ⟨rfl, fun _ h => h, id, id⟩
  | serve order desired instant hp =>
    refine .inr ⟨rfl, ?_, ?_, ?_⟩
    · simp [hp, PassPhase.instant?]
    · simp [PassPhase.stops]
    · rw [hp]
      rintro ⟨i, hi, hr⟩
      exact ⟨i, (mem_newlyServing.mp hi).1, hr⟩
  | scopeStarted desired instant i serving hp =>
    refine .inr ⟨rfl, ?_, ?_, ?_⟩
    · simp [hp, PassPhase.instant?]
    · simp [PassPhase.stops]
    · rw [hp]
      rintro ⟨i, hi, hr⟩
      exact ⟨i, .tail _ hi, hr⟩
  | snapshot _ hp | translate _ hp | replace _ _ _ hp | scopeStopped _ _ _ _ hp | evicted _ _ _ _ hp
  | retain _ _ _ hp
  | halt _ _ _ _ hp | halted _ _ hp | launch _ _ _ _ _ _ hp | finish _ _ hp =>
    refine .inr ⟨rfl, ?_, ?_, ?_⟩ <;> simp [hp, PassPhase.instant?, PassPhase.stops, PassPhase.Due]

end Watching

namespace Joint

variable {cfg : Config} {s s' : Joint Sel} {inherited : List (String × ScopeEvent)}

def scopeRows (s : Joint Sel) : List (String × ScopeEvent) :=
  s.watch.recorder.handed.map (fun p => (p.sink, p.event)) ++ s.plane.shared.scopeLog

def Written (s : Joint Sel) : Prop := s.watch.recorder.Lossless ∧ s.watch.recorder.recorder.pending = []

def Later (inherited : List (String × ScopeEvent)) (s : Joint Sel) (ts : Nat) : Prop :=
  s.watch.clock < ts ∧ s.plane.shared.clock < ts ∧ ∀ row ∈ inherited, row.2.ts < ts

def Ticks (inherited : List (String × ScopeEvent)) (s : Joint Sel) : JointStep Sel → Prop
  | .plane a =>
    match s.plane.deed (s.supply a) with
    | some (.exec _ (.now, .time ts)) => s.Later inherited ts
    | some .crash => False
    | _ => True
  | .watch (.stamp ts) => s.Later inherited ts
  | _ => True

def filing (s : Joint Sel) (sink : String) : Option Filing :=
  (s.plane.view Filing.protocol Filing.start).phase (.boot sink)

/--
A boot goroutine dates its closing of the scope while nobody holds it and no pass that has taken its
instant is about to start it; and no pass starts the scope anew at the instant at which it has
stopped it.
-/
def InTime (ref : ScopeRef) (s : Joint Sel) : JointStep Sel → Prop
  | .plane a => ∀ i, s.plane.deed (s.supply a) = some (.exec (.boot ref.sink) (.now, i)) →
      s.filing ref.sink = some (.doomed ref.sink ref.scope) → ¬ s.watch.Holds ref ∧
      ¬ s.watch.phase.Due ref
  | .watch .scopeStarted => ∀ next ∈ s.watch.phase.starts?, next.1.ref = ref → ¬ s.watch.Holds ref →
      ∀ e ∈ s.watch.edges ref, e.ts ≠ next.2
  | _ => True

def closed (s : Joint Sel) (ref : ScopeRef) : List Nat :=
  filings (s.plane.view Filing.protocol Filing.start) ref

structure Dated (inherited : List (String × ScopeEvent)) (ref : ScopeRef) (s : Joint Sel) : Prop where
  sorted : (s.watch.edges ref).Pairwise (·.ts < ·.ts)
  clock : ∀ e ∈ s.watch.edges ref, e.ts ≤ s.watch.clock
  instant : ∀ t ∈ s.watch.phase.instant?, t = s.watch.clock ∧ ∀ row ∈ inherited, row.2.ts < t
  stops : s.watch.phase.stops = true → ∀ e ∈ s.watch.edges ref, e.action = .started →
    e.ts < s.watch.clock
  later : ∀ row ∈ inherited, (∀ e ∈ s.watch.edges ref, row.2.ts < e.ts) ∧
    ∀ t ∈ s.closed ref, row.2.ts < t
  closedSorted : (s.closed ref).Pairwise (· < ·)
  closedClock : ∀ t ∈ s.closed ref, t ≤ s.plane.shared.clock
  apart : ∀ t ∈ s.closed ref, t ≠ s.watch.clock ∧ ∀ e ∈ s.watch.edges ref, t ≠ e.ts
  held : s.watch.Holds ref → ∀ e ∈ (s.watch.edges ref).getLast?, ∀ t ∈ s.closed ref, t < e.ts
  due : s.watch.phase.Due ref → ∀ t ∈ s.closed ref, t < s.watch.clock
  actions : ∀ e ∈ s.plane.shared.closings ref, e.action = .stopped

theorem Dated.empty : ({} : Joint Sel).Dated inherited ref where
  sorted := .nil
  clock := by rintro _ ⟨⟩
  instant := by rintro _ ⟨⟩
  stops := by rintro ⟨⟩
  later _ _ := ⟨by rintro _ ⟨⟩, by rintro _ ⟨⟩⟩
  closedSorted := .nil
  closedClock := by rintro _ ⟨⟩
  apart := by rintro _ ⟨⟩
  held _ := by rintro _ ⟨⟩
  due := by rintro ⟨⟩
  actions := by rintro _ ⟨⟩

theorem Dated.push {e : ScopeEvent} (h : s.Dated inherited ref) (hp : s'.plane = s.plane)
    (hclock : s'.watch.clock = s.watch.clock)
    (hinst : ∀ t ∈ s'.watch.phase.instant?, t ∈ s.watch.phase.instant?)
    (hdue : s'.watch.phase.Due ref → s.watch.phase.Due ref)
    (hedges : s'.watch.edges ref = s.watch.edges ref ++ [e]) (he : e.ts ∈ s.watch.phase.instant?)
    (hold : ∀ x ∈ s.watch.edges ref, x.ts < e.ts)
    (hstops : s'.watch.phase.stops = true → s.watch.phase.stops = true ∧ e.action ≠ .started)
    (hheld : s'.watch.Holds ref → ∀ t ∈ s.closed ref, t < e.ts) : s'.Dated inherited ref := by
  have hclosed : s'.closed ref = s.closed ref := by rw [closed, hp, closed]
  obtain ⟨hts, hinh⟩ := h.instant e.ts he
  exact {
    sorted := by
      rw [hedges, List.pairwise_append]
      refine ⟨h.sorted, List.pairwise_singleton _ _, fun x hx y hy => ?_⟩
      rw [List.mem_singleton.mp hy]
      exact hold x hx
    clock := by
      rw [hedges, hclock]
      intro x hx
      rcases List.mem_append.mp hx with hx | hx
      · exact h.clock x hx
      · rw [List.mem_singleton.mp hx, hts]
    instant := fun t ht => by simpa only [hclock] using h.instant t (hinst t ht)
    stops := by
      rw [hedges, hclock]
      intro hs x hx hact
      obtain ⟨hs, hne⟩ := hstops hs
      rcases List.mem_append.mp hx with hx | hx
      · exact h.stops hs x hx hact
      · exact absurd (List.mem_singleton.mp hx ▸ hact) hne
    later := by
      rw [hedges, hclosed]
      refine fun row hrow => ⟨fun x hx => ?_, (h.later row hrow).2⟩
      rcases List.mem_append.mp hx with hx | hx
      · exact (h.later row hrow).1 x hx
      · rw [List.mem_singleton.mp hx]
        exact hinh row hrow
    closedSorted := hclosed ▸ h.closedSorted
    closedClock := by simpa only [hclosed, hp] using h.closedClock
    apart := by
      rw [hclosed, hedges, hclock]
      refine fun t ht => ⟨(h.apart t ht).1, fun x hx => ?_⟩
      rcases List.mem_append.mp hx with hx | hx
      · exact (h.apart t ht).2 x hx
      · rw [List.mem_singleton.mp hx, hts]
        exact (h.apart t ht).1
    held := by
      rw [hclosed, hedges, List.getLast?_concat]
      rintro hh _ ⟨⟩
      exact hheld hh
    due := fun hd => by simpa only [hclosed, hclock] using h.due (hdue hd)
    actions := by simpa only [hp] using h.actions }

theorem Dated.watch {a : WatchStep Sel} (h : s.Dated inherited ref)
    (halt : s.watch.recorder.Alternates ref) (hticks : s.Ticks inherited (.watch a))
    (htime : s.InTime ref (.watch a)) (hm : Watching.Move lib queueLimit s.watch a s'.watch)
    (hp : s'.plane = s.plane) :
    s'.Dated inherited ref := by
  have hclosed : s'.closed ref = s.closed ref := by rw [closed, hp, closed]
  rcases hm.timed ref with ⟨t, rfl, hclock, hinst, hrec⟩ | ⟨hclock, hinst, hstops, hdue⟩
  · obtain ⟨hw, hplane, hlater⟩ : s.Later inherited t := hticks
    have hedges : s'.watch.edges ref = s.watch.edges ref := by rw [Watching.edges, hrec, Watching.edges]
    have hholds : s'.watch.Holds ref ↔ s.watch.Holds ref := by rw [Watching.Holds, hrec, Watching.Holds]
    have hbefore (t' : Nat) (ht : t' ∈ s.closed ref) : t' < t := (h.closedClock t' ht).trans_lt hplane
    have hnew (e : ScopeEvent) (he : e ∈ s.watch.edges ref) : e.ts < t := (h.clock e he).trans_lt hw
    exact {
      sorted := hedges ▸ h.sorted
      clock := by
        rw [hedges, hclock]
        exact fun e he => (hnew e he).le
      instant := by
        rintro u hu
        obtain rfl : t = u := Option.some.inj (hinst.symm.trans hu)
        exact ⟨hclock.symm, hlater⟩
      stops := by
        rw [hedges, hclock]
        exact fun _ e he _ => hnew e he
      later := by simpa only [hedges, hclosed] using h.later
      closedSorted := hclosed ▸ h.closedSorted
      closedClock := by simpa only [hclosed, hp] using h.closedClock
      apart := by
        rw [hclosed, hedges, hclock]
        exact fun t' ht => ⟨(hbefore t' ht).ne, (h.apart t' ht).2⟩
      held := by simpa only [hedges, hclosed, hholds] using h.held
      due := by
        rw [hclosed, hclock]
        exact fun _ => hbefore
      actions := by simpa only [hp] using h.actions }
  · cases hm.edged ref with
    | same hedges hholds =>
      exact {
        sorted := hedges ▸ h.sorted
        clock := by simpa only [hedges, hclock] using h.clock
        instant := fun t ht => by simpa only [hclock] using h.instant t (hinst t ht)
        stops := fun hs => by simpa only [hedges, hclock] using h.stops (hstops hs)
        later := by simpa only [hedges, hclosed] using h.later
        closedSorted := hclosed ▸ h.closedSorted
        closedClock := by simpa only [hclosed, hp] using h.closedClock
        apart := by simpa only [hclosed, hedges, hclock] using h.apart
        held := by simpa only [hedges, hclosed, hholds] using h.held
        due := fun hd => by simpa only [hclosed, hclock] using h.due (hdue hd)
        actions := by simpa only [hp] using h.actions }
    | started desired i serving e ha hph hr hn hh hact hedges =>
      subst ha
      have he : e.ts ∈ s.watch.phase.instant? := by rw [hph]; rfl
      have hts := (h.instant e.ts he).1
      refine h.push hp hclock hinst hdue hedges he (fun x hx => ?_) (fun hs => ?_) fun _ t ht => ?_
      · have hne : x.ts ≠ e.ts := htime (i, e.ts) (by rw [hph]; rfl) hr hn x hx
        have hle := h.clock x hx
        omega
      · have := hstops hs
        rw [hph] at this
        cases this
      · exact hts ▸ h.due (by rw [hph]; exact ⟨i, .head _, hr⟩) t ht
    | stopped desired i removed e hph hh hn hact hedges =>
      have he : e.ts ∈ s.watch.phase.instant? := by rw [hph]; rfl
      have hts := (h.instant e.ts he).1
      refine h.push hp hclock hinst hdue hedges he (fun x hx => ?_)
        (fun hs => ⟨hstops hs, by simp [hact]⟩)
        fun hh' => absurd hh' hn
      -- the scope is held, so its last edge is a start, and starts are older than this pass
      obtain ⟨hne, hlast⟩ := halt.last
      rcases List.eq_nil_or_concat (s.watch.edges ref) with hnil | ⟨pre, last, hsplit⟩
      · exact absurd hnil (hne hh)
      · rw [List.concat_eq_append] at hsplit
        have hstarted : last.action = .started :=
          (hlast last (by rw [← Watching.edges, hsplit, List.getLast?_concat]; rfl)).mpr hh
        have hnew : last.ts < e.ts :=
          hts ▸ h.stops (by rw [hph]; rfl) last (by rw [hsplit]; simp) hstarted
        have hsorted := h.sorted
        rw [hsplit, List.pairwise_append] at hsorted
        rw [hsplit] at hx
        rcases List.mem_append.mp hx with hx | hx
        · exact (hsorted.2.2 x hx last (.head _)).trans hnew
        · rwa [List.mem_singleton.mp hx]

theorem clock_le {a : Action} {d : Deed} (hticks : s.Ticks inherited (.plane a))
    (hd : s.plane.deed (s.supply a) = some d)
    (hmove : (machine cfg).Move Filing.protocol Filing.start (fun _ _ _ => True)
      (s.plane.view Filing.protocol Filing.start) d (s'.plane.view Filing.protocol Filing.start)) :
    s.plane.shared.clock ≤ s'.plane.shared.clock := by
  generalize hv : s'.plane.view Filing.protocol Filing.start = v' at hmove
  have hv : s'.plane.shared = v'.shared := congrArg View.shared hv
  rw [hv]
  cases hmove with
  | start t b shared code hn hs => exact (start_scopeLog hs).2.ge
  | exec t i o tr shared ans hq hall _ hx =>
    rcases exec_clock hx with hsame | ⟨ts, rfl, rfl, hts⟩
    · exact hsame.ge
    · simp only [Ticks, hd] at hticks
      exact hts ▸ hticks.2.1.le
  | finish t ans => exact (finish_scopeLog _ t ans).2.ge
  | env e shared he => exact (env_scopeLog he).2.ge
  | crash => simp only [Ticks, hd] at hticks

theorem Dated.plane {a : Action} (h : s.Dated inherited ref)
    (hconf : s.plane.Conforms Filing.protocol Filing.start fun _ _ _ => True)
    (hticks : s.Ticks inherited (.plane a)) (htime : s.InTime ref (.plane a))
    (hst : (machine cfg).step s.plane (s.supply a) = some s'.plane) (hw : s'.watch = s.watch) :
    s'.Dated inherited ref := by
  obtain ⟨d, hd, hmove⟩ := (Filing.safe cfg).move hconf ((machine cfg).step_cases hst)
  have hcrash : d ≠ .crash := by
    rintro rfl
    simp only [Ticks, hd] at hticks
  have hnow := clock_le hticks hd hmove
  have hactions : ∀ e ∈ s'.plane.shared.closings ref, e.action = .stopped := by
    rcases closings_move ref hmove hcrash with hlog | ⟨event, hact, -, -, hlog⟩
    · exact fun e he => h.actions e (hlog ▸ he)
    · intro e he
      rw [show s'.plane.shared.closings ref = _ from hlog] at he
      rcases List.mem_append.mp he with he | he
      · exact h.actions e he
      · rwa [List.mem_singleton.mp he]
  rcases filings_move ref hmove hcrash with hsub | ⟨ts, rfl, hphase, happ⟩
  · have hsub : (s'.closed ref).Sublist (s.closed ref) := hsub
    exact {
      sorted := by simpa only [hw] using h.sorted
      clock := by simpa only [hw] using h.clock
      instant := by simpa only [hw] using h.instant
      stops := by simpa only [hw] using h.stops
      later := fun row hrow => ⟨by simpa only [hw] using (h.later row hrow).1,
        fun t ht => (h.later row hrow).2 t (hsub.subset ht)⟩
      closedSorted := h.closedSorted.sublist hsub
      closedClock := fun t ht => (h.closedClock t (hsub.subset ht)).trans hnow
      apart := fun t ht => by simpa only [hw] using h.apart t (hsub.subset ht)
      held := fun hh e he t ht => h.held (hw ▸ hh) e (hw ▸ he) t (hsub.subset ht)
      due := fun hh t ht => by simpa only [hw] using h.due (hw ▸ hh) t (hsub.subset ht)
      actions := hactions }
  · have happ : s'.closed ref = s.closed ref ++ [ts] := happ
    obtain ⟨hfree, hdue⟩ := htime _ hd hphase
    have hlater : s.Later inherited ts := by simpa only [Ticks, hd] using hticks
    obtain ⟨hwatch, hplane, hinh⟩ := hlater
    have hclock : s'.plane.shared.clock = ts := by
      generalize hv : s'.plane.view Filing.protocol Filing.start = v' at hmove
      have hv : s'.plane.shared = v'.shared := congrArg View.shared hv
      rw [hv]
      cases hmove with
      | exec _ _ _ tr shared ans hq hall _ hx =>
        cases hx
        rfl
    exact {
      sorted := by simpa only [hw] using h.sorted
      clock := by simpa only [hw] using h.clock
      instant := by simpa only [hw] using h.instant
      stops := by simpa only [hw] using h.stops
      later := by
        rw [hw, happ]
        refine fun row hrow => ⟨(h.later row hrow).1, fun t ht => ?_⟩
        rcases List.mem_append.mp ht with ht | ht
        · exact (h.later row hrow).2 t ht
        · rw [List.mem_singleton.mp ht]
          exact hinh row hrow
      closedSorted := by
        rw [happ, List.pairwise_append]
        refine ⟨h.closedSorted, List.pairwise_singleton _ _, fun t ht u hu => ?_⟩
        rw [List.mem_singleton.mp hu]
        exact (h.closedClock t ht).trans_lt hplane
      closedClock := by
        rw [happ, hclock]
        intro t ht
        rcases List.mem_append.mp ht with ht | ht
        · exact ((h.closedClock t ht).trans_lt hplane).le
        · rw [List.mem_singleton.mp ht]
      apart := by
        rw [hw, happ]
        intro t ht
        rcases List.mem_append.mp ht with ht | ht
        · exact h.apart t ht
        · rw [List.mem_singleton.mp ht]
          exact ⟨hwatch.ne', fun e he => ((h.clock e he).trans_lt hwatch).ne'⟩
      held := fun hh => absurd (hw ▸ hh) hfree
      due := fun hh => absurd (hw ▸ hh) hdue
      actions := hactions }

theorem dated_invariant {steps : List (JointStep Sel)}
    (h : Runs.Run (Joint.step cfg lib queueLimit) (fun s x => s.Ticks inherited x ∧
      s.InTime ref x) {} steps s) :
    s.Dated inherited ref ∧ s.watch.recorder.Alternates ref ∧
      (s.watch.recorder.Lossless → s.watch.recorder.Fifo) := by
  induction h with
  | nil =>
    exact ⟨.empty, ⟨0, rfl, by simp⟩, fun _ => rfl⟩
  | @snoc s s' _ x hrun hok hst ih =>
    obtain ⟨hdated, halt, hfifo⟩ := ih
    obtain ⟨as, hplane⟩ := plane_run hrun
    obtain ⟨a, rfl, -, hp, hw⟩ | ⟨rfl, hp, hw⟩ | ⟨w, rfl, hm, hp⟩ := step_cases hst
    · exact ⟨hdated.plane ((Filing.safe cfg).conforms_of_run hplane) hok.1 hok.2 hp hw, hw ▸ halt,
        hw ▸ hfifo⟩
    · exact hok.1.elim
    · refine ⟨hdated.watch halt hok.1 hok.2 hm hp, ?_⟩
      rcases hm.recorder_step with hsame | ⟨step, hstep⟩
      · exact ⟨hsame ▸ halt, hsame ▸ hfifo⟩
      · exact ⟨halt.step hstep, RecorderSystem.fifo_step hfifo hstep⟩

theorem Written.handed (h : s.Written) (hf : s.watch.recorder.Lossless → s.watch.recorder.Fifo) :
    s.watch.recorder.handed = s.watch.recorder.enqueued := by
  have hf := hf h.1
  unfold RecorderSystem.Fifo at hf
  split at hf
  · obtain ⟨before, rest, -, hp, -⟩ := hf
    rw [h.2] at hp
    cases hp
  · rw [hf.2, h.2, List.append_nil]
  · rw [hf, h.2, List.append_nil]

theorem rowsOf_scopeRows (hh : s.watch.recorder.handed = s.watch.recorder.enqueued) :
    rowsOf s.scopeRows ref = s.watch.edges ref ++ s.plane.shared.closings ref := by
  simp only [rowsOf, scopeRows, hh, List.filter_append, List.map_append]
  rw [List.filter_map, List.map_map]
  rfl

theorem Dated.closings (h : s.Dated inherited ref) :
    (s.plane.shared.closings ref).Pairwise (·.ts < ·.ts) ∧
    ∀ e ∈ s.plane.shared.closings ref, e.ts ∈ s.closed ref := by
  have hsub : ((s.plane.shared.closings ref).map ScopeEvent.ts).Sublist (s.closed ref) :=
    List.sublist_append_left ..
  exact ⟨List.pairwise_map.mp (h.closedSorted.sublist hsub),
    fun e he => hsub.subset (List.mem_map_of_mem he)⟩

theorem Dated.truthful (h : s.Dated inherited ref) (halt : s.watch.recorder.Alternates ref)
    (hi : Truthful (rowsOf inherited ref) False ∨
      s.watch.edges ref ++ s.plane.shared.closings ref ≠ []) :
    Truthful (rowsOf inherited ref ++ (s.watch.edges ref ++ s.plane.shared.closings ref))
      (s.watch.Holds ref) := by
  obtain ⟨hsorted, hmem⟩ := h.closings
  obtain ⟨hne, hlast⟩ := halt.last
  have hold (x : ScopeEvent) (hx : x ∈ rowsOf inherited ref) (y : ScopeEvent)
      (hy : y ∈ s.watch.edges ref ∨ y ∈ s.plane.shared.closings ref) : x.ts < y.ts := by
    obtain ⟨row, hrow, rfl⟩ := List.mem_map.mp hx
    have hrow := h.later row (List.mem_filter.mp hrow).1
    rcases hy with hy | hy
    · exact hrow.1 y hy
    · exact hrow.2 _ (hmem y hy)
  by_cases hown : s.watch.edges ref ++ s.plane.shared.closings ref = []
  · have hfree : ¬ s.watch.Holds ref := fun hh => hne hh (List.append_eq_nil_iff.mp hown).1
    rw [hown, List.append_nil, eq_false hfree]
    exact hi.resolve_right (absurd hown)
  · obtain ⟨before, row, after, hsplit, hlt, hrow⟩ := exists_latest h.sorted hsorted
      (fun x hx y hy => ((h.apart _ (hmem y hy)).2 x hx).symm) hown
    rw [hsplit, ← List.append_assoc]
    refine truthful_of_split (fun x hx => ?_) ?_
    · rw [List.append_assoc] at hx
      rcases List.mem_append.mp hx with hx | hx
      · refine hold x hx row ?_
        rw [← List.mem_append, hsplit]
        simp
      · exact hlt x hx
    · rcases hrow with hrow | hrow
      · exact hlast row hrow
      · -- a closing is the latest row, so nobody holds the scope
        refine iff_of_false (by simp [h.actions row hrow]) fun hh => ?_
        rcases List.eq_nil_or_concat (s.watch.edges ref) with hnil | ⟨pre, e, he⟩
        · exact hne hh hnil
        · rw [List.concat_eq_append] at he
          have hbefore := h.held hh e (by rw [he, List.getLast?_concat]; rfl) _ (hmem row hrow)
          have hafter : e = row ∨ e ∈ before ++ after := by
            have : e ∈ before ++ row :: after := by
              rw [← hsplit, he]
              simp
            simp only [List.mem_append, List.mem_cons] at this ⊢
            tauto
          rcases hafter with rfl | hafter
          · exact lt_irrefl _ hbefore
          · exact lt_asymm hbefore (hlt e hafter)

end Joint

theorem scope_log_truthful {cfg : Config} {inherited : List (String × ScopeEvent)}
    {steps : List (JointStep Sel)} {s : Joint Sel}
    (h : Runs.Run (Joint.step cfg lib queueLimit)
      (fun s x => s.Ticks inherited x ∧ s.InTime ref x) {} steps s)
    (hw : s.Written) (hi : Truthful (rowsOf inherited ref) False ∨ rowsOf s.scopeRows ref ≠ []) :
    Truthful (rowsOf (inherited ++ s.scopeRows) ref) (s.watch.Holds ref) := by
  obtain ⟨hdated, halt, hfifo⟩ := Joint.dated_invariant h
  have hsplit : rowsOf (inherited ++ s.scopeRows) ref = rowsOf inherited ref ++
    rowsOf s.scopeRows ref := by
    simp only [rowsOf, List.filter_append, List.map_append]
  rw [hsplit, Joint.rowsOf_scopeRows (hw.handed hfifo)]
  rw [Joint.rowsOf_scopeRows (hw.handed hfifo)] at hi
  exact hdated.truthful halt hi

instance (inherited : List (String × ScopeEvent)) (s : Joint Sel) (ts : Nat) :
    Decidable (s.Later inherited ts) :=
  inferInstanceAs (Decidable (_ ∧ _ ∧ _))

instance (inherited : List (String × ScopeEvent)) (s : Joint Sel) (x : JointStep Sel) :
    Decidable (s.Ticks inherited x) := by
  induction x using JointStep.casesOn with
  | plane a =>
    dsimp only [Joint.Ticks]
    generalize s.plane.deed (s.supply a) = d
    induction d using Option.casesOn with
    | none => exact instDecidableTrue
    | some d =>
      induction d using Threads.Action.casesOn with
      | exec _ p =>
        induction p using Prod.casesOn with | mk o i
        induction o using Op.casesOn with
        | now =>
          induction i using Input.casesOn with
          | time ts => exact inferInstanceAs (Decidable (s.Later inherited ts))
          | _ => exact instDecidableTrue
        | _ => exact instDecidableTrue
      | crash => exact instDecidableFalse
      | _ => exact instDecidableTrue
  | watch step =>
    induction step using WatchStep.casesOn with
    | stamp ts => exact inferInstanceAs (Decidable (s.Later inherited ts))
    | _ => exact instDecidableTrue

instance (s : Joint Sel) : Decidable s.Written := inferInstanceAs (Decidable ((_ ∧ _) ∧ _))

def Joint.Calm (ref : ScopeRef) (s : Joint Sel) : JointStep Sel → Prop
  | .plane _ => ¬ s.watch.Holds ref ∧ ¬ s.watch.phase.Due ref
  | .watch .scopeStarted => ∀ e ∈ s.watch.edges ref, ∀ next ∈ s.watch.phase.starts?, e.ts ≠ next.2
  | _ => True

instance (s : Joint Sel) (x : JointStep Sel) : Decidable (s.Calm ref x) := by
  induction x using JointStep.casesOn with
  | plane => exact inferInstanceAs (Decidable (¬ s.watch.Holds ref ∧ ¬ s.watch.phase.Due ref))
  | watch step =>
    induction step using WatchStep.casesOn with
    | scopeStarted =>
      exact inferInstanceAs (Decidable (∀ e ∈ s.watch.edges ref, ∀ next ∈ s.watch.phase.starts?,
        e.ts ≠ next.2))
    | _ => exact instDecidableTrue

theorem Joint.Calm.inTime {s : Joint Sel} {x : JointStep Sel} (h : s.Calm ref x) : s.InTime ref x := by
  cases x with
  | plane a => exact fun _ _ _ => h
  | watch step =>
    cases step with
    | scopeStarted => exact fun next hnext _ _ e he => h e he next hnext
    | _ => trivial

def flushSteps (n : Nat) : List (JointStep String) :=
  let steps : List (RecorderStep InformerKey) :=
    .tick :: (List.replicate n [.peek, .hand .taken, .pop]).flatten ++ [.peek]
  steps.map (.watch ∘ .flush)

def openScope (ref : ScopeRef) : List (String × ScopeEvent) :=
  [(ref.sink, { action := .started, scope := ref.scope, ts := 0 })]

def podRef : ScopeRef := (podTarget "v1").key.ref

theorem reopened_scope_truthful : ∃ s : Joint String, s.watch.Holds podRef ∧
    (rowsOf s.scopeRows podRef).length = 2 ∧
    Truthful (rowsOf (openScope podRef ++ s.scopeRows) podRef) (s.watch.Holds podRef) := by
  obtain ⟨s, hrun, hw, hh, hlen⟩ := Runs.Run.exists_of_exec (Joint.step sampleConfig sampleWatchLib 10)
    (fun s x => s.Ticks (openScope podRef) x ∧ s.Calm podRef x) {}
    (bootSteps podRef.scope 1 ++ [.plane (.exec (.boot "s") (.flag true))] ++
      [.watch (.snapshot [podTarget "v1"])] ++
      installSteps knowsPods 2 ++ serveSteps 1 ++ flushSteps 1)
    (fun s => s.Written ∧ s.watch.Holds podRef ∧ (rowsOf s.scopeRows podRef).length = 2) (by decide)
  refine ⟨s, hh, hlen, scope_log_truthful (hrun.mono fun _ _ h => ⟨h.1, h.2.inTime⟩) hw
    (.inr fun hnil => ?_)⟩
  rw [hnil] at hlen
  cases hlen

/--
Another version in the same pass; a closing dated after the pass that starts the scope; a scope left
open.
-/
theorem scope_log_untruthful :
    (∃ s : Joint String, Runs.Run (Joint.step sampleConfig sampleWatchLib 10) (Joint.Ticks []) {}
      ([.watch (.snapshot [podTarget "v1"])] ++ installSteps knowsPods 1 ++ serveSteps 1 ++
        [.watch (.snapshot [podTarget "v2"])] ++ installSteps knowsPods 2 ++
          [.watch .scopeStopped, .watch .evicted] ++
        [.watch .retain, .watch .halt, .watch .halt, .watch (.launch true), .watch (.serve .id),
          .watch .scopeStarted, .watch .finish] ++ flushSteps 3) s ∧
      s.Written ∧ ¬ Truthful (rowsOf s.scopeRows podRef) (s.watch.Holds podRef)) ∧
    (∃ s : Joint String, Runs.Run (Joint.step sampleConfig sampleWatchLib 10)
      (Joint.Ticks (openScope podRef)) {}
      ([.watch (.snapshot [podTarget "v1"]), .watch (.translate knowsPods), .watch (.stamp 1)] ++
        bootSteps podRef.scope 2 ++ [.plane (.exec (.boot "s") (.flag true))] ++
        [.watch (.replace .id)] ++ serveSteps 1 ++ flushSteps 1) s ∧
      s.Written ∧ ¬ Truthful (rowsOf (openScope podRef ++ s.scopeRows) podRef) (s.watch.Holds podRef)) ∧
    ∃ s : Joint String, Runs.Run (Joint.step sampleConfig sampleWatchLib 10)
        (Joint.Ticks (openScope podRef)) {} [] s ∧
      s.Written ∧ ¬ Truthful (rowsOf (openScope podRef ++ s.scopeRows) podRef) (s.watch.Holds podRef) :=
  ⟨Runs.Run.exists_of_exec _ _ _ _ _ (by decide), Runs.Run.exists_of_exec _ _ _ _ _ (by decide),
    Runs.Run.exists_of_exec _ _ _ _ _ (by decide)⟩

end Kuberecord
