import Kuberecord.Recorder
import Mathlib.Data.List.TakeWhile

namespace Kuberecord

def epochs (n : Nat) : List ScopeAction :=
  (List.range n).map fun i => if i % 2 = 0 then .started else .stopped

theorem epochs_succ (n : Nat) :
    epochs (n + 1) = epochs n ++ [if n % 2 = 0 then .started else .stopped] := by
  simp [epochs, List.range_succ]

def PendingScopeEvent.ref (p : PendingScopeEvent) : ScopeRef := ⟨p.sink, p.event.scope⟩

variable {T : Type} {queueLimit : Nat} {s s' : RecorderSystem T} {r : Recorder T} {scope : ScopeRef}

def RecorderSystem.edgesOf (s : RecorderSystem T) (ref : ScopeRef) : List ScopeAction :=
  (s.enqueued.filter (·.ref = ref)).map (·.event.action)

def RecorderSystem.Alternates (s : RecorderSystem T) (ref : ScopeRef) : Prop :=
  ∃ n, s.edgesOf ref = epochs n ∧ (n % 2 = 1 ↔ (s.recorder.active ref).Nonempty)

def RecorderSystem.Lossless (s : RecorderSystem T) : Prop := s.recorder.dropped = 0 ∧ s.reported = []

def RecorderSystem.Fifo (s : RecorderSystem T) : Prop :=
  match s.phase with
  | .accepted next => ∃ before rest, s.handed = before ++ [next] ∧ s.recorder.pending = next :: rest ∧
      s.enqueued = before ++ s.recorder.pending
  | .peeked next => s.recorder.pending.head? = some next ∧ s.enqueued = s.handed ++ s.recorder.pending
  | _ => s.enqueued = s.handed ++ s.recorder.pending

@[simp]
theorem ScopeTransition.pending_ref (transition : ScopeTransition T) (action : ScopeAction) :
    (transition.pending action).ref = transition.ref := rfl

theorem RecorderSystem.edgesOf_edge (s : RecorderSystem T) (event : PendingScopeEvent)
    (r : Recorder T) (queued : Bool) :
    (s.edge event (r, queued)).edgesOf scope =
      if queued = true ∧ event.ref = scope then s.edgesOf scope ++ [event.event.action]
      else s.edgesOf scope := by
  cases queued with
  | false => rfl
  | true => by_cases h : event.ref = scope <;> simp [edgesOf, edge, List.filter_append, h]

theorem RecorderSystem.Alternates.of_same (h : s.Alternates scope)
    (he : s'.edgesOf scope = s.edgesOf scope)
    (ha : (s'.recorder.active scope).Nonempty ↔ (s.recorder.active scope).Nonempty) :
    s'.Alternates scope := by
  obtain ⟨n, hn, hodd⟩ := h
  exact ⟨n, he.trans hn, hodd.trans ha.symm⟩

theorem Recorder.enqueueLocked_lossless {event : PendingScopeEvent}
    (h : (r.enqueueLocked queueLimit event).dropped = 0) :
    r.dropped = 0 ∧ (r.enqueueLocked queueLimit event).pending = r.pending ++ [event] := by
  simp only [enqueueLocked, Nat.add_eq_zero_iff] at h ⊢
  rw [h.2]
  exact ⟨h.1, rfl⟩

namespace RecorderSystem

theorem Fifo.edge {event : PendingScopeEvent} {result : Recorder T × Bool} (h : s.Fifo)
    (hq : result.1.pending = if result.2 then s.recorder.pending ++ [event] else s.recorder.pending) :
    (s.edge event result).Fifo := by
  obtain ⟨r, queued⟩ := result
  cases queued with
  | false =>
    have hp : r.pending = s.recorder.pending := hq
    simpa only [Fifo, RecorderSystem.edge, hp, Bool.false_eq_true, if_false] using h
  | true =>
    have hp : r.pending = s.recorder.pending ++ [event] := hq
    simp only [Fifo, RecorderSystem.edge, hp, if_true] at h ⊢
    split at h
    · obtain ⟨before, rest, hh, hn, he⟩ := h
      exact ⟨before, rest ++ [event], hh, by rw [hn, List.cons_append], by rw [he, List.append_assoc]⟩
    · obtain ⟨hn, he⟩ := h
      exact ⟨by rw [List.head?_append, hn]; rfl, by rw [he, List.append_assoc]⟩
    · rw [h, List.append_assoc]

theorem Fifo.handed_begins (h : s.Fifo) : s.handed <+: s.enqueued := by
  simp only [Fifo] at h
  split at h
  · obtain ⟨before, rest, hh, hp, he⟩ := h
    rw [hh, he, hp]
    exact ⟨rest, by simp⟩
  · exact ⟨_, h.2.symm⟩
  · exact ⟨_, h.symm⟩

def Flushed (s s' : RecorderSystem T) : Prop :=
  s'.enqueued = s.enqueued ∧ s'.recorder.active = s.recorder.active ∧
    (s'.Lossless → s.Lossless ∧ (s.Fifo → s'.Fifo))

theorem beginFlush_flushed (h : s.phase = .waiting) : s.Flushed s.beginFlush := by
  refine ⟨rfl, rfl, fun hl => ?_⟩
  have hd : s.recorder.dropped = 0 := by
    have hr := hl.2
    simp only [beginFlush] at hr
    split_ifs at hr with hd
    · simp at hr
    · omega
  refine ⟨⟨hd, by simpa [beginFlush, hd] using hl.2⟩, fun hf => ?_⟩
  simpa only [Fifo, h, beginFlush] using hf

theorem endFlush_flushed (hf : s.Fifo → s.enqueued = s.handed ++ s.recorder.pending) :
    s.Flushed s.endFlush := by
  refine ⟨rfl, rfl, fun hl => ⟨hl, fun h => ?_⟩⟩
  have := hf h
  simp only [Fifo, endFlush]
  split_ifs <;> exact this

end RecorderSystem

variable [DecidableEq T]

namespace Recorder

theorem scopeStarted_cases (queueLimit : Nat) (r : Recorder T) (transition : ScopeTransition T) :
    r.active transition.ref = ∅ ∧ r.scopeStarted queueLimit transition =
        (((r.hold transition.ref {transition.target}).enqueueLocked queueLimit
            (transition.pending .started)).signal,
          true) ∨
      (r.active transition.ref).Nonempty ∧ r.scopeStarted queueLimit transition =
        (r.hold transition.ref (insert transition.target (r.active transition.ref)), false) := by
  unfold scopeStarted
  rcases (r.active transition.ref).eq_empty_or_nonempty with he | hne
  · exact .inl ⟨he, by simp [he]⟩
  · refine .inr ⟨hne, if_neg fun ⟨hn, hc⟩ => ?_⟩
    rw [Finset.card_insert_of_notMem hn] at hc
    have := Finset.card_pos.mpr hne
    omega

theorem scopeStopped_cases (queueLimit : Nat) (r : Recorder T) (transition : ScopeTransition T) :
    r.active transition.ref = {transition.target} ∧ r.scopeStopped queueLimit transition =
        (((r.hold transition.ref ∅).enqueueLocked queueLimit (transition.pending .stopped)).signal,
            true) ∨
      ∃ targets : Finset T, (targets.Nonempty ↔ (r.active transition.ref).Nonempty) ∧
        r.scopeStopped queueLimit transition = (r.hold transition.ref targets, false) := by
  unfold scopeStopped
  by_cases hm : transition.target ∈ r.active transition.ref
  · rw [if_pos hm]
    by_cases hc : ((r.active transition.ref).erase transition.target).card = 0
    · have he := Finset.card_eq_zero.mp hc
      refine .inl ⟨?_, ?_⟩
      · rw [← Finset.insert_erase hm, he]
        rfl
      · simp [he]
    · refine .inr ⟨(r.active transition.ref).erase transition.target, ?_, if_neg hc⟩
      exact ⟨fun _ => ⟨_, hm⟩, fun _ => Finset.card_pos.mp (Nat.pos_of_ne_zero hc)⟩
  · refine .inr ⟨r.active transition.ref, .rfl, ?_⟩
    rw [if_neg hm, hold, Function.update_eq_self]

end Recorder

theorem RecorderSystem.Alternates.started (h : s.Alternates scope) (transition : ScopeTransition T) :
    (s.edge (transition.pending .started)
      (s.recorder.scopeStarted queueLimit transition)).Alternates scope := by
  rcases Recorder.scopeStarted_cases queueLimit s.recorder transition with ⟨he, hr⟩ | ⟨hne, hr⟩
  · rw [hr]
    by_cases hs : transition.ref = scope
    · subst hs
      obtain ⟨n, hn, hodd⟩ := h
      have heven : n % 2 = 0 := by
        have : ¬ n % 2 = 1 := fun ho => by simpa [he] using hodd.mp ho
        omega
      refine ⟨n + 1, ?_, ?_⟩
      · rw [edgesOf_edge, if_pos ⟨rfl, rfl⟩, hn, epochs_succ, if_pos heven]
        rfl
      · have : (n + 1) % 2 = 1 := by omega
        simp [this, edge, Recorder.signal, Recorder.enqueueLocked, Recorder.hold]
    · refine h.of_same ?_ ?_
      · rw [edgesOf_edge, if_neg fun hc => hs hc.2]
      · simp [edge, Recorder.signal, Recorder.enqueueLocked, Recorder.hold,
          Function.update_of_ne (Ne.symm hs)]
  · rw [hr]
    refine h.of_same ?_ ?_
    · rw [edgesOf_edge, if_neg fun hc => Bool.false_ne_true hc.1]
    · by_cases hs : scope = transition.ref
      · subst hs
        simp [edge, Recorder.hold, hne]
      · simp [edge, Recorder.hold, Function.update_of_ne hs]

theorem RecorderSystem.Alternates.stopped (h : s.Alternates scope) (transition : ScopeTransition T) :
    (s.edge (transition.pending .stopped)
      (s.recorder.scopeStopped queueLimit transition)).Alternates scope := by
  rcases Recorder.scopeStopped_cases queueLimit s.recorder transition with ⟨he, hr⟩ | ⟨targets, hne, hr⟩
  · rw [hr]
    by_cases hs : transition.ref = scope
    · subst hs
      obtain ⟨n, hn, hodd⟩ := h
      have hone : n % 2 = 1 := hodd.mpr (he ▸ Finset.singleton_nonempty _)
      refine ⟨n + 1, ?_, ?_⟩
      · rw [edgesOf_edge, if_pos ⟨rfl, rfl⟩, hn, epochs_succ, if_neg (by omega)]
        rfl
      · have : ¬ (n + 1) % 2 = 1 := by omega
        simp [this, edge, Recorder.signal, Recorder.enqueueLocked, Recorder.hold]
    · refine h.of_same ?_ ?_
      · rw [edgesOf_edge, if_neg fun hc => hs hc.2]
      · simp [edge, Recorder.signal, Recorder.enqueueLocked, Recorder.hold,
          Function.update_of_ne (Ne.symm hs)]
  · rw [hr]
    refine h.of_same ?_ ?_
    · rw [edgesOf_edge, if_neg fun hc => Bool.false_ne_true hc.1]
    · by_cases hs : scope = transition.ref
      · subst hs
        simpa [edge, Recorder.hold] using hne
      · simp [edge, Recorder.hold, Function.update_of_ne hs]

def Recorder.Queues (r r' : Recorder T) (event : PendingScopeEvent) (queued : Bool) : Prop :=
  r'.dropped = 0 → r.dropped = 0 ∧ r'.pending = if queued then r.pending ++ [event] else r.pending

theorem Recorder.scopeStarted_queues (transition : ScopeTransition T) :
    r.Queues (r.scopeStarted queueLimit transition).1 (transition.pending .started)
      (r.scopeStarted queueLimit transition).2 := by
  intro h
  rcases Recorder.scopeStarted_cases queueLimit r transition with ⟨-, hr⟩ | ⟨-, hr⟩
  · rw [hr] at h ⊢
    exact enqueueLocked_lossless h
  · rw [hr] at h ⊢
    exact ⟨h, rfl⟩

theorem Recorder.scopeStopped_queues (transition : ScopeTransition T) :
    r.Queues (r.scopeStopped queueLimit transition).1 (transition.pending .stopped)
      (r.scopeStopped queueLimit transition).2 := by
  intro h
  rcases Recorder.scopeStopped_cases queueLimit r transition with ⟨-, hr⟩ | ⟨_, -, hr⟩
  · rw [hr] at h ⊢
    exact enqueueLocked_lossless h
  · rw [hr] at h ⊢
    exact ⟨h, rfl⟩

namespace RecorderSystem

theorem step_cases {a : RecorderStep T} (h : s.step queueLimit a = some s') :
    (∃ transition, a = .started transition ∧
        s' = s.edge (transition.pending .started) (s.recorder.scopeStarted queueLimit transition)) ∨
      (∃ transition, a = .stopped transition ∧
        s' = s.edge (transition.pending .stopped) (s.recorder.scopeStopped queueLimit transition)) ∨
      s.Flushed s' := by
  cases a with
  | started transition => exact .inl ⟨transition, rfl, (Option.some.inj h).symm⟩
  | stopped transition => exact .inr (.inl ⟨transition, rfl, (Option.some.inj h).symm⟩)
  | woken =>
    simp only [step, Option.ite_none_right_eq_some, Option.some.injEq] at h
    obtain ⟨⟨hw, -⟩, rfl⟩ := h
    exact .inr (.inr (beginFlush_flushed
      (s := { s with recorder := { s.recorder with wake := false } }) hw))
  | tick =>
    simp only [step, Option.ite_none_right_eq_some, Option.some.injEq] at h
    obtain ⟨hw, rfl⟩ := h
    exact .inr (.inr (beginFlush_flushed hw))
  | cancel =>
    simp only [step, Option.ite_none_right_eq_some] at h
    obtain ⟨hw, h⟩ := h
    refine .inr (.inr ?_)
    split_ifs at h
    · cases h
      refine ⟨rfl, rfl, fun hl => ⟨hl, fun hf => ?_⟩⟩
      simpa only [Fifo, hw] using hf
    · cases h
      exact beginFlush_flushed (s := { s with draining := true }) hw
  | peek =>
    simp only [step, Option.ite_none_right_eq_some] at h
    obtain ⟨hw, h⟩ := h
    refine .inr (.inr ?_)
    split at h
    · cases h
      exact endFlush_flushed fun hf => by simpa only [Fifo, hw] using hf
    · next next rest hp =>
      cases h
      refine ⟨rfl, rfl, fun hl => ⟨hl, fun hf => ?_⟩⟩
      simp only [Fifo, hw] at hf ⊢
      exact ⟨by rw [hp]; rfl, hf⟩
  | hand outcome =>
    refine .inr (.inr ?_)
    cases hw : s.phase with
    | peeked next =>
      cases outcome with
      | taken =>
        simp only [step, hw, Option.some.injEq] at h
        subst h
        refine ⟨rfl, rfl, fun hl => ⟨hl, fun hf => ?_⟩⟩
        simp only [Fifo, hw] at hf ⊢
        obtain ⟨rest, hr⟩ := List.head?_eq_some_iff.mp hf.1
        exact ⟨s.handed, rest, rfl, hr, hf.2⟩
      | noWriter | refused =>
        simp only [step, hw, Option.some.injEq] at h
        subst h
        refine endFlush_flushed fun hf => ?_
        simp only [Fifo, hw] at hf
        exact hf.2
    | _ => simp [step, hw] at h
  | pop =>
    simp only [step] at h
    refine .inr (.inr ?_)
    split at h
    · next next hw =>
      cases h
      refine ⟨rfl, rfl, fun hl => ⟨hl, fun hf => ?_⟩⟩
      simp only [Fifo, hw] at hf ⊢
      obtain ⟨before, rest, hh, hp, he⟩ := hf
      simp [hp, hh, he]
    · cases h

theorem Alternates.step {a : RecorderStep T} (hi : s.Alternates scope)
    (h : s.step queueLimit a = some s') :
    s'.Alternates scope := by
  rcases step_cases h with ⟨transition, -, rfl⟩ | ⟨transition, -, rfl⟩ | ⟨he, ha, -⟩
  · exact hi.started transition
  · exact hi.stopped transition
  · exact hi.of_same (by rw [edgesOf, he, edgesOf]) (by rw [ha])

theorem fifo_step {a : RecorderStep T} (hi : s.Lossless → s.Fifo) (h : s.step queueLimit a = some s')
    (hl : s'.Lossless) : s'.Fifo := by
  rcases step_cases h with ⟨transition, -, rfl⟩ | ⟨transition, -, rfl⟩ | ⟨-, -, hf⟩
  · obtain ⟨hd, hq⟩ := Recorder.scopeStarted_queues transition hl.1
    exact (hi ⟨hd, hl.2⟩).edge hq
  · obtain ⟨hd, hq⟩ := Recorder.scopeStopped_queues transition hl.1
    exact (hi ⟨hd, hl.2⟩).edge hq
  · exact (hf hl).2 (hi (hf hl).1)

end RecorderSystem

theorem scope_epochs_alternate {as : List (RecorderStep T)} {s : RecorderSystem T}
    (h : Runs.Run (RecorderSystem.step queueLimit) (fun _ _ => True) {} as s) :
    (∀ scope, ∃ n, s.edgesOf scope = epochs n ∧ (n % 2 = 1 ↔ (s.recorder.active scope).Nonempty)) ∧
      (s.Lossless → s.handed <+: s.enqueued) := by
  refine ⟨fun scope => ?_, fun hl => ?_⟩
  · exact h.invariant (I := fun s : RecorderSystem T => s.Alternates scope) (fun _ _ _ hi _ => hi.step)
      ⟨0, rfl, by simp⟩
  · exact (h.invariant (I := fun s : RecorderSystem T => s.Lossless →
      s.Fifo) (fun _ _ _ hi _ hs => RecorderSystem.fifo_step hi hs)
      (fun _ => rfl) hl).handed_begins

def podScope (sink : String) : ScopeRef := ⟨sink, ⟨coreGroup, podKind, namespaceA⟩⟩

def edgeAt (sink target : String) (instant : Nat) : ScopeTransition String :=
  { ref := podScope sink, target := target, instant := instant }

theorem failed_flush_keeps_order : ∃ s : RecorderSystem String,
    s.handed.length = 2 ∧ s.recorder.pending.length = 1 ∧
      s.handed <+: s.enqueued ∧ ∃ n, s.edgesOf (podScope "s") = epochs n := by
  obtain ⟨s, hrun, hlen, hpend, hlossless⟩ :=
    Runs.Run.exists_of_exec (RecorderSystem.step 10) (fun _ _ => True) {}
    [.started (edgeAt "s" "v1" 1), .started (edgeAt "s" "v2" 1), .stopped (edgeAt "s" "v3" 2),
    .woken, .peek,
      .hand .refused, .stopped (edgeAt "s" "v1" 3), .stopped (edgeAt "s" "v2" 3), .tick, .peek,
      .hand .taken, .pop,
      .started (edgeAt "s" "v1" 4), .peek, .hand .taken, .pop]
    (fun s : RecorderSystem String => s.handed.length = 2 ∧ s.recorder.pending.length = 1 ∧
      s.recorder.dropped = 0 ∧ s.reported = []) (by decide)
  obtain ⟨hedges, hfifo⟩ := scope_epochs_alternate hrun
  obtain ⟨n, hn, -⟩ := hedges (podScope "s")
  exact ⟨s, hlen, hpend, hfifo hlossless, n, hn⟩

def RecorderSystem.flushStep (live : String → Bool) (s : RecorderSystem T) : Option (RecorderStep T) :=
  match s.phase with
  | .flushing => some .peek
  | .peeked next => some (.hand (if live next.sink then .taken else .noWriter))
  | .accepted _ => some .pop
  | _ => none

def RecorderSystem.flush (queueLimit : Nat) (live : String → Bool) : Nat → RecorderSystem T →
    RecorderSystem T
  | 0, s => s
  | n + 1, s =>
    match (s.flushStep live).bind (s.step queueLimit) with
    | some s => flush queueLimit live n s
    | none => s

def RecorderSystem.drained (live : String → Bool) (s : RecorderSystem T) : RecorderSystem T :=
  { s with
    recorder := { s.recorder with pending := s.recorder.pending.dropWhile fun p => live p.sink }
    handed := s.handed ++ s.recorder.pending.takeWhile fun p => live p.sink }

theorem RecorderSystem.flush_succ {live : String → Bool} {n : Nat} {a : RecorderStep T}
    (ha : s.flushStep live = some a) (hs : s.step queueLimit a = some s') :
    s.flush queueLimit live (n + 1) = s'.flush queueLimit live n := by
  simp only [flush, ha, Option.bind_some, hs]

theorem RecorderSystem.flush_endFlush {live : String → Bool} (n : Nat) (s : RecorderSystem T) :
    s.endFlush.flush queueLimit live n = s.endFlush := by
  cases n with
  | zero => rfl
  | succ n =>
    have : s.endFlush.flushStep live = none :=
      by cases hd : s.draining <;> simp [flushStep, endFlush, hd]
    simp only [flush, this, Option.bind_none]

theorem RecorderSystem.flush_eq {live : String → Bool} {n : Nat}
    (hn : 3 * s.recorder.pending.length + 2 ≤ n) (hw : s.phase = .flushing) :
    s.flush queueLimit live n = (s.drained live).endFlush := by
  obtain ⟨⟨active, pending, dropped, wake⟩, phase, draining, reported, enqueued, handed⟩ := s
  subst hw
  induction pending generalizing n handed with
  | nil =>
    obtain ⟨m, rfl⟩ : ∃ m, n = m + 1 := ⟨n - 1, by simp only [List.length_nil] at hn; omega⟩
    refine (flush_succ (a := .peek) rfl rfl).trans ((flush_endFlush m _).trans ?_)
    simp [drained]
  | cons next pending ih =>
    obtain ⟨m, rfl⟩ : ∃ m, n = m + 3 := ⟨n - 3, by simp only [List.length_cons] at hn; omega⟩
    refine (flush_succ (a := .peek) rfl rfl).trans ?_
    cases hl : live next.sink with
    | false =>
      refine (flush_succ (a := .hand .noWriter) (by simp [flushStep, hl]) rfl).trans
        ((flush_endFlush _ _).trans ?_)
      simp [drained, hl, endFlush]
    | true =>
      refine (flush_succ (a := .hand .taken) (by simp [flushStep, hl]) rfl).trans ?_
      refine (flush_succ (a := .pop) rfl rfl).trans ?_
      simp only [List.head?_cons, List.tail_cons, if_true]
      rw [ih]
      · simp [drained, hl]
      · simp only [List.length_cons] at hn ⊢
        omega

theorem takeWhile_eq_filter {α : Type*} {p : α → Bool} {l : List α}
    (h : l.Pairwise fun a b => p b → p a) :
    l.takeWhile p = l.filter p ∧ l.dropWhile p = l.filter fun a => !p a := by
  induction h with
  | nil => exact ⟨rfl, rfl⟩
  | @cons a l ha _ ih =>
    cases hp : p a with
    | true => simp [hp, ih]
    | false =>
      have hnone (b) (hb : b ∈ l) : p b = false := by
        cases hb' : p b with
        | false => rfl
        | true => exact absurd (ha b hb hb') (by simp [hp])
      have hl : l.filter p = [] := List.filter_eq_nil_iff.mpr fun b hb => by simp [hnone b hb]
      have hl' : (l.filter fun a => !p a) = l := List.filter_eq_self.mpr fun b hb => by simp [hnone b hb]
      simp [hp, hl, hl']

theorem dropWhile_spares_iff {α : Type*} {p : α → Bool} {l : List α} :
    (∀ a ∈ l.dropWhile p, p a = false) ↔ l.Pairwise fun a b => p b → p a := by
  constructor
  · intro h
    rw [← List.takeWhile_append_dropWhile (p := p) (l := l), List.pairwise_append]
    refine ⟨List.pairwise_of_forall_mem_list fun a ha _ _ _ => List.mem_takeWhile_imp ha, ?_,
      fun a ha _ _ _ => List.mem_takeWhile_imp ha⟩
    exact List.pairwise_of_forall_mem_list fun _ _ b hb hp => absurd hp (by simp [h b hb])
  · intro h a ha
    rw [(takeWhile_eq_filter h).2, List.mem_filter] at ha
    simpa using ha.2

/--
A flush hands over a prefix of its queue, and it reaches every live sink's events if no dead sink's
stands before one.
-/
theorem flush_serves_live_sinks (queueLimit : Nat) (live : String → Bool) {n : Nat}
    (hn : 3 * s.recorder.pending.length + 2 ≤ n) (hw : s.phase = .flushing) :
    (s.flush queueLimit live n).phase = (if s.draining then .done else .waiting) ∧
      (∃ served, (s.flush queueLimit live n).handed = s.handed ++ served ∧
        served ++ (s.flush queueLimit live n).recorder.pending = s.recorder.pending) ∧
      ((∀ p ∈ (s.flush queueLimit live n).recorder.pending, live p.sink = false) ↔
        s.recorder.pending.Pairwise fun a b => live b.sink → live a.sink) ∧
      ((s.recorder.pending.Pairwise fun a b => live b.sink → live a.sink) →
        (s.flush queueLimit live n).handed =
          s.handed ++ s.recorder.pending.filter fun p => live p.sink) := by
  rw [RecorderSystem.flush_eq hn hw]
  refine ⟨rfl, ⟨_, rfl, List.takeWhile_append_dropWhile⟩, dropWhile_spares_iff, fun hq => ?_⟩
  rw [← (takeWhile_eq_filter (p := fun p : PendingScopeEvent => live p.sink) hq).1]
  rfl

def queuedFor (sinks : List String) : RecorderSystem String :=
  { recorder := { pending := sinks.map fun sink => (edgeAt sink "v1" 1).pending .started },
    phase := .flushing }

theorem dead_sink_last_delivers : ((queuedFor ["a", "b", "c"]).flush 10 (· ≠ "c") 11).phase = .waiting ∧
    ((queuedFor ["a", "b", "c"]).flush 10 (· ≠ "c") 11).handed =
      (queuedFor ["a", "b", "c"]).recorder.pending.filter fun p => p.sink ≠ "c" := by
  obtain ⟨hw, -, -, hh⟩ :=
    flush_serves_live_sinks (s := queuedFor ["a", "b", "c"]) 10 (· ≠ "c") (n := 11) (by decide) rfl
  exact ⟨hw, hh (by decide)⟩

/-- The queue's first event belongs to a sink without a writer: everybody else's stay queued. -/
theorem dead_sink_first_silences : ∃ p ∈ ((queuedFor ["c", "a"]).flush 10 (· ≠ "c") 8).recorder.pending,
    ((queuedFor ["c", "a"]).flush 10 (· ≠ "c") 8).phase = .waiting ∧ p.sink ≠ "c" := by
  exact ⟨(edgeAt "a" "v1" 1).pending .started, by decide, by decide, by decide⟩

end Kuberecord
