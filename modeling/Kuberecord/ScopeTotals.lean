import Kuberecord.ScopeEpochs
import Kuberecord.ScopeWriter
import Mathlib.Algebra.Order.Group.Multiset
import Mathlib.Tactic.Abel

/-!
Where the scope events are: the two queues on their way to a sink may overflow,
and every event that is in neither queue and was not delivered is counted as dropped.
-/

namespace Kuberecord

variable {T : Type} {queueLimit : Nat} {s : RecorderSystem T} {lost twice : Multiset PendingScopeEvent}

def FlushPhase.taken : FlushPhase → Multiset PendingScopeEvent
  | .accepted next => {next}
  | _ => 0

def FlushPhase.next? : FlushPhase → Option PendingScopeEvent
  | .accepted next | .peeked next => some next
  | _ => none

/-- `lost` are the events cut off the queue, `twice` those among them a sink took nevertheless:
an edge may overflow the queue while its head is being handed over. -/
structure RecorderSystem.Accounts (queueLimit : Nat) (s : RecorderSystem T)
    (lost twice : Multiset PendingScopeEvent) :
    Prop where
  counted : lost.card = s.recorder.dropped + s.reported.sum
  doubled : twice ≤ lost
  places : (s.enqueued : Multiset PendingScopeEvent) + twice + s.phase.taken =
    s.handed + s.recorder.pending + lost
  standing : ∀ next ∈ s.phase.next?, s.recorder.pending.head? = some next ∨ next ::ₘ twice ≤ lost
  bounded : s.recorder.pending.length ≤ queueLimit

namespace RecorderSystem

theorem Accounts.enqueued {r : Recorder T} {event : PendingScopeEvent}
    (h : s.Accounts queueLimit lost twice) (hp : r.pending = s.recorder.pending)
    (hd : r.dropped = s.recorder.dropped) :
    ∃ lost' twice', (s.edge event ((r.enqueueLocked queueLimit event).signal, true)).Accounts
      queueLimit lost' twice' := by
  set pending := s.recorder.pending ++ [event] with hpending
  set overflow := pending.length - queueLimit with hover
  have hcut : (pending.take overflow : Multiset PendingScopeEvent) + pending.drop overflow =
    pending := by
    rw [Multiset.coe_add, List.take_append_drop]
  refine ⟨lost + pending.take overflow, twice, ?_, ?_, ?_, ?_, ?_⟩
  · have hlen : (pending.take overflow).length = overflow := by
      rw [List.length_take]
      omega
    simp only [edge, Recorder.signal, Recorder.enqueueLocked, hp, hd, Multiset.card_add,
      Multiset.coe_card, hlen, h.counted, ← hpending, ← hover]
    omega
  · exact h.doubled.trans (Multiset.le_add_right _ _)
  · have hadd : ((s.enqueued ++ [event] : List PendingScopeEvent) : Multiset PendingScopeEvent)
        = s.enqueued + {event} := (Multiset.coe_add _ _).symm
    have hpend : (pending : Multiset PendingScopeEvent) = s.recorder.pending + {event} :=
      (Multiset.coe_add _ _).symm
    simp only [edge, Recorder.signal, Recorder.enqueueLocked, hp, ← hpending, ← hover, if_true, hadd]
    calc (s.enqueued : Multiset PendingScopeEvent) + {event} + twice + s.phase.taken
        = s.enqueued + twice + s.phase.taken + {event} := by abel
      _ = s.handed + (s.recorder.pending + {event}) + lost := by
        rw [h.places]
        abel
      _ = s.handed + pending.drop overflow + (lost + pending.take overflow) := by
        rw [← hpend, ← hcut]
        abel
  · intro next hnext
    simp only [edge, Recorder.signal, Recorder.enqueueLocked, hp, ← hpending, ← hover]
    rcases h.standing next hnext with hhead | hlost
    · obtain ⟨rest, hrest⟩ := List.head?_eq_some_iff.mp hhead
      -- the head is kept, or it is the first event the cut takes
      cases hk : overflow with
      | zero => exact .inl (by simp [hpending, hrest])
      | succ k =>
        refine .inr ?_
        rw [add_comm lost]
        have htake : (pending.take (k + 1) : Multiset PendingScopeEvent) =
          next ::ₘ ((rest ++ [event]).take k : List _) := by
          rw [hpending, hrest]
          rfl
        rw [htake, Multiset.cons_add]
        exact Multiset.cons_le_cons _ (h.doubled.trans (Multiset.le_add_left _ _))
    · exact .inr (hlost.trans (Multiset.le_add_right _ _))
  · simp only [edge, Recorder.signal, Recorder.enqueueLocked, hp, List.length_drop]
    omega

theorem Accounts.unqueued {r : Recorder T} {event : PendingScopeEvent}
    (h : s.Accounts queueLimit lost twice) (hp : r.pending = s.recorder.pending)
    (hd : r.dropped = s.recorder.dropped) :
    (s.edge event (r, false)).Accounts queueLimit lost twice where
  counted := by simpa only [edge, hd] using h.counted
  doubled := h.doubled
  places := by simpa only [edge, hp, Bool.false_eq_true, if_false] using h.places
  standing := by simpa only [edge, hp] using h.standing
  bounded := by simpa only [edge, hp] using h.bounded

theorem Accounts.beginFlush (h : s.Accounts queueLimit lost twice) (hw : s.phase = .waiting) :
    s.beginFlush.Accounts queueLimit lost twice where
  counted := by
    rw [h.counted]
    simp only [RecorderSystem.beginFlush]
    split_ifs with hd
    · simp only [List.sum_append, List.sum_singleton]
      omega
    · omega
  doubled := h.doubled
  places := by
    have hplaces := h.places
    rw [hw] at hplaces
    exact hplaces
  standing := nofun
  bounded := h.bounded

theorem Accounts.idle {phase : FlushPhase} (h : s.Accounts queueLimit lost twice)
    (ht : s.phase.taken = 0) (ht' : phase.taken = 0) (hn : phase.next? = none) :
    { s with phase := phase }.Accounts queueLimit lost twice where
  counted := h.counted
  doubled := h.doubled
  places := by
    have := h.places
    rw [ht] at this
    rw [ht']
    exact this
  standing := by simp [hn]
  bounded := h.bounded

theorem Accounts.endFlush (h : s.Accounts queueLimit lost twice) (ht : s.phase.taken = 0) :
    s.endFlush.Accounts queueLimit lost twice := by
  apply h.idle ht
  · split_ifs <;> rfl
  · split_ifs <;> rfl

theorem Accounts.pop {next : PendingScopeEvent} (h : s.Accounts queueLimit lost twice)
    (hp : s.phase = .accepted next) :
    ∃ twice', { s with
      recorder := { s.recorder with
        pending := if s.recorder.pending.head? = some next then s.recorder.pending.tail else
          s.recorder.pending }
      phase := .flushing }.Accounts queueLimit lost twice' := by
  have hplaces := h.places
  rw [hp] at hplaces
  by_cases hhead : s.recorder.pending.head? = some next
  · obtain ⟨rest, hrest⟩ := List.head?_eq_some_iff.mp hhead
    refine ⟨twice, h.counted, h.doubled, ?_, nofun, ?_⟩
    · have hcons : (s.recorder.pending : Multiset PendingScopeEvent) = (rest : Multiset _) + {next} := by
        rw [hrest, ← Multiset.cons_coe, ← Multiset.singleton_add, add_comm]
      rw [hcons] at hplaces
      apply add_right_cancel (b := {next})
      simp only [if_pos hhead, FlushPhase.taken, add_zero] at hplaces ⊢
      rw [hplaces, hrest, List.tail_cons]
      abel
    · have hlen := h.bounded
      simp only [if_pos hhead, List.length_tail]
      omega
  · -- the event a sink took was cut off in the meantime
    have hlost : next ::ₘ twice ≤ lost := (h.standing next (by rw [hp]; rfl)).resolve_left hhead
    refine ⟨next ::ₘ twice, h.counted, hlost, ?_, nofun, ?_⟩
    · simp only [if_neg hhead, FlushPhase.taken, add_zero] at hplaces ⊢
      rw [← hplaces, ← Multiset.singleton_add]
      abel
    · simpa only [if_neg hhead] using h.bounded

theorem Accounts.enqueued_le (h : s.Accounts queueLimit lost twice) :
    (s.enqueued : Multiset PendingScopeEvent) ≤ s.handed + s.recorder.pending + lost := by
  rw [← h.places, add_assoc]
  exact Multiset.le_add_right _ _

theorem Accounts.handed_le (h : s.Accounts queueLimit lost twice) :
    (s.handed : Multiset PendingScopeEvent) ≤ s.enqueued := by
  -- what is both taken and lost is taken off both sides
  have htwice : s.phase.taken + twice ≤ s.recorder.pending + lost := by
    cases hp : s.phase with
    | accepted next =>
      rcases h.standing next (by rw [hp]; rfl) with hhead | hlost
      · obtain ⟨rest, hrest⟩ := List.head?_eq_some_iff.mp hhead
        have hmem : ({next} : Multiset PendingScopeEvent) ≤ s.recorder.pending :=
          Multiset.singleton_le.mpr (by simp [hrest])
        exact add_le_add hmem h.doubled
      · exact hlost.trans (Multiset.le_add_left _ _)
    | waiting | flushing | peeked | done =>
      simp only [FlushPhase.taken, zero_add]
      exact h.doubled.trans (Multiset.le_add_left _ _)
  have hplaces := h.places
  rw [add_assoc, add_assoc, add_comm twice] at hplaces
  apply le_of_add_le_add_right (a := s.phase.taken + twice)
  rw [hplaces]
  exact add_le_add_right htwice _

variable [DecidableEq T] {s' : RecorderSystem T}

theorem Accounts.step {a : RecorderStep T} (h : s.Accounts queueLimit lost twice)
    (hs : s.step queueLimit a = some s') :
    ∃ lost' twice', s'.Accounts queueLimit lost' twice' := by
  cases a with
  | started transition =>
    cases hs
    rcases Recorder.scopeStarted_cases queueLimit s.recorder transition with ⟨-, hr⟩ | ⟨-, hr⟩
    · rw [hr]
      exact h.enqueued rfl rfl
    · rw [hr]
      exact ⟨lost, twice, h.unqueued rfl rfl⟩
  | stopped transition =>
    cases hs
    rcases Recorder.scopeStopped_cases queueLimit s.recorder transition with ⟨-, hr⟩ | ⟨_, -, hr⟩
    · rw [hr]
      exact h.enqueued rfl rfl
    · rw [hr]
      exact ⟨lost, twice, h.unqueued rfl rfl⟩
  | woken =>
    simp only [RecorderSystem.step, Option.ite_none_right_eq_some, Option.some.injEq] at hs
    obtain ⟨⟨hw, -⟩, rfl⟩ := hs
    have h' : { s with recorder := { s.recorder with wake := false } }.Accounts queueLimit lost
      twice := ⟨h.1, h.2, h.3, h.4, h.5⟩
    exact ⟨lost, twice, h'.beginFlush hw⟩
  | tick =>
    simp only [RecorderSystem.step, Option.ite_none_right_eq_some, Option.some.injEq] at hs
    obtain ⟨hw, rfl⟩ := hs
    exact ⟨lost, twice, h.beginFlush hw⟩
  | cancel =>
    simp only [RecorderSystem.step, Option.ite_none_right_eq_some] at hs
    obtain ⟨hw, hs⟩ := hs
    split_ifs at hs
    · cases hs
      exact ⟨lost, twice, h.idle (by rw [hw]; rfl) rfl rfl⟩
    · cases hs
      have h' : { s with draining := true }.Accounts queueLimit lost twice := ⟨h.1, h.2, h.3, h.4, h.5⟩
      exact ⟨lost, twice, h'.beginFlush hw⟩
  | peek =>
    simp only [RecorderSystem.step, Option.ite_none_right_eq_some] at hs
    obtain ⟨hw, hs⟩ := hs
    split at hs
    · cases hs
      exact ⟨lost, twice, h.endFlush (by rw [hw]; rfl)⟩
    · next next rest hp =>
      cases hs
      refine ⟨lost, twice, h.counted, h.doubled, ?_, ?_, h.bounded⟩
      · have hplaces := h.places
        rw [hw] at hplaces
        exact hplaces
      · intro event hevent
        cases hevent
        exact .inl (by rw [hp]; rfl)
  | hand outcome =>
    cases hw : s.phase with
    | peeked next =>
      cases outcome with
      | taken =>
        simp only [RecorderSystem.step, hw, Option.some.injEq] at hs
        subst hs
        refine ⟨lost, twice, h.counted, h.doubled, ?_, ?_, h.bounded⟩
        · have hplaces := h.places
          rw [hw] at hplaces
          simp only [FlushPhase.taken, add_zero] at hplaces ⊢
          rw [hplaces, ← Multiset.coe_add, Multiset.coe_singleton]
          abel
        · have hstanding := h.standing
          rw [hw] at hstanding
          exact hstanding
      | noWriter | refused =>
        simp only [RecorderSystem.step, hw, Option.some.injEq] at hs
        subst hs
        exact ⟨lost, twice, h.endFlush (by rw [hw]; rfl)⟩
    | waiting | flushing | accepted | done => simp [RecorderSystem.step, hw] at hs
  | pop =>
    cases hw : s.phase with
    | accepted next =>
      simp only [RecorderSystem.step, hw, Option.some.injEq] at hs
      subst hs
      obtain ⟨twice', h'⟩ := h.pop hw
      exact ⟨lost, twice', h'⟩
    | waiting | flushing | peeked | done => simp [RecorderSystem.step, hw] at hs

end RecorderSystem

theorem scope_edges_accounted [DecidableEq T] {as : List (RecorderStep T)}
    (h : Runs.Run (RecorderSystem.step queueLimit) (fun _ _ => True) {} as s) :
    ∃ lost : Multiset PendingScopeEvent, lost.card = s.recorder.dropped + s.reported.sum ∧
      (s.enqueued : Multiset PendingScopeEvent) ≤ s.handed + s.recorder.pending + lost ∧
      (s.handed : Multiset PendingScopeEvent) ≤ s.enqueued ∧ s.recorder.pending.length ≤ queueLimit := by
  obtain ⟨lost, twice, hs⟩ : ∃ lost twice, s.Accounts queueLimit lost twice := by
    apply h.invariant (I := fun s : RecorderSystem T => ∃ lost twice, s.Accounts queueLimit lost twice)
    · rintro s a s' ⟨lost, twice, hi⟩ - hstep
      exact hi.step hstep
    · exact ⟨0, 0, rfl, le_rfl, rfl, nofun, Nat.zero_le _⟩
  exact ⟨lost, hs.counted, hs.enqueued_le, hs.handed_le, hs.bounded⟩

theorem overflown_edge_accounted : ∃ s : RecorderSystem String, s.reported = [1] ∧ s.handed.length = 2 ∧
    ∃ lost : Multiset PendingScopeEvent, lost.card = s.recorder.dropped + s.reported.sum ∧
      (s.enqueued : Multiset PendingScopeEvent) ≤ s.handed + s.recorder.pending + lost ∧
      (s.handed : Multiset PendingScopeEvent) ≤ s.enqueued ∧ s.recorder.pending.length ≤ 1 := by
  obtain ⟨s, hrun, hs⟩ := Runs.Run.exists_of_exec (RecorderSystem.step (T := String) 1)
    (fun _ _ => True) {}
    [.started ⟨podScope "a", "x", "", [], 1⟩, .tick, .peek, .started ⟨podScope "b", "x", "", [], 2⟩,
    .hand .taken, .pop,
      .peek, .hand .taken, .pop, .peek, .tick]
    (fun s : RecorderSystem String => s.reported = [1] ∧ s.handed.length = 2) (by decide)
  exact ⟨s, hs.1, hs.2, scope_edges_accounted hrun⟩

deriving instance DecidableEq for WorkerPhase

namespace ScopeWriter

variable {limits : ScopeLimits} {w w' : ScopeWriter} {lost : Multiset ScopeEvent}

def Leaving (w : ScopeWriter) : Prop :=
  match w.phase with
  | .selecting => False
  | .flushing _ _ last => last = true
  | .done => True

structure Accounts (limits : ScopeLimits) (w : ScopeWriter) (lost : Multiset ScopeEvent) : Prop where
  counted : lost.card = w.dropped
  places : (w.accepted : Multiset ScopeEvent) =
    w.inserted.flatten + w.inFlush + w.scopeRetries + w.batch + w.scopeEvents + lost
  left : w.Leaving → w.closed = true ∧ w.batch = [] ∧ w.scopeEvents = []
  queued : w.scopeEvents.length ≤ limits.scopeQueueSize
  retried : w.scopeRetries.length ≤ limits.scopeRetryQueueMaxLen

theorem not_leaving_flush (batch : List ScopeEvent) : ¬ (w.flushScopeBatch batch false).Leaving :=
  Bool.false_ne_true

theorem Accounts.select {a : ScopeWriterStep} (h : w.Accounts limits lost) (hp : w.phase = .selecting)
    (hs : w.select limits a = some w') : w'.Accounts limits lost := by
  have hplaces := h.places
  simp only [inFlush, hp, Multiset.coe_nil, add_zero] at hplaces
  have hqueued := h.queued
  cases a with
  | receive =>
    simp only [ScopeWriter.select] at hs
    split at hs
    · cases hs
    · next event rest hq =>
      have hadd : ((w.batch ++ [event] : List ScopeEvent) : Multiset ScopeEvent) = w.batch + {event} :=
        (Multiset.coe_add _ _).symm
      have hcons : (w.scopeEvents : Multiset ScopeEvent) = {event} + rest := by
        rw [hq, ← Multiset.cons_coe, Multiset.singleton_add]
      rw [hcons] at hplaces
      rw [hq, List.length_cons] at hqueued
      simp only [Option.some.injEq] at hs
      split_ifs at hs
      · subst hs
        refine ⟨h.counted, ?_, fun hl => absurd hl (not_leaving_flush _), ?_, h.retried⟩
        · simp only [flushScopeBatch, inFlush, hadd, Multiset.coe_nil, add_zero, hplaces]
          abel
        · simp only [flushScopeBatch]
          omega
      · subst hs
        refine ⟨h.counted, ?_, ?_, ?_, h.retried⟩
        · simp only [inFlush, hp, hadd, Multiset.coe_nil, add_zero, hplaces]
          abel
        · simp [Leaving, hp]
        · simp only
          omega
  | finish =>
    simp only [ScopeWriter.select, Option.ite_none_right_eq_some, Option.some.injEq] at hs
    obtain ⟨⟨hc, hq⟩, hs⟩ := hs
    split_ifs at hs with hempty
    · subst hs
      obtain ⟨hb, hr⟩ := List.append_eq_nil_iff.mp hempty
      refine ⟨h.counted, ?_, fun _ => ⟨hc, hb, hq⟩, h.queued, Nat.zero_le _⟩
      simpa only [inFlush, hr, Multiset.coe_nil, add_zero] using hplaces
    · subst hs
      refine ⟨h.counted, ?_, fun _ => ⟨hc, rfl, hq⟩, h.queued, Nat.zero_le _⟩
      simp only [flushScopeBatch, inFlush, Multiset.coe_nil, add_zero, hplaces, ← Multiset.coe_add]
      abel
  | timer =>
    simp only [ScopeWriter.select, Option.ite_none_right_eq_some, Option.some.injEq] at hs
    obtain ⟨-, rfl⟩ := hs
    refine ⟨h.counted, ?_, fun hl => absurd hl (not_leaving_flush _), h.queued, h.retried⟩
    simp only [flushScopeBatch, inFlush, Multiset.coe_nil, add_zero, hplaces]
    abel
  | retryTick =>
    simp only [ScopeWriter.select] at hs
    split_ifs at hs
    · cases hs
      exact h
    · cases hs
      refine ⟨h.counted, ?_, fun hl => absurd hl (not_leaving_flush _), h.queued, Nat.zero_le _⟩
      simp only [flushScopeBatch, inFlush, Multiset.coe_nil, add_zero, hplaces, ← Multiset.coe_add]
      abel
  | accept | close | attempt | giveUp => cases hs

theorem inFlush_returned (last : Bool) : (w.returned last).inFlush = [] := by
  cases last <;> rfl

theorem Accounts.inserted {events : List ScopeEvent} {tried last : Bool} (h : w.Accounts limits lost)
    (hp : w.phase = .flushing events tried last) :
    ({ w with inserted := w.inserted ++ [events] }.returned last).Accounts limits lost where
  counted := h.counted
  places := by
    have hplaces := h.places
    simp only [inFlush, hp] at hplaces
    rw [inFlush_returned]
    simp only [returned, List.flatten_append, List.flatten_singleton, ← Multiset.coe_add,
      Multiset.coe_nil, add_zero, hplaces]
  left := by
    intro hl
    cases last with
    | false => exact hl.elim
    | true => exact h.left (by simp [Leaving, hp])
  queued := h.queued
  retried := h.retried

theorem Accounts.givenUp {events : List ScopeEvent} {tried last : Bool} (h : w.Accounts limits lost)
    (hp : w.phase = .flushing events tried last) :
    ∃ lost', ((w.queueScopeRetries limits events).returned last).Accounts limits lost' := by
  set retries := w.scopeRetries ++ events with hretries
  set overflow := retries.length - limits.scopeRetryQueueMaxLen with hover
  have hcut : (retries.take overflow : Multiset ScopeEvent) + retries.drop overflow =
    w.scopeRetries + events := by
    rw [Multiset.coe_add, List.take_append_drop, hretries, Multiset.coe_add]
  refine ⟨lost + retries.take overflow, ?_, ?_, ?_, h.queued, ?_⟩
  · simp only [returned, queueScopeRetries, Multiset.card_add, Multiset.coe_card, List.length_take,
      h.counted, ← hretries, ← hover]
    omega
  · have hplaces := h.places
    simp only [inFlush, hp] at hplaces
    rw [inFlush_returned]
    simp only [returned, queueScopeRetries, Multiset.coe_nil, add_zero, hplaces, ← hretries, ← hover]
    calc (w.inserted.flatten : Multiset
      ScopeEvent) + events + w.scopeRetries + w.batch + w.scopeEvents + lost
        = w.inserted.flatten + (w.scopeRetries + events) + w.batch + w.scopeEvents + lost := by abel
      _ = w.inserted.flatten + retries.drop overflow + w.batch + w.scopeEvents +
        (lost + retries.take overflow) := by
        rw [← hcut]
        abel
  · intro hl
    cases last with
    | false => exact hl.elim
    | true => exact h.left (by simp [Leaving, hp])
  · simp only [returned, queueScopeRetries, List.length_drop]
    omega

theorem Accounts.step {a : ScopeWriterStep} (h : w.Accounts limits lost)
    (hs : w.step limits a = some w') :
    ∃ lost', w'.Accounts limits lost' := by
  cases a with
  | accept event =>
    simp only [ScopeWriter.step, Option.ite_none_left_eq_some, Option.some.injEq] at hs
    obtain ⟨hn, rfl⟩ := hs
    refine ⟨lost, h.counted, ?_, ?_, ?_, h.retried⟩
    · have hplaces := h.places
      simp only [inFlush, ← Multiset.coe_add] at hplaces ⊢
      rw [hplaces]
      abel
    · intro hl
      exact (hn (.inl (h.left hl).1)).elim
    · simp only [List.length_append, List.length_singleton]
      omega
  | close =>
    cases hs
    exact ⟨lost, h.counted, h.places, fun hl => ⟨rfl, (h.left hl).2⟩, h.queued, h.retried⟩
  | attempt ok =>
    cases hp : w.phase with
    | flushing events tried last =>
      cases ok with
      | true =>
        simp only [ScopeWriter.step, hp, Option.some.injEq] at hs
        subst hs
        exact ⟨lost, h.inserted hp⟩
      | false =>
        simp only [ScopeWriter.step, hp, Option.some.injEq] at hs
        subst hs
        refine ⟨lost, h.counted, ?_, ?_, h.queued, h.retried⟩
        · simpa only [inFlush, hp] using h.places
        · simpa only [Leaving, hp] using h.left
    | selecting => cases ok <;> simp [ScopeWriter.step, hp, ScopeWriter.select] at hs
    | done => cases ok <;> simp [ScopeWriter.step, hp] at hs
  | giveUp =>
    cases hp : w.phase with
    | flushing events tried last =>
      cases tried with
      | true =>
        simp only [ScopeWriter.step, hp, Option.some.injEq] at hs
        subst hs
        exact h.givenUp hp
      | false => simp [ScopeWriter.step, hp] at hs
    | selecting => simp [ScopeWriter.step, hp, ScopeWriter.select] at hs
    | done => simp [ScopeWriter.step, hp] at hs
  | receive | timer | retryTick | finish =>
    cases hp : w.phase with
    | selecting => exact ⟨lost, h.select hp (by simpa only [ScopeWriter.step, hp] using hs)⟩
    | flushing | done => simp [ScopeWriter.step, hp] at hs

end ScopeWriter

theorem scope_rows_accounted {limits : ScopeLimits} {as : List ScopeWriterStep} {w : ScopeWriter}
    (h : Runs.Run (ScopeWriter.step limits) (fun _ _ => True) {} as w) :
    (∃ lost : List ScopeEvent, lost.length = w.dropped ∧
      w.accepted.Perm (w.inserted.flatten ++ w.inFlush ++ w.scopeRetries ++ w.batch ++
        w.scopeEvents ++ lost)) ∧
      (w.phase = .done → ∃ lost : List ScopeEvent, lost.length = w.dropped + w.scopeRetries.length ∧
        w.accepted.Perm (w.inserted.flatten ++ lost)) ∧
      w.scopeEvents.length ≤ limits.scopeQueueSize ∧
        w.scopeRetries.length ≤ limits.scopeRetryQueueMaxLen := by
  obtain ⟨lost, hw⟩ : ∃ lost, w.Accounts limits lost := by
    apply h.invariant (I := fun w : ScopeWriter => ∃ lost, w.Accounts limits lost)
    · rintro w a w' ⟨lost, hi⟩ - hstep
      exact hi.step hstep
    · exact ⟨0, rfl, rfl, False.elim, Nat.zero_le _, Nat.zero_le _⟩
  obtain ⟨lost, rfl⟩ := Quot.exists_rep lost
  have hperm : w.accepted.Perm (w.inserted.flatten ++ w.inFlush ++ w.scopeRetries ++ w.batch ++
    w.scopeEvents ++ lost) :=
    Multiset.coe_eq_coe.mp (by simpa only [← Multiset.coe_add,
      Multiset.quot_mk_to_coe''] using hw.places)
  refine ⟨⟨lost, hw.counted, hperm⟩, fun hp => ?_, hw.queued, hw.retried⟩
  obtain ⟨-, hb, hq⟩ := hw.left (by simp [ScopeWriter.Leaving, hp])
  refine ⟨w.scopeRetries ++ lost, ?_, ?_⟩
  · have : lost.length = w.dropped := hw.counted
    rw [List.length_append]
    omega
  · simpa [ScopeWriter.inFlush, hp, hb, hq] using hperm

/--
A retry queue of one event and a backend that is down: of three accepted events none is inserted,
two were dropped and the last one is still in the retry queue when the worker ends.
-/
theorem failing_backend_accounted : ∃ w : ScopeWriter, w.phase = .done ∧ w.dropped = 2 ∧
    ∃ lost : List ScopeEvent, lost.length = w.dropped + w.scopeRetries.length ∧
      w.accepted.Perm (w.inserted.flatten ++ lost) := by
  obtain ⟨w, hrun, hp, hd⟩ := Runs.Run.exists_of_exec
    (ScopeWriter.step { scopeRetryQueueMaxLen := 1 }) (fun _ _ => True) {}
    [.accept (scopeRow .started 1), .receive, .timer, .attempt false, .giveUp,
    .accept (scopeRow .stopped 2),
      .accept (scopeRow .started 3), .receive, .receive, .close, .finish, .attempt false,
      .attempt false, .giveUp]
    (fun w : ScopeWriter => w.phase = .done ∧ w.dropped = 2) (by decide)
  exact ⟨w, hp, hd, (scope_rows_accounted hrun).2.1 hp⟩

end Kuberecord
