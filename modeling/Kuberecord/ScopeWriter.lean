import Kuberecord.Library.Runs
import Kuberecord.Sink
import Mathlib.Data.List.Infix

namespace Kuberecord

structure ScopeLimits where
  scopeQueueSize : Nat := 2048
  scopeBatchMaxRows : Nat := 64
  scopeRetryQueueMaxLen : Nat := 4096

inductive WorkerPhase
  | selecting
  -- inside `flushScopeBatch`; `last` in the branch that ends the worker
  | flushing (events : List ScopeEvent) (tried last : Bool)
  | done

/-- The worker's variables and the queues, with all accepted events and all successful inserts. -/
structure ScopeWriter where
  closed : Bool := false
  scopeEvents : List ScopeEvent := []
  batch : List ScopeEvent := []
  timer : Bool := false
  scopeRetries : List ScopeEvent := []
  phase : WorkerPhase := .selecting
  dropped : Nat := 0
  accepted : List ScopeEvent := []
  inserted : List (List ScopeEvent) := []

inductive ScopeWriterStep
  -- `EnqueueScopeEvent` returns nil
  | accept (event : ScopeEvent)
  | close
  | receive
  | timer
  | retryTick
  | finish
  | attempt (ok : Bool)
  | giveUp

namespace ScopeWriter

def queueScopeRetries (limits : ScopeLimits) (w : ScopeWriter) (events : List ScopeEvent) :
    ScopeWriter :=
  let scopeRetries := w.scopeRetries ++ events
  let overflow := scopeRetries.length - limits.scopeRetryQueueMaxLen
  { w with scopeRetries := scopeRetries.drop overflow, dropped := w.dropped + overflow }

def returned (w : ScopeWriter) (last : Bool) : ScopeWriter :=
  { w with phase := if last then .done else .selecting }

def flushScopeBatch (w : ScopeWriter) (events : List ScopeEvent) (last : Bool) : ScopeWriter :=
  { w with batch := [], timer := false, phase := .flushing events false last }

def select (limits : ScopeLimits) (w : ScopeWriter) : ScopeWriterStep → Option ScopeWriter
  | .receive =>
    match w.scopeEvents with
    | [] => none
    | event :: rest =>
      let batch := w.batch ++ [event]
      let w := { w with scopeEvents := rest, batch := batch, timer := w.timer || batch.length = 1 }
      some (if batch.length ≥ limits.scopeBatchMaxRows then w.flushScopeBatch batch false else w)
  | .finish =>
    if w.closed ∧ w.scopeEvents = [] then
      let batch := w.batch ++ w.scopeRetries
      let w := { w with scopeRetries := [] }
      some (if batch = [] then { w with phase := .done } else w.flushScopeBatch batch true)
    else none
  | .timer => if w.timer then some (w.flushScopeBatch w.batch false) else none
  | .retryTick =>
    if w.scopeRetries = [] then some w
    else some ({ w with scopeRetries := [] }.flushScopeBatch (w.scopeRetries ++ w.batch) false)
  | _ => none

def step (limits : ScopeLimits) (w : ScopeWriter) (a : ScopeWriterStep) : Option ScopeWriter :=
  match a, w.phase with
  | .accept event, _ =>
    if w.closed ∨ w.scopeEvents.length ≥ limits.scopeQueueSize then none
    else some { w with scopeEvents := w.scopeEvents ++ [event], accepted := w.accepted ++ [event] }
  | .close, _ => some { w with closed := true }
  | .attempt true, .flushing events _ last =>
    some ({ w with inserted := w.inserted ++ [events] }.returned last)
  | .attempt false, .flushing events _ last => some { w with phase := .flushing events true last }
  | .giveUp, .flushing events true last => some ((w.queueScopeRetries limits events).returned last)
  | a, .selecting => w.select limits a
  | _, _ => none

def inFlush (w : ScopeWriter) : List ScopeEvent :=
  match w.phase with
  | .flushing events _ _ => events
  | _ => []

def Heeds (limits : ScopeLimits) (w : ScopeWriter) : ScopeWriterStep → Prop
  | .receive => w.batch.length + 1 ≥ limits.scopeBatchMaxRows → w.scopeRetries = []
  | .timer => w.scopeRetries = []
  | .finish => w.scopeRetries = [] ∨ w.batch = []
  | _ => True

instance (limits : ScopeLimits) (w : ScopeWriter) (a : ScopeWriterStep) :
    Decidable (w.Heeds limits a) := by
  unfold Heeds
  split <;> infer_instance

structure Ordered (w : ScopeWriter) : Prop where
  places : w.inserted.flatten ++ w.inFlush ++ w.scopeRetries ++ w.batch ++ w.scopeEvents = w.accepted
  alone : w.inFlush ≠ [] → w.scopeRetries = []

variable {limits : ScopeLimits} {w w' : ScopeWriter}

theorem select_dropped {a : ScopeWriterStep} (hs : w.select limits a = some w') :
    w'.dropped = w.dropped := by
  cases a with
  | receive =>
    simp only [ScopeWriter.select] at hs
    split at hs
    · cases hs
    · cases hs
      split_ifs <;> rfl
  | finish =>
    simp only [ScopeWriter.select, Option.ite_none_right_eq_some, Option.some.injEq] at hs
    obtain ⟨-, rfl⟩ := hs
    split_ifs <;> rfl
  | timer =>
    simp only [ScopeWriter.select, Option.ite_none_right_eq_some, Option.some.injEq] at hs
    obtain ⟨-, rfl⟩ := hs
    rfl
  | retryTick =>
    simp only [ScopeWriter.select] at hs
    split_ifs at hs <;> cases hs <;> rfl
  | accept | close | attempt | giveUp => cases hs

theorem Ordered.select {a : ScopeWriterStep} (h : w.Ordered) (hp : w.phase = .selecting)
    (ha : w.Heeds limits a) (hs : w.select limits a = some w') : w'.Ordered := by
  have hplaces := h.places
  simp only [inFlush, hp, List.append_nil] at hplaces
  cases a with
  | receive =>
    simp only [ScopeWriter.select] at hs
    split at hs
    · cases hs
    · next event rest hq =>
      simp only [Option.some.injEq] at hs
      split_ifs at hs with hfull
      · have hr : w.scopeRetries = [] := ha (by simpa using hfull)
        subst hs
        refine ⟨?_, fun _ => hr⟩
        simpa [inFlush, flushScopeBatch, hr, hq] using hplaces
      · subst hs
        refine ⟨?_, fun hne => (hne (by simp [inFlush, hp])).elim⟩
        simpa [inFlush, hp, hq] using hplaces
  | finish =>
    simp only [ScopeWriter.select, Option.ite_none_right_eq_some, Option.some.injEq] at hs
    obtain ⟨⟨-, hq⟩, hs⟩ := hs
    have hswap : w.batch ++ w.scopeRetries = w.scopeRetries ++ w.batch := by
      rcases ha with hr | hb
      · simp [hr]
      · simp [hb]
    split_ifs at hs with hempty
    · subst hs
      obtain ⟨hb, hr⟩ := List.append_eq_nil_iff.mp hempty
      refine ⟨?_, fun hne => (hne rfl).elim⟩
      simpa [inFlush, hb, hr] using hplaces
    · subst hs
      refine ⟨?_, fun _ => rfl⟩
      simpa [inFlush, flushScopeBatch, hswap, hq] using hplaces
  | timer =>
    simp only [ScopeWriter.select, Option.ite_none_right_eq_some, Option.some.injEq] at hs
    obtain ⟨-, rfl⟩ := hs
    have hr : w.scopeRetries = [] := ha
    refine ⟨?_, fun _ => hr⟩
    simpa [inFlush, flushScopeBatch, hr] using hplaces
  | retryTick =>
    simp only [ScopeWriter.select] at hs
    split_ifs at hs
    · cases hs
      exact h
    · cases hs
      refine ⟨?_, fun _ => rfl⟩
      simpa [inFlush, flushScopeBatch] using hplaces
  | accept | close | attempt | giveUp => cases hs

theorem Ordered.returned {events : List ScopeEvent} {tried last : Bool} (h : w.Ordered)
    (hp : w.phase = .flushing events tried last) :
    ({ w with inserted := w.inserted ++ [events] }.returned last).Ordered := by
  have hplaces := h.places
  simp only [inFlush, hp] at hplaces
  have hflush : ({ w with inserted := w.inserted ++ [events] }.returned last).inFlush = [] := by
    cases last <;> rfl
  refine ⟨?_, fun hne => (hne hflush).elim⟩
  rw [hflush]
  simpa [ScopeWriter.returned] using hplaces

theorem Ordered.giveUp {events : List ScopeEvent} {tried last : Bool} (h : w.Ordered)
    (hp : w.phase = .flushing events tried last)
    (hd : (w.queueScopeRetries limits events).dropped = w.dropped) :
    ((w.queueScopeRetries limits events).returned last).Ordered := by
  have hplaces := h.places
  have halone := h.alone
  simp only [inFlush, hp] at hplaces halone
  have hover : (w.scopeRetries ++ events).length - limits.scopeRetryQueueMaxLen = 0 := by
    simp only [queueScopeRetries] at hd
    omega
  have hflush : ((w.queueScopeRetries limits events).returned last).inFlush = [] := by
    cases last <;> rfl
  refine ⟨?_, fun hne => (hne hflush).elim⟩
  rw [hflush]
  simp only [ScopeWriter.returned, queueScopeRetries, hover, List.drop_zero, List.append_nil]
  by_cases he : events = []
  · simpa [he] using hplaces
  · simpa [halone he] using hplaces

theorem Ordered.step {a : ScopeWriterStep} (h : w.dropped = 0 → w.Ordered) (ha : w.Heeds limits a)
    (hs : w.step limits a = some w') (hd : w'.dropped = 0) : w'.Ordered := by
  have selected (hp : w.phase = .selecting) (hs : w.select limits a = some w') : w'.Ordered :=
    (h (select_dropped hs ▸ hd)).select hp ha hs
  cases a with
  | accept event =>
    simp only [ScopeWriter.step, Option.ite_none_left_eq_some, Option.some.injEq] at hs
    obtain ⟨-, rfl⟩ := hs
    refine ⟨?_, (h hd).alone⟩
    have := (h hd).places
    simp only [inFlush] at this ⊢
    rw [← this]
    simp only [List.append_assoc]
  | close =>
    cases hs
    exact ⟨(h hd).places, (h hd).alone⟩
  | attempt ok =>
    cases hp : w.phase with
    | flushing events tried last =>
      cases ok with
      | true =>
        simp only [ScopeWriter.step, hp, Option.some.injEq] at hs
        subst hs
        exact (h hd).returned hp
      | false =>
        simp only [ScopeWriter.step, hp, Option.some.injEq] at hs
        subst hs
        refine ⟨?_, ?_⟩
        · simpa only [inFlush, hp] using (h hd).places
        · simpa only [inFlush, hp] using (h hd).alone
    | selecting => cases ok <;> simp [ScopeWriter.step, hp, ScopeWriter.select] at hs
    | done => cases ok <;> simp [ScopeWriter.step, hp] at hs
  | giveUp =>
    cases hp : w.phase with
    | flushing events tried last =>
      cases tried with
      | true =>
        simp only [ScopeWriter.step, hp, Option.some.injEq] at hs
        subst hs
        have hw : w.dropped = 0 := by
          simp only [ScopeWriter.returned, queueScopeRetries] at hd
          omega
        exact (h hw).giveUp hp (by rw [hw]; exact hd)
      | false => simp [ScopeWriter.step, hp] at hs
    | selecting => simp [ScopeWriter.step, hp, ScopeWriter.select] at hs
    | done => simp [ScopeWriter.step, hp] at hs
  | receive | timer | retryTick | finish =>
    cases hp : w.phase with
    | selecting => exact selected hp (by simpa only [ScopeWriter.step, hp] using hs)
    | flushing | done => simp [ScopeWriter.step, hp] at hs

end ScopeWriter

theorem scope_events_in_order {limits : ScopeLimits} {as : List ScopeWriterStep} {w : ScopeWriter}
    (h : Runs.Run (ScopeWriter.step limits) (ScopeWriter.Heeds limits) {} as w) (hd : w.dropped = 0) :
    w.inserted.flatten <+: w.accepted := by
  have hw : w.Ordered :=
    h.invariant (I := fun w : ScopeWriter => w.dropped = 0 →
      w.Ordered) (fun _ _ _ hi ha hs => ScopeWriter.Ordered.step hi ha hs)
      (fun _ => ⟨rfl, fun _ => rfl⟩) hd
  exact ⟨w.inFlush ++ w.scopeRetries ++ w.batch ++ w.scopeEvents,
    by rw [← hw.places]; simp only [List.append_assoc]⟩

def scopeRow (action : ScopeAction) (ts : Nat) : ScopeEvent where
  action := action
  scope := ⟨coreGroup, podKind, namespaceA⟩
  ts := ts

theorem retried_event_in_order :
    ∃ w : ScopeWriter, w.inserted.flatten = [scopeRow .started 1, scopeRow .stopped 2] ∧
    w.inserted.flatten <+: w.accepted := by
  obtain ⟨w, hrun, hd, hi⟩ := Runs.Run.exists_of_exec (ScopeWriter.step {}) (ScopeWriter.Heeds {}) {}
    [.accept (scopeRow .started 1), .receive, .timer, .attempt false, .giveUp,
    .accept (scopeRow .stopped 2), .receive,
      .retryTick, .attempt true, .close, .finish]
    (fun w : ScopeWriter => w.dropped = 0 ∧
      w.inserted.flatten = [scopeRow .started 1, scopeRow .stopped 2]) (by decide)
  exact ⟨w, hi, scope_events_in_order hrun hd⟩

/-- The same failure, but the batch timer fires before the retry ticker. -/
theorem scope_events_inverted : ∃ (as : List ScopeWriterStep) (w : ScopeWriter),
    Runs.Run (ScopeWriter.step {}) (fun _ _ => True) {} as w ∧ w.dropped = 0 ∧
      w.accepted = [scopeRow .started 1, scopeRow .stopped 2] ∧
      w.inserted.flatten = [scopeRow .stopped 2, scopeRow .started 1] := by
  obtain ⟨w, hrun, hw⟩ := Runs.Run.exists_of_exec (ScopeWriter.step {}) (fun _ _ => True) {}
    [.accept (scopeRow .started 1), .receive, .timer, .attempt false, .giveUp,
    .accept (scopeRow .stopped 2), .receive,
      .timer, .attempt true, .retryTick, .attempt true]
    (fun w : ScopeWriter => w.dropped = 0 ∧ w.accepted = [scopeRow .started 1, scopeRow .stopped 2] ∧
      w.inserted.flatten = [scopeRow .stopped 2, scopeRow .started 1]) (by decide)
  exact ⟨_, w, hrun, hw⟩

end Kuberecord
