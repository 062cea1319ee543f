import Kuberecord.Library.Tallies
import Kuberecord.Library.Totals
import Kuberecord.LostWrites

/-!
Where a close-out is between the call that submits it and the row that lands: in the hands of a
goroutine, in the retry queue of its key, or in one job of the writer.
-/

namespace Kuberecord

open Threads

structure Submission where
  st : Inst
  objectKey : String
  record : Record
deriving DecidableEq

def Commit.submission : Commit → Option Submission
  | .closeOut st objectKey _ record => some ⟨st, objectKey, record⟩
  | _ => none

structure Handoff where
  hands : List Submission := []
  refused : Bool := false

namespace Handoff

def MayHand (p : Handoff) (sink : String) (job : Job) : Prop :=
  match job.commit with
  | .closeOut st objectKey key record =>
    p.refused = false ∧ job.record = record ∧ key.Owns st objectKey ∧ sink = key.sink ∧
      ∀ x ∈ p.hands.head?, x = ⟨st, objectKey, record⟩
  | _ => True

def Allowed (p : Handoff) : Op → Prop
  | .enqueue sink job => p.MayHand sink job
  | .closeOutsAdd st objectKey record => p.hands.head? = some ⟨st, objectKey, record⟩ ∧ p.refused = true
  | .closeOutsTakeAll _ _ => p.hands = []
  | _ => True

def offer (p : Handoff) (accepted : Bool) (x : Submission) : Handoff :=
  match p.hands, accepted with
  | [], true => {}
  | [], false => ⟨[x], true⟩
  | _ :: rest, true => ⟨rest, false⟩
  | y :: rest, false => ⟨y :: rest, true⟩

def next (p : Handoff) : (o : Op) → o.Ans → Handoff
  | .enqueue _ job, accepted => job.commit.submission.elim p (p.offer accepted)
  | .closeOutsAdd _ _ _, _ => ⟨p.hands.tail, false⟩
  | .closeOutsTakeAll st objectKey, records => ⟨records.map (⟨st, objectKey, ·⟩), false⟩
  | _, _ => p

def protocol : Protocol Op Op.Ans Handoff where
  allowed := Allowed
  answers := Op.Answers
  next := next

def Steady {α : Type} (x : Prog α) : Prop := protocol.Obeys x {} (fun _ p => p = {})

variable {cfg : Config} {key : Key} {st : Inst} {ref : ScopeRef} {record : Record} {α β : Type}

theorem Steady.bind {x : Prog α} {f : α → Prog β} (hx : Steady x) (hf : ∀ a, Steady (f a)) :
    Steady (x >>= f) := by
  refine Protocol.Obeys.bind _ hx fun a p hp => ?_
  subst hp
  exact hf a

theorem Steady.call {o : Op} (ho : Allowed {} o) (hn : ∀ a, next {} o a = {}) : Steady (call o) :=
  ⟨ho, fun a _ => hn a⟩

theorem Steady.retry {σ : Type} {attempt : σ → Prog (Option Err × σ)} (ha : ∀ s, Steady (attempt s))
    (n : Nat) (s : σ) :
    Steady (retry attempt n s) := by
  refine retry_rule (I := fun _ p => p = {}) (fun s p hp => ?_) (fun e s p hp => ⟨trivial, hp, hp⟩) n rfl
  subst hp
  exact ha s

theorem enqueueCloseOut_obeys {p : Handoff} (hk : key.Owns st key.cacheKey) (hp : p.refused = false)
    (hx : ∀ x ∈ p.hands.head?, x = ⟨st, key.cacheKey, record⟩) :
    protocol.Obeys (enqueueCloseOut key st key.cacheKey record) p
      (fun _ p' => p' = ⟨p.hands.tail, false⟩) := by
  refine ⟨⟨hp, rfl, hk, rfl, hx⟩, fun accepted _ => ?_⟩
  obtain ⟨hands, refused⟩ := p
  cases hp
  cases hands with
  | nil =>
    cases accepted with
    | true => rfl
    | false => exact ⟨⟨rfl, rfl⟩, fun _ _ => ⟨trivial, fun _ _ => rfl⟩⟩
  | cons x rest =>
    cases accepted with
    | true => rfl
    | false => exact ⟨⟨congrArg some (hx x rfl), rfl⟩, fun _ _ => ⟨trivial, fun _ _ => rfl⟩⟩

theorem enqueueCloseOut_steady (hk : key.Owns st key.cacheKey) :
    Steady (enqueueCloseOut key st key.cacheKey record) :=
  enqueueCloseOut_obeys hk rfl (fun _ hx => by cases hx)

theorem retryPendingCloseOuts_steady (hk : key.Owns st key.cacheKey) :
    Steady (retryPendingCloseOuts key st key.cacheKey) := by
  refine ⟨rfl, fun records _ => ?_⟩
  refine Protocol.Obeys.forM _ (I := fun records (p : Handoff) =>
    p = ⟨records.map (⟨st, key.cacheKey, ·⟩), false⟩) ?_ rfl
  rintro record records _ rfl
  exact enqueueCloseOut_obeys hk rfl (fun _ hx => (Option.some.inj hx).symm)

theorem emitDelete_steady {uid : String} : Steady (emitDelete cfg key st uid) := by
  refine ⟨trivial, fun claim _ => ?_⟩
  cases claim with
  | claimed e t =>
    refine ⟨trivial, fun ts _ => ⟨trivial, fun accepted _ => ?_⟩⟩
    cases accepted with
    | true => rfl
    | false => exact ⟨trivial, fun _ _ => rfl⟩
  | absent | inFlight | uidMismatch => rfl

theorem closeOutSuperseded_steady (hk : key.Owns st key.cacheKey) {e : CacheEntry} :
    Steady (closeOutSuperseded cfg key st e) := by
  unfold closeOutSuperseded
  split_ifs
  · rfl
  · refine ⟨trivial, fun claim _ => ?_⟩
    cases claim with
    | claimed e t => exact ⟨trivial, fun ts _ => enqueueCloseOut_steady hk⟩
    | absent | inFlight | uidMismatch => rfl

theorem issueUpsert_steady {norm : NormalizedObject} {plan : Plan} :
    Steady (issueUpsert cfg key st norm plan) := by
  refine ⟨trivial, fun t _ => ⟨trivial, fun ts _ => ⟨trivial, fun accepted _ => ?_⟩⟩⟩
  cases accepted with
  | true => rfl
  | false =>
    cases plan.revertEntry with
    | none | some => exact ⟨trivial, fun _ _ => rfl⟩

theorem processUpsert_steady (hk : key.Owns st key.cacheKey) {writer : Writer} {obj : Json} :
    Steady (processUpsert cfg key st writer obj) := by
  simp only [Steady, processUpsert, Program.perform_bind]
  refine ⟨trivial, fun policy _ => ?_⟩
  cases policy with
  | none => rfl
  | some policy =>
    simp only
    split
    · refine ⟨trivial, fun entry _ => ?_⟩
      cases entry with
      | none =>
        simp only
        split_ifs
        · exact issueUpsert_steady
        · exact ⟨trivial, fun warm _ => issueUpsert_steady⟩
      | some e =>
        simp only
        split_ifs
        · exact (closeOutSuperseded_steady hk).bind fun _ => issueUpsert_steady
        · exact ⟨trivial, fun _ _ => rfl⟩
        · exact issueUpsert_steady
    · rfl

theorem process_steady : Steady (process cfg key) := by
  simp only [Steady, process, Program.perform_bind]
  refine ⟨trivial, fun lookup _ => ?_⟩
  cases lookup with
  | none => rfl
  | some lookup =>
    simp only
    split_ifs
    · rfl
    · refine ⟨trivial, fun st _ => ⟨trivial, fun claim _ => ?_⟩⟩
      cases claim with
      | claimed e t => exact ⟨trivial, fun _ _ => rfl⟩
      | absent | inFlight | uidMismatch => rfl
    · refine ⟨trivial, fun writer _ => ?_⟩
      cases writer with
      | none => rfl
      | some writer =>
        refine ⟨trivial, fun st hst => (retryPendingCloseOuts_steady ⟨hst, rfl⟩).bind fun _ => ?_⟩
        cases lookup.obj with
        | none => exact emitDelete_steady.bind fun _ => rfl
        | some obj => exact processUpsert_steady ⟨hst, rfl⟩

theorem readState_steady {read : Prog (Option α)} (hr : Steady read) : Steady (readState ref read) := by
  refine ⟨trivial, fun answer _ => ?_⟩
  cases answer with
  | reader =>
    refine hr.bind fun a => ?_
    cases a with
    | none | some => rfl
  | noStateReader | notLive => rfl

theorem seedScope_steady (ref : ScopeRef) (n : Nat) : Steady (seedScope ref n) := by
  refine .retry (fun _ => .bind (readState_steady
    (.call (o := .lastKnownStates ref) trivial fun _ => rfl)) fun r => ?_) n _
  cases r with
  | error e => rfl
  | ok states =>
    refine ⟨trivial, fun st _ => ?_⟩
    have hgroups : Steady ((groupByIdentity states).forM (seedGroup ref st)) := by
      refine Protocol.Obeys.forM _ (I := fun _ (p : Handoff) => p = {}) ?_ rfl
      rintro _ _ _ rfl
      exact ⟨trivial, fun _ _ => rfl⟩
    exact hgroups.bind fun _ => rfl

theorem awaitScopeSync_steady (n : Nat) : Steady (awaitScopeSync ref n) := by
  induction n with
  | zero => rfl
  | succ n ih =>
    refine ⟨trivial, fun synced _ => ?_⟩
    cases synced with
    | true => rfl
    | false =>
      refine ⟨trivial, fun desired _ => ?_⟩
      cases desired with
      | false => rfl
      | true =>
        refine ⟨trivial, fun again _ => ?_⟩
        cases again with
        | true => exact ih
        | false => rfl

theorem scopeWasActive_steady (epochStart n : Nat) : Steady (scopeWasActive ref epochStart n) := by
  refine .retry (fun _ => .bind (readState_steady
    (.call (o := .scopeWasActive ref epochStart) trivial fun _ => rfl)) fun r => ?_) n _
  cases r with
  | error | ok => rfl

theorem emitPriors_steady (hst : st.sink = ref.sink) (priors : List Reincarnation) :
    Steady (emitPriors cfg ref st priors) := by
  induction priors with
  | nil => rfl
  | cons prior priors ih =>
    refine ⟨trivial, fun stop _ => ?_⟩
    cases stop with
    | true => rfl
    | false => exact (enqueueCloseOut_steady ⟨hst, rfl⟩).bind fun _ => ih

theorem emitCloseOuts_steady (n : Nat) (priors : List Reincarnation) :
    Steady (emitCloseOuts cfg ref n priors) := by
  unfold emitCloseOuts
  split_ifs
  · rfl
  · refine Steady.bind (.retry (fun u => ?_) n _) fun _ => rfl
    refine ⟨trivial, fun writer _ => ?_⟩
    cases writer with
    | none => rfl
    | some writer => exact ⟨trivial, fun st hst => (emitPriors_steady hst priors).bind fun _ => rfl⟩

theorem sweep_steady (targets reincarnated : List GcTarget) :
    Steady (sweep cfg ref st targets reincarnated) := by
  induction targets generalizing reincarnated with
  | nil => rfl
  | cons target targets ih =>
    simp only [sweep, Program.perform_bind]
    refine ⟨trivial, fun stop _ => ?_⟩
    cases stop with
    | true => rfl
    | false =>
      refine ⟨trivial, fun lookup _ => ?_⟩
      cases lookup with
      | none => rfl
      | some lookup =>
        simp only
        split_ifs
        · rfl
        · exact ih _
        · refine emitDelete_steady.bind ?_
          rintro ⟨outcome, err⟩
          simp only
          split_ifs
          · rfl
          · exact ih _
          · exact ih _

theorem collectZombies_steady (n : Nat) (seeded : List GcTarget) :
    Steady (collectZombies cfg ref n seeded) := by
  refine Steady.bind (.retry (fun _ => ?_) n _) fun _ => rfl
  refine ⟨trivial, fun writer _ => ?_⟩
  cases writer with
  | none => rfl
  | some writer => exact ⟨trivial, fun st _ => sweep_steady seeded []⟩

theorem recoverRefusedReincarnations_steady (n : Nat) (refused : List GcTarget) :
    Steady (recoverRefusedReincarnations cfg ref n refused) := by
  unfold recoverRefusedReincarnations
  split_ifs
  · rfl
  · refine Steady.bind (.retry (fun pending => ?_) n _) fun _ => rfl
    refine .bind (readState_steady (.call trivial fun _ => rfl)) fun r => ?_
    cases r with
    | error e => rfl
    | ok states => exact ⟨trivial, fun order _ => (emitCloseOuts_steady n _).bind fun _ => rfl⟩

theorem reconcileHistory_steady (epochStart n : Nat) (seeded : List GcTarget)
    (priors : List Reincarnation) :
    Steady (reconcileHistory cfg ref epochStart n seeded priors) := by
  have hsync : Steady (if seeded.isEmpty then pure true else awaitScopeSync ref n) := by
    split_ifs
    · rfl
    · exact awaitScopeSync_steady n
  refine hsync.bind fun synced => ?_
  cases synced with
  | false => rfl
  | true =>
    refine (scopeWasActive_steady epochStart n).bind ?_
    rintro ⟨err, wasActive⟩
    simp only
    split_ifs
    · rfl
    · exact (emitCloseOuts_steady n priors).bind fun _ => rfl
    · refine (emitCloseOuts_steady n priors).bind fun _ =>
        (collectZombies_steady n seeded).bind fun reincarnated => ?_
      exact recoverRefusedReincarnations_steady n reincarnated

theorem warm_steady (ref : ScopeRef) (epochStart n : Nat) : Steady (warm cfg ref epochStart n) := by
  refine (seedScope_steady ref n).bind ?_
  rintro ⟨err, seeded, priors⟩
  simp only
  split_ifs
  · rfl
  · exact ⟨trivial, fun _ _ => rfl⟩
  · exact ⟨trivial, fun _ _ => rfl⟩
  · exact ⟨trivial, fun _ _ => reconcileHistory_steady epochStart n seeded priors⟩

theorem closeScopes_steady (sink : String) (scopes : List ScopeKey) :
    Steady (closeScopes sink scopes) := by
  induction scopes with
  | nil => rfl
  | cons scope scopes ih =>
    refine ⟨trivial, fun wanted _ => ?_⟩
    cases wanted with
    | true => exact ih
    | false =>
      refine ⟨trivial, fun ts _ => ⟨trivial, fun accepted _ => ?_⟩⟩
      cases accepted with
      | true => exact ih
      | false => rfl

theorem closeOrphanedScopes_steady (sink : String) : Steady (closeOrphanedScopes sink) := by
  refine ⟨trivial, fun answer _ => ?_⟩
  cases answer with
  | noStateReader | notLive => rfl
  | reader =>
    refine ⟨trivial, fun live _ => ?_⟩
    cases live with
    | false => rfl
    | true =>
      refine ⟨trivial, fun scopes _ => ?_⟩
      cases scopes with
      | none => rfl
      | some scopes => exact closeScopes_steady sink scopes

theorem safe (cfg : Config) : (machine cfg).Safe protocol (fun _ => {}) (fun _ _ p => p = {}) := by
  refine ⟨fun shared t b shared' code h => ?_, (machine_safe cfg).answers⟩
  cases t <;> cases b <;> simp only [machine, Kuberecord.start, Option.ite_none_right_eq_some,
    Option.ite_none_left_eq_some, Option.some.injEq, Prod.mk.injEq, reduceCtorEq] at h
  case worker.run key => exact h.2.2 ▸ process_steady
  case warm.warm id ref epochStart n => exact h.2.2 ▸ (warm_steady ref epochStart n).bind fun _ => rfl
  case boot.run sink => exact h.2.2 ▸ closeOrphanedScopes_steady sink
  case evict.run ref => exact h.2 ▸ ⟨trivial, fun _ _ => ⟨trivial, fun _ _ => ⟨trivial, fun _ _ => rfl⟩⟩⟩

end Handoff

def Op.attempt : Op → List Submission
  | .enqueue _ job => job.commit.submission.toList
  | _ => []

def Op.refusal : (o : Op) → o.Ans → List Submission
  | .enqueue _ job, accepted => if accepted then [] else job.commit.submission.toList
  | _, _ => []

def Handoff.submits (p : Handoff) (o : Op) : List Submission := if p.hands = [] then o.attempt else []

def Handoff.retries (p : Handoff) (o : Op) : List Submission := if p.hands = [] then [] else o.attempt

def submissions (log : List (LogEntry Op.Ans Tid)) : List Submission :=
  log.flatMap fun e => (Handoff.protocol.after {} e.trace).submits e.event.1

def reattempts (log : List (LogEntry Op.Ans Tid)) : List Submission :=
  log.flatMap fun e => (Handoff.protocol.after {} e.trace).retries e.event.1

def refusals (log : List (LogEntry Op.Ans Tid)) : List Submission :=
  log.flatMap fun e => e.event.1.refusal e.event.2

def Handed.closing (status : JobStatus) (h : Handed) : List Submission :=
  if h.status = status then h.job.commit.submission.toList else []

namespace Shared

variable (s : Shared)

def closing (status : JobStatus) : List Submission := s.jobs.flatMap (Handed.closing status)

def inFlight : List Submission := s.closing .inFlight

def landedCloseOuts : List Submission := s.closing .written

def failedCloseOuts : List Submission := s.closing .failed

def pendingCloseOuts (x : Submission) : Nat := (s.closeOuts x.st x.objectKey).count x.record

def placed (x : Submission) : Nat :=
  s.pendingCloseOuts x + s.inFlight.count x + s.landedCloseOuts.count x

def jobsFor (x : Submission) : Nat :=
  s.inFlight.count x + s.landedCloseOuts.count x + s.failedCloseOuts.count x

end Shared

def Handed.Own (h : Handed) : Prop :=
  ∀ st k key r, h.job.commit = .closeOut st k key r → h.job.record = r ∧ key.Owns st k ∧
    h.sink = key.sink

structure Balanced (x : Submission) (v : View Op.Ans Tid Shared Handoff) : Prop where
  submitted : ∃ n, Totals.Total (fun p => p.hands.count x) v.phase n ∧
    (submissions v.log).count x = v.shared.placed x + n
  attempted : (submissions v.log).count x + (reattempts v.log).count x =
    (refusals v.log).count x + v.shared.jobsFor x
  own : ∀ h ∈ v.shared.jobs, h.Own

section

variable {s s' : Shared} {x : Submission} {status : JobStatus}
variable {p : Handoff} {sink : String} {job : Job} {o : Op}

theorem placed_same (h : s.Same s') : s'.placed x = s.placed x := by
  simp only [Shared.placed, Shared.pendingCloseOuts, Shared.inFlight, Shared.landedCloseOuts,
    Shared.closing, h.jobs, h.closeOuts]

theorem placed_of_eq (hc : s'.closeOuts x.st x.objectKey = s.closeOuts x.st x.objectKey)
    (hj : s'.jobs = s.jobs) :
    s'.placed x = s.placed x := by
  simp only [Shared.placed, Shared.pendingCloseOuts, Shared.inFlight, Shared.landedCloseOuts,
    Shared.closing, hj, hc]

theorem pendingCloseOuts_setCloseOuts (st : Inst) (k : String) (records : List Record) :
    (s.setCloseOuts st k records).pendingCloseOuts x =
      if x.st = st ∧ x.objectKey = k then records.count x.record else s.pendingCloseOuts x := by
  rw [Shared.pendingCloseOuts, Shared.closeOuts_setCloseOuts]
  split_ifs <;> rfl

theorem closing_accepted (sink : String) (job : Job) :
    ({ s with jobs := s.jobs ++ [{ sink := sink, job := job }] } : Shared).closing status =
      s.closing status ++ Handed.closing status { sink := sink, job := job } := by
  simp [Shared.closing]

theorem closing_settled (x : Submission) (status : JobStatus) {j : Nat} (ok : Bool)
    (hj : s.jobs[j]? = some ⟨sink, job, .inFlight⟩) :
    ((s.settled j sink job ok).closing status).count x +
    (Handed.closing status ⟨sink, job, .inFlight⟩).count x =
      (s.closing status).count x +
        (Handed.closing status ⟨sink, job, if ok then .written else .failed⟩).count x := by
  have h := (Tallies.perm_flatMap_set (Handed.closing status)
    (b := ⟨sink, job, if ok then .written else .failed⟩)
    hj).count_eq x
  rw [List.count_append, List.count_append] at h
  rw [Shared.closing, Shared.settled_jobs]
  exact h

theorem count_map_submission (st : Inst) (k : String) (records : List Record) :
    (records.map (⟨st, k, ·⟩)).count x =
    if x.st = st ∧ x.objectKey = k then records.count x.record else 0 := by
  obtain ⟨st', k', r⟩ := x
  split_ifs with h
  · obtain ⟨rfl, rfl⟩ := h
    exact List.count_map_of_injective records _ (fun _ _ h => (Submission.mk.inj h).2.2) r
  · refine List.count_eq_zero.mpr fun hm => ?_
    obtain ⟨r, -, hr⟩ := List.mem_map.mp hm
    cases hr
    exact h ⟨rfl, rfl⟩

theorem callback_submission {c : Commit} {ok : Bool} (hc : c.submission = none) :
    (s.callback c ok).closeOuts x.st x.objectKey = s.closeOuts x.st x.objectKey := by
  cases c with
  | upsert st k key t e revertEntry => cases ok <;> cases revertEntry <;> simp [Shared.callback]
  | delete st k key t => cases ok <;> simp [Shared.callback]
  | closeOut => cases hc

theorem placed_settled {j : Nat} {ok : Bool} (hj : s.jobs[j]? = some ⟨sink, job, .inFlight⟩) :
    (s.settled j sink job ok).placed x = s.placed x := by
  have hflight := closing_settled x .inFlight ok hj
  have hlanded := closing_settled x .written ok hj
  simp only [Shared.placed, Shared.pendingCloseOuts, Shared.settled_closeOuts, Shared.inFlight,
    Shared.landedCloseOuts]
  cases hc : job.commit with
  | closeOut st k key r =>
    simp only [Handed.closing, hc, Commit.submission, Option.toList_some] at hflight hlanded
    cases ok with
    | true =>
      simp only [↓reduceIte, reduceCtorEq, List.count_nil] at hflight hlanded
      simp only [Shared.callback]
      omega
    | false =>
      simp only [↓reduceIte, reduceCtorEq, List.count_nil, Bool.false_eq_true] at hflight hlanded
      have hone := count_map_submission (x := x) st k [r]
      simp only [Shared.callback, Shared.closeOuts_addKey, Shared.closeOuts_setCloseOuts]
      by_cases hx : x.st = st ∧ x.objectKey = k
      · rw [if_pos hx, List.map_singleton] at hone
        rw [if_pos hx, List.count_append, hx.1, hx.2]
        omega
      · rw [if_neg hx, List.map_singleton] at hone
        rw [if_neg hx]
        omega
  | upsert | delete =>
    simp only [Handed.closing, hc, Commit.submission, Option.toList_none, ite_self,
      List.count_nil] at hflight hlanded
    rw [callback_submission rfl]
    omega

theorem Handoff.submits_of_attempt (ho : o.attempt = []) : p.submits o = [] := by
  rw [Handoff.submits, ho, ite_self]

theorem Handoff.next_quiet (ho : o.Quiet) (a : o.Ans) : p.next o a = p ∧ p.submits o = [] := by
  cases o with
  | enqueue | closeOutsAdd | closeOutsTakeAll => exact ho.elim
  | _ => exact ⟨rfl, submits_of_attempt rfl⟩

theorem placed_accepted (sink : String) (job : Job) :
    ({ s with jobs := s.jobs ++ [{ sink := sink, job := job }] } : Shared).placed x =
      s.placed x + job.commit.submission.toList.count x := by
  have hflight : Handed.closing .inFlight { sink := sink, job := job } =
    job.commit.submission.toList := rfl
  have hlanded : Handed.closing .written { sink := sink, job := job } = [] := rfl
  simp only [Shared.placed, Shared.inFlight, Shared.landedCloseOuts, closing_accepted, hflight,
    hlanded, List.append_nil, List.count_append]
  simp only [Shared.pendingCloseOuts, Shared.closeOuts]
  omega

theorem placed_setCloseOuts (st : Inst) (k : String) (records : List Record) :
    (s.setCloseOuts st k records).placed x + ((s.closeOuts st k).map (⟨st, k, ·⟩)).count x =
      s.placed x + (records.map (⟨st, k, ·⟩)).count x := by
  simp only [count_map_submission, Shared.placed, pendingCloseOuts_setCloseOuts]
  have hjobs (status : JobStatus) : (s.setCloseOuts st k records).closing status =
    s.closing status := rfl
  simp only [Shared.inFlight, Shared.landedCloseOuts, hjobs]
  split_ifs with hx
  · rw [Shared.pendingCloseOuts, hx.1, hx.2]
    omega
  · rfl

theorem Handoff.offer_count {y : Submission} (accepted : Bool) (hy : ∀ z ∈ p.hands.head?, z = y) :
    (p.offer accepted y).hands.count x + (if accepted then [y].count x else 0) =
      p.hands.count x + (if p.hands = [] then [y].count x else 0) := by
  obtain ⟨hands, refused⟩ := p
  cases hands with
  | nil => cases accepted <;> simp [Handoff.offer]
  | cons z rest =>
    cases hy z rfl
    cases accepted <;> simp [Handoff.offer, List.count_cons]

theorem Handoff.MayHand.closeOut {st : Inst} {k : String} {key : Key}
    {r : Record} (hp : p.MayHand sink job) (hc : job.commit = .closeOut st k key r) :
    p.refused = false ∧ job.record = r ∧ key.Owns st k ∧ sink = key.sink ∧
      ∀ x ∈ p.hands.head?, x = ⟨st, k, r⟩ := by
  simpa only [Handoff.MayHand, hc] using hp

theorem Handoff.next_enqueue (hp : p.MayHand sink job) (accepted : Bool) :
    (p.next (.enqueue sink job) accepted).hands.count x +
        (if accepted then job.commit.submission.toList.count x else 0) =
      p.hands.count x + (p.submits (.enqueue sink job)).count x := by
  simp only [Handoff.next, Handoff.submits, Op.attempt]
  cases hc : job.commit with
  | closeOut st k key r =>
    have hoffer := offer_count (x := x) accepted (hp.closeOut hc).2.2.2.2
    simp only [Commit.submission, Option.elim_some, Option.toList_some]
    rw [hoffer]
    split_ifs <;> rfl
  | upsert | delete => simp [Commit.submission]

theorem placed_exec {tid : Tid} {i : Input} {a : o.Ans} (hp : p.Allowed o)
    (h : exec s tid o i = some (s', a)) :
    s'.placed x + (p.next o a).hands.count x = s.placed x + p.hands.count x + (p.submits o).count x := by
  cases exec_effect h with
  | quiet _ _ _ _ ho hs =>
    rw [placed_same hs, (Handoff.next_quiet ho a).1, (Handoff.next_quiet ho a).2]
    rfl
  | closeOutsAdd st k r =>
    have hput := placed_setCloseOuts (s := s) (x := x) st k (s.closeOuts st k ++ [r])
    rw [List.map_append, List.count_append] at hput
    obtain ⟨_ | ⟨y, rest⟩, refused⟩ := p
    · cases hp.1
    · cases hp.1
      have hcons : (⟨st, k, r⟩ :: rest).count x = rest.count x + [⟨st, k, r⟩].count x := by
        rw [← List.singleton_append, List.count_append, Nat.add_comm]
      simp only [Handoff.next, Handoff.submits_of_attempt (o := .closeOutsAdd st k r) rfl,
        List.tail_cons, List.count_nil, List.map_singleton, hcons] at hput ⊢
      omega
  | closeOutsTakeAll st k =>
    have hput := placed_setCloseOuts (s := s) (x := x) st k []
    have hp : p.hands = [] := hp
    simp only [Handoff.next, Handoff.submits_of_attempt (o := .closeOutsTakeAll st k) rfl, hp,
      List.count_nil, List.map_nil] at hput ⊢
    omega
  | accepted sink job =>
    have hnext := Handoff.next_enqueue (x := x) hp true
    rw [if_pos rfl] at hnext
    rw [placed_accepted]
    omega
  | refused sink job =>
    have hnext := Handoff.next_enqueue (x := x) hp false
    rw [if_neg Bool.false_ne_true] at hnext
    omega
  | reserve | reserveDelete | commitIfCurrent | deleteIfCurrent | unclaimDelete | storeIfAbsent =>
    rw [placed_of_eq Shared.closeOuts_setSlot rfl, Handoff.submits_of_attempt rfl]
    rfl
  | deletePrefix st pre =>
    rw [placed_of_eq (Shared.closeOuts_deletePrefix ..) rfl, Handoff.submits_of_attempt rfl]
    rfl
  | sinkState | listerGet | lastKnownStates | scopeWasActive | load | now =>
    rw [Handoff.submits_of_attempt rfl]
    rfl

theorem jobsFor_of_eq (hj : s'.jobs = s.jobs) : s'.jobsFor x = s.jobsFor x := by
  simp only [Shared.jobsFor, Shared.inFlight, Shared.landedCloseOuts, Shared.failedCloseOuts,
    Shared.closing, hj]

theorem jobsFor_settled {j : Nat} {ok : Bool} (hj : s.jobs[j]? = some ⟨sink, job, .inFlight⟩) :
    (s.settled j sink job ok).jobsFor x = s.jobsFor x := by
  have hflight := closing_settled x .inFlight ok hj
  have hlanded := closing_settled x .written ok hj
  have hfailed := closing_settled x .failed ok hj
  simp only [Shared.jobsFor, Shared.inFlight, Shared.landedCloseOuts, Shared.failedCloseOuts]
  cases ok with
  | true | false =>
    simp only [Handed.closing, ↓reduceIte, reduceCtorEq, List.count_nil,
      Bool.false_eq_true] at hflight hlanded hfailed
    omega

theorem Handoff.attempts_eq (p : Handoff) (o : Op) :
    (p.submits o).count x + (p.retries o).count x = o.attempt.count x := by
  simp only [Handoff.submits, Handoff.retries]
  split_ifs <;> simp

theorem jobsFor_accepted (sink : String) (job : Job) :
    ({ s with jobs := s.jobs ++ [{ sink := sink, job := job }] } : Shared).jobsFor x =
      s.jobsFor x + job.commit.submission.toList.count x := by
  have hclosing (status : JobStatus) : Handed.closing status { sink := sink, job := job } =
      if .inFlight = status then job.commit.submission.toList else [] := rfl
  simp only [Shared.jobsFor, Shared.inFlight, Shared.landedCloseOuts, Shared.failedCloseOuts,
    closing_accepted, hclosing, List.count_append, ↓reduceIte, reduceCtorEq, List.count_nil]
  omega

theorem jobsFor_exec {tid : Tid} {i : Input} {a : o.Ans} (h : exec s tid o i = some (s', a)) :
    s'.jobsFor x + (o.refusal a).count x = s.jobsFor x + o.attempt.count x := by
  cases exec_effect h with
  | accepted sink job => exact jobsFor_accepted sink job
  | refused sink job => rfl
  | quiet _ _ _ _ ho hs =>
    rw [jobsFor_of_eq hs.jobs]
    cases o with
    | enqueue => exact ho.elim
    | _ => rfl
  | _ => rfl

theorem own_exec {tid : Tid} {i : Input} {a : o.Ans} (hp : p.Allowed o)
    (h : exec s tid o i = some (s', a)) (hown : ∀ h ∈ s.jobs, h.Own) : ∀ h ∈ s'.jobs, h.Own := by
  cases exec_effect h with
  | accepted sink job =>
    intro handed hmem
    rcases List.mem_append.mp hmem with hmem | hmem
    · exact hown handed hmem
    · cases List.mem_singleton.mp hmem
      intro st k key r hc
      obtain ⟨-, hrecord, hkey, hsink, -⟩ := Handoff.MayHand.closeOut hp hc
      exact ⟨hrecord, hkey, hsink⟩
  | quiet _ _ _ _ _ hs =>
    rw [hs.jobs]
    exact hown
  | _ => exact hown

end

variable {cfg : Config} {x : Submission} {v v' : View Op.Ans Tid Shared Handoff} {d : Deed}

theorem Balanced.same (h : Balanced x v) (hs : v.shared.Same v'.shared) (hlog : v'.log = v.log) {t : Tid}
    {p : Option Handoff} (hphase : v'.phase = Function.update v.phase t p)
    (hempty : (v.phase t).elim 0 (fun p => p.hands.count x) = p.elim 0 (fun p => p.hands.count x)) :
    Balanced x v' := by
  obtain ⟨n, htotal, hsub⟩ := h.submitted
  obtain ⟨m, htotal', hm⟩ := htotal.update t p
  obtain rfl : m = n := by omega
  refine ⟨⟨m, hphase ▸ htotal', ?_⟩, ?_, ?_⟩
  · rw [hlog, placed_same hs, hsub]
  · rw [hlog, jobsFor_of_eq hs.jobs, h.attempted]
  · rw [hs.jobs]
    exact h.own

theorem Balanced.env {e : Env} {shared : Shared} (h : Balanced x v) (he : env v.shared e = some shared) :
    Balanced x { v with shared := shared } := by
  obtain ⟨n, htotal, hsub⟩ := h.submitted
  have keep (hp : shared.placed x = v.shared.placed x) (hj : shared.jobsFor x = v.shared.jobsFor x)
      (ho : ∀ h ∈ shared.jobs, h.Own) : Balanced x { v with shared := shared } :=
    ⟨⟨n, htotal, by rw [hp, hsub]⟩, by rw [hj, h.attempted], ho⟩
  cases env_effect he with
  | quiet _ _ hs => exact keep (placed_same hs) (jobsFor_of_eq hs.jobs) (by rw [hs.jobs]; exact h.own)
  | removeSink | insert => exact keep rfl rfl h.own
  | settle j ok sink job hj =>
    refine keep (placed_settled hj) (jobsFor_settled hj) ?_
    intro handed hmem
    obtain ⟨old, hold, hs, he⟩ := Shared.exists_of_settled hmem hj
    have hown := h.own old hold
    rwa [Handed.Own, hs, he] at hown

theorem Balanced.move (h : Balanced x v)
    (hm : (machine cfg).Move Handoff.protocol (fun _ => {}) (fun _ _ p => p = {}) v d v')
    (hd : d ≠ .crash) :
    Balanced x v' := by
  cases hm with
  | start t b shared code hn hs =>
    refine h.same (start_same hs) rfl rfl ?_
    rw [hn]
    rfl
  | exec t i o tr shared a hq hall _ hx =>
    obtain ⟨n, htotal, hsub⟩ := h.submitted
    obtain ⟨m, htotal', hm⟩ := htotal.update t
      (some (Handoff.protocol.next (Handoff.protocol.after {} tr) o a))
    have hplaced := placed_exec (x := x) hall hx
    have hjobs := jobsFor_exec (x := x) hx
    have hattempts := (Handoff.protocol.after {} tr).attempts_eq (x := x) o
    have hold := h.attempted
    rw [hq] at hm
    refine ⟨⟨m, htotal', ?_⟩, ?_, own_exec hall hx h.own⟩
    · simp only [submissions, List.flatMap_append, List.count_append, List.flatMap_singleton] at hsub ⊢
      simp only [Option.elim_some] at hm
      change _ + (Handoff.next _ o a).hands.count x = _ at hplaced
      change m + _ = n + (Handoff.next _ o a).hands.count x at hm
      omega
    · simp only [submissions, reattempts, refusals, List.flatMap_append, List.count_append,
        List.flatMap_singleton] at hold ⊢
      omega
  | finish t a p hq hp =>
    refine h.same (finish_same ..) rfl rfl ?_
    rw [hq, hp]
    rfl
  | env e shared he => exact h.env he
  | crash => exact absurd rfl hd

/--
Close-outs are conserved. However goroutines, refusals and commit outcomes interleave, a submission
that no goroutine is just handing over waits in the retry queue of its key, is in flight as one job,
or has landed; and each attempt after the first answers one refusal or one failed write.
-/
theorem closeOuts_conserved {s₀ : Shared} (hjobs : s₀.jobs = [])
    (hqueue : ∀ st k, s₀.closeOuts st k = []) {as : List Action} {s : System}
    (h : Runs.Run (machine cfg).step (fun _ a => a ≠ .crash) { shared := s₀ } as s) :
    (∀ x, (∀ t th, s.threads t = some th → x ∉ (Handoff.protocol.after {} th.trace).hands) →
      (submissions s.log).count x =
        s.shared.pendingCloseOuts x + s.shared.inFlight.count x + s.shared.landedCloseOuts.count x ∧
      (reattempts s.log).count x + s.shared.pendingCloseOuts x =
        (refusals s.log).count x + s.shared.failedCloseOuts.count x) ∧
    ∀ h ∈ s.shared.jobs, h.Own := by
  have hbalance (x : Submission) : Balanced x (s.view Handoff.protocol fun _ => {}) := by
    refine (Handoff.safe cfg).invariant h (fun s a d v' hi ha hd hm => hi.move hm ?_) ?_
    · rintro rfl
      exact ha (System.plain_deed hd).symm
    · have hclosing (status : JobStatus) : s₀.closing status = [] := by rw [Shared.closing, hjobs]; rfl
      refine ⟨⟨0, .idle, ?_⟩, ?_, ?_⟩
      · simp [submissions, Shared.placed, Shared.pendingCloseOuts, Shared.inFlight,
          Shared.landedCloseOuts, hclosing, hqueue]
      · simp [submissions, reattempts, refusals, Shared.jobsFor, Shared.inFlight, Shared.landedCloseOuts,
          Shared.failedCloseOuts, hclosing]
      · simp [hjobs]
  refine ⟨fun x hx => ?_, fun h hh st k key r hc => (hbalance ⟨st, k, r⟩).own h hh st k key r hc⟩
  obtain ⟨n, htotal, hsub⟩ := (hbalance x).submitted
  have hn : n = 0 := by
    refine htotal.eq_zero fun t p hp => ?_
    obtain ⟨th, hth, rfl⟩ := Option.map_eq_some_iff.mp hp
    exact List.count_eq_zero.mpr (hx t th hth)
  have hatt := (hbalance x).attempted
  simp only [System.view, Shared.placed, Shared.jobsFor] at hsub hatt
  omega

instance (a : Action) : Decidable (a = .crash) :=
  match a with
  | .crash => isTrue rfl
  | .start _ _ | .exec _ _ | .finish _ | .env _ => isFalse nofun

def refusedSteps : List Action :=
  processSteps (observeInputs (sampleObject "v" 2) ++
    [.go, .time 2, .flag false, .go, .go, .go, .time 3, .flag true]) ++
    processSteps [.lookup sampleKey (some ⟨some (sampleObject "v" 2), true⟩), .writer (some {}),
    .go, .go, .flag true,
      .policy (some none), .go, .go]

def sampleCloseOut : Submission :=
  ⟨⟨"s", 0⟩, sampleKey.cacheKey, Record.closing "c" sampleKey 2 "" "u"⟩

theorem refused_closeOut_lands : ∃ s : System, s.shared.landedCloseOuts = [sampleCloseOut] ∧
    (submissions s.log).count sampleCloseOut =
      s.shared.pendingCloseOuts sampleCloseOut + s.shared.inFlight.count sampleCloseOut +
        s.shared.landedCloseOuts.count sampleCloseOut := by
  obtain ⟨s, hrun, hland, hidle⟩ :=
    Runs.Run.exists_of_exec (machine sampleConfig).step (fun _ a => a ≠ .crash)
    { shared := {} } (addedSteps "u" 1 1 ++ landSteps 0 ++ refusedSteps ++ landSteps 2)
    (fun s => s.shared.landedCloseOuts = [sampleCloseOut] ∧
      (s.threads (.worker sampleKey)).isNone = true) (by decide)
  have idle (t : Tid) : s.threads t = none := by
    by_cases ht : t = .worker sampleKey
    · exact ht ▸ Option.isNone_iff_eq_none.mp hidle
    · exact Machine.threads_of_starts hrun (p := (· = .worker sampleKey)) (by decide) ht
  refine ⟨s, hland, ((closeOuts_conserved rfl (fun _ _ => rfl) hrun).1 sampleCloseOut ?_).1⟩
  intro t th hth
  rw [idle t] at hth
  cases hth

end Kuberecord
