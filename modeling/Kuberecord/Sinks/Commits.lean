import Kuberecord.Library.Tallies
import Kuberecord.Sinks.Batches
import Mathlib.Data.List.Nodup
import Mathlib.Data.List.Perm.Basic

namespace Kuberecord

open Tallies

variable {Row : Type} {limits : WriterLimits}

namespace Worker

variable {w : Worker Row} {jobs : List (WriteJob Row)} {closed : Bool} {move : WorkerMove}
  {turn : WorkerTurn Row}

@[simp]
theorem held_returned (last : Bool) : (returned last : Worker Row).held = [] := by cases last <;> rfl

@[simp]
theorem held_commitAll (batch : List (WriteJob Row)) (last : Bool) :
    (commitAll batch last).held = batch := by
  cases batch with
  | nil => exact held_returned last
  | cons => rfl

@[simp]
theorem held_isolate (batch : List (WriteJob Row)) (last : Bool) :
    (isolate batch last).held = batch := by
  cases batch with
  | nil => exact held_returned last
  | cons => rfl

inductive Turn (limits : WriterLimits) (jobs : List (WriteJob Row)) (closed : Bool) : Worker Row →
    WorkerTurn Row → Prop
  | receive (batch : List (WriteJob Row)) (timer timer' : Bool) (job : WriteJob Row)
      (rest : List (WriteJob Row)) :
      jobs = job :: rest → batch.length + 1 < limits.batchMaxRows →
      Turn limits jobs closed (.selecting batch timer)
      { worker := .selecting (batch ++ [job]) timer', jobs := rest }
  | fill (batch : List (WriteJob Row)) (timer : Bool) (job : WriteJob Row) (rest : List (WriteJob Row)) :
      jobs = job :: rest → limits.batchMaxRows ≤ batch.length + 1 →
      Turn limits jobs closed (.selecting batch timer) { worker := .sending (batch ++ [job]) false, jobs := rest }
  | drained (timer : Bool) : closed = true → jobs = [] →
      Turn limits jobs closed (.selecting [] timer) { worker := .done, jobs := jobs }
  | flushLast (batch : List (WriteJob Row)) (timer : Bool) : closed = true → jobs = [] →
      Turn limits jobs closed (.selecting batch timer) { worker := .sending batch true, jobs := jobs }
  | timer (batch : List (WriteJob Row)) (timer : Bool) :
      Turn limits jobs closed (.selecting batch timer) { worker := .sending batch false, jobs := jobs }
  | inserted (batch : List (WriteJob Row)) (last : Bool) :
      Turn limits jobs closed (.sending batch last)
        { worker := commitAll batch last, jobs := jobs, attempt := some ⟨batch, none⟩ }
  | failed (batch : List (WriteJob Row)) (last : Bool) (err : String) :
      Turn limits jobs closed (.sending batch last)
        { worker := .failed batch last, jobs := jobs, attempt := some ⟨batch, some err⟩ }
  | again (batch : List (WriteJob Row)) (last : Bool) :
      Turn limits jobs closed (.failed batch last) { worker := .sending batch last, jobs := jobs }
  | exhausted (batch : List (WriteJob Row)) (last : Bool) :
      Turn limits jobs closed (.failed batch last) { worker := isolate batch last, jobs := jobs }
  | commit (job : WriteJob Row) (batch : List (WriteJob Row)) (last : Bool) :
      Turn limits jobs closed (.committing (job :: batch) last)
        { worker := commitAll batch last, jobs := jobs, settled := some (job, true) }
  | single (job : WriteJob Row) (batch : List (WriteJob Row)) (last : Bool) (err : Option String) :
      Turn limits jobs closed (.isolating (job :: batch) last)
        { worker := .blaming job err.isNone batch last, jobs := jobs, attempt := some ⟨[job], err⟩ }
  | settle (job : WriteJob Row) (ok : Bool) (batch : List (WriteJob Row)) (last : Bool) :
      Turn limits jobs closed (.blaming job ok batch last)
        { worker := isolate batch last, jobs := jobs, settled := some (job, ok) }

theorem step_cases (h : w.step limits jobs closed move = some turn) :
    Turn limits jobs closed w turn := by
  cases w with
  | selecting batch timer =>
    cases move with
    | receive =>
      cases jobs with
      | nil => cases h
      | cons job jobs =>
        simp only [step] at h
        split_ifs at h with hfull
        · cases h
          exact .fill _ _ _ _ rfl (by simpa using hfull)
        · cases h
          exact .receive _ _ _ _ _ rfl (by simpa using hfull)
    | drained =>
      simp only [step, Option.ite_none_right_eq_some, Option.some.injEq, List.isEmpty_iff] at h
      obtain ⟨⟨hc, hj⟩, rfl⟩ := h
      split_ifs with hb
      · exact hb ▸ .drained timer hc hj
      · exact .flushLast batch timer hc hj
    | timer =>
      simp only [step, Option.ite_none_right_eq_some, Option.some.injEq] at h
      exact h.2 ▸ .timer batch timer
    | _ => cases h
  | sending batch last =>
    cases move with
    | attempt d =>
      cases h
      cases he : sendBatchOnce d batch with
      | none => exact .inserted batch last
      | some err => exact .failed batch last err
    | _ => cases h
  | failed batch last =>
    cases move with
    | again =>
      cases h
      exact .again batch last
    | exhausted =>
      cases h
      exact .exhausted batch last
    | _ => cases h
  | committing batch last =>
    cases batch with
    | nil => cases move <;> cases h
    | cons job batch =>
      cases move with
      | commit =>
        cases h
        exact .commit job batch last
      | _ => cases h
  | isolating batch last =>
    cases batch with
    | nil => cases move <;> cases h
    | cons job batch =>
      cases move with
      | attempt d =>
        cases h
        exact .single job batch last _
      | _ => cases h
  | blaming job ok batch last =>
    cases move with
    | commit =>
      cases h
      exact .settle job ok batch last
    | _ => cases h
  | done => cases move <;> cases h

theorem Turn.perm (h : Turn limits jobs closed w turn) :
    (jobs ++ w.held).Perm (turn.jobs ++ turn.worker.held ++ turn.settled.toList.map Prod.fst) := by
  have shift (jobs batch : List (WriteJob Row)) (job : WriteJob Row) :
      (jobs ++ job :: batch).Perm (jobs ++ batch ++ [job]) :=
    List.perm_middle.trans (List.perm_append_singleton job _).symm
  cases h with
  | receive batch _ _ job rest hj | fill batch _ job rest hj =>
    subst hj
    simpa [held] using shift [] (rest ++ batch) job
  | inserted batch last =>
    rw [held_commitAll]
    simp [held]
  | exhausted batch last =>
    rw [held_isolate]
    simp [held]
  | drained | flushLast | timer | failed | again | single => simp [held]
  | commit job batch last =>
    rw [held_commitAll]
    exact shift jobs batch job
  | settle job ok batch last =>
    rw [held_isolate]
    exact shift jobs batch job

theorem Turn.rows {a : Attempt Row} (h : Turn limits jobs closed w turn) (ha : turn.attempt = some a) :
    ∀ job ∈ a.rows, job ∈ w.held := by
  cases h with
  | inserted | failed =>
    cases ha
    exact fun _ hj => hj
  | single =>
    cases ha
    exact fun _ hj => List.mem_cons.mpr (.inl (List.mem_singleton.mp hj))
  | _ => cases ha

end Worker

def CallPhase.sent : CallPhase → Bool
  | .leaving none | .returned none => true
  | _ => false

def EnqueueCall.handed (c : EnqueueCall Row) : List (WriteJob Row) :=
  if c.phase.sent then [c.job] else []

namespace CHWriter

def sentJobs (s : CHWriter Row) : List (WriteJob Row) := s.calls.flatMap EnqueueCall.handed

def places (s : CHWriter Row) : List (WriteJob Row) :=
  s.jobs ++ s.workers.flatMap Worker.held ++ s.settled.map Prod.fst

def handled (s : CHWriter Row) (i : Nat) (turn : WorkerTurn Row) : CHWriter Row :=
  { s with
    jobs := turn.jobs
    workers := s.workers.set i turn.worker
    attempts := s.attempts ++ turn.attempt.toList
    settled := s.settled ++ turn.settled.toList }

inductive Move (limits : WriterLimits) (s : CHWriter Row) : CHWriter Row → Prop
  | enqueue (args : Row) (commit : Bool) (phase : CallPhase) : phase.sent = false →
      (s.closing = true → phase.isReturned = true) →
      Move limits s { s with calls := s.calls ++ [⟨⟨s.calls.length, args, commit⟩, phase⟩] }
  | rephase (n : Nat) (c : EnqueueCall Row) (phase : CallPhase) : s.calls[n]? = some c →
      c.phase.isReturned = false →
      c.phase.sent = phase.sent → Move limits s (s.setPhase n c phase)
  | send (n : Nat) (c : EnqueueCall Row) : s.calls[n]? = some c → c.phase = .sending →
      Move limits s { s.setPhase n c (.leaving none) with jobs := s.jobs ++ [c.job] }
  | start : s.started = false →
      Move limits s { s with started := true, workers := List.replicate limits.workers (.selecting [] false) }
  | cancel : Move limits s { s with cancelled := true }
  | close : s.started = true → Move limits s { s with closing := true }
  | closeJobs : s.closing = true → (∀ c ∈ s.calls, c.phase.isReturned = true) →
      Move limits s { s with closed := true }
  | worker (i : Nat) (w : Worker Row) (turn : WorkerTurn Row) : s.workers[i]? = some w →
      Worker.Turn limits s.jobs s.closed w turn → Move limits s (s.handled i turn)
  | finish : s.closed = true → (∀ w ∈ s.workers, w.isDone = true) →
      Move limits s { s with returned := true }

variable {s s' : CHWriter Row}

theorem step_cases {a : WriterStep Row} (h : s.step limits a = some s') : Move limits s s' := by
  cases a with
  | enqueue args commit =>
    cases h
    refine .enqueue args commit _ ?_ fun hc => ?_
    · split_ifs <;> rfl
    · rw [if_pos hc]
      rfl
  | send n =>
    simp only [step] at h
    split at h
    · rename_i c hc
      split_ifs at h with hs
      cases h
      exact .send n c hc hs.1
    · cases h
  | giveUp n cause =>
    simp only [step] at h
    split at h
    · rename_i c hc
      split_ifs at h with hs
      cases h
      exact .rephase n c _ hc (by rw [hs]; rfl) (by rw [hs]; rfl)
    · cases h
  | leave n =>
    simp only [step] at h
    split at h
    · rename_i job err hc
      cases h
      exact .rephase n _ _ hc rfl (by cases err <;> rfl)
    · cases h
  | start =>
    simp only [step, Option.ite_none_left_eq_some, Option.some.injEq, Bool.not_eq_true] at h
    exact h.2 ▸ .start h.1
  | cancel =>
    cases h
    exact .cancel
  | close =>
    simp only [step, Option.ite_none_right_eq_some, Option.some.injEq] at h
    exact h.2 ▸ .close h.1.1
  | closeJobs =>
    simp only [step, Option.ite_none_right_eq_some, Option.some.injEq, List.all_eq_true] at h
    exact h.2 ▸ .closeJobs h.1.1 h.1.2
  | worker i move =>
    simp only [step] at h
    split at h
    · rename_i w hw
      obtain ⟨turn, ht, rfl⟩ := Option.map_eq_some_iff.mp h
      exact .worker i w turn hw (Worker.step_cases ht)
    · cases h
  | finish =>
    simp only [step, Option.ite_none_right_eq_some, Option.some.injEq, List.all_eq_true] at h
    exact h.2 ▸ .finish h.1.1 h.1.2

structure Kept (s : CHWriter Row) : Prop where
  perm : s.places.Perm s.sentJobs
  numbers : s.calls.map (·.job.call) = List.range s.calls.length
  idle : s.started = false → s.workers = []

theorem numbers_setPhase {n : Nat} {c : EnqueueCall Row} (hc : s.calls[n]? = some c)
    (phase : CallPhase) :
    (s.setPhase n c phase).calls.map (·.job.call) = s.calls.map (·.job.call) := by
  obtain ⟨hn, rfl⟩ := List.getElem?_eq_some_iff.mp hc
  refine List.ext_getElem (by simp [setPhase]) fun i hi _ => ?_
  by_cases hni : n = i
  · subst hni
    simp [setPhase]
  · simp [setPhase, hni]

theorem sentJobs_setPhase {n : Nat} {c : EnqueueCall Row} (hc : s.calls[n]? = some c)
    (phase : CallPhase) :
    ((s.setPhase n c phase).sentJobs ++ c.handed).Perm
    (s.sentJobs ++ EnqueueCall.handed { c with phase := phase }) :=
  perm_flatMap_set _ hc

theorem places_handled {i : Nat} {w : Worker Row} {turn : WorkerTurn Row} (hw : s.workers[i]? = some w)
    (ht : Worker.Turn limits s.jobs s.closed w turn) : (s.handled i turn).places.Perm s.places := by
  have hset := perm_flatMap_set Worker.held (b := turn.worker) hw
  have hturn := ht.perm
  classical
  rw [List.perm_iff_count] at hset hturn ⊢
  intro job
  have hset := hset job
  have hturn := hturn job
  simp only [places, CHWriter.handled, List.count_append, List.map_append] at hset hturn ⊢
  omega

theorem Kept.step (h : s.Kept) (hst : Move limits s s') : s'.Kept := by
  cases hst with
  | enqueue args commit phase hsent =>
    refine ⟨?_, ?_, h.idle⟩
    · have hnone : EnqueueCall.handed ⟨⟨s.calls.length, args, commit⟩, phase⟩ = [] :=
        by simp [EnqueueCall.handed, hsent]
      simpa [sentJobs, places, hnone] using h.perm
    · simp [h.numbers, List.range_succ]
  | rephase n c phase hc _ hsent =>
    refine ⟨h.perm.trans ?_, ?_, h.idle⟩
    · have hsame : EnqueueCall.handed { c with phase := phase } = c.handed :=
        by simp [EnqueueCall.handed, hsent]
      have hp := sentJobs_setPhase hc phase
      rw [hsame] at hp
      exact ((List.perm_append_right_iff _).mp hp).symm
    · rw [numbers_setPhase hc, h.numbers]
      simp [setPhase]
  | send n c hc hsend =>
    refine ⟨?_, ?_, h.idle⟩
    · have hjobs := sentJobs_setPhase hc (.leaving none)
      have hnone : c.handed = [] := by simp [EnqueueCall.handed, hsend, CallPhase.sent]
      have hsome : EnqueueCall.handed { c with phase := .leaving none } = [c.job] := rfl
      rw [hnone, hsome, List.append_nil] at hjobs
      have hplaces : (s.jobs ++ [c.job] ++ s.workers.flatMap Worker.held ++ s.settled.map Prod.fst).Perm
          (s.places ++ [c.job]) := by
        classical
        refine List.perm_iff_count.mpr fun job => ?_
        simp only [places, List.count_append]
        omega
      exact hplaces.trans ((h.perm.append_right _).trans hjobs.symm)
    · exact (numbers_setPhase hc _).trans (h.numbers.trans (by simp [setPhase]))
  | start hs =>
    refine ⟨?_, h.numbers, fun hs => (by cases hs)⟩
    have hheld : (List.replicate limits.workers (Worker.selecting [] false : Worker Row)).flatMap
      Worker.held = [] := by
      simp [List.flatMap_replicate, Worker.held]
    simpa [places, sentJobs, h.idle hs, hheld] using h.perm
  | cancel | closeJobs | finish | close => exact ⟨h.perm, h.numbers, h.idle⟩
  | worker i w turn hw ht =>
    refine ⟨(places_handled hw ht).trans h.perm, h.numbers, fun hs => ?_⟩
    simp [h.idle hs] at hw

theorem sentJobs_sublist (s : CHWriter Row) :
    (s.sentJobs.map WriteJob.call).Sublist (s.calls.map (·.job.call)) := by
  unfold sentJobs
  induction s.calls with
  | nil => simp
  | cons c calls ih =>
    rw [List.flatMap_cons, List.map_append, List.map_cons, EnqueueCall.handed]
    split_ifs
    · exact ih.cons_cons c.job.call
    · exact ih.cons c.job.call

theorem Kept.nodup (h : s.Kept) : (s.places.map WriteJob.call).Nodup := by
  refine (h.perm.map _).nodup_iff.mpr (s.sentJobs_sublist.nodup ?_)
  rw [h.numbers]
  exact List.nodup_range

theorem Kept.apart (h : s.Kept) {i k : Nat} {w w' : Worker Row} (hw : s.workers[i]? = some w)
    (hw' : s.workers[k]? = some w') (hne : i ≠ k) :
    (w.held.map WriteJob.call).Disjoint (w'.held.map WriteJob.call) := by
  have hnodup := h.nodup
  rw [places, List.map_append, List.map_append, List.map_flatMap] at hnodup
  have hpair := (List.nodup_flatMap.mp (List.nodup_append.mp (List.nodup_append.mp hnodup).1).2.1).2
  obtain ⟨hi, rfl⟩ := List.getElem?_eq_some_iff.mp hw
  obtain ⟨hk, rfl⟩ := List.getElem?_eq_some_iff.mp hw'
  rcases Nat.lt_or_gt_of_ne hne with hlt | hgt
  · exact List.pairwise_iff_getElem.mp hpair i k hi hk hlt
  · exact (List.pairwise_iff_getElem.mp hpair k i hk hi hgt).symm

theorem Kept.apart_settled (h : s.Kept) {i : Nat} {w : Worker Row} (hw : s.workers[i]? = some w) :
    (w.held.map WriteJob.call).Disjoint (s.settled.map (·.1.call)) := by
  have hnodup := h.nodup
  rw [places, List.map_append, List.map_append, List.map_map] at hnodup
  intro n hn hs
  refine (List.nodup_append.mp hnodup).2.2 n (List.mem_append_right _ ?_) n hs rfl
  obtain ⟨job, hj, rfl⟩ := List.mem_map.mp hn
  exact List.mem_map_of_mem (List.mem_flatMap.mpr ⟨w, List.mem_of_getElem? hw, hj⟩)

end CHWriter

end Kuberecord
