import Kuberecord.Sinks.Commits

namespace Kuberecord

variable {Row : Type} {limits : WriterLimits}

def verdict (attempts : List (Attempt Row)) (n : Nat) : Option Bool :=
  (attempts.filter fun a => n ∈ a.rows.map WriteJob.call).getLast?.map (·.err.isNone)

theorem verdict_snoc (attempts : List (Attempt Row)) (a : Attempt Row) (n : Nat) :
    verdict (attempts ++ [a]) n =
    if n ∈ a.rows.map WriteJob.call then some a.err.isNone else verdict attempts n := by
  unfold verdict
  by_cases h : n ∈ a.rows.map WriteJob.call
  · simp only [h, List.filter_append, decide_true, List.filter_cons_of_pos, List.filter_nil,
      List.getLast?_append, List.getLast?_singleton, Option.some_or, Option.map_some, if_true]
  · simp only [h, List.filter_append, decide_false, Bool.false_eq_true, not_false_eq_true,
      List.filter_cons_of_neg, List.filter_nil, List.append_nil, if_false]

namespace Worker

variable {w : Worker Row} {jobs : List (WriteJob Row)} {closed : Bool} {turn : WorkerTurn Row}
  {attempts : List (Attempt Row)}

def Judged (attempts : List (Attempt Row)) : Worker Row → Prop
  | .committing batch _ => ∀ job ∈ batch, verdict attempts job.call = some true
  | .blaming job ok _ _ => verdict attempts job.call = some ok
  | _ => True

theorem Judged.congr {attempts' : List (Attempt Row)} (h : w.Judged attempts)
    (hv : ∀ job ∈ w.held, verdict attempts' job.call = verdict attempts job.call) :
    w.Judged attempts' := by
  cases w with
  | committing batch last => exact fun job hj => (hv job hj).trans (h job hj)
  | blaming job ok batch last => exact (hv job (.head _)).trans h
  | _ => trivial

theorem judged_returned (last : Bool) : (returned last : Worker Row).Judged attempts :=
  by cases last <;> trivial

theorem judged_isolate (batch : List (WriteJob Row)) (last : Bool) :
    (isolate batch last).Judged attempts := by
  cases batch with
  | nil => exact judged_returned last
  | cons => trivial

theorem judged_commitAll {batch : List (WriteJob Row)} (last : Bool)
    (h : ∀ job ∈ batch, verdict attempts job.call = some true) :
    (commitAll batch last).Judged attempts := by
  cases batch with
  | nil => exact judged_returned last
  | cons => exact h

theorem Turn.judged (h : Turn limits jobs closed w turn) (hw : w.Judged attempts) :
    turn.worker.Judged (attempts ++ turn.attempt.toList) ∧
      ∀ p ∈ turn.settled, verdict (attempts ++ turn.attempt.toList) p.1.call = some p.2 := by
  cases h with
  | inserted batch last =>
    refine ⟨judged_commitAll last fun job hj => ?_, fun _ hp => (by cases hp)⟩
    exact (verdict_snoc ..).trans (if_pos (List.mem_map_of_mem hj))
  | single job batch last err =>
    exact ⟨(verdict_snoc ..).trans (if_pos (.head _)), fun _ hp => (by cases hp)⟩
  | commit job batch last =>
    simp only [Option.toList_none, List.append_nil]
    refine ⟨judged_commitAll last fun job hj => hw job (.tail _ hj), ?_⟩
    rintro _ ⟨⟩
    exact hw job (.head _)
  | settle job ok batch last =>
    simp only [Option.toList_none, List.append_nil]
    refine ⟨judged_isolate batch last, ?_⟩
    rintro _ ⟨⟩
    exact hw
  | exhausted batch last => exact ⟨judged_isolate batch last, fun _ hp => (by cases hp)⟩
  | receive | fill | drained | flushLast | timer | failed | again =>
    exact ⟨trivial, fun _ hp => (by cases hp)⟩

def Fits (max : Nat) : Worker Row → Prop
  | .selecting batch _ => batch.length < max
  | w => w.held.length ≤ max

theorem Fits.length_le {max : Nat} (h : w.Fits max) : w.held.length ≤ max := by
  cases w with
  | selecting batch timer => exact Nat.le_of_lt h
  | _ => exact h

theorem fits_returned {max : Nat} (hmax : 1 ≤ max) (last : Bool) :
    (returned last : Worker Row).Fits max := by
  cases last with
  | true => exact Nat.zero_le _
  | false => exact hmax

theorem fits_isolate {max : Nat} (hmax : 1 ≤ max) {batch : List (WriteJob Row)}
    (h : batch.length ≤ max) (last : Bool) :
    (isolate batch last).Fits max := by
  cases batch with
  | nil => exact fits_returned hmax last
  | cons => exact h

theorem fits_commitAll {max : Nat} (hmax : 1 ≤ max) {batch : List (WriteJob Row)}
    (h : batch.length ≤ max) (last : Bool) :
    (commitAll batch last).Fits max := by
  cases batch with
  | nil => exact fits_returned hmax last
  | cons => exact h

theorem Turn.fits (h : Turn limits jobs closed w turn) (hmax : 1 ≤ limits.batchMaxRows)
    (hw : w.Fits limits.batchMaxRows) : turn.worker.Fits limits.batchMaxRows ∧
      ∀ a ∈ turn.attempt, a.rows.length ≤ limits.batchMaxRows := by
  have none {p : Attempt Row → Prop} : ∀ a ∈ (none : Option (Attempt Row)), p a :=
    fun _ ha => by cases ha
  cases h with
  | receive batch _ _ job rest _ hlt => exact ⟨by simpa [Fits] using hlt, none⟩
  | fill batch _ job rest => exact ⟨(List.length_append ..).trans_le hw, none⟩
  | drained => exact ⟨Nat.zero_le _, none⟩
  | flushLast | timer => exact ⟨hw.length_le, none⟩
  | inserted batch last =>
    refine ⟨fits_commitAll hmax hw.length_le last, ?_⟩
    rintro _ ⟨⟩
    exact hw.length_le
  | failed batch last err =>
    refine ⟨hw, ?_⟩
    rintro _ ⟨⟩
    exact hw.length_le
  | again => exact ⟨hw, none⟩
  | exhausted batch last => exact ⟨fits_isolate hmax hw.length_le last, none⟩
  | commit job batch last => exact ⟨fits_commitAll hmax (Nat.le_of_succ_le hw.length_le) last, none⟩
  | single job batch last err =>
    refine ⟨hw, ?_⟩
    rintro _ ⟨⟩
    exact hmax
  | settle job ok batch last => exact ⟨fits_isolate hmax (Nat.le_of_succ_le hw.length_le) last, none⟩

def Last : Worker Row → Bool
  | .selecting _ _ => false
  | .sending _ last | .failed _ last | .committing _ last | .isolating _ last
  | .blaming _ _ _ last => last
  | .done => true

theorem last_returned (last : Bool) : (returned last : Worker Row).Last = last := by cases last <;> rfl

theorem last_isolate (batch : List (WriteJob Row)) (last : Bool) : (isolate batch last).Last = last := by
  cases batch with
  | nil => exact last_returned last
  | cons => rfl

theorem last_commitAll (batch : List (WriteJob Row)) (last : Bool) :
    (commitAll batch last).Last = last := by
  cases batch with
  | nil => exact last_returned last
  | cons => rfl

theorem Turn.last (h : Turn limits jobs closed w turn) : (jobs = [] → turn.jobs = []) ∧
    (turn.worker.Last = true → w.Last = true ∨ closed = true ∧ jobs = []) := by
  cases h with
  | receive _ _ _ _ _ hj | fill _ _ _ _ hj =>
    exact ⟨fun he => by simp [hj] at he, fun hl => (by cases hl)⟩
  | drained _ hc hj | flushLast _ _ hc hj => exact ⟨id, fun _ => .inr ⟨hc, hj⟩⟩
  | timer => exact ⟨id, fun hl => (by cases hl)⟩
  | inserted batch last | commit job batch last =>
    exact ⟨id, fun hl => .inl (by rwa [last_commitAll] at hl)⟩
  | exhausted batch last | settle job ok batch last =>
    exact ⟨id, fun hl => .inl (by rwa [last_isolate] at hl)⟩
  | failed | again | single => exact ⟨id, .inl⟩

theorem held_of_done (h : w.isDone = true) : w.held = [] := by
  cases w with
  | done => rfl
  | _ => cases h

theorem not_turn_of_done (h : w.isDone = true) : ¬ Turn limits jobs closed w turn := by
  rintro (_ | _)
  all_goals cases h

end Worker

namespace CHWriter

structure Sound (limits : WriterLimits) (s : CHWriter Row) : Prop where
  kept : s.Kept
  settled : ∀ p ∈ s.settled, verdict s.attempts p.1.call = some p.2
  judged : ∀ w ∈ s.workers, w.Judged s.attempts
  sent : ∀ a ∈ s.attempts, ∀ job ∈ a.rows, job ∈ s.sentJobs
  sized : ∀ a ∈ s.attempts, a.rows.length ≤ limits.batchMaxRows
  fits : ∀ w ∈ s.workers, w.Fits limits.batchMaxRows
  drained : ∀ w ∈ s.workers, w.Last = true → s.closed = true ∧ s.jobs = []
  closed : s.closed = true → s.closing = true ∧ ∀ c ∈ s.calls, c.phase.isReturned = true
  staffed : s.started = true → s.workers.length = limits.workers
  started : s.closing = true → s.started = true
  returned : s.returned = true → s.closed = true ∧ ∀ w ∈ s.workers, w.isDone = true

variable {s s' : CHWriter Row}

theorem mem_set {i : Nat} {w w' : Worker Row} (h : w' ∈ s.workers.set i w) :
    w' = w ∨ ∃ k, k ≠ i ∧ s.workers[k]? = some w' := by
  obtain ⟨k, hk⟩ := List.mem_iff_getElem?.mp h
  rw [List.getElem?_set] at hk
  split_ifs at hk with hik
  · exact .inl (Option.some.inj hk).symm
  · exact .inr ⟨k, fun he => hik he.symm, hk⟩

theorem verdict_turn {turn : WorkerTurn Row} {n : Nat}
    (h : ∀ a ∈ turn.attempt, n ∉ a.rows.map WriteJob.call) :
    verdict (s.attempts ++ turn.attempt.toList) n = verdict s.attempts n := by
  cases ha : turn.attempt with
  | none => simp
  | some a => exact (verdict_snoc ..).trans (if_neg (h a ha))

theorem Sound.handled (h : s.Sound limits) (hmax : 1 ≤ limits.batchMaxRows) {i : Nat} {w : Worker Row}
    {turn : WorkerTurn Row} (hw : s.workers[i]? = some w)
    (ht : Worker.Turn limits s.jobs s.closed w turn) :
    (s.handled i turn).Sound limits := by
  have hmem := List.mem_of_getElem? hw
  have hjudged := ht.judged (h.judged w hmem)
  have hfits := ht.fits hmax (h.fits w hmem)
  have rows {a : Attempt Row} (ha : a ∈ turn.attempt) {n : Nat} (hn : n ∈ a.rows.map WriteJob.call) :
      n ∈ w.held.map WriteJob.call := by
    obtain ⟨job, hj, rfl⟩ := List.mem_map.mp hn
    exact List.mem_map_of_mem (ht.rows ha job hj)
  have workers {P : Worker Row → Prop} (hP : ∀ w ∈ s.workers, P w) (hturn : P turn.worker) :
      ∀ w ∈ s.workers.set i turn.worker, P w := by
    intro w' hw'
    rcases mem_set hw' with rfl | ⟨k, -, hk⟩
    · exact hturn
    · exact hP w' (List.mem_of_getElem? hk)
  refine ⟨h.kept.step (.worker i w turn hw ht), ?_, ?_, ?_, ?_, workers h.fits hfits.1, ?_,
    h.closed, ?_, h.started, ?_⟩
  · intro p hp
    rcases List.mem_append.mp hp with hp | hp
    · refine (verdict_turn fun a ha hn => ?_).trans (h.settled p hp)
      exact h.kept.apart_settled hw (rows ha hn) (List.mem_map_of_mem hp)
    · exact hjudged.2 p (Option.mem_toList.mp hp)
  · intro w' hw'
    rcases mem_set hw' with rfl | ⟨k, hki, hk⟩
    · exact hjudged.1
    · refine (h.judged w' (List.mem_of_getElem? hk)).congr fun job hj => verdict_turn fun a ha hn => ?_
      exact h.kept.apart hw hk (Ne.symm hki) (rows ha hn) (List.mem_map_of_mem hj)
  · intro a ha job hj
    rcases List.mem_append.mp ha with ha | ha
    · exact h.sent a ha job hj
    · refine h.kept.perm.mem_iff.mp (List.mem_append_left _ (List.mem_append_right _ ?_))
      exact List.mem_flatMap.mpr ⟨w, hmem, ht.rows (Option.mem_toList.mp ha) job hj⟩
  · intro a ha
    rcases List.mem_append.mp ha with ha | ha
    · exact h.sized a ha
    · exact hfits.2 a (Option.mem_toList.mp ha)
  · intro w' hw' hl
    have hempty : s.closed = true ∧ s.jobs = [] := by
      rcases mem_set hw' with rfl | ⟨k, -, hk⟩
      · exact (ht.last.2 hl).elim (h.drained w hmem) id
      · exact h.drained w' (List.mem_of_getElem? hk) hl
    exact ⟨hempty.1, ht.last.1 hempty.2⟩
  · exact fun hs => List.length_set.trans (h.staffed hs)
  · exact fun hr => absurd ht (Worker.not_turn_of_done ((h.returned hr).2 w hmem))

theorem Sound.step (h : s.Sound limits) (hmax : 1 ≤ limits.batchMaxRows) (hst : Move limits s s') :
    s'.Sound limits := by
  have hkept := h.kept.step hst
  cases hst with
  | enqueue args commit phase hsent hret =>
    refine ⟨hkept, h.settled, h.judged, fun a ha job hj => ?_, h.sized, h.fits, h.drained,
      fun hc => ?_, h.staffed,
      h.started, h.returned⟩
    · have hmem := h.sent a ha job hj
      simp only [sentJobs, List.flatMap_append] at hmem ⊢
      exact List.mem_append_left _ hmem
    · refine ⟨(h.closed hc).1, fun c hc' => ?_⟩
      rcases List.mem_append.mp hc' with hc' | hc'
      · exact (h.closed hc).2 c hc'
      · rw [List.mem_singleton.mp hc']
        exact hret (h.closed hc).1
  | rephase n c phase hc hret =>
    have hopen : ¬ s.closed = true :=
      fun hcl => by simp [(h.closed hcl).2 c (List.mem_of_getElem? hc)] at hret
    exact ⟨hkept, h.settled, h.judged,
      fun a ha job hj => hkept.perm.mem_iff.mp (h.kept.perm.mem_iff.mpr (h.sent a ha job hj)),
      h.sized, h.fits, h.drained,
      fun hcl => absurd hcl hopen, h.staffed, h.started, h.returned⟩
  | send n c hc hsend =>
    have hopen : ¬ s.closed = true := fun hcl => by
      simpa [hsend, CallPhase.isReturned] using (h.closed hcl).2 c (List.mem_of_getElem? hc)
    refine ⟨hkept, h.settled, h.judged, fun a ha job hj => hkept.perm.mem_iff.mp ?_, h.sized, h.fits,
      fun w hw hl => absurd (h.drained w hw hl).1 hopen, fun hcl => absurd hcl hopen, h.staffed,
      h.started, h.returned⟩
    have hmem := h.kept.perm.mem_iff.mpr (h.sent a ha job hj)
    simp only [places, setPhase, List.mem_append] at hmem ⊢
    exact hmem.imp_left (Or.imp_left .inl)
  | start hs =>
    have hopen : ¬ s.closed = true := fun hcl => by simp [h.started (h.closed hcl).1] at hs
    have hnew {P : Worker Row → Prop} (hP : P (.selecting [] false)) :
        ∀ w ∈ List.replicate limits.workers (.selecting [] false), P w :=
      fun w hw => List.eq_of_mem_replicate hw ▸ hP
    exact ⟨hkept, h.settled, hnew trivial, h.sent, h.sized, hnew hmax, hnew
      fun hl => (by cases hl), h.closed,
      fun _ => List.length_replicate, fun _ => rfl, fun hr => absurd (h.returned hr).1 hopen⟩
  | cancel =>
    exact ⟨hkept, h.settled, h.judged, h.sent, h.sized, h.fits, h.drained, h.closed, h.staffed,
      h.started, h.returned⟩
  | close hs =>
    exact ⟨hkept, h.settled, h.judged, h.sent, h.sized, h.fits, h.drained,
      fun hc => ⟨rfl, (h.closed hc).2⟩, h.staffed,
      fun _ => hs, h.returned⟩
  | closeJobs hc hall =>
    exact ⟨hkept, h.settled, h.judged, h.sent, h.sized, h.fits,
      fun w hw hl => ⟨rfl, (h.drained w hw hl).2⟩,
      fun _ => ⟨hc, hall⟩, h.staffed, h.started, fun hr => ⟨rfl, (h.returned hr).2⟩⟩
  | worker i w turn hw ht => exact h.handled hmax hw ht
  | finish hc hall =>
    exact ⟨hkept, h.settled, h.judged, h.sent, h.sized, h.fits, h.drained, h.closed,
      h.staffed, h.started,
      fun _ => ⟨hc, hall⟩⟩

theorem Sound.empty : ({} : CHWriter Row).Sound limits where
  kept := ⟨.nil, rfl, fun _ => rfl⟩
  settled _ h := by cases h
  judged _ h := by cases h
  sent _ h := by cases h
  sized _ h := by cases h
  fits _ h := by cases h
  drained _ h := by cases h
  closed h := by cases h
  staffed h := by cases h
  started h := by cases h
  returned h := by cases h

theorem Sound.commits_le (h : s.Sound limits) (n : Nat) : (s.commits n).length ≤ 1 := by
  have hnodup : (s.settled.map (·.1.call)).Nodup := by
    have hplaces := h.kept.nodup
    rw [places, List.map_append, List.map_map] at hplaces
    exact (List.nodup_append.mp hplaces).2.1
  have hsub := ((s.settled.filter_sublist (p := fun p => p.1.call = n ∧ p.1.commit)).map
    (·.1.call)).nodup hnodup
  rw [List.eq_replicate_of_mem (a := n) (l := List.map _ _), List.nodup_replicate,
    List.length_map] at hsub
  · rwa [commits, List.length_map]
  · intro m hm
    obtain ⟨p, hp, rfl⟩ := List.mem_map.mp hm
    exact (of_decide_eq_true (List.mem_filter.mp hp).2).1

theorem Sound.call_eq (h : s.Sound limits) {n : Nat} {c : EnqueueCall Row} (hc : s.calls[n]? = some c) :
    c.job.call = n := by
  have hn := congrArg (·[n]?) h.kept.numbers
  obtain ⟨hlt, rfl⟩ := List.getElem?_eq_some_iff.mp hc
  simpa [hlt] using hn

theorem Sound.all_settled (h : s.Sound limits) (hworkers : 1 ≤ limits.workers) (hr : s.returned = true) :
    (s.settled.map Prod.fst).Perm s.sentJobs := by
  obtain ⟨hclosed, hdone⟩ := h.returned hr
  have hlen := h.staffed (h.started (h.closed hclosed).1)
  obtain ⟨w, hw⟩ := List.exists_mem_of_length_pos (l := s.workers) (by omega)
  have hlast : w.Last = true := by
    have := hdone w hw
    cases w with
    | done => rfl
    | _ => cases this
  have hjobs := (h.drained w hw hlast).2
  have hheld : s.workers.flatMap Worker.held = [] :=
    List.flatMap_eq_nil_iff.mpr fun w hw => Worker.held_of_done (hdone w hw)
  simpa [places, hjobs, hheld] using h.kept.perm

theorem Sound.committed (h : s.Sound limits) (hworkers : 1 ≤ limits.workers)
    (hr : s.returned = true) {n : Nat} {c : EnqueueCall Row} (hc : s.calls[n]? = some c)
    (hok : c.phase = .returned none) (hcommit : c.job.commit = true) :
    ∃ ok, s.commits n = [ok] := by
  have hsent : c.job ∈ s.sentJobs :=
    List.mem_flatMap.mpr ⟨c, List.mem_of_getElem? hc, by simp [EnqueueCall.handed, hok, CallPhase.sent]⟩
  obtain ⟨p, hp, hjob⟩ := List.mem_map.mp ((h.all_settled hworkers hr).mem_iff.mpr hsent)
  have hmem : p.2 ∈ s.commits n := by
    refine List.mem_map_of_mem (List.mem_filter.mpr ⟨hp, ?_⟩)
    simp [hjob, h.call_eq hc, hcommit]
  refine List.length_eq_one_iff.mp (Nat.le_antisymm (h.commits_le n) ?_)
  exact List.length_pos_of_mem hmem

theorem Sound.verdict_of_commit (h : s.Sound limits) {n : Nat} {ok : Bool} (hok : ok ∈ s.commits n) :
    ∃ a, (s.attemptsOf n).getLast? = some a ∧ a.err.isNone = ok := by
  obtain ⟨p, hp, rfl⟩ := List.mem_map.mp hok
  have ⟨hp, hn⟩ := List.mem_filter.mp hp
  have hverdict := h.settled p hp
  rw [(of_decide_eq_true hn).1] at hverdict
  exact Option.map_eq_some_iff.mp hverdict

theorem Sound.untouched (h : s.Sound limits) {n : Nat} {c : EnqueueCall Row} (hc : s.calls[n]? = some c)
    (hs : c.phase.sent = false) : s.attemptsOf n = [] ∧ s.commits n = [] := by
  have hnot : ∀ job ∈ s.sentJobs, job.call ≠ n := by
    rintro job hj rfl
    obtain ⟨c', hc', hj⟩ := List.mem_flatMap.mp hj
    simp only [EnqueueCall.handed, List.mem_ite_nil_right, List.mem_singleton] at hj
    obtain ⟨hsent, rfl⟩ := hj
    obtain ⟨k, hk⟩ := List.mem_iff_getElem?.mp hc'
    obtain rfl := h.call_eq hk
    obtain rfl := Option.some.inj (hk.symm.trans hc)
    simp [hs] at hsent
  refine ⟨List.filter_eq_nil_iff.mpr fun a ha hn => ?_,
    List.map_eq_nil_iff.mpr (List.filter_eq_nil_iff.mpr fun p hp hn => ?_)⟩
  · obtain ⟨job, hj, he⟩ := List.mem_map.mp (of_decide_eq_true hn)
    exact hnot job (h.sent a ha job hj) he
  · refine hnot p.1 (h.kept.perm.mem_iff.mp (List.mem_append_right _ (List.mem_map_of_mem hp))) ?_
    exact (of_decide_eq_true hn).1

end CHWriter

theorem commit_exactly_once (queueSize workers batchMaxRows : Int) (enqueueTimeout : String)
    {steps : List (WriterStep Row)} {s : CHWriter Row}
    (h : Runs.Run (CHWriter.step (.new queueSize workers batchMaxRows enqueueTimeout))
      (fun _ _ => True) {} steps s) :
    (s.returned = true → ∀ n c, s.calls[n]? = some c → c.phase = .returned none → c.job.commit = true →
      ∃ ok, s.commits n = [ok]) ∧
    (∀ n, (s.commits n).length ≤ 1) ∧
    (∀ n, true ∈ s.commits n → ∃ a ∈ s.attemptsOf n, a.err = none) ∧
    (∀ n, false ∈ s.commits n → ∃ a, (s.attemptsOf n).getLast? = some a ∧ a.err ≠ none) ∧
    (∀ n c err, s.calls[n]? = some c → c.phase = .returned (some err) →
      s.attemptsOf n = [] ∧ s.commits n = []) ∧
    (1 ≤ batchMaxRows → ∀ a ∈ s.attempts, (a.rows.length : Int) ≤ batchMaxRows) := by
  have hmax : 1 ≤ (WriterLimits.new queueSize workers batchMaxRows enqueueTimeout).batchMaxRows := by
    simp only [WriterLimits.new]
    split_ifs <;> omega
  have hworkers : 1 ≤ (WriterLimits.new queueSize workers batchMaxRows enqueueTimeout).workers := by
    simp only [WriterLimits.new]
    split_ifs <;> omega
  have hs := h.invariant (I := CHWriter.Sound (.new queueSize workers batchMaxRows enqueueTimeout))
    (fun _ _ _ hi _ hst => hi.step hmax (CHWriter.step_cases hst)) .empty
  refine ⟨fun hr n c => hs.committed hworkers hr, hs.commits_le, fun n ht => ?_, fun n hf => ?_,
    fun n c err hc he => hs.untouched hc (by rw [he]; rfl), fun hb a ha => ?_⟩
  · obtain ⟨a, ha, hok⟩ := hs.verdict_of_commit ht
    exact ⟨a, List.mem_of_getLast? ha, Option.isNone_iff_eq_none.mp hok⟩
  · obtain ⟨a, ha, hok⟩ := hs.verdict_of_commit hf
    exact ⟨a, ha, fun he => by simp [he] at hok⟩
  · have hle := hs.sized a ha
    simp only [WriterLimits.new] at hle
    split_ifs at hle <;> omega

def failedSend : DriverRun := { send := some "timeout" }

theorem poison_row_isolated : ∃ s : CHWriter Nat, s.returned = true ∧ s.attempts.length = 4 ∧
    (∃ ok, s.commits 0 = [ok]) ∧ (∃ ok, s.commits 1 = [ok]) ∧ s.attemptsOf 2 = [] ∧ s.commits 2 = [] ∧
    ∃ a, (s.attemptsOf 1).getLast? = some a ∧ a.err ≠ none := by
  obtain ⟨s, hrun, hr, ha, ⟨h0, h0'⟩, ⟨h1, h1'⟩, h2, hf⟩ := Runs.Run.exists_of_exec
    (CHWriter.step (.new 10 1 2 "5s")) (fun _ _ => True) {}
    ([.enqueue 7 true, .enqueue 8 true, .start, .send 0, .leave 0, .send 1, .leave 1] ++
      [.receive, .receive, .attempt failedSend, .again, .attempt failedSend, .exhausted,
      .attempt {}, .commit,
        .attempt failedSend, .commit].map (.worker 0) ++
      [.cancel, .close, .enqueue 9 true, .closeJobs, .worker 0 .drained, .finish])
    (fun s : CHWriter Nat => s.returned = true ∧ s.attempts.length = 4 ∧
      (s.calls[0]?.map (·.phase) = some (.returned none) ∧ s.calls[0]?.map (·.job.commit) = some true) ∧
      (s.calls[1]?.map (·.phase) = some (.returned none) ∧ s.calls[1]?.map (·.job.commit) = some true) ∧
      s.calls[2]?.map (·.phase) = some (.returned (some CHWriter.refusal)) ∧
      false ∈ s.commits 1) (by decide)
  obtain ⟨hall, -, -, hlast, huntouched, -⟩ := commit_exactly_once 10 1 2 "5s" hrun
  obtain ⟨c0, hc0, hp0⟩ := Option.map_eq_some_iff.mp h0
  obtain ⟨c1, hc1, hp1⟩ := Option.map_eq_some_iff.mp h1
  obtain ⟨c2, hc2, hp2⟩ := Option.map_eq_some_iff.mp h2
  rw [hc0] at h0'
  rw [hc1] at h1'
  have hnone := huntouched 2 c2 _ hc2 hp2
  exact ⟨s, hr, ha, hall hr 0 c0 hc0 hp0 (Option.some.inj h0'),
    hall hr 1 c1 hc1 hp1 (Option.some.inj h1'), hnone.1,
    hnone.2, hlast 1 hf⟩

end Kuberecord
