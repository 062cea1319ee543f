import Kuberecord.LostWrites
import Kuberecord.ScopeEpochs
import Kuberecord.Sinks.Routing
import Kuberecord.Sinks.Serving

namespace Kuberecord

open Threads

def Recorder.Holds {T : Type} (r : Recorder T) (ref : ScopeRef) : Prop := (r.active ref).Nonempty

instance Recorder.decidableHolds {T : Type} (r : Recorder T) (ref : ScopeRef) :
    Decidable (r.Holds ref) :=
  inferInstanceAs (Decidable (Finset.Nonempty _))

section

variable {T : Type} [DecidableEq T] (queueLimit : Nat) (r : Recorder T)
  (transition : ScopeTransition T) (ref : ScopeRef)

theorem Recorder.scopeStarted_first : (r.scopeStarted queueLimit transition).2 = true ↔
    ¬ r.Holds transition.ref := by
  rcases scopeStarted_cases queueLimit r transition with ⟨he, hr⟩ | ⟨hne, hr⟩
  · simp [hr, Holds, he]
  · simp [hr, Holds, hne]

theorem Recorder.scopeStarted_holds :
    (r.scopeStarted queueLimit transition).1.Holds ref ↔ ref = transition.ref ∨ r.Holds ref := by
  rcases scopeStarted_cases queueLimit r transition with ⟨he, hr⟩ | ⟨hne, hr⟩
  · by_cases h : ref = transition.ref
    · simp [hr, h, Holds, signal, enqueueLocked, hold]
    · simp [hr, h, Holds, signal, enqueueLocked, hold]
  · by_cases h : ref = transition.ref
    · simp [hr, h, Holds, hold]
    · simp [hr, h, Holds, hold]

theorem Recorder.scopeStopped_holds : (r.scopeStopped queueLimit transition).1.Holds ref ↔
    r.Holds ref ∧ ¬ ((r.scopeStopped queueLimit transition).2 = true ∧ ref = transition.ref) := by
  rcases scopeStopped_cases queueLimit r transition with ⟨he, hr⟩ | ⟨targets, hne, hr⟩
  · by_cases h : ref = transition.ref
    · simp [hr, h, Holds, signal, enqueueLocked, hold]
    · simp [hr, h, Holds, signal, enqueueLocked, hold]
  · by_cases h : ref = transition.ref
    · simp [hr, h, Holds, hold, hne]
    · simp [hr, h, Holds, hold]

end

structure Shared.SameRuns (s s' : Shared) : Prop where
  gens : s'.gens = s.gens
  runs : s'.runs = s.runs
  started : s'.started = s.started
  cancelled : s'.cancelled = s.cancelled

theorem Shared.SameRuns.refl (s : Shared) : s.SameRuns s := ⟨rfl, rfl, rfl, rfl⟩

theorem exec_sameRuns {s s' : Shared} {tid : Tid} {o : Op} {i : Input} {a : o.Ans}
    (h : exec s tid o i = some (s', a)) :
    s.SameRuns s' := by
  cases o <;> cases i <;>
    simp only [exec, Option.some.injEq, Prod.mk.injEq, reduceCtorEq, Option.ite_none_left_eq_some,
      Option.ite_none_right_eq_some] at h
  case enqueue.flag => rw [← h.1]; split_ifs <;> exact ⟨rfl, rfl, rfl, rfl⟩
  case enqueueScopeEvent.flag => rw [← h.1]; split_ifs <;> exact ⟨rfl, rfl, rfl, rfl⟩
  case listerGet.lookup => exact h.2.1 ▸ .refl s
  case lastKnownStates.states => exact h.2.1 ▸ .refl s
  case scopeWasActive.active => exact h.2.1 ▸ .refl s
  case ctxErr.flag => exact h.2.1 ▸ .refl s
  case backoff.flag => exact h.2.1 ▸ .refl s
  case mapOrder.order => exact h.2.1 ▸ .refl s
  all_goals exact h.1 ▸ ⟨rfl, rfl, rfl, rfl⟩

theorem callback_sameRuns (s : Shared) (c : Commit) (ok : Bool) : s.SameRuns (s.callback c ok) := by
  rcases c with ⟨_, _, _, _, _, _ | _⟩ | _ | _ <;> cases ok <;> exact ⟨rfl, rfl, rfl, rfl⟩

theorem settled_sameRuns (s : Shared) (j : Nat) (sink : String) (job : Job) (ok : Bool) :
    s.SameRuns (s.settled j sink job ok) := by
  have h := callback_sameRuns { s with jobs := s.jobs.set j ⟨sink, job,
    if ok then .written else .failed⟩ } job.commit ok
  exact ⟨h.gens, h.runs, h.started, h.cancelled⟩

theorem step_sameRuns {cfg : Config} {p p' : System} {a : Action} {d : Deed}
    (h : (machine cfg).Step p a p') (hd : p.deed a = some d) (ho : Serving.Own p d) :
    p.shared.SameRuns p'.shared := by
  cases h with
  | start t b s' code hn hs =>
    cases hd
    cases t <;> cases b <;>
      simp only [machine, start, Option.ite_none_right_eq_some, Option.ite_none_left_eq_some,
        Option.some.injEq, Prod.mk.injEq, reduceCtorEq] at hs
    · rw [← hs.2.1]
      exact ⟨rfl, rfl, rfl, rfl⟩
    · exact ho.elim
    · rw [hs.2.1]
      exact .refl _
    · rw [hs.1]
      exact .refl _
  | exec t i o k tr s' a hth hx => exact exec_sameRuns hx
  | finish t a =>
    simp only [machine, finish]
    split <;> exact ⟨rfl, rfl, rfl, rfl⟩
  | env e s' he =>
    cases hd
    cases e with
    | add key =>
      cases he
      exact ⟨rfl, rfl, rfl, rfl⟩
    | insert j =>
      simp only [machine, env] at he
      split at he
      · cases he
        exact ⟨rfl, rfl, rfl, rfl⟩
      · cases he
    | settle j ok =>
      simp only [machine, env] at he
      split at he
      · split_ifs at he
        cases he
        exact settled_sameRuns ..
      · cases he
    | removeSink | stopScope | forgetSink => exact ho.elim
  | crash =>
    cases hd
    exact ho.elim

theorem thread_own {cfg : Config} {p p' : System} {a : Action} {d : Deed} {id : Nat}
    {th : Thread Op Op.Ans (Option Err)} (hst : (machine cfg).Step p a p')
    (hd : p.deed a = some d) (ho : Serving.Own p d) (ht : p'.threads (.warm id) = some th) :
    p.threads (.warm id) = some th ∨ ∃ o k tr x i,
      p.threads (.warm id) = some { code := .op o k, trace := tr } ∧ th =
        { code := k x, trace := tr ++ [⟨o, x⟩] } ∧
      d = .exec (.warm id) (o, i) ∧ exec p.shared (.warm id) o i = some (p'.shared, x) ∧
      p'.log = p.log ++ [{ tid := .warm id, trace := tr, event := ⟨o, x⟩ }] := by
  have keep {t : Tid} {x : Option (Thread Op Op.Ans (Option Err))} (hne : Tid.warm id ≠ t)
      (h : Function.update p.threads t x (.warm id) = some th) : p.threads (.warm id) = some th := by
    rwa [Function.update_of_ne hne] at h
  cases hst with
  | start t b s' code hn hs =>
    cases hd
    refine .inl (keep ?_ ht)
    rintro rfl
    exact ho
  | exec t i o k tr s' x hrun hx =>
    by_cases he : Tid.warm id = t
    · subst he
      simp only [Function.update_self, Option.some.injEq] at ht
      simp only [System.deed, hrun, Option.some.injEq] at hd
      exact .inr ⟨o, k, tr, x, i, hrun, ht.symm, hd.symm, hx, rfl⟩
    · exact .inl (keep he ht)
  | finish t r =>
    by_cases he : Tid.warm id = t
    · simp [he] at ht
    · exact .inl (keep he ht)
  | env => exact .inl ht
  | crash => cases ht

theorem thread_gone {cfg : Config} {p p' : System} {a : Action} {d : Deed} {id : Nat}
    {th : Thread Op Op.Ans (Option Err)} (hst : (machine cfg).Step p a p')
    (hd : p.deed a = some d) (ho : Serving.Own p d) (ht : p.threads (.warm id) = some th)
    (hgone : p'.threads (.warm id) = none) :
    d = .finish (.warm id) ∧ ∃ r, th.code = .ret r := by
  have keep {t : Tid} {x : Option (Thread Op Op.Ans (Option Err))} (hne : Tid.warm id ≠ t)
      (h : Function.update p.threads t x (.warm id) = none) : False := by
    rw [Function.update_of_ne hne, ht] at h
    cases h
  cases hst with
  | start t b s' code hn hs => exact (keep (by rintro rfl; simp [ht] at hn) hgone).elim
  | exec t i o k tr s' x hrun hx =>
    by_cases he : Tid.warm id = t
    · simp [he] at hgone
    · exact (keep he hgone).elim
  | finish t r tr hrun =>
    by_cases he : Tid.warm id = t
    · subst he
      cases hd
      obtain rfl := Option.some.inj (ht.symm.trans hrun)
      exact ⟨rfl, r, rfl⟩
    · exact (keep he hgone).elim
  | env => simp [ht] at hgone
  | crash =>
    cases hd
    exact ho.elim

def withRun (cfg : Config) (p : System) (ref : ScopeRef) (epochStart n : Nat) : System :=
  { p with
    shared := { p.shared with
      runs := (ref, ⟨epochStart, p.shared.started⟩) :: p.shared.runs, started := p.shared.started + 1 }
    threads := Function.update p.threads (.warm p.shared.started)
      (some { code := do warm cfg ref epochStart n; return none }) }

section

variable {cfg : Config} {p : System} {ref : ScopeRef} {epochStart n id : Nat}

theorem thread_withRun : (withRun cfg p ref epochStart n).threads (.warm p.shared.started) =
    some { code := do warm cfg ref epochStart n; return none } := Function.update_self ..

theorem threads_withRun (h : id ≠ p.shared.started) :
    (withRun cfg p ref epochStart n).threads (.warm id) = p.threads (.warm id) :=
  Function.update_of_ne (by simpa using h) ..

end

structure RunsSound (p : System) : Prop where
  ids : (p.shared.runs.map (·.2.id)).Nodup
  begun : ∀ r ∈ p.shared.runs, r.2.id < p.shared.started
  live : ∀ r ∈ p.shared.runs, r.2.id ∉ p.shared.cancelled
  cancelled : ∀ id ∈ p.shared.cancelled, id < p.shared.started
  threads : ∀ id, (p.threads (.warm id)).isSome → id < p.shared.started
  code : ∀ r ∈ p.shared.runs, ∀ th ∈ p.threads (.warm r.2.id),
    (Seeding.protocol r.1).Obeys th.code (Seeding.reached th.trace) (fun _ p => p ≠ .seeking)

namespace RunsSound

variable {cfg : Config} {p p' : System} {a : Action} {d : Deed}

theorem cancelRuns {q : ScopeRef → Bool} (h : RunsSound p) (done : List String) :
    RunsSound { p with shared := { p.shared.cancelRuns q with bootDone := done } } where
  ids := h.ids.sublist (List.filter_sublist.map _)
  begun r hr := h.begun r (List.mem_of_mem_filter hr)
  live r hr hc := by
    have ⟨hr, hq⟩ := List.mem_filter.mp hr
    rcases List.mem_append.mp hc with hc | hc
    · obtain ⟨r', hr', hid⟩ := List.mem_map.mp hc
      have ⟨hr', hq'⟩ := List.mem_filter.mp hr'
      obtain rfl := List.inj_on_of_nodup_map h.ids hr' hr hid
      simp [hq'] at hq
    · exact h.live r hr hc
  cancelled id hid := by
    rcases List.mem_append.mp hid with hid | hid
    · obtain ⟨r, hr, rfl⟩ := List.mem_map.mp hid
      exact h.begun r (List.mem_of_mem_filter hr)
    · exact h.cancelled id hid
  threads := h.threads
  code r hr := h.code r (List.mem_of_mem_filter hr)

theorem cancelRuns_of_unused {s : Shared} {ref : ScopeRef} (hn : ∀ r ∈ s.runs, r.1 ≠ ref) :
    s.cancelRuns (· == ref) = s := by
  have hnone : s.runs.filter (fun r => r.1 == ref) = [] :=
    List.filter_eq_nil_iff.mpr fun r hr => by simp [hn r hr]
  have hall : s.runs.filter (fun r => !(r.1 == ref)) = s.runs :=
    List.filter_eq_self.mpr fun r hr => by simp [hn r hr]
  simp only [Shared.cancelRuns, hnone, hall, List.map_nil, List.nil_append]

theorem launched (h : RunsSound p) {ref : ScopeRef} (hn : ∀ r ∈ p.shared.runs, r.1 ≠ ref)
    (epochStart n : Nat) :
    (machine cfg).step p (.start (.warm p.shared.started) (.warm ref epochStart n)) =
      some (withRun cfg p ref epochStart n) := by
  have hfree : p.threads (.warm p.shared.started) = none := by
    by_contra hne
    exact absurd (h.threads _ (Option.isSome_iff_ne_none.mpr hne)) (Nat.lt_irrefl _)
  have hlookup : p.shared.runs.lookup ref = none :=
    List.lookup_eq_none_iff.mpr fun r hr => by simp [Ne.symm (hn r hr)]
  simp [Machine.step, machine, start, hfree, hlookup, cancelRuns_of_unused hn, withRun]

theorem launch (h : RunsSound p) (ref : ScopeRef) (epochStart n : Nat) :
    RunsSound (withRun cfg p ref epochStart n) where
  ids := by
    refine List.nodup_cons.mpr ⟨fun hm => ?_, h.ids⟩
    obtain ⟨r, hr, hid⟩ := List.mem_map.mp hm
    exact absurd (h.begun r hr) (by rw [hid]; exact Nat.lt_irrefl _)
  begun := List.forall_mem_cons.mpr ⟨Nat.lt_succ_self _, fun r hr => Nat.lt_succ_of_lt (h.begun r hr)⟩
  live := List.forall_mem_cons.mpr ⟨fun hc => absurd (h.cancelled _ hc) (Nat.lt_irrefl _), h.live⟩
  cancelled id hid := Nat.lt_succ_of_lt (h.cancelled id hid)
  threads id hid := by
    by_cases he : id = p.shared.started
    · exact he ▸ Nat.lt_succ_self _
    · rw [threads_withRun he] at hid
      exact Nat.lt_succ_of_lt (h.threads id hid)
  code := by
    refine List.forall_mem_cons.mpr ⟨fun th hth => ?_, fun r hr th hth => ?_⟩
    · rw [thread_withRun, Option.mem_some_iff] at hth
      subst hth
      exact Seeding.warm_obeys ref epochStart n
    · rw [threads_withRun (h.begun r hr).ne] at hth
      exact h.code r hr th hth

theorem own (h : RunsSound p) (hst : (machine cfg).Step p a p') (hd : p.deed a = some d)
    (ho : Serving.Own p d) :
    RunsSound p' := by
  have hs := step_sameRuns hst hd ho
  refine ⟨hs.runs ▸ h.ids, ?_, ?_, ?_, ?_, ?_⟩
  · rw [hs.runs, hs.started]
    exact h.begun
  · rw [hs.runs, hs.cancelled]
    exact h.live
  · rw [hs.cancelled, hs.started]
    exact h.cancelled
  · intro id hid
    obtain ⟨th, ht⟩ := Option.isSome_iff_exists.mp hid
    rw [hs.started]
    rcases thread_own hst hd ho ht with ht | ⟨o, k, tr, x, i, ht, -⟩
    · exact h.threads id (by rw [ht]; rfl)
    · exact h.threads id (by rw [ht]; rfl)
  · rw [hs.runs]
    intro r hr th ht
    rcases thread_own hst hd ho ht with ht | ⟨o, k, tr, x, i, hrun, rfl, -⟩
    · exact h.code r hr th ht
    · rw [Seeding.reached, List.foldl_concat]
      exact (h.code r hr _ hrun).2 x trivial

end RunsSound

def deniedOf (e : LogEntry Op.Ans Tid) : Option String :=
  match e.event with
  | ⟨.readerFor sink, .noStateReader⟩ => some sink
  | _ => none

def HistoryReadable (p : System) (sink : String) : Prop := ∀ e ∈ p.log, deniedOf e ≠ some sink

instance (p : System) (sink : String) : Decidable (HistoryReadable p sink) :=
  inferInstanceAs (Decidable (∀ _ ∈ _, _))

def Marked (p : System) (ref : ScopeRef) : Prop :=
  p.shared.marked (p.shared.inst ref.sink) ref.scope = true

def Warming (p : System) (ref : ScopeRef) : Prop :=
  ∃ r ∈ p.shared.runs, r.1 = ref ∧ r.2.id ∉ p.shared.cancelled ∧ (p.threads (.warm r.2.id)).isSome

instance (p : System) (ref : ScopeRef) : Decidable (Marked p ref) := inferInstanceAs (Decidable (_ = _))

instance (p : System) (ref : ScopeRef) : Decidable (Warming p ref) :=
  inferInstanceAs (Decidable (∃ _ ∈ _, _))

def Seeking (p : System) (ref : ScopeRef) : Prop :=
  ∃ r ∈ p.shared.runs, r.1 = ref ∧ ∃ th, p.threads (.warm r.2.id) = some th ∧
    (Seeding.reached th.trace).OnItsWay

def Unmarks (p : System) (ref : ScopeRef) : Deed → Prop
  | .exec _ (.unmarkWarm st scope, _) => st = p.shared.inst st.sink ∧ ref = ⟨st.sink, scope⟩
  | _ => False

instance (p : System) (ref : ScopeRef) (d : Deed) : Decidable (Unmarks p ref d) := by
  unfold Unmarks
  split <;> infer_instance

section

variable {cfg : Config} {p p' : System} {a : Action} {d : Deed} {ref : ScopeRef}

theorem HistoryReadable.of_step {sink : String} (h : HistoryReadable p' sink)
    (hst : (machine cfg).Step p a p') : HistoryReadable p sink := by
  cases hst with
  | exec => exact fun e he => h e (List.mem_append_left _ he)
  | start | finish | env | crash => exact h

theorem inst_own (hst : (machine cfg).Step p a p') (hd : p.deed a = some d) (ho : Serving.Own p d)
    (sink : String) :
    p'.shared.inst sink = p.shared.inst sink := by
  rw [Shared.inst, (step_sameRuns hst hd ho).gens, Shared.inst]

theorem Marked.own (h : Marked p ref) (hst : (machine cfg).Step p a p') (hd : p.deed a = some d)
    (ho : Serving.Own p d) (hu : ¬ Unmarks p ref d) : Marked p' ref := by
  obtain ⟨d', hd', hm⟩ := step_marking hst
  obtain rfl : d = d' := Option.some.inj (hd.symm.trans hd')
  rw [Marked, inst_own hst hd ho]
  generalize p'.shared = s' at hm ⊢
  cases hm with
  | keep _ _ hk => rw [hk, h]
  | mark tid ref' i =>
    rw [Shared.marked_setWarm]
    split_ifs
    · rfl
    · exact h
  | unmark tid st scope i =>
    rw [Shared.marked_setWarm, if_neg, h]
    rintro ⟨rfl, rfl⟩
    exact hu ⟨rfl, rfl⟩
  | crash => exact ho.elim

theorem Seeking.own (h : Seeking p ref) (hr : RunsSound p) (hst : (machine cfg).Step p a p')
    (hd : p.deed a = some d) (ho : Serving.Own p d) (hread : HistoryReadable p' ref.sink) :
    Marked p' ref ∨ Seeking p' ref := by
  obtain ⟨r, hmem, rfl, th, hth, hway⟩ := h
  have hmem' : r ∈ p'.shared.runs := (step_sameRuns hst hd ho).runs ▸ hmem
  have hcode := hr.code r hmem th hth
  cases hth' : p'.threads (.warm r.2.id) with
  | none =>
    obtain ⟨rfl, x, hret⟩ := thread_gone hst hd ho hth hth'
    rw [hret] at hcode
    rcases hway with hway | hway
    · exact absurd hway hcode
    · exact absurd hway (ho th hth)
  | some th' =>
    rcases thread_own hst hd ho hth' with hsame | ⟨o, k, tr, x, i, hrun, rfl, rfl, hx, hlog⟩
    · obtain rfl := Option.some.inj (hsame.symm.trans hth)
      exact .inr ⟨r, hmem', rfl, th', hth', hway⟩
    · obtain rfl := Option.some.inj (hrun.symm.trans hth)
      rcases hway.next o x with hway' | ⟨ref', rfl⟩ | hback | ⟨hseek, sink, hdeny⟩
      · refine .inr ⟨r, hmem', rfl, _, hth', ?_⟩
        rwa [Seeding.reached, List.foldl_concat]
      · obtain rfl := hcode.1.1 ref' rfl
        refine .inl ?_
        rw [Marked, inst_own hst hd ho]
        cases i <;> simp only [exec, Option.some.injEq, Prod.mk.injEq, reduceCtorEq] at hx
        rw [← hx.1, Shared.marked_setWarm, if_pos ⟨rfl, rfl⟩]
      · cases hback
        cases i <;> simp only [exec, Option.ite_none_left_eq_some, Option.some.injEq, Prod.mk.injEq,
        reduceCtorEq] at hx
        exact absurd (ho hx.2.2) (hr.live r hmem)
      · cases hdeny
        obtain rfl := hcode.1.2 hseek sink rfl
        exact absurd rfl (hread _ (hlog ▸ List.mem_append_right _ (.head _)))

end

variable {T Cfg : Type}

def WarmCall.ref : WarmCall → ScopeRef
  | .warmScope ref _ | .stopScope ref => ref

namespace Serving

/--
A sink is torn down only while it is not routed, it is not routed again while a scope is held that
was held through the teardown, and no eviction unmarks a scope that is held.
-/
def Orderly (lib : SinkLib Cfg) (s : Serving T Cfg) : ServingStep T Cfg → Prop
  | .sinks a => (∀ t ∈ s.sinks.tearing a, s.sinks.live.lookup t.name = none) ∧
      ∀ ref ∈ s.torn, ∀ sinks ∈ s.sinks.step lib a, sinks.live.lookup ref.sink = none
  | .plane a => ∀ d ∈ s.plane.deed a, ∀ ref ∈ s.served, ¬ Unmarks s.plane ref d
  | _ => True

instance (lib : SinkLib Cfg) (s : Serving T Cfg) (a : ServingStep T Cfg) :
    Decidable (s.Orderly lib a) := by
  unfold Orderly
  split <;> infer_instance

structure Sound (s : Serving T Cfg) : Prop where
  runs : RunsSound s.plane
  served : ∀ ref ∈ s.served, s.recorder.Holds ref
  held : ∀ ref, s.recorder.Holds ref → ref ∈ s.served ∨ ∃ e, s.owed = some (.warmScope ref e)
  owed : ∀ call ∈ s.owed, call.ref ∉ s.served
  asked : ∀ ref e, s.owed = some (.warmScope ref e) → s.recorder.Holds ref
  registered : ∀ r ∈ s.plane.shared.runs, r.1 ∈ s.served ∨ s.owed = some (.stopScope r.1)
  routed : ∀ ref ∈ s.torn, s.sinks.live.lookup ref.sink = none
  warm : ∀ ref ∈ s.served, ref ∉ s.torn → HistoryReadable s.plane ref.sink → Marked s.plane ref ∨
    Seeking s.plane ref

variable {cfg : Config} {lib : SinkLib Cfg} {queueLimit : Nat} {s s' : Serving T Cfg}

namespace Sound

theorem initial (shared : Shared) : Sound ({ plane := { shared := crash shared } } : Serving T Cfg) where
  runs := ⟨.nil, fun _ h => (by cases h), fun _ h => (by cases h), fun _ h => (by cases h),
    fun _ h => (by cases h),
    fun _ h => (by cases h)⟩
  served _ h := by cases h
  held _ h := by simp [Recorder.Holds] at h
  owed _ h := by cases h
  asked _ _ h := by cases h
  registered _ h := by cases h
  routed _ h := by cases h
  warm _ h := by cases h

theorem plane {a : Action} (h : s.Sound) (hok : s.Orderly lib (.plane a)) {p : System} {d : Deed}
    (hst : (machine cfg).Step s.plane a p) (hd : s.plane.deed a = some d) (ho : Own s.plane d) :
    Sound { s with plane := p } where
  runs := h.runs.own hst hd ho
  served := h.served
  held := h.held
  owed := h.owed
  asked := h.asked
  registered := (step_sameRuns hst hd ho).runs ▸ h.registered
  routed := h.routed
  warm ref hs ht hread := by
    rcases h.warm ref hs ht (hread.of_step hst) with hm | hk
    · exact .inl (hm.own hst hd ho (hok d hd ref hs))
    · exact hk.own h.runs hst hd ho hread

theorem call (h : s.Sound) {ref : ScopeRef} {epochStart : Nat}
    (ho : s.owed = some (.warmScope ref epochStart)) (attempts : Nat) : Sound { s with
      plane := s.perform cfg (.start (.warm s.plane.shared.started) (.warm ref epochStart attempts))
      owed := none
      served := ref :: s.served } := by
  have hreg : ∀ r ∈ s.plane.shared.runs, r.1 ∈ s.served := by
    intro r hr
    rcases h.registered r hr with hs | hs
    · exact hs
    · simp [ho] at hs
  have hnew : ref ∉ s.served := h.owed _ ho
  have hunused : ∀ r ∈ s.plane.shared.runs, r.1 ≠ ref := fun r hr he => hnew (he ▸ hreg r hr)
  rw [perform, h.runs.launched hunused, Option.getD_some]
  refine ⟨h.runs.launch ref epochStart attempts, ?_, fun ref' hh => .inl ?_, fun _ hc => (by cases hc),
    fun _ _ hc => (by cases hc), ?_, h.routed, ?_⟩
  · exact List.forall_mem_cons.mpr ⟨h.asked ref epochStart ho, h.served⟩
  · rcases h.held ref' hh with hs | ⟨e, he⟩
    · exact List.mem_cons_of_mem _ hs
    · cases ho.symm.trans he
      exact .head _
  · exact List.forall_mem_cons.mpr ⟨.inl (.head _),
      fun r hr => .inl (List.mem_cons_of_mem _ (hreg r hr))⟩
  · refine List.forall_mem_cons.mpr ⟨fun _ _ => .inr ?_, fun ref' hs ht hread => ?_⟩
    · exact ⟨_, .head _, rfl, _, thread_withRun, .inl rfl⟩
    · refine (h.warm ref' hs ht hread).imp id ?_
      rintro ⟨r, hr, rfl, th, hth, hway⟩
      exact ⟨r, List.mem_cons_of_mem _ hr, rfl, th,
        (threads_withRun (h.runs.begun r hr).ne).trans hth, hway⟩

theorem seeking_cancelRuns {p : System} {q : ScopeRef → Bool} {ref : ScopeRef} (h : Seeking p ref)
    (done : List String) (hq : q ref = false) :
    Seeking { p with shared := { p.shared.cancelRuns q with bootDone := done } } ref := by
  obtain ⟨r, hr, rfl, th, hth, hway⟩ := h
  exact ⟨r, List.mem_filter.mpr ⟨hr, by simp [hq]⟩, rfl, th, hth, hway⟩

theorem stopCall (h : s.Sound) {ref : ScopeRef} (ho : s.owed = some (.stopScope ref)) : Sound { s with
    plane := s.perform cfg (.env (.stopScope ref))
    owed := none } := by
  have hnew : ref ∉ s.served := h.owed _ ho
  refine ⟨h.runs.cancelRuns (q := (· == ref)) s.plane.shared.bootDone, h.served,
    fun ref' hh => .inl ?_, fun _ hc => (by cases hc),
    fun _ _ hc => (by cases hc), fun r hr => .inl ?_, h.routed, fun ref' hs ht hread => ?_⟩
  · rcases h.held ref' hh with hs | ⟨e, he⟩
    · exact hs
    · cases ho.symm.trans he
  · have ⟨hr, hq⟩ := List.mem_filter.mp hr
    rcases h.registered r hr with hs | hs
    · exact hs
    · cases ho.symm.trans hs
      simp at hq
  · refine (h.warm ref' hs ht hread).imp id
      fun hk => seeking_cancelRuns (q := (· == ref)) hk s.plane.shared.bootDone ?_
    simpa using fun he : ref' = ref => hnew (he ▸ hs)

theorem teardown (h : s.Sound) {t : Tail} {e : Env} (ht : t.teardown = some e) {sinks : SinkManager Cfg}
    (hl : sinks.live = s.sinks.live) (hn : s.sinks.live.lookup t.name = none) : Sound { s with
      sinks := sinks
      plane := s.perform cfg (.env e)
      torn := s.torn ++ s.served.filter (·.sink = t.name) } := by
  have hrouted : ∀ ref ∈ s.torn ++ s.served.filter (·.sink = t.name),
    sinks.live.lookup ref.sink = none := by
    intro ref hr
    rw [hl]
    rcases List.mem_append.mp hr with hr | hr
    · exact h.routed ref hr
    · have hsink := (List.mem_filter.mp hr).2
      rw [decide_eq_true_eq] at hsink
      rw [hsink, hn]
  have hother {ref : ScopeRef} (hs : ref ∈ s.served)
    (hr : ref ∉ s.torn ++ s.served.filter (·.sink = t.name)) :
      ref ∉ s.torn ∧ ref.sink ≠ t.name := by
    rw [List.mem_append, not_or] at hr
    exact ⟨hr.1, fun he => hr.2 (List.mem_filter.mpr ⟨hs, by simp [he]⟩)⟩
  unfold Tail.teardown at ht
  split at ht
  · cases ht
    refine ⟨?_, h.served, h.held, h.owed, h.asked, h.registered, hrouted, fun ref hs hr hread => ?_⟩
    · exact ⟨h.runs.ids, h.runs.begun, h.runs.live, h.runs.cancelled, h.runs.threads, h.runs.code⟩
    · have ⟨hr, hne⟩ := hother hs hr
      refine (h.warm ref hs hr hread).imp (fun hm => ?_) id
      simpa [Marked, perform, Machine.step, machine, env, Shared.inst, Shared.marked, hne] using hm
  · cases ht
    refine ⟨h.runs.cancelRuns _, h.served, h.held, h.owed, h.asked, fun r hr => ?_, hrouted,
      fun ref hs hr hread => ?_⟩
    · exact h.registered r (List.mem_of_mem_filter hr)
    · have ⟨hr, hne⟩ := hother hs hr
      exact (h.warm ref hs hr hread).imp id fun hk => seeking_cancelRuns hk _ (by simpa using hne)
  · cases ht

theorem served_of_holds (h : s.Sound) (ho : s.owed = none) {ref : ScopeRef} (hh : s.recorder.Holds ref) :
    ref ∈ s.served := by
  rcases h.held ref hh with hs | ⟨e, he⟩
  · exact hs
  · cases ho.symm.trans he

theorem served_of_run (h : s.Sound) (ho : s.owed = none) {r : ScopeRef × WarmRun}
    (hr : r ∈ s.plane.shared.runs) :
    r.1 ∈ s.served := by
  rcases h.registered r hr with hs | he
  · exact hs
  · cases ho.symm.trans he

variable [DecidableEq T] {transition : ScopeTransition T}

theorem started (h : s.Sound) (ho : s.owed = none) : Sound { s with
    recorder := (s.recorder.scopeStarted queueLimit transition).1
    owed := if (s.recorder.scopeStarted queueLimit transition).2 then
      some (.warmScope transition.ref transition.instant) else none } := by
  have hfirst := s.recorder.scopeStarted_first queueLimit transition
  have hholds := s.recorder.scopeStarted_holds queueLimit transition
  generalize s.recorder.scopeStarted queueLimit transition = res at hfirst hholds ⊢
  refine ⟨h.runs, fun ref hs => (hholds ref).mpr (.inr (h.served ref hs)), fun ref hh => ?_,
    fun call hc => ?_,
    fun ref e hc => ?_, fun r hr => .inl (h.served_of_run ho hr), h.routed, h.warm⟩
  · rcases (hholds ref).mp hh with rfl | hh
    · by_cases hf : s.recorder.Holds transition.ref
      · exact .inl (h.served_of_holds ho hf)
      · exact .inr ⟨_, if_pos (hfirst.mpr hf)⟩
    · exact .inl (h.served_of_holds ho hh)
  · simp only [Option.mem_def, Option.ite_none_right_eq_some, Option.some.injEq] at hc
    obtain ⟨hf, rfl⟩ := hc
    exact fun hs => hfirst.mp hf (h.served _ hs)
  · simp only [Option.ite_none_right_eq_some, Option.some.injEq, WarmCall.warmScope.injEq] at hc
    exact (hholds ref).mpr (.inl hc.2.1.symm)

theorem stopped (h : s.Sound) (ho : s.owed = none) : Sound { s with
    recorder := (s.recorder.scopeStopped queueLimit transition).1
    owed := if (s.recorder.scopeStopped queueLimit transition).2 then some (.stopScope transition.ref) else none
    served := if (s.recorder.scopeStopped queueLimit transition).2 then s.served.filter (· ≠ transition.ref)
      else s.served
    torn := if (s.recorder.scopeStopped queueLimit transition).2 then s.torn.filter (· ≠ transition.ref)
      else s.torn } := by
  have hholds := s.recorder.scopeStopped_holds queueLimit transition
  generalize s.recorder.scopeStopped queueLimit transition = res at hholds ⊢
  obtain ⟨recorder, last⟩ := res
  cases last with
  | false =>
    exact ⟨h.runs, fun ref hs => (hholds ref).mpr ⟨h.served ref hs, by simp⟩,
      fun ref hh => .inl (h.served_of_holds ho ((hholds ref).mp hh).1), fun _ hc => (by cases hc),
      fun _ _ hc => (by cases hc), fun r hr => .inl (h.served_of_run ho hr), h.routed, h.warm⟩
  | true =>
    have hmem {ref : ScopeRef} {refs : List ScopeRef} :
        ref ∈ refs.filter (· ≠ transition.ref) ↔ ref ∈ refs ∧ ref ≠ transition.ref := by simp
    refine ⟨h.runs, fun ref hs => ?_, fun ref hh => .inl ?_, ?_, fun _ _ hc => (by cases hc),
      fun r hr => ?_,
      fun ref hr => h.routed ref (hmem.mp hr).1, fun ref hs ht => ?_⟩
    · have ⟨hs, hne⟩ := hmem.mp hs
      exact (hholds ref).mpr ⟨h.served ref hs, fun hc => hne hc.2⟩
    · have ⟨hh, hne⟩ := (hholds ref).mp hh
      exact hmem.mpr ⟨h.served_of_holds ho hh, fun he => hne ⟨rfl, he⟩⟩
    · intro call hc hs
      obtain rfl : WarmCall.stopScope transition.ref = call := Option.some.inj hc
      exact (hmem.mp hs).2 rfl
    · by_cases he : r.1 = transition.ref
      · exact .inr (by rw [he]; rfl)
      · exact .inl (hmem.mpr ⟨h.served_of_run ho hr, he⟩)
    · have ⟨hs, hne⟩ := hmem.mp hs
      exact h.warm ref hs fun ht' => ht (hmem.mpr ⟨ht', hne⟩)

theorem step {a : ServingStep T Cfg} (h : s.Sound) (hok : s.Orderly lib a)
    (hst : s.step cfg lib queueLimit a = some s') : s'.Sound := by
  cases a with
  | started transition =>
    simp only [Serving.step, Option.ite_none_right_eq_some, Option.some.injEq] at hst
    exact hst.2 ▸ h.started hst.1
  | stopped transition =>
    simp only [Serving.step, Option.ite_none_right_eq_some, Option.some.injEq] at hst
    exact hst.2 ▸ h.stopped hst.1
  | call attempts =>
    simp only [Serving.step] at hst
    split at hst
    · rename_i ho
      cases hst
      exact h.call ho attempts
    · rename_i ho
      cases hst
      exact h.stopCall ho
    · cases hst
  | sinks a =>
    simp only [Serving.step, Option.map_eq_some_iff] at hst
    obtain ⟨sinks, hs, rfl⟩ := hst
    have hrouted : ∀ ref ∈ s.torn, sinks.live.lookup ref.sink = none :=
      fun ref hr => hok.2 ref hr sinks hs
    cases ht : s.sinks.tearing a with
    | none => exact ⟨h.runs, h.served, h.held, h.owed, h.asked, h.registered, hrouted, h.warm⟩
    | some t =>
      obtain ⟨⟨e, he⟩, hl⟩ := SinkManager.tearing_some ht hs
      simp only [he, Option.elim_some]
      exact h.teardown he hl (hok.1 t ht)
  | plane a =>
    simp only [Serving.step, Option.ite_none_right_eq_some, Option.map_eq_some_iff] at hst
    obtain ⟨⟨d, hd, ho⟩, p, hp, rfl⟩ := hst
    exact h.plane hok ((machine cfg).step_cases hp) hd ho

end Sound

end Serving

theorem served_scope_warm [DecidableEq T] (cfg : Config) (lib : SinkLib Cfg) (queueLimit : Nat)
    (shared : Shared) {steps : List (ServingStep T Cfg)} {s : Serving T Cfg} {ref : ScopeRef}
    (h : Runs.Run (Serving.step cfg lib queueLimit) (Serving.Orderly lib)
      { plane := { shared := crash shared } } steps s)
    (hq : s.owed = none) (hh : s.recorder.Holds ref) (hr : (s.sinks.live.lookup ref.sink).isSome)
    (hread : HistoryReadable s.plane ref.sink) : Marked s.plane ref ∨ Warming s.plane ref := by
  have hs : s.Sound := h.invariant (fun _ _ _ hi hok hst => hi.step hok hst) (.initial shared)
  have htorn : ref ∉ s.torn := fun ht => by simp [hs.routed ref ht] at hr
  refine (hs.warm ref (hs.served_of_holds hq hh) htorn hread).imp id ?_
  rintro ⟨r, hmem, rfl, th, hth, -⟩
  exact ⟨r, hmem, rfl, hs.runs.live r hmem, by rw [hth]; rfl⟩

def markingSteps (id : Nat) : List (ServingStep String String) :=
  [.exec (.warm id) (.reader .reader), .exec (.warm id) (.states (podScope "s") (some [])),
    .exec (.warm id) .go,
    .exec (.warm id) .go, .finish (.warm id)].map .plane

def servedSteps : List (ServingStep String String) :=
  [.sinks (.start fun _ => .ok ()), .sinks (.ensure "s" (some "v1") (.ok ())),
    .started (edgeAt "s" "v1" 1), .call 2] ++
    markingSteps 0

def goneSteps : List (ServingStep String String) :=
  [.sinks (.delete "s"), .sinks (.tail 0), .sinks (.tail 0), .sinks (.tail 0), .sinks (.tail 0)]

theorem restarted_scope_warming : ∃ s : Serving String String,
    s.plane.shared.gens "s" = 1 ∧ s.recorder.Holds (podScope "s") ∧
      (s.sinks.live.lookup "s").isSome ∧ Warming s.plane (podScope "s") := by
  obtain ⟨s, hrun, hgen, hq, hh, hr, hread, hm⟩ := Runs.Run.exists_of_exec
    (Serving.step sampleConfig sampleSinkLib 10) (Serving.Orderly sampleSinkLib)
    { plane := { shared := crash {} } }
    (servedSteps ++ [.stopped (edgeAt "s" "v1" 2), .call 0] ++ goneSteps ++
      [.sinks (.ensure "s" (some "v1") (.ok ())), .started (edgeAt "s" "v1" 3), .call 2,
        .plane (.exec (.warm 1) (.reader .notLive))])
    (fun s : Serving String String => s.plane.shared.gens "s" = 1 ∧ s.owed = none ∧
      s.recorder.Holds (podScope "s") ∧
      (s.sinks.live.lookup "s").isSome ∧ HistoryReadable s.plane "s" ∧
      ¬ Marked s.plane (podScope "s")) (by decide)
  have hw := served_scope_warm sampleConfig sampleSinkLib 10 {} hrun hq hh hr hread
  exact ⟨s, hgen, hh, hr, hw.resolve_left hm⟩

def Serving.Cold (s : Serving String String) (ref : ScopeRef) : Prop :=
  s.owed = none ∧ s.recorder.Holds ref ∧ (s.sinks.live.lookup ref.sink).isSome ∧
    HistoryReadable s.plane ref.sink ∧
    ¬ Marked s.plane ref ∧ ¬ Warming s.plane ref

instance (s : Serving String String) (ref : ScopeRef) : Decidable (s.Cold ref) :=
  inferInstanceAs (Decidable (_ ∧ _))

/--
A sink is deleted and created again while its scope stays; one of two versions of a kind goes.
-/
theorem served_scope_cold :
    (∃ s : Serving String String, Runs.Run (Serving.step sampleConfig sampleSinkLib 10) (fun _ _ => True)
      { plane := { shared := crash {} } }
      (servedSteps ++ goneSteps ++ [.sinks (.tail 0), .sinks (.ensure "s" (some "v1") (.ok ()))]) s ∧
      s.Cold (podScope "s")) ∧
    ∃ s : Serving String String, Runs.Run (Serving.step sampleConfig sampleSinkLib 10) (fun _ _ => True)
      { plane := { shared := crash {} } }
      (servedSteps ++ [.started (edgeAt "s" "v2" 2), .stopped (edgeAt "s" "v1" 3),
        .plane (.start (.evict (podScope "s")) .run), .plane (.exec (.evict (podScope "s")) .go),
        .plane (.exec (.evict (podScope "s")) .go)]) s ∧
      s.Cold (podScope "s") :=
  ⟨Runs.Run.exists_of_exec _ _ _ _ _ (by decide), Runs.Run.exists_of_exec _ _ _ _ _ (by decide)⟩

end Kuberecord
