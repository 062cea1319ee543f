import Kuberecord.StoppedScopes
import Kuberecord.Watch.Convergence

namespace Kuberecord

open Threads

variable {Sel : Type} {lib : WatchLib Sel} {p : PassInputs Sel} {m : WatchManager Sel}
  {ref : ScopeRef} {key : Key}

theorem ScopeRef.covers_of_begins (hsink : ref.sink = key.sink)
    (h : ref.scope.scopeKeyPrefix.toList <+: key.cacheKey.toList) : ref.Covers key :=
  ref.covers_iff.mpr ⟨hsink, ScopeKey.begins_iff_spans.mp h⟩

def Errand.Evicts (ref : ScopeRef) : Errand → Prop
  | .opening ref' => ref' = ref
  | .opened ref' st | .unmarked ref' st => ref' = ref ∧ st.sink = ref.sink
  | .swept => True
  | _ => False

theorem Errand.Evicts.next {q : Errand} {o : Op} {a : o.Ans} (h : q.Evicts ref) (ho : Allowed q o)
    (ha : o.Answers a) :
    (next q o a).Evicts ref := by
  cases q with
  | opening ref' =>
    cases ho
    exact ⟨h, by rw [← show ref' = ref from h]; exact ha⟩
  | opened ref' st =>
    cases ho
    exact h
  | unmarked ref' st =>
    cases ho
    trivial
  | swept => exact ho.elim
  | _ => exact h.elim

theorem evicts_of_run {cfg : Config} {as : List Action} {s : System} {th : Thread Op Op.Ans (Option Err)}
    (h : Runs.Run (machine cfg).step (fun _ _ => True) { shared := {} } as s)
    (hth : s.threads (.evict ref) = some th) :
    (Errand.protocol.after (.opening ref) th.trace).Evicts ref := by
  refine ((Errand.safe cfg).trace_invariant (B := fun t q _ => ∀ ref, t = .evict ref →
    q.Evicts ref) h ?_ ?_).1 _ th hth
    ref rfl
  · rintro _ ref rfl
    rfl
  · rintro _ _ i o tr _ a - - hall hans ih ref rfl
    exact (ih ref rfl).next hall hans

inductive Errand.Sweep (ref : ScopeRef) (s : Shared) : Errand → Errand → Shared → Prop
  | opened : Sweep ref s (.opening ref) (.opened ref (s.inst ref.sink)) s
  | unmarked (st : Inst) : st.sink = ref.sink →
      Sweep ref s (.opened ref st) (.unmarked ref st) (s.setWarm st ref.scope false)
  | swept (st : Inst) : st.sink = ref.sink →
      Sweep ref s (.unmarked ref st) .swept
        (s.modify st (fun ss => { ss with cache := ss.cache.deletePrefix ref.scope.scopeKeyPrefix }))

theorem exec_sweep {cfg : Config} {as : List Action} {s s' : System} {i : Input}
    (h : Runs.Run (machine cfg).step (fun _ _ => True) { shared := {} } as s)
    (hstep : (machine cfg).step s (.exec (.evict ref) i) = some s') :
    ∃ q q', (s.view Errand.protocol Errand.start).phase (.evict ref) = some q ∧
      (s'.view Errand.protocol Errand.start).phase (.evict ref) = some q' ∧
      Errand.Sweep ref s.shared q q' s'.shared := by
  cases (machine cfg).step_cases hstep with
  | exec _ _ o k tr shared a hth hx =>
    have hall := ((Errand.safe cfg).conforms_of_run h _ _ hth).1
    have hev := evicts_of_run h hth
    refine ⟨_, (Errand.protocol.after (.opening ref) tr).next o a, Machine.view_phase hth, ?_, ?_⟩
    · rw [Machine.phase_update]
      simp only [Function.update_self, Option.map_some, Errand.protocol.after_snoc]
      rfl
    simp only [Errand.start] at hall hev ⊢
    generalize Errand.protocol.after (.opening ref) tr = q at hall hev
    cases q with
    | opening ref' =>
      obtain rfl : ref' = ref := hev
      cases hall
      cases i <;> cases hx
      exact .opened
    | opened ref' st =>
      obtain ⟨rfl, hst⟩ := hev
      cases hall
      cases i <;> cases hx
      exact .unmarked st hst
    | unmarked ref' st =>
      obtain ⟨rfl, hst⟩ := hev
      cases hall
      cases i <;> cases hx
      exact .swept st hst
    | swept => exact hall.elim
    | _ => exact hev.elim

structure Shared.Spared (s s' : Shared) (ref : ScopeRef) : Prop where
  entries : ∀ st k, ¬ (st.sink = ref.sink ∧ ref.scope.scopeKeyPrefix.toList <+: k.toList) →
    s'.slot st k = s.slot st k
  marks : ∀ st scope, ¬ (st.sink = ref.sink ∧ scope = ref.scope) → s'.marked st scope = s.marked st scope

structure Shared.Dwindles (s s' : Shared) : Prop where
  inst : ∀ sink, s'.inst sink = s.inst sink
  entries : ∀ st k, (s.slot st k).entry = none → (s'.slot st k).entry = none
  marks : ∀ st scope, s.marked st scope = false → s'.marked st scope = false

def Shared.Cleared (s : Shared) (ref : ScopeRef) : Option Errand → Prop
  | some (.opened _ st) => st = s.inst ref.sink
  | some (.unmarked _ st) => st = s.inst ref.sink ∧ s.marked st ref.scope = false
  | some .swept => s.Vacant ref
  | _ => True

section

variable {s s' : Shared} {q q' : Errand}

theorem Errand.Sweep.spared (h : Errand.Sweep ref s q q' s') : s.Spared s' ref := by
  cases h with
  | opened => exact ⟨fun _ _ _ => rfl, fun _ _ _ => rfl⟩
  | unmarked st hst =>
    refine ⟨fun st' k _ => (Shared.same_setWarm ..).slot st' k, fun st' scope hno => ?_⟩
    rw [Shared.marked_setWarm, if_neg]
    rintro ⟨rfl, rfl⟩
    exact hno ⟨hst, rfl⟩
  | swept st hst =>
    refine ⟨fun st' k hno => ?_, fun st' scope _ => Shared.marked_deletePrefix⟩
    rw [Shared.slot_deletePrefix, if_neg]
    rintro ⟨rfl, hpre⟩
    exact hno ⟨hst, hpre⟩

theorem Errand.Sweep.dwindles (h : Errand.Sweep ref s q q' s') : s.Dwindles s' := by
  cases h with
  | opened => exact ⟨fun _ => rfl, fun _ _ => id, fun _ _ => id⟩
  | unmarked st hst =>
    refine ⟨fun _ => rfl, fun st' k he => ?_, fun st' scope hm => ?_⟩
    · rwa [(Shared.same_setWarm ..).slot st' k]
    · rw [Shared.marked_setWarm]
      split_ifs
      · rfl
      · exact hm
  | swept st hst =>
    refine ⟨fun _ => rfl, fun st' k he => ?_, fun st' scope hm => ?_⟩
    · rw [Shared.slot_deletePrefix]
      split_ifs
      · rfl
      · exact he
    · rwa [Shared.marked_deletePrefix]

theorem Errand.Sweep.cleared (h : Errand.Sweep ref s q q' s') (hq : s.Cleared ref (some q)) :
    s'.Cleared ref (some q') := by
  cases h with
  | opened => rfl
  | unmarked st hst =>
    obtain rfl : st = s.inst ref.sink := hq
    refine ⟨rfl, ?_⟩
    rw [Shared.marked_setWarm, if_pos ⟨rfl, rfl⟩]
  | swept st hst =>
    obtain ⟨rfl, hmark⟩ := hq
    refine ⟨fun key hcov => ?_, Shared.marked_deletePrefix.trans hmark⟩
    have hslot := Shared.slot_deletePrefix s (s.inst ref.sink) ref.scope.scopeKeyPrefix
      (s.inst ref.sink) key.cacheKey
    rw [if_pos ⟨rfl, hcov.begins⟩] at hslot
    exact congrArg Slot.entry hslot

theorem Shared.Dwindles.of_heap (hheap : s'.heap = s.heap) (hgens : s'.gens = s.gens) :
    s.Dwindles s' := by
  refine ⟨fun sink => ?_, fun st k he => ?_, fun st scope hm => ?_⟩
  · rw [Shared.inst, hgens, Shared.inst]
  · rwa [Shared.slot, hheap]
  · rwa [Shared.marked, hheap]

theorem Shared.Dwindles.trans {s'' : Shared} (h : s.Dwindles s') (h' : s'.Dwindles s'') :
    s.Dwindles s'' :=
  ⟨fun sink => (h'.inst sink).trans (h.inst sink), fun st k he => h'.entries st k (h.entries st k he),
    fun st scope hm => h'.marks st scope (h.marks st scope hm)⟩

theorem Shared.Vacant.dwindle (h : s.Vacant ref) (hs : s.Dwindles s') : s'.Vacant ref := by
  refine ⟨fun key hcov => ?_, ?_⟩
  · rw [hs.inst]
    exact hs.entries _ _ (h.entries key hcov)
  · rw [hs.inst]
    exact hs.marks _ _ h.mark

theorem Shared.Cleared.dwindle {x : Option Errand} (h : s.Cleared ref x) (hs : s.Dwindles s') :
    s'.Cleared ref x := by
  unfold Shared.Cleared at h ⊢
  split at h
  · rw [hs.inst]
    exact h
  · rw [hs.inst]
    exact ⟨h.1, hs.marks _ _ h.2⟩
  · exact h.dwindle hs
  · trivial

end

def PassStep (calls : List WatchCall) : Action → Prop
  | .start (.evict ref) _ | .exec (.evict ref) _ | .finish (.evict ref) => .evictScope ref ∈ calls
  | .env (.stopScope ref) => ∃ transition, .scopeStopped transition ∈ calls ∧ transition.ref = ref
  | .start (.warm _) (.warm ref _ _) =>
    ∃ transition, .scopeStarted transition ∈ calls ∧ transition.ref = ref
  | _ => False

section

variable {cfg : Config} {calls : List WatchCall} {as : List Action} {a : Action} {s s' : System}

theorem passStep_heap (ha : PassStep calls a) (hstep : (machine cfg).step s a = some s')
    (hex : ¬ ∃ ref i, a = .exec (.evict ref) i) :
    s'.shared.heap = s.shared.heap ∧ s'.shared.gens = s.shared.gens := by
  cases (machine cfg).step_cases hstep with
  | start t b shared code hn hs => exact heap_start hs
  | exec t i => cases t <;> first | exact ha.elim | exact absurd ⟨_, _, rfl⟩ hex
  | finish t r => cases t <;> first | exact ha.elim | exact ⟨rfl, rfl⟩
  | env e shared he => cases e <;> first | exact ha.elim | (cases he; exact ⟨rfl, rfl⟩)
  | crash => exact ha.elim

variable (hrun : Runs.Run (machine cfg).step (fun _ _ => True) { shared := {} } as s)
  (ha : PassStep calls a) (hstep : (machine cfg).step s a = some s')

include hrun ha hstep

theorem passStep_dwindles : s.shared.Dwindles s'.shared := by
  by_cases hex : ∃ ref i, a = .exec (.evict ref) i
  · obtain ⟨ref, i, rfl⟩ := hex
    obtain ⟨q, q', -, -, h⟩ := exec_sweep hrun hstep
    exact h.dwindles
  · obtain ⟨hheap, hgens⟩ := passStep_heap ha hstep hex
    exact .of_heap hheap hgens

theorem passStep_slot (hkey : ∀ ref, .evictScope ref ∈ calls → ¬ ref.Covers key) {st : Inst}
    (hst : st.sink = key.sink) : s'.shared.slot st key.cacheKey = s.shared.slot st key.cacheKey := by
  by_cases hex : ∃ ref i, a = .exec (.evict ref) i
  · obtain ⟨ref, i, rfl⟩ := hex
    obtain ⟨q, q', -, -, h⟩ := exec_sweep hrun hstep
    refine h.spared.entries st _ ?_
    rintro ⟨hs, hpre⟩
    exact hkey ref ha (ScopeRef.covers_of_begins (hs.symm.trans hst) hpre)
  · rw [Shared.slot, (passStep_heap ha hstep hex).1, Shared.slot]

theorem passStep_marked (hscope : .evictScope ref ∉ calls) {st : Inst} (hst : st.sink = ref.sink) :
    s'.shared.marked st ref.scope = s.shared.marked st ref.scope := by
  by_cases hex : ∃ ref i, a = .exec (.evict ref) i
  · obtain ⟨ref', i, rfl⟩ := hex
    obtain ⟨q, q', -, -, h⟩ := exec_sweep hrun hstep
    refine h.spared.marks st _ ?_
    rintro ⟨hs, he⟩
    have href : ref' = ref := by
      cases ref
      cases ref'
      simp_all
    exact hscope (href ▸ ha)
  · rw [Shared.marked, (passStep_heap ha hstep hex).1, Shared.marked]

theorem passStep_cleared (h : s.shared.Cleared ref
      ((s.view Errand.protocol Errand.start).phase (.evict ref))) :
    s'.shared.Cleared ref ((s'.view Errand.protocol Errand.start).phase (.evict ref)) ∧
      (a = .finish (.evict ref) → s'.shared.Vacant ref) := by
  have hdwindles := passStep_dwindles hrun ha hstep
  obtain ⟨d, hd, hm⟩ := (Errand.safe cfg).move ((Errand.safe cfg).conforms_of_run hrun)
    ((machine cfg).step_cases hstep)
  obtain rfl := System.plain_deed hd
  generalize hv : s.view Errand.protocol Errand.start = v at hm h
  generalize hv' : s'.view Errand.protocol Errand.start = v' at hm ⊢
  by_cases hact : d.actor = some (.evict ref)
  · cases hm with
    | start t b shared code hn =>
      cases hact
      simp only [Function.update_self]
      exact ⟨trivial, fun h => by cases h⟩
    | exec t i o tr shared a hq =>
      cases hact
      obtain ⟨q, q', hq, hq', hs⟩ := exec_sweep hrun hstep
      rw [hv] at hq
      rw [hv'] at hq'
      rw [hq] at h
      rw [hq']
      exact ⟨hs.cleared h, fun h => by cases h⟩
    | finish t r q hq hend =>
      cases hact
      obtain rfl : q = .swept := hend
      rw [hq] at h
      simp only [Function.update_self]
      exact ⟨trivial, fun _ => Shared.Vacant.dwindle h hdwindles⟩
    | env | crash => cases hact
  · refine ⟨?_, fun h => absurd (by cases d <;> cases h; rfl) hact⟩
    rw [hm.phase_of_ne hact (by rintro rfl; exact ha)]
    exact h.dwindle hdwindles

end

theorem pass_reachable {cfg : Config} {calls : List WatchCall} {as bs : List Action} {s s' : System}
    (hrun : Runs.Run (machine cfg).step (fun _ _ => True) { shared := {} } as s)
    (hpass : Runs.Run (machine cfg).step (fun _ a => PassStep calls a) s bs s') :
    Runs.Run (machine cfg).step (fun t a => PassStep calls a ∧
      ∃ as, Runs.Run (machine cfg).step (fun _ _ => True) { shared := {} } as t) s bs s' :=
  hpass.mono_of_run fun _ _ _ _ hbs ha => ⟨ha, _, hrun.append (hbs.mono fun _ _ _ => trivial)⟩

section Pass

variable {cfg : Config} {calls : List WatchCall} {bs : List Action} {s s' : System}
variable (hpass : Runs.Run (machine cfg).step (fun t a => PassStep calls a ∧
  ∃ as, Runs.Run (machine cfg).step (fun _ _ => True) { shared := {} } as t) s bs s')

include hpass

theorem pass_dwindles : s.shared.Dwindles s'.shared := by
  refine hpass.invariant (I := fun t => s.shared.Dwindles t.shared) (fun t a u hi ha hstep => ?_)
    ⟨fun _ => rfl, fun _ _ => id, fun _ _ => id⟩
  obtain ⟨ha, as, hrun⟩ := ha
  exact hi.trans (passStep_dwindles hrun ha hstep)

theorem pass_slot (hkey : ∀ ref, .evictScope ref ∈ calls → ¬ ref.Covers key) {st : Inst}
    (hst : st.sink = key.sink) : s'.shared.slot st key.cacheKey = s.shared.slot st key.cacheKey := by
  refine hpass.invariant (I := fun t => t.shared.slot st key.cacheKey = s.shared.slot st key.cacheKey)
    (fun t a u hi ha hstep => ?_) rfl
  obtain ⟨ha, as, hrun⟩ := ha
  exact (passStep_slot hrun ha hstep hkey hst).trans hi

theorem pass_marked (hscope : .evictScope ref ∉ calls) {st : Inst} (hst : st.sink = ref.sink) :
    s'.shared.marked st ref.scope = s.shared.marked st ref.scope := by
  refine hpass.invariant (I := fun t => t.shared.marked st ref.scope = s.shared.marked st ref.scope)
    (fun t a u hi ha hstep => ?_) rfl
  obtain ⟨ha, as, hrun⟩ := ha
  exact (passStep_marked hrun ha hstep hscope hst).trans hi

theorem pass_vacates (hidle : s.threads (.evict ref) = none) (hend : .finish (.evict ref) ∈ bs) :
    s'.shared.Vacant ref := by
  have h : s'.shared.Cleared ref ((s'.view Errand.protocol Errand.start).phase (.evict ref)) ∧
      (.finish (.evict ref) ∈ bs → s'.shared.Vacant ref) := by
    clear hend
    induction hpass with
    | nil => exact ⟨by simp [System.view, hidle, Shared.Cleared], fun h => by cases h⟩
    | snoc _ ha hstep ih =>
      obtain ⟨ha, as, hrun⟩ := ha
      obtain ⟨hcleared, hlast⟩ := passStep_cleared hrun ha hstep ih.1
      refine ⟨hcleared, fun hmem => ?_⟩
      rcases List.mem_append.mp hmem with hmem | hmem
      · exact (ih.2 hmem).dwindle (passStep_dwindles hrun ha hstep)
      · exact hlast (List.mem_singleton.mp hmem).symm
  exact h.2 hend

end Pass

theorem evictScope_mem_calls : .evictScope ref ∈ (reconcilePool lib p m).2 ↔
    ∃ i ∈ removedBy lib p m, i.ref = ref := by
  rw [calls_reconcilePool, List.mem_append]
  constructor
  · rintro (h | h)
    · obtain ⟨i, hi, h⟩ := List.mem_flatMap.mp h
      have : ref = i.ref := by simpa [stopCalls] using h
      exact ⟨i, hi, this.symm⟩
    · simp at h
  · rintro ⟨i, hi, rfl⟩
    exact .inl (List.mem_flatMap.mpr ⟨i, hi, by simp [stopCalls]⟩)

theorem evicted_uncovered (h : ∀ i ∈ removedBy lib p m, ¬ i.ref.Covers key) :
    ∀ ref, .evictScope ref ∈ (reconcilePool lib p m).2 → ¬ ref.Covers key := by
  intro ref href
  obtain ⟨i, hi, rfl⟩ := evictScope_mem_calls.mp href
  exact h i hi

theorem not_evicted (h : ∀ i ∈ removedBy lib p m, i.ref ≠ ref) :
    .evictScope ref ∉ (reconcilePool lib p m).2 := by
  intro hmem
  obtain ⟨i, hi, he⟩ := evictScope_mem_calls.mp hmem
  exact h i hi he

/--
What a pass leaves alone. Each of its steps, in whatever goes on around it, spares what no removed
interest covers; and a pass that has run through has spared the entry of an identity, or the mark of
a scope, exactly if there was none or no removed interest covers the identity, or is of that scope.
-/
theorem eviction_framed (cfg : Config) (lib : WatchLib Sel) (passes : List (PassInputs Sel))
    (p : PassInputs Sel) {as : List Action} {s : System}
    (hrun : Runs.Run (machine cfg).step (fun _ _ => True) { shared := {} } as s) :
    (∀ a s', PassStep (reconcilePool lib p (runPasses lib passes).1).2 a →
      (machine cfg).step s a = some s' →
      (∀ key : Key, (∀ i ∈ removedBy lib p (runPasses lib passes).1, ¬ i.ref.Covers key) →
        ∀ st, st.sink = key.sink → s'.shared.slot st key.cacheKey = s.shared.slot st key.cacheKey) ∧
      ∀ scope : ScopeRef, (∀ i ∈ removedBy lib p (runPasses lib passes).1, i.ref ≠ scope) →
        ∀ st, st.sink = scope.sink → s'.shared.marked st scope.scope = s.shared.marked st scope.scope) ∧
    ∀ bs s', Runs.Run (machine cfg).step
        (fun _ a => PassStep (reconcilePool lib p (runPasses lib passes).1).2 a) s bs s' →
      (∀ i ∈ removedBy lib p (runPasses lib passes).1,
        s.threads (.evict i.ref) = none ∧ .finish (.evict i.ref) ∈ bs) →
      (∀ key : Key, (s'.shared.slot (s.shared.inst key.sink) key.cacheKey).entry =
          (s.shared.slot (s.shared.inst key.sink) key.cacheKey).entry ↔
        (s.shared.slot (s.shared.inst key.sink) key.cacheKey).entry = none ∨
          ∀ i ∈ removedBy lib p (runPasses lib passes).1, ¬ i.ref.Covers key) ∧
      ∀ scope : ScopeRef, s'.shared.marked (s.shared.inst scope.sink) scope.scope =
          s.shared.marked (s.shared.inst scope.sink) scope.scope ↔
        s.shared.marked (s.shared.inst scope.sink) scope.scope = false ∨
          ∀ i ∈ removedBy lib p (runPasses lib passes).1, i.ref ≠ scope := by
  generalize hm : (runPasses lib passes).1 = m
  refine ⟨fun a s' ha hstep =>
    ⟨fun key hkey st => passStep_slot hrun ha hstep (evicted_uncovered hkey),
      fun scope hscope st => passStep_marked hrun ha hstep (not_evicted hscope)⟩,
    fun bs s' hpass hended => ?_⟩
  have hpass := pass_reachable hrun hpass
  have hdwindles := pass_dwindles hpass
  refine ⟨fun key => ⟨fun heq => ?_, fun h => ?_⟩, fun scope => ⟨fun heq => ?_, fun h => ?_⟩⟩
  · by_contra hno
    push Not at hno
    obtain ⟨hentry, i, hi, hcov⟩ := hno
    have hvacant := (pass_vacates hpass (hended i hi).1 (hended i hi).2).entries key hcov
    rw [hdwindles.inst, hcov.1] at hvacant
    exact hentry (heq ▸ hvacant)
  · rcases h with h | h
    · rw [h]
      exact hdwindles.entries _ _ h
    · exact congrArg Slot.entry (pass_slot hpass (evicted_uncovered h) rfl)
  · by_contra hno
    push Not at hno
    obtain ⟨hmark, i, hi, rfl⟩ := hno
    have hvacant := (pass_vacates hpass (hended i hi).1 (hended i hi).2).mark
    rw [hdwindles.inst] at hvacant
    exact hmark (heq ▸ hvacant)
  · rcases h with h | h
    · rw [h]
      exact hdwindles.marks _ _ h
    · exact pass_marked hpass (not_evicted h) rfl

def otherNamespace : WatchTargetState := targetOf "v1" podKind namespaceB

def otherScope : ScopeRef := ⟨"s", { sampleKey.scope with ns := namespaceB }⟩

def evictionOf (ref : ScopeRef) : List Action :=
  .start (.evict ref) .run :: [.go, .go, .go].map (.exec (.evict ref)) ++ [.finish (.evict ref)]

theorem other_namespace_spared :
    let before := (runPasses sampleWatchLib [podPass [podTarget "v1", otherNamespace] (by decide) 1]).1
    let second := podPass [podTarget "v1"] (by decide) 2
    ∃ (s s' : System) (bs : List Action), .finish (.evict otherScope) ∈ bs ∧
      Runs.Run (machine sampleConfig).step
        (fun _ a => PassStep (reconcilePool sampleWatchLib second before).2 a) s bs s' ∧
      (s.shared.slot (s.shared.inst "s") sampleKey.cacheKey).entry ≠ none ∧
      (s'.shared.slot (s.shared.inst "s") sampleKey.cacheKey).entry =
        (s.shared.slot (s.shared.inst "s") sampleKey.cacheKey).entry ∧
      s'.shared.marked (s.shared.inst "s") sampleKey.scope =
        s.shared.marked (s.shared.inst "s") sampleKey.scope := by
  intro before second
  have hremoved : ∀ i ∈ removedBy sampleWatchLib second before, i.ref = otherScope := by decide
  obtain ⟨i, hi, hns⟩ : ∃ i ∈ removedBy sampleWatchLib second before, i.ref = otherScope := by decide
  have hcall : .evictScope otherScope ∈ (reconcilePool sampleWatchLib second before).2 :=
    evictScope_mem_calls.mpr ⟨i, hi, hns⟩
  obtain ⟨s, hrun, hentry, hidle, hrest⟩ :=
    Runs.Run.exists_of_exec (machine sampleConfig).step (fun _ _ => True)
    { shared := {} } (seedSteps "u" "h1" 1)
    (fun s => (s.shared.slot (s.shared.inst "s") sampleKey.cacheKey).entry ≠ none ∧
      (s.threads (.evict otherScope)).isNone = true ∧
      (Runs.exec (machine sampleConfig).step (fun _ a => a.actor = some (.evict otherScope)) s
        (evictionOf otherScope)).isSome = true) (by decide)
  obtain ⟨s', hs'⟩ := Option.isSome_iff_exists.mp hrest
  have hpass : Runs.Run (machine sampleConfig).step
      (fun _ a => PassStep (reconcilePool sampleWatchLib second before).2 a) s
      (evictionOf otherScope) s' := by
    refine (Runs.Run.of_exec hs').mono fun _ a ha => ?_
    cases a <;> cases ha <;> exact hcall
  have hend : .finish (.evict otherScope) ∈ evictionOf otherScope := List.mem_append_right _ (.head _)
  have h := (eviction_framed sampleConfig sampleWatchLib
    [podPass [podTarget "v1", otherNamespace] (by decide) 1] second
    hrun).2 _ s' hpass
    fun i hi => by rw [hremoved i hi]; exact ⟨Option.isNone_iff_eq_none.mp hidle, hend⟩
  exact ⟨s, s', _, hend, hpass, hentry, (h.1 sampleKey).mpr (.inr (by decide)),
    (h.2 sampleScope).mpr (.inr (by decide))⟩

/--
One of two versions of a kind goes: what the other one still watches loses its entry and its mark.
-/
theorem shared_scope_evicted :
    let before := (runPasses sampleWatchLib [podPass [podTarget "v1", podTarget "v2"] (by decide) 1]).1
    let second := podPass [podTarget "v2"] (by decide) 2
    let after := reconcilePool sampleWatchLib second before
    (∃ i ∈ before.table.current, i.ref = sampleScope ∧ i.ref.Covers sampleKey) ∧
    (∃ i ∈ after.1.table.current, i.ref = sampleScope ∧ i.ref.Covers sampleKey) ∧
    ∃ as bs, ∃ s s' : System,
      Runs.Run (machine sampleConfig).step (fun _ _ => True) { shared := {} } as s ∧
      Runs.Run (machine sampleConfig).step (fun _ a => PassStep after.2 a) s bs s' ∧
      ((s.shared.slot (s.shared.inst "s") sampleKey.cacheKey).entry ≠ none ∧
        s.shared.marked (s.shared.inst "s") sampleKey.scope = true) ∧
      (s'.shared.slot (s.shared.inst "s") sampleKey.cacheKey).entry = none ∧
        s'.shared.marked (s.shared.inst "s") sampleKey.scope = false := by
  intro before second after
  obtain ⟨i, hi, hns⟩ : ∃ i ∈ removedBy sampleWatchLib second before, i.ref = sampleScope := by decide
  have hcall : .evictScope sampleScope ∈ after.2 := evictScope_mem_calls.mpr ⟨i, hi, hns⟩
  obtain ⟨s, hrun, hheld, hrest⟩ := Runs.Run.exists_of_exec (machine sampleConfig).step (fun _ _ => True)
    { shared := {} } (seedSteps "u" "h1" 1)
    (fun s => ((s.shared.slot (s.shared.inst "s") sampleKey.cacheKey).entry ≠ none ∧
        s.shared.marked (s.shared.inst "s") sampleKey.scope = true) ∧
      (Runs.exec (machine sampleConfig).step (fun _ a => a.actor = some (.evict sampleScope)) s
        (evictionOf sampleScope)).any
        (fun s' => (s'.shared.slot (s.shared.inst "s") sampleKey.cacheKey).entry = none ∧
          s'.shared.marked (s.shared.inst "s") sampleKey.scope = false) = true) (by decide)
  obtain ⟨s', hs', hgone⟩ := (Option.any_eq_true _ _).mp hrest
  refine ⟨by decide, by decide, _, _, s, s', hrun, (Runs.Run.of_exec hs').mono fun _ a ha => ?_, hheld,
    of_decide_eq_true hgone⟩
  cases a <;> cases ha <;> exact hcall

end Kuberecord
