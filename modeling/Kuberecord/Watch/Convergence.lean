import Kuberecord.Watch.Passes

namespace Kuberecord

open Tallies

variable {Sel : Type} {lib : WatchLib Sel} {resolve : Resolver} {p p' : PassInputs Sel}
  {m : WatchManager Sel}
variable {i : ScopeInterest Sel} {id : InterestID}

theorem newScopeInterest_ok {key : WatchTargetKey} {informer : InformerKey}
    {selectors redactions ruleKeys : List String}
    (h : newScopeInterest lib key informer selectors redactions ruleKeys = .ok i) :
    i.informer = informer ∧ i.gvk = key.gvk ∧ i.sink = key.sink := by
  simp only [newScopeInterest, bind, Except.bind] at h
  split at h
  · cases h
  · split at h
    · cases h
      exact ⟨rfl, rfl, rfl⟩
    · split at h
      · cases h
      · cases h
        exact ⟨rfl, rfl, rfl⟩

theorem translateTarget_some {state : WatchTargetState}
    (h : translateTarget lib resolve state = some i) :
    ∃ r ∈ resolve state.key, i.informer = ⟨r.1, state.key.ns⟩ ∧ i.gvk = state.key.gvk ∧
      i.sink = state.key.sink := by
  simp only [translateTarget] at h
  split at h
  · cases h
  · rename_i gvr namespaced hr
    split_ifs at h
    cases hn : newScopeInterest lib state.key ⟨gvr,
      state.key.ns⟩ state.selectors state.redactions state.ruleKeys with
    | error err =>
      rw [hn] at h
      cases h
    | ok j =>
      rw [hn] at h
      cases h
      exact ⟨_, hr, newScopeInterest_ok hn⟩

theorem ids_putInterest {desired : List (ScopeInterest Sel)} (i : ScopeInterest Sel)
    (h : (desired.map ScopeInterest.id).Nodup) :
    ((putInterest desired i).map ScopeInterest.id).Nodup := by
  rw [putInterest, List.map_append, List.nodup_append]
  refine ⟨h.sublist (List.filter_sublist.map _), by simp, ?_⟩
  intro a ha b hb
  obtain ⟨j, hj, rfl⟩ := List.mem_map.mp ha
  obtain rfl : b = i.id := by simpa using hb
  simpa using (List.mem_filter.mp hj).2

theorem foldl_putInterest_nodup {desired : List (ScopeInterest Sel)} (l : List (ScopeInterest Sel))
    (h : (desired.map ScopeInterest.id).Nodup) :
    ((l.foldl putInterest desired).map ScopeInterest.id).Nodup := by
  induction l generalizing desired with
  | nil => exact h
  | cons i l ih => exact ih (ids_putInterest i h)

theorem translate_nodup (lib : WatchLib Sel) (resolve : Resolver) (snapshot : List WatchTargetState) :
    ((translate lib resolve snapshot).map ScopeInterest.id).Nodup :=
  foldl_putInterest_nodup _ (by simp)

theorem foldl_putInterest {desired l : List (ScopeInterest Sel)}
    (h : ((desired ++ l).map ScopeInterest.id).Nodup) :
    l.foldl putInterest desired = desired ++ l := by
  induction l generalizing desired with
  | nil => simp
  | cons i l ih =>
    have hput : putInterest desired i = desired ++ [i] := by
      rw [putInterest, List.filter_eq_self.mpr]
      intro j hj
      rw [List.map_append, List.nodup_append] at h
      simpa using h.2.2 j.id (List.mem_map_of_mem hj) i.id (by simp)
    rw [List.foldl_cons, hput, ih (by simpa using h), List.append_assoc, List.singleton_append]

theorem DistinctKinds.key_eq {snapshot : List WatchTargetState} (h : DistinctKinds resolve snapshot)
    {s s' : WatchTargetState} {i' : ScopeInterest Sel} (hs : s ∈ snapshot) (hs' : s' ∈ snapshot)
    (hi : translateTarget lib resolve s = some i) (hi' : translateTarget lib resolve s' = some i')
    (he : i.id = i'.id) : s.key = s'.key := by
  obtain ⟨r, hr, hinf, -, hsink⟩ := translateTarget_some hi
  obtain ⟨r', hr', hinf', -, hsink'⟩ := translateTarget_some hi'
  simp only [ScopeInterest.id, InterestID.mk.injEq, hinf, hinf', hsink, hsink',
    InformerKey.mk.injEq] at he
  have hgvk := h s hs s' hs' r hr r' hr' he.1.1
  cases hk : s.key
  cases hk' : s'.key
  simp_all

theorem translate_eq (h : p.Faithful) :
    translate lib p.resolve p.snapshot = p.snapshot.filterMap (translateTarget lib p.resolve) := by
  rw [translate, foldl_putInterest, List.nil_append]
  rw [List.nil_append, List.Nodup, List.pairwise_map, List.pairwise_filterMap]
  have hd : p.snapshot.Pairwise fun s s' => s.key ≠ s'.key := List.pairwise_map.mp p.distinct
  refine hd.imp_of_mem fun {s s'} hs hs' hne i hi i' hi' he => hne ?_
  exact DistinctKinds.key_eq h hs hs' hi hi' he

theorem mem_table (i : ScopeInterest Sel) :
    i ∈ (reconcilePool lib p m).1.table.current ↔ i ∈ translate lib p.resolve p.snapshot :=
  (p.installOrder.perm _).mem_iff

def removedBy (lib : WatchLib Sel) (p : PassInputs Sel) (m : WatchManager Sel) :
    List (ScopeInterest Sel) :=
  (m.table.replace p.installOrder (translate lib p.resolve p.snapshot)).2

theorem mem_sortInterests {l : List (ScopeInterest Sel)} : i ∈ sortInterests l ↔ i ∈ l :=
  (List.perm_insertionSort _ l).mem_iff

theorem mem_removedBy : i ∈ removedBy lib p m ↔
    i ∈ m.table.current ∧ i.id ∉ (translate lib p.resolve p.snapshot).map ScopeInterest.id := by
  simp only [removedBy, InterestTable.replace, mem_sortInterests, (p.installOrder.perm _).mem_iff,
    List.mem_filter, decide_eq_true_eq]

theorem mem_newlyServing {order : Shuffle (ScopeInterest Sel)} {started : Finset InterestID}
    {pool : Pool} {desired : List (ScopeInterest Sel)} :
    i ∈ newlyServing order started pool desired ↔ i ∈ desired ∧ i.id ∉ started ∧
      (pool i.informer).isSome := by
  simp only [newlyServing, mem_sortInterests, (order.perm _).mem_iff, List.mem_filter, decide_eq_true_eq]

theorem mem_foldl_erase {l : List (ScopeInterest Sel)} {started : Finset InterestID} :
    id ∈ l.foldl (fun started i => started.erase i.id) started ↔ id ∈ started ∧
      id ∉ l.map ScopeInterest.id := by
  induction l generalizing started with
  | nil => simp
  | cons i l ih =>
    rw [List.foldl_cons, ih, Finset.mem_erase, List.map_cons, List.mem_cons]
    tauto

theorem mem_foldl_insert {l : List (ScopeInterest Sel)} {started : Finset InterestID} :
    id ∈ l.foldl (fun started i => insert i.id started) started ↔ id ∈ started ∨
      id ∈ l.map ScopeInterest.id := by
  induction l generalizing started with
  | nil => simp
  | cons i l ih =>
    rw [List.foldl_cons, ih, Finset.mem_insert, List.map_cons, List.mem_cons]
    tauto

def servedBy (lib : WatchLib Sel) (p : PassInputs Sel) (m : WatchManager Sel) :
    List (ScopeInterest Sel) :=
  newlyServing p.serveOrder ((removedBy lib p m).foldl
    (fun started i => started.erase i.id) m.startedTargets)
    (reconcilePool lib p m).1.pool (translate lib p.resolve p.snapshot)

theorem mem_servedBy : i ∈ servedBy lib p m ↔ i ∈ translate lib p.resolve p.snapshot ∧
    ¬ (i.id ∈ m.startedTargets ∧ i.id ∉ (removedBy lib p m).map ScopeInterest.id) ∧
    ((reconcilePool lib p m).1.pool i.informer).isSome := by
  rw [servedBy, mem_newlyServing, mem_foldl_erase]

theorem calls_reconcilePool : (reconcilePool lib p m).2 =
    (removedBy lib p m).flatMap (stopCalls p.instant) ++
    (servedBy lib p m).map fun i => .scopeStarted (i.transition p.instant) := rfl

theorem startedTargets_reconcilePool : (reconcilePool lib p m).1.startedTargets =
    (servedBy lib p m).foldl (fun started i => insert i.id started)
      ((removedBy lib p m).foldl (fun started i => started.erase i.id) m.startedTargets) := rfl

theorem mem_startedTargets : id ∈ (reconcilePool lib p m).1.startedTargets ↔
    id ∈ m.startedTargets ∧ id ∉ (removedBy lib p m).map ScopeInterest.id ∨
      ∃ i ∈ translate lib p.resolve p.snapshot, i.id = id ∧
        ((reconcilePool lib p m).1.pool i.informer).isSome := by
  rw [startedTargets_reconcilePool, mem_foldl_insert, mem_foldl_erase]
  constructor
  · rintro (h | h)
    · exact .inl h
    · obtain ⟨i, hi, rfl⟩ := List.mem_map.mp h
      obtain ⟨hdes, -, hrun⟩ := mem_servedBy.mp hi
      exact .inr ⟨i, hdes, rfl, hrun⟩
  · rintro (h | ⟨i, hi, rfl, hrun⟩)
    · exact .inl h
    · by_cases hs : i.id ∈ m.startedTargets ∧ i.id ∉ (removedBy lib p m).map ScopeInterest.id
      · exact .inl hs
      · exact .inr (List.mem_map_of_mem (mem_servedBy.mpr ⟨hi, hs, hrun⟩))

theorem pool_reconcilePool (key : InformerKey) : (reconcilePool lib p m).1.pool key =
    if key ∈ (translate lib p.resolve p.snapshot).map ScopeInterest.informer then
      ((m.pool key).map (p.feed key)).or (if p.starts key then some {} else none)
    else none := rfl

structure WatchManager.Settled (m : WatchManager Sel) : Prop where
  wanted : ∀ key, (m.pool key).isSome → ∃ i ∈ m.table.current, i.informer = key
  started : ∀ id, id ∈ m.startedTargets ↔ ∃ i ∈ m.table.current, i.id = id ∧ (m.pool i.informer).isSome

theorem WatchManager.Settled.reconcilePool (h : m.Settled) (p : PassInputs Sel) :
    (reconcilePool lib p m).1.Settled := by
  constructor
  · intro key hrun
    rw [pool_reconcilePool] at hrun
    by_cases hw : key ∈ (translate lib p.resolve p.snapshot).map ScopeInterest.informer
    · obtain ⟨i, hi, hk⟩ := List.mem_map.mp hw
      exact ⟨i, (mem_table i).mpr hi, hk⟩
    · rw [if_neg hw] at hrun
      cases hrun
  · intro id
    rw [mem_startedTargets]
    simp only [mem_table]
    constructor
    · rintro (⟨hs, hkept⟩ | h)
      · obtain ⟨i, hi, rfl, hrun⟩ := (h.started id).mp hs
        have hdes : i.id ∈ (translate lib p.resolve p.snapshot).map ScopeInterest.id := by
          by_contra hno
          exact hkept (List.mem_map_of_mem (mem_removedBy.mpr ⟨hi, hno⟩))
        obtain ⟨j, hj, hid⟩ := List.mem_map.mp hdes
        have hinf : j.informer = i.informer := congrArg InterestID.informer hid
        refine ⟨j, hj, hid, ?_⟩
        rw [pool_reconcilePool, if_pos (List.mem_map_of_mem hj), hinf]
        simp [hrun]
      · exact h
    · exact .inr

def Unrepeated (edges : List ScopeAction) : Prop :=
  edges.IsChain fun a b => ¬ (a = .started ∧ b = .started)

def edgesOf (id : InterestID) (calls : List WatchCall) : List ScopeAction :=
  calls.filterMap (WatchCall.edgeOf id)

theorem edgesOf_append (id : InterestID) (calls calls' : List WatchCall) :
    edgesOf id (calls ++ calls') = edgesOf id calls ++ edgesOf id calls' := List.filterMap_append

theorem edgesOf_stops (instant : Nat) (removed : List (ScopeInterest Sel)) :
    edgesOf id (removed.flatMap (stopCalls instant)) =
      (removed.filter (·.id = id)).map fun _ => .stopped := by
  induction removed with
  | nil => rfl
  | cons i removed ih =>
    rw [List.flatMap_cons, edgesOf_append, ih]
    have hid : (i.transition instant).id = i.id := rfl
    by_cases hi : i.id = id <;> simp [edgesOf, stopCalls, WatchCall.edgeOf, hid, hi]

theorem edgesOf_starts (instant : Nat) (serving : List (ScopeInterest Sel)) :
    edgesOf id (serving.map fun i => .scopeStarted (i.transition instant)) =
      (serving.filter (·.id = id)).map fun _ => .started := by
  induction serving with
  | nil => rfl
  | cons i serving ih =>
    have hid : (i.transition instant).id = i.id := rfl
    rw [List.map_cons, ← List.singleton_append, edgesOf_append, ih]
    by_cases hi : i.id = id <;> simp [edgesOf, WatchCall.edgeOf, hid, hi]

theorem filter_id_of_nodup {l : List (ScopeInterest Sel)} (h : (l.map ScopeInterest.id).Nodup)
    (hi : i ∈ l) : l.filter (·.id = i.id) = [i] := by
  induction l with
  | nil => cases hi
  | cons j l ih =>
    rw [List.map_cons, List.nodup_cons] at h
    rcases List.mem_cons.mp hi with rfl | hi
    · rw [List.filter_cons_of_pos (by simp), List.filter_eq_nil_iff.mpr]
      intro j hj
      simpa using fun he : j.id = i.id => h.1 (he ▸ List.mem_map_of_mem hj)
    · rw [List.filter_cons_of_neg, ih h.2 hi]
      simpa using fun he : j.id = i.id => h.1 (he ▸ List.mem_map_of_mem hi)

theorem servedBy_nodup : ((servedBy lib p m).map ScopeInterest.id).Nodup := by
  have hperm : (servedBy lib p m).Perm ((translate lib p.resolve p.snapshot).filter _) :=
    (List.perm_insertionSort _ _).trans (p.serveOrder.perm _)
  exact (hperm.map _).nodup_iff.mpr ((translate_nodup ..).sublist (List.filter_sublist.map _))

theorem edgesOf_pass (lib : WatchLib Sel) (p : PassInputs Sel) (m : WatchManager Sel) (id : InterestID) :
    ∃ stops starts, edgesOf id (reconcilePool lib p m).2 = stops ++ starts ∧
      (∀ a ∈ stops, a = .stopped) ∧ (stops = [] ↔ id ∉ (removedBy lib p m).map ScopeInterest.id) ∧
    (starts = [] ∨ starts = [.started] ∧ id ∈ (reconcilePool lib p m).1.startedTargets ∧
      (id ∈ m.startedTargets → id ∈ (removedBy lib p m).map ScopeInterest.id)) := by
  rw [calls_reconcilePool, edgesOf_append, edgesOf_stops, edgesOf_starts]
  refine ⟨_, _, rfl, by simp, by simp [List.filter_eq_nil_iff], ?_⟩
  by_cases h : ∃ i ∈ servedBy lib p m, i.id = id
  · obtain ⟨i, hi, rfl⟩ := h
    obtain ⟨hdes, hnew, hrun⟩ := mem_servedBy.mp hi
    refine .inr ⟨by rw [filter_id_of_nodup servedBy_nodup hi]; rfl, ?_, ?_⟩
    · exact mem_startedTargets.mpr (.inr ⟨i, hdes, rfl, hrun⟩)
    · intro hs
      by_contra hkept
      exact hnew ⟨hs, hkept⟩
  · refine .inl ?_
    rw [List.map_eq_nil_iff, List.filter_eq_nil_iff]
    intro i hi
    simpa using fun he : i.id = id => h ⟨i, hi, he⟩

structure EdgesReported (id : InterestID) (m : WatchManager Sel) (calls : List WatchCall) : Prop where
  unrepeated : Unrepeated (edgesOf id calls)
  last : (edgesOf id calls).getLast? = some .started → id ∈ m.startedTargets

theorem Unrepeated.append_stops {edges stops : List ScopeAction} (h : Unrepeated edges)
    (hs : ∀ a ∈ stops, a = .stopped) :
    Unrepeated (edges ++ stops) := by
  refine List.isChain_append.mpr ⟨h, ?_, ?_⟩
  · exact (List.pairwise_of_forall_mem_list fun a _ b hb hab => by simp [hs b hb] at hab).isChain
  · intro a _ b hb hab
    simp [hs b (List.mem_of_mem_head? hb)] at hab

theorem Unrepeated.append_start {edges : List ScopeAction} (h : Unrepeated edges)
    (hl : edges.getLast? ≠ some .started) : Unrepeated (edges ++ [.started]) := by
  refine List.isChain_append.mpr ⟨h, List.isChain_singleton _, ?_⟩
  intro a ha _ _ hab
  exact hl (hab.1 ▸ ha)

theorem getLast?_append_stops {edges stops : List ScopeAction} (hs : ∀ a ∈ stops, a = .stopped)
    (hl : (edges ++ stops).getLast? = some .started) : stops = [] ∧ edges.getLast? = some .started := by
  rcases stops.eq_nil_or_concat with rfl | ⟨l, a, rfl⟩
  · exact ⟨rfl, by simpa using hl⟩
  · simp [hs a (by simp)] at hl

theorem EdgesReported.reconcilePool {calls : List WatchCall} (h : EdgesReported id m calls)
    (p : PassInputs Sel) :
    EdgesReported id (reconcilePool lib p m).1 (calls ++ (reconcilePool lib p m).2) := by
  obtain ⟨stops, starts, he, hstop, hrem, hstart⟩ := edgesOf_pass lib p m id
  have hlast (hl : (edgesOf id calls ++ stops).getLast? = some .started) :
      id ∈ m.startedTargets ∧ id ∉ (removedBy lib p m).map ScopeInterest.id :=
    have ⟨hnil, hl⟩ := getLast?_append_stops hstop hl
    ⟨h.last hl, hrem.mp hnil⟩
  have hstops := h.unrepeated.append_stops hstop
  constructor <;> rw [edgesOf_append, he, ← List.append_assoc]
  · rcases hstart with rfl | ⟨rfl, -, hnew⟩
    · rwa [List.append_nil]
    · exact hstops.append_start fun hl => (hlast hl).2 (hnew (hlast hl).1)
  · intro hl
    rcases hstart with rfl | ⟨rfl, hmem, -⟩
    · rw [List.append_nil] at hl
      exact mem_startedTargets.mpr (.inl (hlast hl))
    · exact hmem

theorem runPasses_snoc (passes : List (PassInputs Sel)) (p : PassInputs Sel) :
    runPasses lib (passes ++ [p]) = ((reconcilePool lib p (runPasses lib passes).1).1,
      (runPasses lib passes).2 ++ (reconcilePool lib p (runPasses lib passes).1).2) := by
  simp [runPasses]

theorem runPasses_settled (lib : WatchLib Sel) (passes : List (PassInputs Sel)) :
    (runPasses lib passes).1.Settled := by
  induction passes using List.reverseRecOn with
  | nil => exact ⟨fun _ h => (by cases h), fun _ => by simp [runPasses]⟩
  | append_singleton passes p ih =>
    rw [runPasses_snoc]
    exact ih.reconcilePool p

theorem runPasses_reported (lib : WatchLib Sel) (passes : List (PassInputs Sel)) (id : InterestID) :
    EdgesReported id (runPasses lib passes).1 (runPasses lib passes).2 := by
  induction passes using List.reverseRecOn with
  | nil => exact ⟨List.isChain_nil, fun h => (by cases h)⟩
  | append_singleton passes p ih =>
    rw [runPasses_snoc]
    exact ih.reconcilePool p

def PassInputs.without (p : PassInputs Sel) (key : WatchTargetKey) : PassInputs Sel :=
  { p with
    snapshot := p.snapshot.filter (·.key ≠ key)
    distinct := p.distinct.sublist (List.filter_sublist.map _) }

theorem translate_without {state : WatchTargetState} (hs : state ∈ p.snapshot)
    (h : translateTarget lib p.resolve state = none) :
    translate lib p.resolve (p.without state.key).snapshot = translate lib p.resolve p.snapshot := by
  have hkey : ∀ s ∈ p.snapshot, s.key = state.key → translateTarget lib p.resolve s = none := by
    intro s hs' he
    rw [List.inj_on_of_nodup_map p.distinct hs' hs he]
    exact h
  have hf : ∀ l : List WatchTargetState, (∀ s ∈ l, s.key = state.key →
    translateTarget lib p.resolve s = none) →
      (l.filter (·.key ≠ state.key)).filterMap (translateTarget lib p.resolve) =
        l.filterMap (translateTarget lib p.resolve) := by
    intro l hl
    induction l with
    | nil => rfl
    | cons s l ih =>
      have ih := ih fun s hs => hl s (.tail _ hs)
      by_cases he : s.key = state.key
      · rw [List.filter_cons_of_neg (by simpa using he), ih,
          List.filterMap_cons_none (hl s (.head _) he)]
      · rw [List.filter_cons_of_pos (by simpa using he), List.filterMap_cons, List.filterMap_cons, ih]
  rw [translate, translate, PassInputs.without, hf _ hkey]

structure PassInputs.Repeats (p' p : PassInputs Sel) : Prop where
  snapshot : p'.snapshot.Perm p.snapshot
  resolve : ∀ s ∈ p.snapshot, p'.resolve s.key = p.resolve s.key
  starts : ∀ key, p'.starts key = p.starts key

namespace PassInputs

theorem Repeats.faithful (h : p'.Repeats p) (hp : p.Faithful) : p'.Faithful := by
  intro s hs s' hs' r hr r' hr'
  have hs := h.snapshot.mem_iff.mp hs
  have hs' := h.snapshot.mem_iff.mp hs'
  rw [h.resolve s hs] at hr
  rw [h.resolve s' hs'] at hr'
  exact hp s hs s' hs' r hr r' hr'

theorem Repeats.mem_translate (h : p'.Repeats p) (hp : p.Faithful) (i : ScopeInterest Sel) :
    i ∈ translate lib p'.resolve p'.snapshot ↔ i ∈ translate lib p.resolve p.snapshot := by
  rw [translate_eq hp, translate_eq (h.faithful hp), (h.snapshot.filterMap _).mem_iff,
    List.mem_filterMap, List.mem_filterMap]
  have hs : ∀ s ∈ p.snapshot, translateTarget lib p'.resolve s = translateTarget lib p.resolve s := by
    intro s hs
    simp only [translateTarget, h.resolve s hs]
  exact exists_congr fun s => and_congr_right fun hmem => by rw [hs s hmem]

theorem Repeats.removedBy (h : p'.Repeats p) (hp : p.Faithful) :
    removedBy lib p' (reconcilePool lib p m).1 = [] := by
  refine List.eq_nil_iff_forall_not_mem.mpr fun i hi => ?_
  obtain ⟨hin, hout⟩ := mem_removedBy.mp hi
  exact hout (List.mem_map_of_mem ((h.mem_translate hp i).mpr ((mem_table i).mp hin)))

theorem Repeats.servedBy (h : p'.Repeats p) (hp : p.Faithful) :
    servedBy lib p' (reconcilePool lib p m).1 = [] := by
  refine List.eq_nil_iff_forall_not_mem.mpr fun i hi => ?_
  obtain ⟨hdes', hnew, hrun⟩ := mem_servedBy.mp hi
  have hdes := (h.mem_translate hp i).mp hdes'
  have hran : ((reconcilePool lib p m).1.pool i.informer).isSome := by
    rw [pool_reconcilePool, if_pos (List.mem_map_of_mem hdes'), h.starts] at hrun
    cases hs : p.starts i.informer with
    | true =>
      rw [pool_reconcilePool, if_pos (List.mem_map_of_mem hdes), hs]
      simp
    | false => simpa [hs] using hrun
  refine hnew ⟨mem_startedTargets.mpr (.inr ⟨i, hdes, rfl, hran⟩), ?_⟩
  rw [h.removedBy hp]
  exact List.not_mem_nil

end PassInputs

theorem passes_converge (lib : WatchLib Sel) (passes : List (PassInputs Sel))
    (p p' : PassInputs Sel) (hp : p.Faithful) (hr : p'.Repeats p) :
    let before := (runPasses lib passes).1
    let after := (runPasses lib (passes ++ [p])).1
    (∀ key, (after.pool key).isSome →
      key ∈ (translate lib p.resolve p.snapshot).map ScopeInterest.informer) ∧
    (∀ id, id ∈ after.startedTargets ↔
      ∃ i ∈ after.table.current, i.id = id ∧ (after.pool i.informer).isSome) ∧
    (∀ id, Unrepeated (edgesOf id (runPasses lib (passes ++ [p])).2)) ∧
    (∀ s ∈ p.snapshot, translateTarget lib p.resolve s = none →
      reconcilePool lib (p.without s.key) before = reconcilePool lib p before) ∧
    (∀ s ∈ p.snapshot, ∀ i ∈ translateTarget lib p.resolve s, i ∈ after.table.current ∧
      after.pool i.informer = ((before.pool i.informer).map (p.feed i.informer)).or
        (if p.starts i.informer then some {} else none)) ∧
    (reconcilePool lib p' after).2 = [] := by
  intro before after
  have hafter : after = (reconcilePool lib p before).1 := by
    simp only [after, before, runPasses_snoc]
  have hsettled : after.Settled := runPasses_settled lib _
  refine ⟨fun key hrun => ?_, hsettled.started, fun id => (runPasses_reported lib _ id).unrepeated,
    ?_, ?_, ?_⟩
  · obtain ⟨i, hi, rfl⟩ := hsettled.wanted key hrun
    rw [hafter, mem_table] at hi
    exact List.mem_map_of_mem hi
  · intro s hs hnone
    have ht := translate_without hs hnone
    simp only [reconcilePool, PassInputs.without] at ht ⊢
    rw [ht]
  · intro s hs i hi
    have hmem : i ∈ translate lib p.resolve p.snapshot := by
      rw [translate_eq hp]
      exact List.mem_filterMap.mpr ⟨s, hs, hi⟩
    rw [hafter, mem_table, pool_reconcilePool, if_pos (List.mem_map_of_mem hmem)]
    exact ⟨hmem, rfl⟩
  · rw [hafter, calls_reconcilePool, hr.removedBy hp, hr.servedBy hp]
    rfl

def targetOf (version : String) (kind : Segment) (ns : Namespace) : WatchTargetState where
  key := ⟨"s", ⟨coreGroup, version, kind⟩, ns⟩
  ruleKeys := ["r"]
  selectors := [""]
  redactions := []

def podTarget (version : String) : WatchTargetState := targetOf version podKind namespaceA

def unknownTarget : WatchTargetState := targetOf "v1" ⟨"Unknown", by decide⟩ namespaceA

def knowsPods : Resolver := fun key =>
  if key.gvk.kind.1 = "Pod" then some (⟨"", key.gvk.version, "pods"⟩, true) else none

def podPass (snapshot : List WatchTargetState) (distinct : (snapshot.map TargetState.key).Nodup)
    (instant : Nat) :
    PassInputs String where
  snapshot := snapshot
  distinct := distinct
  resolve := knowsPods
  starts := fun _ => true
  installOrder := .id
  serveOrder := .id
  instant := instant
  feed := fun _ informer => informer

theorem unknown_kind_harmless :
    let first := podPass [podTarget "v1", unknownTarget] (by decide) 1
    let after := (runPasses sampleWatchLib [first]).1
    (after.pool ⟨⟨"", "v1", "pods"⟩, ⟨"a", by decide⟩⟩).isSome ∧
      reconcilePool sampleWatchLib (first.without unknownTarget.key) {} =
        reconcilePool sampleWatchLib first {} ∧
      (reconcilePool sampleWatchLib (podPass [unknownTarget, podTarget "v1"] (by decide) 2)
        after).2 = [] := by
  have h := passes_converge sampleWatchLib [] (podPass [podTarget "v1", unknownTarget] (by decide) 1)
    (podPass [unknownTarget, podTarget "v1"] (by decide) 2)
    (by unfold PassInputs.Faithful DistinctKinds; decide)
    ⟨.swap .., fun _ _ => rfl, fun _ => rfl⟩
  exact ⟨by decide, h.2.2.2.1 unknownTarget (by simp [podPass]) rfl, h.2.2.2.2.2⟩

end Kuberecord
