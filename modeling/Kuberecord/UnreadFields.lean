import Kuberecord.Library.Couplings
import Kuberecord.Lookalikes
import Kuberecord.Machine

namespace Kuberecord

open Threads

def CacheEntry.blur (e : CacheEntry) : CacheEntry := { e with apiVersion := "" }

def KnownState.blur (s : KnownState) : KnownState := { s with apiVersion := "" }

def Reincarnation.blur (r : Reincarnation) : Reincarnation := { r with apiVersion := "" }

def Record.blur (r : Record) : Record :=
  { r with apiVersion := "", resourceVersion := "", labels := [], actors := [] }

def NormalizedObject.blur (n : NormalizedObject) : NormalizedObject :=
  { n with apiVersion := "", resourceVersion := "", labels := [], actors := [] }

def Slot.blur (s : Slot) : Slot := { s with entry := s.entry.map CacheEntry.blur }

def DeleteClaim.blur : DeleteClaim → DeleteClaim
  | .claimed entry t => .claimed entry.blur t
  | claim => claim

def Commit.blur : Commit → Commit
  | .upsert st objectKey key t confirmedEntry revertEntry =>
    .upsert st objectKey key t confirmedEntry.blur (revertEntry.map CacheEntry.blur)
  | .delete st objectKey key t => .delete st objectKey key t
  | .closeOut st objectKey key record => .closeOut st objectKey key record.blur

def Job.blur (j : Job) : Job := ⟨j.record.blur, j.commit.blur⟩

def Handed.blur (h : Handed) : Handed := { h with job := h.job.blur }

def SinkState.blur (s : SinkState) : SinkState where
  cache k := (s.cache k).blur
  closeOuts k := (s.closeOuts k).map Record.blur
  warm := s.warm

def Lookup.blur (l : Lookup) : Lookup :=
  { l with obj := l.obj.map fun obj => .obj [("metadata", .obj [("uid", .str obj.getUID)])] }

def Shared.blur (s : Shared) : Shared :=
  { s with heap := fun st => (s.heap st).blur, jobs := s.jobs.map Handed.blur, table := [] }

def Op.blur : Op → Op
  | .reserve st objectKey entry => .reserve st objectKey entry.blur
  | .commitIfCurrent st objectKey t entry => .commitIfCurrent st objectKey t entry.blur
  | .storeIfAbsent st objectKey entry => .storeIfAbsent st objectKey entry.blur
  | .closeOutsAdd st objectKey record => .closeOutsAdd st objectKey record.blur
  | .enqueue sink job => .enqueue sink job.blur
  | o => o

def Input.blur : Input → Input
  | .lookup key l => .lookup key (l.map Lookup.blur)
  | .states ref l => .states ref (l.map (·.map KnownState.blur))
  | i => i

def gist : Sigma Op.Ans → Sigma Op.Ans
  | ⟨.listerGet key, l⟩ => ⟨.listerGet key, l.map Lookup.blur⟩
  | ⟨.load st objectKey, entry⟩ => ⟨.load st objectKey, entry.map CacheEntry.blur⟩
  | ⟨.reserveDelete st objectKey expectedUID, claim⟩ =>
    ⟨.reserveDelete st objectKey expectedUID, claim.blur⟩
  | ⟨.closeOutsTakeAll st objectKey, records⟩ =>
    ⟨.closeOutsTakeAll st objectKey, records.map Record.blur⟩
  | ⟨.lastKnownStates ref, l⟩ => ⟨.lastKnownStates ref, l.map (·.map KnownState.blur)⟩
  | ⟨.reserve st objectKey entry, t⟩ => ⟨.reserve st objectKey entry.blur, t⟩
  | ⟨.commitIfCurrent st objectKey t entry, ok⟩ => ⟨.commitIfCurrent st objectKey t entry.blur, ok⟩
  | ⟨.storeIfAbsent st objectKey entry, u⟩ => ⟨.storeIfAbsent st objectKey entry.blur, u⟩
  | ⟨.closeOutsAdd st objectKey record, u⟩ => ⟨.closeOutsAdd st objectKey record.blur, u⟩
  | ⟨.enqueue sink job, ok⟩ => ⟨.enqueue sink job.blur, ok⟩
  | e => e

namespace Slot

variable (s : Slot) (entry : CacheEntry) (version : Nat)

theorem reserve_blur : s.blur.reserve entry.blur = ((s.reserve entry).1.blur, (s.reserve entry).2) := by
  obtain ⟨e, installs, base⟩ := s
  cases e <;> rfl

theorem commitIfCurrent_blur : s.blur.commitIfCurrent version entry.blur =
    ((s.commitIfCurrent version entry).1.blur, (s.commitIfCurrent version entry).2) := by
  obtain ⟨e, installs, base⟩ := s
  cases e with
  | none =>
    by_cases h : version = 0
    · simp [blur, commitIfCurrent, h, CacheEntry.blur]
    · simp [blur, commitIfCurrent, h]
  | some e =>
    by_cases h : e.version = version
    · simp [blur, commitIfCurrent, h, CacheEntry.blur]
    · simp [blur, commitIfCurrent, h, CacheEntry.blur]

theorem deleteIfCurrent_blur : s.blur.deleteIfCurrent version =
    ((s.deleteIfCurrent version).1.blur, (s.deleteIfCurrent version).2) := by
  obtain ⟨e, installs, base⟩ := s
  cases e with
  | none => rfl
  | some e =>
    by_cases h : e.version = version
    · simp [blur, deleteIfCurrent, h, CacheEntry.blur]
    · simp [blur, deleteIfCurrent, h, CacheEntry.blur]

theorem reserveDelete_blur (expectedUID : String) : s.blur.reserveDelete expectedUID =
    ((s.reserveDelete expectedUID).1.blur, (s.reserveDelete expectedUID).2.blur) := by
  obtain ⟨e, installs, base⟩ := s
  cases e with
  | none => rfl
  | some e =>
    simp only [blur, reserveDelete, Option.map_some, CacheEntry.blur]
    split_ifs <;> rfl

theorem unclaimDelete_blur : s.blur.unclaimDelete version = (s.unclaimDelete version).blur := by
  obtain ⟨e, installs, base⟩ := s
  cases e with
  | none => rfl
  | some e =>
    by_cases h : e.version = version
    · simp [blur, unclaimDelete, h, CacheEntry.blur]
    · simp [blur, unclaimDelete, h, CacheEntry.blur]

theorem storeIfAbsent_blur : s.blur.storeIfAbsent entry.blur = (s.storeIfAbsent entry).blur := by
  obtain ⟨e, installs, base⟩ := s
  cases e <;> rfl

theorem remove_blur : s.blur.remove = s.remove.blur := by
  obtain ⟨e, installs, base⟩ := s
  cases e <;> rfl

end Slot

theorem SinkState.deletePrefix_blur (ss : SinkState) (pre : String) :
    SinkState.blur { ss with cache := ss.cache.deletePrefix pre } =
      { ss.blur with cache := ss.blur.cache.deletePrefix pre } := by
  simp only [SinkState.blur, SinkState.mk.injEq, and_true]
  funext k
  by_cases h : pre.toList <+: k.toList
  · simp [HashCache.deletePrefix, h, Slot.remove_blur]
  · simp [HashCache.deletePrefix, h]

namespace Shared

variable (s : Shared) (st : Inst) (objectKey : String)

theorem slot_blur : s.blur.slot st objectKey = (s.slot st objectKey).blur := rfl

theorem closeOuts_blur : s.blur.closeOuts st objectKey =
    (s.closeOuts st objectKey).map Record.blur := rfl

theorem modify_blur {f g : SinkState → SinkState} (hf : ∀ ss, (f ss).blur = g ss.blur) :
    (s.modify st f).blur = s.blur.modify st g := by
  simp only [modify, blur, Shared.mk.injEq, true_and, and_true]
  funext st'
  by_cases h : st' = st
  · subst h
    simp [hf]
  · simp [h]

theorem setSlot_blur (slot : Slot) :
    (s.setSlot st objectKey slot).blur = s.blur.setSlot st objectKey slot.blur := by
  refine s.modify_blur st fun ss => ?_
  simp only [SinkState.blur, SinkState.mk.injEq, and_true]
  funext k
  by_cases h : k = objectKey
  · subst h
    simp
  · simp [h]

theorem setCloseOuts_blur (records : List Record) :
    (s.setCloseOuts st objectKey records).blur = s.blur.setCloseOuts st objectKey
    (records.map Record.blur) := by
  refine s.modify_blur st fun ss => ?_
  simp only [SinkState.blur, SinkState.mk.injEq, and_true, true_and]
  funext k
  by_cases h : k = objectKey
  · subst h
    simp
  · simp [h]

theorem setWarm_blur (scope : ScopeKey) (b : Bool) :
    (s.setWarm st scope b).blur = s.blur.setWarm st scope b :=
  s.modify_blur st fun _ => rfl

theorem callback_blur (commit : Commit) (ok : Bool) :
    (s.callback commit ok).blur = s.blur.callback commit.blur ok := by
  have haddKey : ∀ (s : Shared) key, (s.addKey key).blur = s.blur.addKey key := fun _ _ => rfl
  cases commit with
  | upsert st objectKey key t confirmedEntry revertEntry =>
    cases ok with
    | true => simp only [callback, Commit.blur, setSlot_blur, slot_blur, Slot.commitIfCurrent_blur]
    | false =>
      cases revertEntry with
      | none => simp only [callback, Commit.blur, Option.map_none, haddKey, setSlot_blur, slot_blur,
          Slot.deleteIfCurrent_blur]
      | some revertEntry =>
        simp only [callback, Commit.blur, Option.map_some, haddKey, setSlot_blur, slot_blur,
          Slot.commitIfCurrent_blur]
  | delete st objectKey key t =>
    cases ok with
    | true => simp only [callback, Commit.blur, setSlot_blur, slot_blur, Slot.deleteIfCurrent_blur]
    | false => simp only [callback, Commit.blur, haddKey, setSlot_blur, slot_blur,
        Slot.unclaimDelete_blur]
  | closeOut st objectKey key record =>
    cases ok with
    | true => rfl
    | false =>
      simp only [callback, Commit.blur, haddKey, setCloseOuts_blur, closeOuts_blur, List.map_append,
        List.map_cons, List.map_nil]

theorem settled_blur (j : Nat) (sink : String) (job : Job) (ok : Bool) :
    (s.settled j sink job ok).blur = s.blur.settled j sink job.blur ok := by
  rw [settled, callback_blur, settled]
  congr 1
  simp [blur, List.map_set, Handed.blur]

end Shared

theorem exec_blur {s s₁ : Shared} {tid : Tid} {o : Op} {i : Input} {a : o.Ans}
    (h : exec s tid o i = some (s₁, a)) :
    ∃ b, exec s.blur tid o.blur i.blur = some (s₁.blur, b) ∧ gist ⟨o, a⟩ = ⟨o.blur, b⟩ := by
  cases o <;> cases i <;> simp only [exec, reduceCtorEq] at h
  case listerGet.lookup key key' l =>
    split_ifs at h with hkey
    cases h
    exact ⟨_, if_pos hkey, rfl⟩
  case lastKnownStates.states ref ref' l =>
    split_ifs at h with href
    cases h
    exact ⟨_, if_pos href, rfl⟩
  case scopeWasActive.active ref _ ref' a' =>
    split_ifs at h with href
    cases h
    exact ⟨_, if_pos href, rfl⟩
  case mapOrder.order pending l =>
    split_ifs at h with hperm
    cases h
    exact ⟨_, if_pos hperm, rfl⟩
  case ctxErr.flag b =>
    split_ifs at h with hb
    cases h
    exact ⟨_, if_neg hb, rfl⟩
  case backoff.flag b =>
    split_ifs at h with hb
    cases h
    exact ⟨_, if_neg hb, rfl⟩
  case reserve.go st objectKey entry =>
    cases h
    refine ⟨_, ?_, rfl⟩
    simp only [Op.blur, Input.blur, exec, Shared.slot_blur, Slot.reserve_blur, Shared.setSlot_blur]
  case reserveDelete.go st objectKey expectedUID =>
    cases h
    refine ⟨_, ?_, rfl⟩
    simp only [Op.blur, Input.blur, exec, Shared.slot_blur, Slot.reserveDelete_blur, Shared.setSlot_blur]
  case commitIfCurrent.go st objectKey t entry =>
    cases h
    refine ⟨_, ?_, rfl⟩
    simp only [Op.blur, Input.blur, exec, Shared.slot_blur, Slot.commitIfCurrent_blur,
      Shared.setSlot_blur]
  case deleteIfCurrent.go st objectKey t =>
    cases h
    refine ⟨_, ?_, rfl⟩
    simp only [Op.blur, Input.blur, exec, Shared.slot_blur, Slot.deleteIfCurrent_blur,
      Shared.setSlot_blur]
  case unclaimDelete.go st objectKey t =>
    cases h
    refine ⟨_, ?_, rfl⟩
    simp only [Op.blur, Input.blur, exec, Shared.slot_blur, Slot.unclaimDelete_blur, Shared.setSlot_blur]
  case storeIfAbsent.go st objectKey entry =>
    cases h
    refine ⟨_, ?_, rfl⟩
    simp only [Op.blur, Input.blur, exec, Shared.slot_blur, Slot.storeIfAbsent_blur, Shared.setSlot_blur]
  case closeOutsAdd.go st objectKey record =>
    cases h
    refine ⟨_, ?_, rfl⟩
    simp only [Op.blur, Input.blur, exec, Shared.closeOuts_blur, Shared.setCloseOuts_blur,
      List.map_append, List.map_cons, List.map_nil]
  case closeOutsTakeAll.go st objectKey =>
    cases h
    refine ⟨_, ?_, rfl⟩
    simp only [Op.blur, Input.blur, exec, Shared.closeOuts_blur, Shared.setCloseOuts_blur, List.map_nil]
  case deletePrefix.go st pre =>
    cases h
    refine ⟨_, ?_, rfl⟩
    simp only [Op.blur, Input.blur, exec, Option.some.injEq, Prod.mk.injEq, and_true]
    exact (s.modify_blur st fun ss => ss.deletePrefix_blur pre).symm
  case markScopeWarm.go ref =>
    cases h
    refine ⟨_, ?_, rfl⟩
    simp only [Op.blur, Input.blur, exec, Shared.setWarm_blur]
    rfl
  case unmarkWarm.go st scope =>
    cases h
    refine ⟨_, ?_, rfl⟩
    simp only [Op.blur, Input.blur, exec, Shared.setWarm_blur]
  case enqueue.flag sink job accepted =>
    cases accepted <;> cases h <;> refine ⟨_, ?_, rfl⟩
    · rfl
    · simp [Op.blur, Input.blur, exec, Shared.blur, Handed.blur]
  case enqueueScopeEvent.flag sink event accepted =>
    cases accepted <;> cases h <;> exact ⟨_, rfl, rfl⟩
  all_goals
    cases h
    exact ⟨_, rfl, rfl⟩

theorem Shared.handed_blur {s s' : Shared} (hs : s'.blur = s.blur) {j : Nat} {h h' : Handed}
    (hj : s.jobs[j]? = some h) (hj' : s'.jobs[j]? = some h') : h'.blur = h.blur := by
  have hjobs : s'.jobs.map Handed.blur = s.jobs.map Handed.blur := congrArg Shared.jobs hs
  have hat := congrArg (·[j]?) hjobs
  simpa [hj, hj'] using hat

theorem env_blur {s s' s₁ s₁' : Shared} {e : Env} (hs : s'.blur = s.blur) (h : env s e = some s₁)
    (h' : env s' e = some s₁') : s₁'.blur = s₁.blur := by
  cases e with
  | add key =>
    cases h
    cases h'
    exact congrArg (·.addKey key) hs
  | insert j =>
    simp only [env] at h h'
    split at h <;> cases h
    split at h' <;> cases h'
    exact hs
  | settle j ok =>
    simp only [env] at h h'
    split at h
    · rename_i sink job hj
      split_ifs at h
      cases h
      split at h'
      · rename_i sink' job' hj'
        split_ifs at h'
        cases h'
        have hhanded := Shared.handed_blur hs hj hj'
        simp only [Handed.blur, Handed.mk.injEq, and_true] at hhanded
        rw [Shared.settled_blur, Shared.settled_blur, hs, hhanded.1, hhanded.2]
      · cases h'
    · cases h
  | removeSink sink =>
    cases h
    cases h'
    exact congrArg (fun x => { x with gens := Function.update x.gens sink (x.gens sink + 1) }) hs
  | stopScope ref =>
    cases h
    cases h'
    exact congrArg (·.cancelRuns (· == ref)) hs
  | forgetSink sink =>
    cases h
    cases h'
    exact congrArg (fun x => { x.cancelRuns (·.sink == sink) with bootDone := x.bootDone.filter (· ≠ sink) }) hs

theorem crash_blur (s : Shared) : (crash s).blur = crash s.blur := by
  simp only [crash, Shared.blur, Shared.mk.injEq, List.map_map, true_and, and_true]
  refine ⟨rfl, List.map_congr_left fun h _ => ?_⟩
  by_cases hs : h.status = .inFlight
  · simp [Handed.blur, hs]
  · simp [Handed.blur, hs]

theorem Lookalike.normalizeObject_blur {p : Option RedactionPolicy} {obj obj' : Json}
    (h : Lookalike p obj obj') (lib : Lib) :
    (normalizeObject lib obj' p).map NormalizedObject.blur =
    (normalizeObject lib obj p).map NormalizedObject.blur := by
  simp only [normalizeObject, h.normalized, Option.map_map]
  congr 1
  funext objJSON
  simp [NormalizedObject.blur, h.uid]

def Plan.blur (plan : Plan) : Plan := { plan with revertEntry := plan.revertEntry.map CacheEntry.blur }

section

variable (lib : Lib) (ephemeral : Bool) (entry : CacheEntry) (norm : NormalizedObject) (plan : Plan)

theorem modifiedPlan_blur (every : Int) :
    modifiedPlan lib ephemeral every entry.blur norm.blur =
      (modifiedPlan lib ephemeral every entry norm).blur := by
  have hdecode : entry.blur.decodeBaseline lib.zstd = entry.decodeBaseline lib.zstd := rfl
  have hjson : entry.blur.json = entry.json := rfl
  have hrun : entry.blur.modifiedSinceCheckpoint = entry.modifiedSinceCheckpoint := rfl
  have hnorm : norm.blur.json = norm.json := rfl
  simp only [modifiedPlan, hdecode, hjson, hrun, hnorm]
  cases ephemeral with
  | true => rfl
  | false =>
    by_cases hnone : entry.json = none
    · simp [hnone, Plan.blur]
    · simp only [hnone, Bool.false_eq_true, if_false]
      cases entry.decodeBaseline lib.zstd with
      | none => rfl
      | some baseline =>
        dsimp only
        cases lib.compareJSON (baseline.getD []) norm.json with
        | none => rfl
        | some patch =>
          dsimp only
          cases lib.marshal patch with
          | none => rfl
          | some patchBytes =>
            dsimp only
            by_cases hdue : (checkpointDue every
              (entry.modifiedSinceCheckpoint + 1) patchBytes norm.json).isSome
            · rw [if_pos hdue, if_pos hdue]
              rfl
            · rw [if_neg hdue, if_neg hdue]
              rfl

theorem confirmedEntry_blur :
    confirmedEntry lib ephemeral norm.blur plan.blur =
      (confirmedEntry lib ephemeral norm plan).blur := rfl

theorem upsertRecord_blur (clusterID : String) (key : Key) (ts : Nat) :
    (upsertRecord clusterID key norm.blur plan.blur ts).blur =
    (upsertRecord clusterID key norm plan ts).blur := rfl

end

def Group.blur (g : Group) : Group := ⟨g.head.blur, g.rest.map KnownState.blur⟩

section

variable (state current : KnownState) (states : List KnownState) (g : Group)

theorem addToGroup_blur (groups : List Group) :
    addToGroup state.blur (groups.map Group.blur) = (addToGroup state groups).map Group.blur := by
  induction groups with
  | nil => rfl
  | cons g groups ih =>
    by_cases h : g.head.identity = state.identity
    · have h' : g.blur.head.identity = state.blur.identity := h
      simp only [List.map_cons, addToGroup, if_pos h, if_pos h']
      simp [Group.blur]
    · have h' : ¬ g.blur.head.identity = state.blur.identity := h
      simp only [List.map_cons, addToGroup, if_neg h, if_neg h', ih]

theorem groupByIdentity_blur :
    groupByIdentity (states.map KnownState.blur) = (groupByIdentity states).map Group.blur := by
  suffices h : ∀ groups : List Group,
      (states.map KnownState.blur).foldl (fun groups state => addToGroup state groups)
      (groups.map Group.blur) =
        (states.foldl (fun groups state => addToGroup state groups) groups).map Group.blur from h []
  induction states with
  | nil => exact fun _ => rfl
  | cons state states ih =>
    intro groups
    simp only [List.map_cons, List.foldl_cons, addToGroup_blur, ih]

theorem newest_blur :
    (states.map KnownState.blur).foldl
    (fun current state => if newer state current then state else current)
        current.blur =
      (states.foldl (fun current state =>
          if newer state current then state else current) current).blur := by
  induction states generalizing current with
  | nil => rfl
  | cons state states ih =>
    have hnewer : newer state.blur current.blur ↔ newer state current := Iff.rfl
    simp only [List.map_cons, List.foldl_cons, hnewer, ← apply_ite KnownState.blur, ih]

theorem splitIncarnations_blur :
    splitIncarnations g.blur = ((splitIncarnations g).1.blur,
        (splitIncarnations g).2.map KnownState.blur) := by
  simp only [splitIncarnations, Group.blur, newest_blur, Prod.mk.injEq, true_and, Group.states]
  rw [← List.map_cons, List.filter_map]
  rfl

theorem indexIncarnations_blur :
    indexIncarnations (states.map KnownState.blur) =
      (fun target => ((indexIncarnations states).1 target).map KnownState.blur,
          (indexIncarnations states).2) := by
  simp only [indexIncarnations, groupByIdentity_blur, Prod.mk.injEq]
  constructor
  · funext target
    rw [← Keyed.lookup_map_snd, List.flatMap_map, List.map_reverse, List.map_flatMap]
    congr 3
    funext g
    have hstates : g.blur.states = g.states.map KnownState.blur := rfl
    rw [hstates, List.map_map, List.map_map]
    rfl
  · rw [List.map_map]
    congr! 5 with identity g
    simp only [Function.comp_apply, splitIncarnations_blur]
    rfl

theorem closeable_blur (pending : List GcTarget) :
    closeable (states.map KnownState.blur) pending =
      ((closeable states pending).1.map Reincarnation.blur, (closeable states pending).2) := by
  simp only [closeable, indexIncarnations_blur, Option.isSome_map, List.map_filterMap,
    Prod.mk.injEq, and_true]
  congr 1
  funext target
  split_ifs
  · rfl
  · simp only [Option.map_map]
    rfl

end

end Kuberecord
