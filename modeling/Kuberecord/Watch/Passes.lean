import Kuberecord.Watch.Relabelings

namespace Kuberecord

open Tallies

variable {Sel : Type}

abbrev WatchTargetKey := TargetKey GroupVersionKind Namespace

abbrev WatchTargetState := TargetState GroupVersionKind Namespace

abbrev Resolver := WatchTargetKey → Option (GroupVersionResource × Bool)

def translateTarget (lib : WatchLib Sel) (resolve : Resolver) (state : WatchTargetState) :
    Option (ScopeInterest Sel) :=
  match resolve state.key with
  | none => none
  | some (gvr, namespaced) =>
    if state.key.ns.1 ≠ "" ∧ namespaced = false then none
    else (newScopeInterest lib state.key ⟨gvr,
      state.key.ns⟩ state.selectors state.redactions state.ruleKeys).toOption

def putInterest (desired : List (ScopeInterest Sel)) (i : ScopeInterest Sel) :
    List (ScopeInterest Sel) :=
  -- `desired[in.id()] = in`: the last one translated stays
  desired.filter (·.id ≠ i.id) ++ [i]

def translate (lib : WatchLib Sel) (resolve : Resolver) (snapshot : List WatchTargetState) :
    List (ScopeInterest Sel) :=
  (snapshot.filterMap (translateTarget lib resolve)).foldl putInterest []

def Pool.retain (wanted : List InformerKey) (starts : InformerKey → Bool) (pool : Pool) :
    Pool := fun key =>
  if key ∈ wanted then (pool key).or (if starts key then some {} else none) else none

def newlyServing (order : Shuffle (ScopeInterest Sel)) (startedTargets : Finset InterestID) (pool : Pool)
    (desired : List (ScopeInterest Sel)) : List (ScopeInterest Sel) :=
  sortInterests (order.run (desired.filter fun i => i.id ∉ startedTargets ∧ (pool i.informer).isSome))

structure PassInputs (Sel : Type) where
  snapshot : List WatchTargetState
  distinct : (snapshot.map TargetState.key).Nodup
  resolve : Resolver
  starts : InformerKey → Bool
  installOrder : Shuffle (ScopeInterest Sel)
  serveOrder : Shuffle (ScopeInterest Sel)
  instant : Nat
  -- what the running informers have taken in since the pass before
  feed : InformerKey → Informer → Informer

structure WatchManager (Sel : Type) where
  table : InterestTable Sel := {}
  pool : Pool := fun _ => none
  startedTargets : Finset InterestID := ∅

inductive WatchCall
  | scopeStopped (transition : ScopeTransition InformerKey)
  | evictScope (ref : ScopeRef)
  | scopeStarted (transition : ScopeTransition InformerKey)

def stopCalls (instant : Nat) (i : ScopeInterest Sel) : List WatchCall :=
  [.scopeStopped (i.transition instant), .evictScope i.ref]

def reconcilePool (lib : WatchLib Sel) (p : PassInputs Sel) (m : WatchManager Sel) :
    WatchManager Sel × List WatchCall :=
  let desired := translate lib p.resolve p.snapshot
  let (table, removed) := m.table.replace p.installOrder desired
  let startedTargets := removed.foldl (fun started i => started.erase i.id) m.startedTargets
  let pool := Pool.retain (desired.map ScopeInterest.informer) p.starts
    fun key => (m.pool key).map (p.feed key)
  let serving := newlyServing p.serveOrder startedTargets pool desired
  ({ table := table
     pool := pool
     startedTargets := serving.foldl (fun started i => insert i.id started) startedTargets },
    removed.flatMap (stopCalls p.instant) ++ serving.map fun i => .scopeStarted (i.transition p.instant))

def runPasses (lib : WatchLib Sel) (passes : List (PassInputs Sel)) :
    WatchManager Sel × List WatchCall :=
  passes.foldl (fun acc p => ((reconcilePool lib p acc.1).1,
    acc.2 ++ (reconcilePool lib p acc.1).2)) ({}, [])

def ScopeTransition.id (transition : ScopeTransition InformerKey) : InterestID :=
  ⟨transition.target, transition.ref.sink⟩

def WatchCall.edgeOf (id : InterestID) : WatchCall → Option ScopeAction
  | .scopeStopped transition => if transition.id = id then some .stopped else none
  | .scopeStarted transition => if transition.id = id then some .started else none
  | .evictScope _ => none

def DistinctKinds (resolve : Resolver) (snapshot : List WatchTargetState) : Prop :=
  ∀ s ∈ snapshot, ∀ s' ∈ snapshot, ∀ r ∈ resolve s.key, ∀ r' ∈ resolve s'.key, r.1 = r'.1 →
    s.key.gvk = s'.key.gvk

def PassInputs.Faithful (p : PassInputs Sel) : Prop := DistinctKinds p.resolve p.snapshot

end Kuberecord
