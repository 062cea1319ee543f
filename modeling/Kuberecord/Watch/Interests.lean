import Kuberecord.Recorder
import Kuberecord.Registry

namespace Kuberecord

open Tallies

structure GroupVersionKind where
  group : Segment
  version : String
  kind : Segment
deriving DecidableEq

structure GroupVersionResource where
  group : String
  version : String
  resource : String
deriving DecidableEq

structure InformerKey where
  gvr : GroupVersionResource
  ns : Namespace
deriving DecidableEq

def InformerKey.text (k : InformerKey) : String :=
  let gvr := k.gvr.group ++ "/" ++ k.gvr.version ++ ", Resource=" ++ k.gvr.resource
  if k.ns.1 = "" then gvr ++ " (cluster-wide)" else gvr ++ " in namespace " ++ k.ns.1

structure InterestID where
  informer : InformerKey
  sink : String
deriving DecidableEq

structure IdentityKey where
  group : Segment
  kind : Segment
  ns : Namespace
  sink : String
deriving DecidableEq

/-- What the watch layer takes from others: label selectors, and the parser of redaction paths. -/
structure WatchLib (Sel : Type) where
  parse : String → Except String Sel
  selects : Sel → List (String × String) → Bool
  parseRedactionPath : String → Except String RedactionPath
  quote : String → String

structure ScopeInterest (Sel : Type) where
  informer : InformerKey
  gvk : GroupVersionKind
  sink : String
  ruleKeys : List String
  selectors : List Sel
  matchAll : Bool
  redaction : Option RedactionPolicy

variable {Sel : Type}

def redactionPaths (redactions : List String) : List String :=
  (redactions.flatMap fun set => (set.splitOn "\n").filter (· ≠ "")).dedup.insertionSort (· ≤ ·)

def parseSelectors (lib : WatchLib Sel) (selectors : List String) : Except String (List Sel) :=
  (selectors.filter (· ≠ "")).mapM fun raw =>
    match lib.parse raw with
    | .error err => .error ("parse label selector " ++ lib.quote raw ++ ": " ++ err)
    | .ok sel => .ok sel

def newScopeInterest (lib : WatchLib Sel) (key : TargetKey GroupVersionKind Namespace)
    (informer : InformerKey) (selectors redactions ruleKeys : List String) :
    Except String (ScopeInterest Sel) := do
  let parsed ← parseSelectors lib selectors
  let paths := redactionPaths redactions
  let redaction ←
    if paths = [] then pure none
    else
      match compileRedaction lib.parseRedactionPath paths with
      | .error err => throw ("compile redaction policy: " ++ err)
      | .ok policy => pure (some policy)
  return {
    informer := informer
    gvk := key.gvk
    sink := key.sink
    ruleKeys := ruleKeys
    selectors := parsed
    matchAll := selectors.any (· = "") || parsed.isEmpty
    redaction := redaction }

namespace ScopeInterest

def id (i : ScopeInterest Sel) : InterestID := ⟨i.informer, i.sink⟩

def scope (i : ScopeInterest Sel) : ScopeKey := ⟨i.gvk.group, i.gvk.kind, i.informer.ns⟩

def ref (i : ScopeInterest Sel) : ScopeRef := ⟨i.sink, i.scope⟩

def transition (i : ScopeInterest Sel) (instant : Nat) : ScopeTransition InformerKey where
  ref := i.ref
  target := i.informer
  apiVersion := i.gvk.version
  ruleKeys := i.ruleKeys
  instant := instant

def identity (i : ScopeInterest Sel) : IdentityKey := ⟨i.gvk.group, i.gvk.kind, i.informer.ns, i.sink⟩

def keyFor (i : ScopeInterest Sel) (ns : Namespace) (name : String) : Key :=
  ⟨i.sink, i.gvk.group, i.gvk.kind, ns, name⟩

def matchesLabels (lib : WatchLib Sel) (i : ScopeInterest Sel)
    (labels : List (String × String)) : Bool :=
  i.matchAll || i.selectors.any (lib.selects · labels)

def matchesEither (lib : WatchLib Sel) (i : ScopeInterest Sel) (current : List (String × String))
    (previous : Option (List (String × String))) : Bool :=
  i.matchesLabels lib current || previous.any (i.matchesLabels lib)

end ScopeInterest

def sortInterests (interests : List (ScopeInterest Sel)) : List (ScopeInterest Sel) :=
  interests.insertionSort fun a b =>
    [a.sink, a.scope.group.1, a.scope.kind.1, a.scope.ns.1] ≤ [b.sink, b.scope.group.1,
      b.scope.kind.1, b.scope.ns.1]

/-- The installed interests, in the order in which the loop of `replace` visited them. -/
structure InterestTable (Sel : Type) where
  current : List (ScopeInterest Sel) := []

namespace InterestTable

def byInformer (t : InterestTable Sel) (key : InformerKey) : List (ScopeInterest Sel) :=
  (t.current.filter (·.informer = key)).insertionSort (·.sink ≤ ·.sink)

def byIdentity (t : InterestTable Sel) (key : IdentityKey) : List (ScopeInterest Sel) :=
  t.current.filter (·.identity = key)

def replace (order : Shuffle (ScopeInterest Sel)) (t : InterestTable Sel)
    (desired : List (ScopeInterest Sel)) :
    InterestTable Sel × List (ScopeInterest Sel) :=
  (⟨order.run desired⟩,
    sortInterests (order.run (t.current.filter fun i => i.id ∉ desired.map ScopeInterest.id)))

def lookupIdentity (t : InterestTable Sel) (ref : Key) : List (ScopeInterest Sel) :=
  let exact : IdentityKey := ⟨ref.group, ref.kind, ref.ns, ref.sink⟩
  let clusterWide : IdentityKey := ⟨ref.group, ref.kind, allNamespaces, ref.sink⟩
  if exact = clusterWide then t.byIdentity exact else t.byIdentity exact ++ t.byIdentity clusterWide

def interestsForScope (t : InterestTable Sel) (ref : ScopeRef) : List (ScopeInterest Sel) :=
  t.byIdentity ⟨ref.scope.group, ref.scope.kind, ref.scope.ns, ref.sink⟩

end InterestTable

end Kuberecord
