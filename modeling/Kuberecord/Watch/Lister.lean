import Kuberecord.Watch.Interests

namespace Kuberecord

open Tallies

variable {Sel : Type}

structure Informer where
  synced : Bool := false
  indexer : String → Option Json := fun _ => none

abbrev Pool := InformerKey → Option Informer

structure GetAnswer where
  obj : Option Json := none
  found : Bool := false
  scopeActive : Bool := false
  err : Option String := none

def Key.informerCacheKey (ref : Key) : String :=
  if ref.ns.1 = "" then ref.name else ref.ns.1 ++ "/" ++ ref.name

def errInformerNotRunning : String := "watch scope is registered but its informer is not running"

def consult (pool : Pool) (cacheKey : String) : List (ScopeInterest Sel) →
    Option (ScopeInterest Sel) → GetAnswer
  | [], none => { scopeActive := true }
  | [], some missingInformer =>
    { scopeActive := true
      err := some ("no informer is running yet for " ++ missingInformer.informer.text ++ ": " ++
      errInformerNotRunning) }
  | i :: interests, missingInformer =>
    match pool i.informer with
    | none => consult pool cacheKey interests (some i)
    | some entry =>
      match entry.indexer cacheKey with
      | none => consult pool cacheKey interests missingInformer
      | some u => { obj := some u, found := true, scopeActive := true }

def InterestTable.get (t : InterestTable Sel) (pool : Pool) (ref : Key) : GetAnswer :=
  match t.lookupIdentity ref with
  | [] => {}
  | i :: interests => consult pool ref.informerCacheKey (i :: interests) none

def InterestTable.redactionFor (t : InterestTable Sel) (ref : Key) : Option (Option RedactionPolicy) :=
  match t.lookupIdentity ref with
  | [] => none
  | [i] => some i.redaction
  | interests => some (mergeRedaction (interests.map ScopeInterest.redaction))

def InterestTable.scopeDesired (t : InterestTable Sel) (ref : ScopeRef) : Bool :=
  (t.interestsForScope ref).length > 0

def InterestTable.scopeSynced (t : InterestTable Sel) (pool : Pool) (ref : ScopeRef) : Bool :=
  let interests := t.interestsForScope ref
  interests.length > 0 && interests.all fun i => (pool i.informer).any Informer.synced

structure Unstructured where
  ns : Namespace
  name : String
  object : Json

def Unstructured.getLabels (u : Unstructured) : Option (List (String × String)) :=
  u.object.nestedStringMap ["metadata", "labels"]

inductive Delivered
  | unstructured (u : Unstructured)
  | other (type : String)

inductive Notified
  | plain (obj : Delivered)
  | tombstone (key : String) (obj : Option Delivered)

structure EventTarget where
  ns : Namespace
  name : String
  obj : Option Unstructured

structure KeyLib where
  split : String → Except String (Namespace × String)
  quote : String → String

def Delivered.target : Delivered → Except String EventTarget
  | .unstructured u => .ok ⟨u.ns, u.name, some u⟩
  | .other type => .error ("informer delivered a " ++ type ++ ", want *unstructured.Unstructured")

def eventTargetOf (keys : KeyLib) : Notified → Except String EventTarget
  | .tombstone key none =>
    match keys.split key with
    | .error err => .error ("split tombstone cache key " ++ keys.quote key ++ ": " ++ err)
    | .ok (ns, name) => .ok ⟨ns, name, none⟩
  | .tombstone _ (some obj) | .plain obj => obj.target

def fanOut (lib : WatchLib Sel) (keys : KeyLib) (t : InterestTable Sel) (informer : InformerKey)
    (obj : Notified) (previous : Option Notified) : List Key :=
  match eventTargetOf keys obj with
  | .error _ => []
  | .ok target =>
    let previousLabels := previous.bind fun old =>
      (eventTargetOf keys old).toOption.bind fun target => target.obj.bind Unstructured.getLabels
    ((t.byInformer informer).filter fun i =>
      match target.obj with
      | some u => i.matchAll || i.matchesEither lib (u.getLabels.getD []) previousLabels
      | none => true).map fun i => i.keyFor target.ns target.name

end Kuberecord
