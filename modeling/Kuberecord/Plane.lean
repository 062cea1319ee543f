import Kuberecord.Library.Program
import Kuberecord.Normalize
import Kuberecord.Sink

namespace Kuberecord

/-- A `sinkState`: removing a sink drops the state, and the next use of the name makes another. -/
structure Inst where
  sink : String
  gen : Nat
deriving DecidableEq

structure ScopeRef where
  sink : String
  scope : ScopeKey
deriving DecidableEq

def ScopeRef.key (r : ScopeRef) (ns : Namespace) (name : String) : Key :=
  ⟨r.sink, r.scope.group, r.scope.kind, ns, name⟩

structure GcTarget where
  ns : Namespace
  name : String
  uid : String
deriving DecidableEq

inductive Commit
  | upsert (st : Inst) (objectKey : String) (key : Key) (t : Ticket) (confirmedEntry : CacheEntry)
      (revertEntry : Option CacheEntry)
  | delete (st : Inst) (objectKey : String) (key : Key) (t : Ticket)
  | closeOut (st : Inst) (objectKey : String) (key : Key) (record : Record)
deriving DecidableEq

structure Job where
  record : Record
  commit : Commit
deriving DecidableEq

structure Lookup where
  obj : Option Json
  scopeActive : Bool

-- a sink that cannot read its history back is told from one that is not live yet
inductive ReaderAnswer | reader | noStateReader | notLive
deriving DecidableEq

inductive Err
  | lister | sinkUnavailable | redactionUnavailable | marshal | enqueue | noStateReader | sinkNotLive | read
  | cancelled | scopeStopped | closeOutEvidencePending | noScopeWriter
deriving DecidableEq

inductive Op
  | listerGet (key : Key)
  | writerFor (sink : String)
  | redactionFor (key : Key)
  | sinkState (sink : String)
  | load (st : Inst) (objectKey : String)
  | reserve (st : Inst) (objectKey : String) (entry : CacheEntry)
  | reserveDelete (st : Inst) (objectKey : String) (expectedUID : String)
  | commitIfCurrent (st : Inst) (objectKey : String) (t : Ticket) (entry : CacheEntry)
  | deleteIfCurrent (st : Inst) (objectKey : String) (t : Ticket)
  | unclaimDelete (st : Inst) (objectKey : String) (t : Ticket)
  | storeIfAbsent (st : Inst) (objectKey : String) (entry : CacheEntry)
  | closeOutsAdd (st : Inst) (objectKey : String) (record : Record)
  | closeOutsTakeAll (st : Inst) (objectKey : String)
  | scopeWarm (st : Inst) (key : Key)
  | markScopeWarm (ref : ScopeRef)
  | unmarkWarm (st : Inst) (scope : ScopeKey)
  | deletePrefix (st : Inst) (pre : String)
  | now
  | enqueue (sink : String) (job : Job)
  | addRateLimited (key : Key)
  | dedupSkip
  | ctxErr
  | backoff
  | readerFor (sink : String)
  | lastKnownStates (ref : ScopeRef)
  | scopeWasActive (ref : ScopeRef) (epochStart : Nat)
  | scopeSynced (ref : ScopeRef)
  | scopeDesired (ref : ScopeRef)
  | mapOrder (pending : List GcTarget)
  | scopeEventWriterFor (sink : String)
  | activeScopes (sink : String)
  | enqueueScopeEvent (sink : String) (event : ScopeEvent)

@[reducible]
def Op.Ans : Op → Type
  | listerGet _ => Option Lookup
  | writerFor _ => Option Writer
  | redactionFor _ => Option (Option RedactionPolicy)
  | sinkState _ => Inst
  | load _ _ => Option CacheEntry
  | reserve _ _ _ => Ticket
  | reserveDelete _ _ _ => DeleteClaim
  | closeOutsTakeAll _ _ => List Record
  | now => Nat
  | readerFor _ => ReaderAnswer
  | lastKnownStates _ => Option (List KnownState)
  | scopeWasActive _ _ => Option Bool
  | mapOrder _ => List GcTarget
  | activeScopes _ => Option (List ScopeKey)
  | commitIfCurrent _ _ _ _ | deleteIfCurrent _ _ _ | scopeWarm _ _ | enqueue _ _ | ctxErr | backoff
  | scopeSynced _ | scopeDesired _ | scopeEventWriterFor _ | enqueueScopeEvent _ _ => Bool
  | unclaimDelete _ _ _ | storeIfAbsent _ _ _ | closeOutsAdd _ _ _ | markScopeWarm _ | unmarkWarm _ _
  | deletePrefix _ _ | addRateLimited _ | dedupSkip => Unit

abbrev Prog := Threads.Program Op Op.Ans

abbrev call (o : Op) : Prog o.Ans := Threads.Program.perform o

structure Config where
  lib : Lib
  clusterID : String

end Kuberecord
