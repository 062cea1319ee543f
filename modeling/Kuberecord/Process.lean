import Kuberecord.Plane

namespace Kuberecord

inductive CheckpointReason | count | size
deriving DecidableEq

def checkpointEveryFor (writer : Writer) : Int := writer.checkpointEvery.getD 0

def checkpointDue (every : Int) (modifiedRun : Nat) (diffBytes fullJSON : Bytes) :
    Option CheckpointReason :=
  if every ≤ 0 then none
  else if every ≤ modifiedRun then some .count
  else if diffBytes.length > fullJSON.length then some .size
  else none

structure Plan where
  eventType : EventType := .added
  diffString : Bytes := []
  carriesFullState : Bool := true
  modifiedRun : Nat := 0
  revertEntry : Option CacheEntry := none

def modifiedPlan (lib : Lib) (ephemeral : Bool) (every : Int) (cachedEntry : CacheEntry)
    (norm : NormalizedObject) : Plan :=
  let fullState : Plan := { eventType := .modified, revertEntry := some cachedEntry }
  if ephemeral then fullState
  else if cachedEntry.json = none then fullState
  else match cachedEntry.decodeBaseline lib.zstd with
    | none => fullState
    | some baseline =>
      match lib.compareJSON (baseline.getD []) norm.json with
      | none => fullState
      | some patch =>
        match lib.marshal patch with
        | none => fullState
        | some patchBytes =>
          if (checkpointDue every (cachedEntry.modifiedSinceCheckpoint + 1) patchBytes
            norm.json).isSome then
            { fullState with eventType := .checkpoint, diffString := patchBytes }
          else
            { fullState with
              diffString := patchBytes
              carriesFullState := false
              modifiedRun := cachedEntry.modifiedSinceCheckpoint + 1 }

def confirmedEntry (lib : Lib) (ephemeral : Bool) (norm : NormalizedObject) (plan : Plan) : CacheEntry :=
  let baseline := compressBaseline lib.zstd norm.json
  { hash := norm.hash
    json := if ephemeral then none else some baseline.1
    encoding := if ephemeral then .raw else baseline.2.1
    uid := norm.uid
    apiVersion := norm.apiVersion
    modifiedSinceCheckpoint := plan.modifiedRun }

def upsertRecord (clusterID : String) (key : Key) (norm : NormalizedObject) (plan : Plan)
    (ts : Nat) : Record where
  timestamp := ts
  clusterID := clusterID
  eventType := plan.eventType
  apiGroup := key.group.1
  apiVersion := norm.apiVersion
  kind := key.kind.1
  ns := key.ns.1
  name := key.name
  uid := norm.uid
  resourceVersion := norm.resourceVersion
  labels := norm.labels
  actors := norm.actors
  data := if plan.carriesFullState then norm.json else []
  diff := plan.diffString
  sha256 := norm.hash

def revertVersion (st : Inst) (objectKey : String) (t : Ticket) (revertEntry : Option CacheEntry) :
    Prog Unit := do
  match revertEntry with
  | some entry => let _ ← call (.commitIfCurrent st objectKey t entry)
  | none => let _ ← call (.deleteIfCurrent st objectKey t)

def enqueueCloseOut (key : Key) (st : Inst) (objectKey : String) (record : Record) : Prog Unit := do
  let accepted ← call (.enqueue key.sink ⟨record, .closeOut st objectKey key record⟩)
  if !accepted then
    call (.closeOutsAdd st objectKey record)
    call (.addRateLimited key)

def retryPendingCloseOuts (key : Key) (st : Inst) (objectKey : String) : Prog Unit := do
  let records ← call (.closeOutsTakeAll st objectKey)
  records.forM (enqueueCloseOut key st objectKey)

def emitDelete (cfg : Config) (key : Key) (st : Inst) (expectedUID : String) :
    Prog (DeleteClaim × Option Err) := do
  let objectKey := key.cacheKey
  match ← call (.reserveDelete st objectKey expectedUID) with
  | .claimed entry t =>
    let ts ← call .now
    let record := Record.closing cfg.clusterID key ts entry.apiVersion entry.uid
    if ← call (.enqueue key.sink ⟨record, .delete st objectKey key t⟩) then
      return (.claimed entry t, none)
    call (.unclaimDelete st objectKey t)
    return (.claimed entry t, some .enqueue)
  | outcome => return (outcome, none)

def forgetEphemeral (key : Key) (st : Inst) : Prog Unit := do
  let objectKey := key.cacheKey
  match ← call (.reserveDelete st objectKey "") with
  | .claimed _ t => let _ ← call (.deleteIfCurrent st objectKey t)
  | _ => return

def issueUpsert (cfg : Config) (key : Key) (st : Inst) (norm : NormalizedObject) (plan : Plan) :
    Prog (Option Err) := do
  let objectKey := key.cacheKey
  let confirmed := confirmedEntry cfg.lib key.ephemeral norm plan
  let t ← call (.reserve st objectKey confirmed)
  let ts ← call .now
  let record := upsertRecord cfg.clusterID key norm plan ts
  if ← call (.enqueue key.sink ⟨record, .upsert st objectKey key t confirmed plan.revertEntry⟩) then
    return none
  revertVersion st objectKey t plan.revertEntry
  return some .enqueue

def closeOutSuperseded (cfg : Config) (key : Key) (st : Inst) (cachedEntry : CacheEntry) :
    Prog Unit := do
  if key.ephemeral then return
  let objectKey := key.cacheKey
  -- another incarnation answers to the name: its predecessor is closed if the claim is ours
  match ← call (.reserveDelete st objectKey cachedEntry.uid) with
  | .claimed claimedEntry _ =>
    let ts ← call .now
    enqueueCloseOut key st objectKey
      (Record.closing cfg.clusterID key ts claimedEntry.apiVersion claimedEntry.uid)
  | _ => return

def processUpsert (cfg : Config) (key : Key) (st : Inst) (writer : Writer) (obj : Json) :
    Prog (Option Err) := do
  let some policy ← call (.redactionFor key) | return some .redactionUnavailable
  let some norm := normalizeObject cfg.lib obj policy | return some .marshal
  match ← call (.load st key.cacheKey) with
  | some cachedEntry =>
    if cachedEntry.uid ≠ "" ∧ cachedEntry.uid ≠ norm.uid then
      closeOutSuperseded cfg key st cachedEntry
      issueUpsert cfg key st norm {}
    else if cachedEntry.hash = norm.hash then
      call .dedupSkip
      return none
    else
      issueUpsert cfg key st norm
        (modifiedPlan cfg.lib key.ephemeral (checkpointEveryFor writer) cachedEntry norm)
  | none =>
    if key.ephemeral then
      issueUpsert cfg key st norm {}
    else
      let warm ← call (.scopeWarm st key)
      issueUpsert cfg key st norm { eventType := if warm then .added else .snapshot }

def process (cfg : Config) (key : Key) : Prog (Option Err) := do
  let some lookup ← call (.listerGet key) | return some .lister
  if !lookup.scopeActive then
    return none
  if lookup.obj.isNone && key.ephemeral then
    let st ← call (.sinkState key.sink)
    forgetEphemeral key st
    return none
  let some writer ← call (.writerFor key.sink) | return some .sinkUnavailable
  let st ← call (.sinkState key.sink)
  retryPendingCloseOuts key st key.cacheKey
  match lookup.obj with
  | none =>
    let (_, enqueueErr) ← emitDelete cfg key st ""
    return enqueueErr
  | some obj => processUpsert cfg key st writer obj

end Kuberecord
