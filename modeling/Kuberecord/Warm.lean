import Kuberecord.Process

namespace Kuberecord

def KnownState.identity (s : KnownState) : Namespace × String := (s.ns, s.name)

def KnownState.target (s : KnownState) : GcTarget := ⟨s.ns, s.name, s.uid⟩

structure Group where
  head : KnownState
  rest : List KnownState := []

def Group.states (g : Group) : List KnownState := g.head :: g.rest

def addToGroup (state : KnownState) : List Group → List Group
  | [] => [{ head := state }]
  | g :: groups =>
    if g.head.identity = state.identity then { g with rest := g.rest ++ [state] } :: groups
    else g :: addToGroup state groups

def groupByIdentity (states : List KnownState) : List Group :=
  states.foldl (fun groups state => addToGroup state groups) []

def newer (state current : KnownState) : Prop :=
  current.ts < state.ts ∨ state.ts = current.ts ∧ current.uid < state.uid

instance (state current : KnownState) : Decidable (newer state current) :=
  inferInstanceAs (Decidable (_ ∨ _))

def splitIncarnations (group : Group) : KnownState × List KnownState :=
  let current := group.rest.foldl
    (fun current state => if newer state current then state else current) group.head
  (current, group.states.filter (fun state => state.uid ≠ current.uid))

def indexIncarnations (states : List KnownState) :
    (GcTarget → Option KnownState) × (Namespace × String → Option String) :=
  let groups := groupByIdentity states
  let rows := groups.flatMap (fun g => g.states.map (fun state => (state.target, state)))
  let current := groups.map (fun g => (g.head.identity, (splitIncarnations g).1.uid))
  (fun target => rows.reverse.lookup target, fun identity => current.lookup identity)

structure Reincarnation where
  ns : Namespace
  name : String
  uid : String
  apiVersion : String
  ts : Nat
deriving DecidableEq

def KnownState.reincarnation (s : KnownState) : Reincarnation :=
  ⟨s.ns, s.name, s.uid, s.apiVersion, s.ts⟩

def Reincarnation.closeOutRecord (r : Reincarnation) (clusterID : String) (key : Key) : Record :=
  -- dated from history, never from the clock
  Record.closing clusterID key r.ts r.apiVersion r.uid

def seededEntry (current : KnownState) : CacheEntry where
  hash := current.sha256
  uid := current.uid
  seeded := true

def Err.permanent : Err → Bool
  | .noStateReader | .scopeStopped => true
  | _ => false

/--
`backoff.Retry`. The first argument bounds the attempts of one call; a run of any length has
made finitely many, so nothing is lost by fixing the bound when a goroutine starts.
-/
def retry {σ : Type} (attempt : σ → Prog (Option Err × σ)) : Nat → σ → Prog (Option Err × σ)
  | 0, s => attempt s
  | n + 1, s => do
    let (err, s) ← attempt s
    match err with
    | none => return (none, s)
    | some e =>
      if e.permanent then
        return (some e, s)
      if ← call .backoff then
        retry attempt n s
      else
        return (some .cancelled, s)

def readState {α : Type} (ref : ScopeRef) (read : Prog (Option α)) : Prog (Except Err α) := do
  match ← call (.readerFor ref.sink) with
  | .noStateReader => return .error .noStateReader
  | .notLive => return .error .sinkNotLive
  | .reader =>
    match ← read with
    | none => return .error .read
    | some a => return .ok a

def seedGroup (ref : ScopeRef) (st : Inst) (group : Group) : Prog Unit := do
  let current := (splitIncarnations group).1
  call (.storeIfAbsent st (ref.key current.ns current.name).cacheKey (seededEntry current))

def seedScope (ref : ScopeRef) (n : Nat) : Prog (Option Err × List GcTarget × List Reincarnation) :=
  retry (fun _ => do
    match ← readState ref (call (.lastKnownStates ref)) with
    | .error e => return (some e, [], [])
    | .ok states =>
      let st ← call (.sinkState ref.sink)
      let groups := groupByIdentity states
      groups.forM (seedGroup ref st)
      return (none, groups.map (fun g => (splitIncarnations g).1.target),
        groups.flatMap (fun g => (splitIncarnations g).2.map KnownState.reincarnation))) n ([], [])

def awaitScopeSync (ref : ScopeRef) : Nat → Prog Bool
  | 0 => return false
  | n + 1 => do
    if ← call (.scopeSynced ref) then
      return true
    if !(← call (.scopeDesired ref)) then
      return false
    if ← call .backoff then
      awaitScopeSync ref n
    else
      return false

def scopeWasActive (ref : ScopeRef) (epochStart : Nat) (n : Nat) : Prog (Option Err × Bool) :=
  retry (fun _ => do
    match ← readState ref (call (.scopeWasActive ref epochStart)) with
    | .error e => return (some e, false)
    | .ok active => return (none, active)) n false

def emitPriors (cfg : Config) (ref : ScopeRef) (st : Inst) : List Reincarnation → Prog (Option Err)
  | [] => return none
  | prior :: priors => do
    if ← call .ctxErr then
      return some .cancelled
    let key := ref.key prior.ns prior.name
    enqueueCloseOut key st key.cacheKey (prior.closeOutRecord cfg.clusterID key)
    emitPriors cfg ref st priors

def emitCloseOuts (cfg : Config) (ref : ScopeRef) (n : Nat) (priors : List Reincarnation) :
    Prog Unit := do
  if priors.isEmpty then
    return
  let _ ← retry (fun u => do
    let some _ ← call (.writerFor ref.sink) | return (some .sinkUnavailable, u)
    let st ← call (.sinkState ref.sink)
    return (← emitPriors cfg ref st priors, u)) n ()

def sweep (cfg : Config) (ref : ScopeRef) (st : Inst) :
    List GcTarget → List GcTarget → Prog (Option Err × List GcTarget)
  | [], reincarnated => return (none, reincarnated)
  | target :: targets, reincarnated => do
    if ← call .ctxErr then
      return (some .cancelled, reincarnated)
    let key := ref.key target.ns target.name
    let some lookup ← call (.listerGet key) | return (some .lister, reincarnated)
    if !lookup.scopeActive then
      return (some .scopeStopped, reincarnated)
    let liveUID := lookup.obj.map Json.getUID
    if liveUID = some target.uid then
      sweep cfg ref st targets reincarnated
    else
      let (outcome, enqueueErr) ← emitDelete cfg key st target.uid
      if enqueueErr.isSome then
        return (enqueueErr, reincarnated)
      if outcome = .uidMismatch ∧ liveUID.isSome then
        sweep cfg ref st targets (reincarnated ++ [target])
      else
        sweep cfg ref st targets reincarnated

def gcPass (cfg : Config) (ref : ScopeRef) (seeded : List GcTarget) :
    Prog (Option Err × List GcTarget) := do
  let some _ ← call (.writerFor ref.sink) | return (some .sinkUnavailable, [])
  let st ← call (.sinkState ref.sink)
  sweep cfg ref st seeded []

def collectZombies (cfg : Config) (ref : ScopeRef) (n : Nat) (seeded : List GcTarget) :
    Prog (List GcTarget) := do
  let (_, reincarnated) ← retry (fun _ => gcPass cfg ref seeded) n []
  return reincarnated

def closeable (states : List KnownState) (pending : List GcTarget) :
    List Reincarnation × List GcTarget :=
  let (rows, current) := indexIncarnations states
  let waiting := fun target => (rows target).isSome && current (target.ns,
    target.name) == some target.uid
  (pending.filterMap
    (fun target => if waiting target then none else (rows target).map KnownState.reincarnation),
    pending.filter waiting)

def recoverRefusedReincarnations (cfg : Config) (ref : ScopeRef) (n : Nat)
    (refused : List GcTarget) : Prog Unit := do
  if refused.isEmpty then
    return
  let _ ← retry (fun pending => do
    match ← readState ref (call (.lastKnownStates ref)) with
    | .error e => return (some e, pending)
    | .ok states =>
      let order ← call (.mapOrder pending)
      let (found, pending) := closeable states order
      emitCloseOuts cfg ref n found
      return (if pending.isEmpty then none else some .closeOutEvidencePending, pending)) n refused.dedup

def reconcileHistory (cfg : Config) (ref : ScopeRef) (epochStart : Nat) (n : Nat)
    (seeded : List GcTarget) (priors : List Reincarnation) : Prog Unit := do
  let synced ← (if seeded.isEmpty then pure true else awaitScopeSync ref n)
  if !synced then
    return
  let (err, wasActive) ← scopeWasActive ref epochStart n
  if err.isSome || !wasActive then
    return
  emitCloseOuts cfg ref n priors
  if seeded.isEmpty then
    return
  let reincarnated ← collectZombies cfg ref n seeded
  recoverRefusedReincarnations cfg ref n reincarnated

def warm (cfg : Config) (ref : ScopeRef) (epochStart : Nat) (n : Nat) : Prog Unit := do
  let (err, seeded, priors) ← seedScope ref n
  if err.isSome then
    return
  call (.markScopeWarm ref)
  if ref.scope.ephemeral then
    return
  if seeded.isEmpty && priors.isEmpty then
    return
  reconcileHistory cfg ref epochStart n seeded priors

def evictScope (ref : ScopeRef) : Prog Unit := do
  let st ← call (.sinkState ref.sink)
  call (.unmarkWarm st ref.scope)
  call (.deletePrefix st ref.scope.scopeKeyPrefix)

def closeScopes (sink : String) : List ScopeKey → Prog (Option Err)
  | [] => return none
  | scope :: scopes => do
    if ← call (.scopeDesired ⟨sink, scope⟩) then
      closeScopes sink scopes
    else
      let ts ← call .now
      if ← call (.enqueueScopeEvent sink { action := .stopped, scope := scope, ts := ts }) then
        closeScopes sink scopes
      else
        return some .enqueue

def closeOrphanedScopes (sink : String) : Prog (Option Err) := do
  match ← call (.readerFor sink) with
  | .noStateReader => return none
  | .notLive => return some .sinkNotLive
  | .reader =>
    if !(← call (.scopeEventWriterFor sink)) then
      return some .noScopeWriter
    let some scopes ← call (.activeScopes sink) | return some .read
    closeScopes sink scopes

end Kuberecord
