import Kuberecord.Library.Threads
import Kuberecord.Warm

namespace Kuberecord

structure SinkState where
  cache : HashCache := .empty
  closeOuts : String → List Record := fun _ => []
  warm : ScopeKey → Bool := fun _ => false

inductive JobStatus | inFlight | written | failed | lost
deriving DecidableEq

structure Handed where
  sink : String
  job : Job
  status : JobStatus := .inFlight
deriving DecidableEq

structure WarmRun where
  epoch : Nat
  id : Nat
deriving DecidableEq

structure Shared where
  clock : Nat := 0
  gens : String → Nat := fun _ => 0
  heap : Inst → SinkState := fun _ => {}
  jobs : List Handed := []
  table : List (String × Record) := []
  queue : List Key := []
  dedupSkips : Nat := 0
  runs : List (ScopeRef × WarmRun) := []
  started : Nat := 0
  cancelled : List Nat := []
  bootDone : List String := []
  scopeLog : List (String × ScopeEvent) := []

inductive Tid
  | worker (key : Key)
  | warm (id : Nat)
  | boot (sink : String)
  | evict (ref : ScopeRef)
deriving DecidableEq

def Tid.isWorker : Tid → Bool
  | .worker _ => true
  | _ => false

inductive Input
  | go
  | lookup (key : Key) (l : Option Lookup)
  | writer (w : Option Writer)
  | policy (p : Option (Option RedactionPolicy))
  | flag (b : Bool)
  | time (t : Nat)
  | reader (r : ReaderAnswer)
  | states (ref : ScopeRef) (l : Option (List KnownState))
  | active (ref : ScopeRef) (a : Option Bool)
  | order (l : List GcTarget)
  | scopes (l : Option (List ScopeKey))

inductive Boot
  | run
  | warm (ref : ScopeRef) (epochStart : Nat) (attempts : Nat)

inductive Env
  | add (key : Key)
  | insert (j : Nat)
  | settle (j : Nat) (ok : Bool)
  | removeSink (sink : String)
  | stopScope (ref : ScopeRef)
  | forgetSink (sink : String)

namespace Shared

variable (s : Shared)

def inst (sink : String) : Inst := ⟨sink, s.gens sink⟩

def slot (st : Inst) (objectKey : String) : Slot := (s.heap st).cache objectKey

def closeOuts (st : Inst) (objectKey : String) : List Record := (s.heap st).closeOuts objectKey

def modify (st : Inst) (f : SinkState → SinkState) : Shared :=
  { s with heap := Function.update s.heap st (f (s.heap st)) }

def setSlot (st : Inst) (objectKey : String) (slot : Slot) : Shared :=
  s.modify st (fun ss => { ss with cache := Function.update ss.cache objectKey slot })

def setCloseOuts (st : Inst) (objectKey : String) (records : List Record) : Shared :=
  s.modify st (fun ss => { ss with closeOuts := Function.update ss.closeOuts objectKey records })

def setWarm (st : Inst) (scope : ScopeKey) (b : Bool) : Shared :=
  s.modify st (fun ss => { ss with warm := Function.update ss.warm scope b })

def scopeWarm (st : Inst) (key : Key) : Bool :=
  (s.heap st).warm key.scope || (s.heap st).warm { key.scope with ns := allNamespaces }

def addKey (key : Key) : Shared := { s with queue := s.queue.insert key }

def isCancelled : Tid → Bool
  | .warm id => s.cancelled.contains id
  | _ => false

def callback : Commit → Bool → Shared
  | .upsert st objectKey _ t confirmedEntry _, true =>
    s.setSlot st objectKey ((s.slot st objectKey).commitIfCurrent t.version confirmedEntry).1
  | .upsert st objectKey key t _ (some revertEntry), false =>
    (s.setSlot st objectKey ((s.slot st objectKey).commitIfCurrent t.version revertEntry).1).addKey key
  | .upsert st objectKey key t _ none, false =>
    (s.setSlot st objectKey ((s.slot st objectKey).deleteIfCurrent t.version).1).addKey key
  | .delete st objectKey _ t, true =>
    s.setSlot st objectKey ((s.slot st objectKey).deleteIfCurrent t.version).1
  | .delete st objectKey key t, false =>
    (s.setSlot st objectKey ((s.slot st objectKey).unclaimDelete t.version)).addKey key
  | .closeOut _ _ _ _, true => s
  | .closeOut st objectKey key record, false =>
    (s.setCloseOuts st objectKey (s.closeOuts st objectKey ++ [record])).addKey key

def settled (j : Nat) (sink : String) (job : Job) (ok : Bool) : Shared :=
  callback { s with jobs := s.jobs.set j ⟨sink, job, if ok then .written else .failed⟩ } job.commit ok

def cancelRuns (p : ScopeRef → Bool) : Shared :=
  { s with
    cancelled := (s.runs.filter (fun r => p r.1)).map (fun r => r.2.id) ++ s.cancelled
    runs := s.runs.filter (fun r => !p r.1) }

end Shared

open Shared

def start (cfg : Config) (s : Shared) : Tid → Boot → Option (Shared × Prog (Option Err))
  | .worker key, .run =>
    if key ∈ s.queue then some ({ s with queue := s.queue.erase key }, process cfg key) else none
  | .warm id, .warm ref epochStart n =>
    -- a request for an epoch already warming or warmed is dropped
    if id = s.started ∧ ∀ run ∈ s.runs.lookup ref, run.epoch < epochStart then
      let s := s.cancelRuns (· == ref)
      some ({ s with runs := (ref, ⟨epochStart, id⟩) :: s.runs, started := s.started + 1 },
        do warm cfg ref epochStart n; return none)
    else none
  | .boot sink, .run => if sink ∈ s.bootDone then none else some (s, closeOrphanedScopes sink)
  | .evict ref, .run => some (s, do evictScope ref; return none)
  | _, _ => none

def exec (s : Shared) (tid : Tid) : (o : Op) → Input → Option (Shared × o.Ans)
  | .listerGet key, .lookup key' l => if key' = key then some (s, l) else none
  | .writerFor _, .writer w => some (s, w)
  | .redactionFor _, .policy p => some (s, p)
  | .sinkState sink, .go => some (s, s.inst sink)
  | .load st objectKey, .go => some (s, (s.slot st objectKey).entry)
  | .reserve st objectKey entry, .go =>
    let r := (s.slot st objectKey).reserve entry
    some (s.setSlot st objectKey r.1, r.2)
  | .reserveDelete st objectKey expectedUID, .go =>
    let r := (s.slot st objectKey).reserveDelete expectedUID
    some (s.setSlot st objectKey r.1, r.2)
  | .commitIfCurrent st objectKey t entry, .go =>
    let r := (s.slot st objectKey).commitIfCurrent t.version entry
    some (s.setSlot st objectKey r.1, r.2)
  | .deleteIfCurrent st objectKey t, .go =>
    let r := (s.slot st objectKey).deleteIfCurrent t.version
    some (s.setSlot st objectKey r.1, r.2)
  | .unclaimDelete st objectKey t, .go =>
    some (s.setSlot st objectKey ((s.slot st objectKey).unclaimDelete t.version), ())
  | .storeIfAbsent st objectKey entry, .go =>
    some (s.setSlot st objectKey ((s.slot st objectKey).storeIfAbsent entry), ())
  | .closeOutsAdd st objectKey record, .go =>
    some (s.setCloseOuts st objectKey (s.closeOuts st objectKey ++ [record]), ())
  | .closeOutsTakeAll st objectKey, .go =>
    some (s.setCloseOuts st objectKey [], s.closeOuts st objectKey)
  | .scopeWarm st key, .go => some (s, s.scopeWarm st key)
  | .markScopeWarm ref, .go => some (s.setWarm (s.inst ref.sink) ref.scope true, ())
  | .unmarkWarm st scope, .go => some (s.setWarm st scope false, ())
  | .deletePrefix st pre, .go =>
    some (s.modify st (fun ss => { ss with cache := ss.cache.deletePrefix pre }), ())
  | .now, .time t => some ({ s with clock := t }, t)
  | .enqueue sink job, .flag accepted =>
    some (if accepted then { s with jobs := s.jobs ++ [{ sink := sink, job := job }] } else s, accepted)
  | .addRateLimited key, .go => some (s.addKey key, ())
  | .dedupSkip, .go => some ({ s with dedupSkips := s.dedupSkips + 1 }, ())
  | .ctxErr, .flag b => if s.isCancelled tid && !b then none else some (s, b)
  | .backoff, .flag b => if s.isCancelled tid && b then none else some (s, b)
  | .readerFor _, .reader r => some (s, r)
  | .lastKnownStates ref, .states ref' l => if ref' = ref then some (s, l) else none
  | .scopeWasActive ref _, .active ref' a => if ref' = ref then some (s, a) else none
  | .scopeSynced _, .flag b => some (s, b)
  | .scopeDesired _, .flag b => some (s, b)
  | .mapOrder pending, .order l => if l.isPerm pending then some (s, l) else none
  | .scopeEventWriterFor _, .flag b => some (s, b)
  | .activeScopes _, .scopes l => some (s, l)
  | .enqueueScopeEvent sink event, .flag accepted =>
    some (if accepted then { s with scopeLog := s.scopeLog ++ [(sink, event)] } else s, accepted)
  | _, _ => none

def finish (s : Shared) : Tid → Option Err → Shared
  -- an item that is not settled goes back through the rate limiter
  | .worker key, some _ => s.addKey key
  | .boot sink, none => { s with bootDone := sink :: s.bootDone }
  | _, _ => s

def env (s : Shared) : Env → Option Shared
  | .add key => some (s.addKey key)
  | .insert j =>
    match s.jobs[j]? with
    | some ⟨sink, job, .inFlight⟩ => some { s with table := s.table.insert (sink, job.record) }
    | _ => none
  | .settle j ok =>
    match s.jobs[j]? with
    | some ⟨sink, job, .inFlight⟩ =>
      if ok = true → (sink, job.record) ∈ s.table then some (s.settled j sink job ok) else none
    | _ => none
  | .removeSink sink => some { s with gens := Function.update s.gens sink (s.gens sink + 1) }
  | .stopScope ref => some (s.cancelRuns (· == ref))
  | .forgetSink sink =>
    some { s.cancelRuns (·.sink == sink) with bootDone := s.bootDone.filter (· ≠ sink) }

def crash (s : Shared) : Shared where
  clock := s.clock
  -- what was not settled is lost with the process, also where its row has landed
  jobs := s.jobs.map (fun h => if h.status = .inFlight then { h with status := .lost } else h)
  table := s.table
  started := s.started
  scopeLog := s.scopeLog

def machine (cfg : Config) : Threads.Machine Op Op.Ans (Option Err) Tid Boot Input Env Shared where
  start := start cfg
  exec := exec
  finish := finish
  env := env
  crash := crash

abbrev System := Threads.System Op Op.Ans (Option Err) Tid Shared

abbrev Action := Threads.Action Tid Boot Input Env

abbrev Deed := Threads.Action Tid Boot (Op × Input) Env

end Kuberecord
