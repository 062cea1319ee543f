import Kuberecord.Library.Runs

namespace Kuberecord

structure WriterLimits where
  queueSize : Nat
  workers : Nat
  batchMaxRows : Nat
  enqueueTimeout : String

def WriterLimits.new (queueSize workers batchMaxRows : Int) (enqueueTimeout : String) :
    WriterLimits where
  queueSize := if queueSize ≤ 0 then 5000 else queueSize.toNat
  workers := if workers ≤ 0 then 4 else workers.toNat
  batchMaxRows := if batchMaxRows ≤ 0 then 1000 else batchMaxRows.toNat
  enqueueTimeout := enqueueTimeout

structure WriteJob (Row : Type) where
  -- the `Enqueue` that handed it over; `commit` says whether there is a callback
  call : Nat
  args : Row
  commit : Bool
deriving DecidableEq

structure DriverRun where
  prepare : Option String := none
  append : Nat → Option String := fun _ => none
  abort : Option String := none
  send : Option String := none

def joinErrors (err : String) : Option String → String
  | some err' => err ++ "\n" ++ err'
  | none => err

def sendBatchOnce {α : Type} (d : DriverRun) (batch : List α) : Option String :=
  match d.prepare with
  | some err => some err
  | none =>
    match (List.range batch.length).findSome? d.append with
    | some appendErr => some (joinErrors appendErr d.abort)
    | none => d.send

structure Attempt (Row : Type) where
  rows : List (WriteJob Row)
  err : Option String

inductive CallPhase
  | sending
  | leaving (err : Option String)
  | returned (err : Option String)
deriving DecidableEq

def CallPhase.isReturned : CallPhase → Bool
  | .returned _ => true
  | _ => false

structure EnqueueCall (Row : Type) where
  job : WriteJob Row
  phase : CallPhase

inductive Worker (Row : Type)
  | selecting (batch : List (WriteJob Row)) (timer : Bool)
  | sending (batch : List (WriteJob Row)) (last : Bool)
  -- the attempt failed, and `backoff.Retry` has still to decide
  | failed (batch : List (WriteJob Row)) (last : Bool)
  | committing (batch : List (WriteJob Row)) (last : Bool)
  | isolating (batch : List (WriteJob Row)) (last : Bool)
  | blaming (job : WriteJob Row) (ok : Bool) (batch : List (WriteJob Row)) (last : Bool)
  | done

inductive WorkerMove
  | receive
  | drained
  | timer
  | attempt (d : DriverRun)
  | again
  | exhausted
  | commit

structure WorkerTurn (Row : Type) where
  worker : Worker Row
  jobs : List (WriteJob Row)
  attempt : Option (Attempt Row) := none
  settled : Option (WriteJob Row × Bool) := none

variable {Row : Type}

namespace Worker

def returned (last : Bool) : Worker Row := if last then .done else .selecting [] false

def commitAll (batch : List (WriteJob Row)) (last : Bool) : Worker Row :=
  if batch.isEmpty then returned last else .committing batch last

def isolate (batch : List (WriteJob Row)) (last : Bool) : Worker Row :=
  if batch.isEmpty then returned last else .isolating batch last

def step (limits : WriterLimits) (jobs : List (WriteJob Row)) (closed : Bool) :
    Worker Row → WorkerMove → Option (WorkerTurn Row)
  | .selecting batch timer, .receive =>
    match jobs with
    | [] => none
    | job :: jobs =>
      let batch := batch ++ [job]
      if batch.length ≥ limits.batchMaxRows then some { worker := .sending batch false, jobs := jobs }
      else some { worker := .selecting batch (timer || batch.length = 1), jobs := jobs }
  | .selecting batch _, .drained =>
    if closed ∧ jobs.isEmpty then
      some { worker := if batch.isEmpty then .done else .sending batch true, jobs := jobs }
    else none
  | .selecting batch timer, .timer =>
    if timer then some { worker := .sending batch false, jobs := jobs } else none
  | .sending batch last, .attempt d =>
    let err := sendBatchOnce d batch
    some {
      worker := if err.isNone then commitAll batch last else .failed batch last
      jobs := jobs
      attempt := some ⟨batch, err⟩ }
  | .failed batch last, .again => some { worker := .sending batch last, jobs := jobs }
  | .failed batch last, .exhausted => some { worker := isolate batch last, jobs := jobs }
  | .committing (job :: batch) last, .commit =>
    some { worker := commitAll batch last, jobs := jobs, settled := some (job, true) }
  | .isolating (job :: batch) last, .attempt d =>
    let err := sendBatchOnce d [job]
    some { worker := .blaming job err.isNone batch last, jobs := jobs, attempt := some ⟨[job], err⟩ }
  | .blaming job ok batch last, .commit =>
    some { worker := isolate batch last, jobs := jobs, settled := some (job, ok) }
  | _, _ => none

def held : Worker Row → List (WriteJob Row)
  | .selecting batch _ | .sending batch _ | .failed batch _ | .committing batch _
  | .isolating batch _ => batch
  | .blaming job _ batch _ => job :: batch
  | .done => []

def isDone : Worker Row → Bool
  | .done => true
  | _ => false

end Worker

/--
The last two fields are read by no operation: the insert attempts, and the jobs settled with their
outcomes.
-/
structure CHWriter (Row : Type) where
  started : Bool := false
  cancelled : Bool := false
  closing : Bool := false
  closed : Bool := false
  returned : Bool := false
  calls : List (EnqueueCall Row) := []
  jobs : List (WriteJob Row) := []
  workers : List (Worker Row) := []
  attempts : List (Attempt Row) := []
  settled : List (WriteJob Row × Bool) := []

inductive GiveUp
  | ctxDone (err : String)
  | timeout

def GiveUp.error (limits : WriterLimits) : GiveUp → String
  | .ctxDone err => err
  | .timeout => "chwriter: write queue still full after waiting " ++ limits.enqueueTimeout

inductive WriterStep (Row : Type)
  | enqueue (args : Row) (commit : Bool)
  | send (n : Nat)
  | giveUp (n : Nat) (cause : GiveUp)
  | leave (n : Nat)
  | start
  | cancel
  | close
  | closeJobs
  | worker (i : Nat) (move : WorkerMove)
  | finish

namespace CHWriter

def refusal : String := "chwriter: shutting down, refusing new write"

def setPhase (w : CHWriter Row) (n : Nat) (c : EnqueueCall Row) (phase : CallPhase) : CHWriter Row :=
  { w with calls := w.calls.set n { c with phase := phase } }

def step (limits : WriterLimits) (w : CHWriter Row) : WriterStep Row → Option (CHWriter Row)
  | .enqueue args commit =>
    -- the critical section of `Enqueue`
    some { w with
      calls := w.calls ++ [⟨⟨w.calls.length, args, commit⟩,
      if w.closing then .returned (some refusal) else .sending⟩] }
  | .send n =>
    match w.calls[n]? with
    | some c =>
      if c.phase = .sending ∧ w.jobs.length < limits.queueSize then
        some { w.setPhase n c (.leaving none) with jobs := w.jobs ++ [c.job] }
      else none
    | none => none
  | .giveUp n cause =>
    match w.calls[n]? with
    | some c =>
      if c.phase = .sending then some (w.setPhase n c (.leaving (some (cause.error limits)))) else none
    | none => none
  | .leave n =>
    match w.calls[n]? with
    | some ⟨job, .leaving err⟩ => some (w.setPhase n ⟨job, .leaving err⟩ (.returned err))
    | _ => none
  | .start =>
    if w.started then none
    else some { w with started := true, workers := List.replicate limits.workers (.selecting [] false) }
  | .cancel => some { w with cancelled := true }
  | .close => if w.started ∧ w.cancelled ∧ ¬ w.closing then some { w with closing := true } else none
  | .closeJobs =>
    -- nobody is between the check of `closing` and the return
    if w.closing ∧ w.calls.all (·.phase.isReturned) then some { w with closed := true } else none
  | .worker i move =>
    match w.workers[i]? with
    | some worker =>
      (worker.step limits w.jobs w.closed move).map fun turn =>
        { w with
          jobs := turn.jobs
          workers := w.workers.set i turn.worker
          attempts := w.attempts ++ turn.attempt.toList
          settled := w.settled ++ turn.settled.toList }
    | none => none
  | .finish => if w.closed ∧ w.workers.all Worker.isDone then some { w with returned := true } else none

def commits (w : CHWriter Row) (n : Nat) : List Bool :=
  (w.settled.filter fun p => p.1.call = n ∧ p.1.commit).map Prod.snd

def attemptsOf (w : CHWriter Row) (n : Nat) : List (Attempt Row) :=
  w.attempts.filter fun a => n ∈ a.rows.map WriteJob.call

end CHWriter

end Kuberecord
