import Kuberecord.Control.Reconcile
import Kuberecord.Library.Chronicles
import Kuberecord.Sinks.Probes

namespace Kuberecord.SinkControl

open Threads

open Control (Condition ConditionStatus ConditionType GetError NamespacedName Reason Reconciled
    StatusWriter UpdateAnswer
  findCondition readyFor updateStatus defaultRetrySteps)

def reasonSecretResolved : Reason := .other "SecretResolved"

def reasonSecretNotFound : Reason := .other "SecretNotFound"

def reasonSecretKeyMissing : Reason := .other "SecretKeyMissing"

def reasonSchemaMatches : Reason := .other "SchemaMatches"

def reasonProbePending : Reason := .other "ProbePending"

def reasonConnected : Reason := .other "Connected"

def reasonCredentialsUnavailable : Reason := .other "CredentialsUnavailable"

def reasonSchemaInvalid : Reason := .other probeReasonSchemaInvalid

def defaultCredentialsSecretKey : String := "password"

structure SinkObject (Spec : Type) where
  generation : Int
  spec : Spec
  conditions : List Condition := []

structure SinkControlLib (Spec Cfg : Type) where
  sinks : SinkLib Cfg
  ref : Spec → NamespacedName
  buildConfig : String → Spec → String → Except String (Option Cfg)
  operatorNamespace : Namespace

structure SinkStatus where
  conditions : List Condition
  observedGeneration : Int

structure ReadyEvent where
  eventtype : String
  reason : String
  message : String
deriving DecidableEq

inductive Op (Cfg : Type)
  | getSink (name : String)
  | getSecret (ref : NamespacedName)
  | ensure (name : String) (cfg : Cfg)
  | delete (name : String)
  | latest (name : String)
  | forget (name : String)
  | updateStatus (name : String) (status : SinkStatus)
  | event (name : String) (event : ReadyEvent)

variable {Spec Cfg : Type}

def Op.Ans (Spec : Type) : Op Cfg → Type
  | getSink _ => Except GetError (SinkObject Spec)
  | getSecret _ => Except GetError (List (String × String))
  | ensure _ _ => Except String Unit
  | latest _ => Option ProbeResult
  | updateStatus _ _ => UpdateAnswer
  | delete _ | forget _ | event _ _ => Unit

abbrev Prog (Spec Cfg α : Type) := Program (Op Cfg) (Op.Ans Spec) α

def call (o : Op Cfg) : Prog Spec Cfg (o.Ans Spec) := Program.perform o

structure CredentialError where
  reason : Reason
  message : String

def secretRef (lib : SinkControlLib Spec Cfg) (chSink : SinkObject Spec) : NamespacedName :=
  let ref := lib.ref chSink.spec
  if ref.ns = allNamespaces then ⟨lib.operatorNamespace, ref.name⟩ else ref

def resolveCredential (lib : SinkControlLib Spec Cfg) (chSink : SinkObject Spec) :
    Prog Spec Cfg (Except CredentialError String) := do
  let ref := secretRef lib chSink
  match ← call (.getSecret ref) with
  | .error .notFound => return .error ⟨reasonSecretNotFound, "Secret " ++ ref.text ++ " does not exist"⟩
  | .error (.failed err) => return .error ⟨reasonSecretNotFound, "Secret " ++ ref.text ++
      " could not be read: " ++ err⟩
  | .ok data =>
    match (data.lookup defaultCredentialsSecretKey).filter (· ≠ "") with
    | none => return .error ⟨reasonSecretKeyMissing, "Secret " ++ ref.text ++ " carries no non-empty " ++
        lib.sinks.quote defaultCredentialsSecretKey ++ " key"⟩
    | some password => return .ok password

def errNoLiveConfig : String := "sink configuration is incomplete; not handing it to the sink runtime"

def declare (lib : SinkControlLib Spec Cfg) (name : String) (chSink : SinkObject Spec)
    (password : String) :
    Prog Spec Cfg (Except String Unit) :=
  match lib.buildConfig name chSink.spec password with
  | .error err => return .error ("build configuration for sink " ++ lib.sinks.quote name ++ ": " ++ err)
  | .ok none => return .error ("build configuration for sink " ++ lib.sinks.quote name ++ ": " ++
      errNoLiveConfig)
  | .ok (some cfg) => call (.ensure name cfg)

structure Verdict where
  status : ConditionStatus
  reason : Reason
  message : String

def schemaVerdict : Option ProbeResult → Verdict
  | none => ⟨.conditionUnknown, reasonProbePending, "Waiting for the first health probe to settle"⟩
  | some result =>
    match result.err with
    | none => ⟨.conditionTrue, reasonSchemaMatches,
        "The live ClickHouse schema matches the schema this operator writes"⟩
    | some err =>
      if result.reason = probeReasonSchemaInvalid then
        ⟨.conditionFalse, reasonSchemaInvalid,
          "The live ClickHouse schema does not match the schema this operator writes: " ++ err⟩
      else ⟨.conditionUnknown, .unreachable,
        "ClickHouse did not answer, so its schema is unknown: " ++ err⟩

def setHealthConditions (name : String) (status : StatusWriter) (resolved : Bool) :
    Prog Spec Cfg StatusWriter :=
  -- a sink whose credential did not resolve is not probed
  if resolved then do
    let verdict := schemaVerdict (← call (.latest name))
    return status.set .schemaValid verdict.status verdict.reason verdict.message
  else
    return status.set .schemaValid .conditionUnknown reasonCredentialsUnavailable
      "The schema cannot be checked until the sink's credentials resolve"

def sinkReadyOrder : List ConditionType := [.credentialsResolved, .schemaValid]

def readyEvent (previous : Option Condition) (ready : Condition) : Option ReadyEvent :=
  -- only a change of the roll-up is an event
  if previous.any (fun p => p.status = ready.status ∧ p.reason = ready.reason) then none
  else match ready.status with
    | .conditionTrue => some ⟨"Normal", "Ready", ready.message⟩
    | .conditionFalse => some ⟨"Warning", "Degraded", ready.reason.text ++ ": " ++ ready.message⟩
    | .conditionUnknown => none

def conclude (lib : SinkControlLib Spec Cfg) (name : String) (chSink : SinkObject Spec)
    (status : StatusWriter) :
    Prog Spec Cfg Reconciled := do
  let previousReady := findCondition chSink.conditions .ready
  let ready := readyFor status .ready sinkReadyOrder reasonConnected
    "ClickHouse is reachable, authenticated and carries the expected schema"
  let status := status.set .ready ready.status ready.reason ready.message
  let written (fresh : SinkObject Spec) : SinkStatus :=
    ⟨status.apply fresh.conditions, status.generation⟩
  match ← updateStatus (call (.getSink name))
    (fun status => call (.updateStatus name status)) written defaultRetrySteps with
  | .error err => return .failed ("update ClickHouseSink " ++ lib.sinks.quote name ++ " status: " ++ err)
  | .ok () =>
    match readyEvent previousReady ready with
    | none => return .requeueAfter
    | some event =>
      call (.event name event)
      return .requeueAfter

def reconcile (lib : SinkControlLib Spec Cfg) (name : String) : Prog Spec Cfg Reconciled := do
  match ← call (.getSink name) with
  | .error .notFound =>
    call (.forget name)
    call (.delete name)
    return .done
  | .error (.failed err) => return .failed ("get ClickHouseSink " ++ lib.sinks.quote name ++ ": " ++ err)
  | .ok chSink =>
    let status : StatusWriter := { generation := chSink.generation }
    match ← resolveCredential lib chSink with
    | .error credErr =>
      let status := status.set .credentialsResolved .conditionFalse credErr.reason credErr.message
      conclude lib name chSink (← setHealthConditions name status false)
    | .ok password =>
      let status := status.set .credentialsResolved .conditionTrue reasonSecretResolved
        ("Read the password from Secret " ++ (secretRef lib chSink).text)
      match ← declare lib name chSink password with
      | .error err => return .failed err
      | .ok () => conclude lib name chSink (← setHealthConditions name status true)

structure SinkState (Cfg : Type) where
  runtime : SinkManager Cfg := {}
  probes : String → Option ProbeResult := fun _ => none

inductive Input (Spec : Type)
  | sink (a : Except GetError (SinkObject Spec))
  | secret (a : Except GetError (List (String × String)))
  | factory (a : Except String Unit)
  | update (a : UpdateAnswer)
  | go

inductive Env (Cfg : Type)
  | record (result : ProbeResult)
  | start (factory : String → Except String Unit)
  | shutdown
  | drainOwed (inst : LiveSink)
  | tail (n : Nat)

def Env.step? : Env Cfg → Option (SinkStep Cfg)
  | record _ => none
  | start factory => some (.start factory)
  | shutdown => some .shutdown
  | drainOwed inst => some (.drainOwed inst)
  | tail n => some (.tail n)

def exec (lib : SinkControlLib Spec Cfg) (s : SinkState Cfg) (_ : String) :
    (o : Op Cfg) → Input Spec → Option (SinkState Cfg × o.Ans Spec)
  | .getSink _, .sink a => some (s, a)
  | .getSecret _, .secret a => some (s, a)
  | .ensure name cfg, .factory a =>
    let (answer, runtime) := s.runtime.ensure lib.sinks name (some cfg) a
    some ({ s with runtime := runtime }, answer)
  | .delete name, .go => some ({ s with runtime := s.runtime.delete name }, ())
  | .latest name, .go => some (s, s.probes name)
  | .forget name, .go => some ({ s with probes := Function.update s.probes name none }, ())
  | .updateStatus _ _, .update a => some (s, a)
  | .event _ _, .go => some (s, ())
  | _, _ => none

def env (lib : SinkControlLib Spec Cfg) (s : SinkState Cfg) (e : Env Cfg) : Option (SinkState Cfg) :=
  match e with
  | .record result => some { s with probes := Function.update s.probes result.sink (some result) }
  | .start _ | .shutdown | .drainOwed _ | .tail _ =>
    (e.step?.bind (s.runtime.step lib.sinks)).map fun runtime => { s with runtime := runtime }

def sinkMachine (lib : SinkControlLib Spec Cfg) :
    Machine (Op Cfg) (Op.Ans Spec) Reconciled String Unit (Input Spec) (Env Cfg) (SinkState Cfg) where
  start s name _ := some (s, reconcile lib name)
  exec := exec lib
  finish s _ _ := s
  env := env lib
  crash _ := {}

abbrev System (Spec Cfg : Type) := Threads.System (Op Cfg) (Op.Ans Spec) Reconciled String
    (SinkState Cfg)

abbrev Action (Spec Cfg : Type) := Threads.Action String Unit (Input Spec) (Env Cfg)

end Kuberecord.SinkControl
