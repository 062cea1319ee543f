import Kuberecord.Control.Rules
import Kuberecord.Library.Threads

/-!
The rule reconciler: one pass of `Reconcile` as a program over the calls it makes, and the
machine on which the passes of all rules and the watch manager's lookups interleave.
-/

namespace Kuberecord.Control

open Threads Tallies

inductive GetError
  | notFound
  | failed (text : String)
deriving DecidableEq

inductive UpdateAnswer
  | updated
  | conflict
  | failed (text : String)
deriving DecidableEq

structure RuleStatus where
  conditions : List Condition
  activeWatches : Nat
  observedGeneration : Int

inductive Op
  | getRule (kind : RuleKind) (name : NamespacedName)
  | getSink (name : String)
  | listNamespaces (selector : String)
  | gatedError (gvk : GroupVersionKind)
  | restMapping (gvk : GroupVersionKind)
  | park (gvk : GroupVersionKind) (err : ResolveError)
  | unpark (gvk : GroupVersionKind)
  | review (gvr : GroupVersionResource) (ns : Namespace) (verb : Verb)
  | upsert (ruleKey : String) (targets : List Target)
  | remove (ruleKey : String)
  | targetCountForRule (ruleKey : String)
  | updateStatus (kind : RuleKind) (name : NamespacedName) (status : RuleStatus)

def Op.Ans (Sel : Type) : Op → Type
  | getRule _ _ => Except GetError (Rule Sel)
  | getSink _ => Except GetError ClickHouseSink
  | listNamespaces _ => Except String (List NamespaceItem)
  | gatedError _ => Option ResolveError
  | restMapping _ => Except MapperError Mapping
  | park _ _ | unpark _ | remove _ => Unit
  | review _ _ _ => Except String Bool
  | upsert _ _ => Except String Unit
  | targetCountForRule _ => Nat
  | updateStatus _ _ _ => UpdateAnswer

abbrev Prog (Sel α : Type) := Program Op (Op.Ans Sel) α

variable {Sel : Type}

def call (o : Op) : Prog Sel (o.Ans Sel) := Program.perform o

def resolve (gvk : GroupVersionKind) : Prog Sel (Except ResolveError Mapping) := do
  match ← call (.gatedError gvk) with
  | some err => return .error err
  | none =>
    match ← call (.restMapping gvk) with
    | .error err =>
      call (.park gvk (classify gvk err))
      return .error (classify gvk err)
    | .ok mapping =>
      call (.unpark gvk)
      return .ok mapping

def resolveForScope (gvk : GroupVersionKind) (scope : RuleScope) :
    Prog Sel (Except ResolveError Mapping) := do
  match ← resolve gvk with
  | .error err => return .error err
  | .ok mapping =>
    match checkScope gvk mapping scope with
    | some err => return .error err
    | none => return .ok mapping

inductive NamespaceError
  | invalidNamespaceSelector (err : String)
  | unavailable (err : String)

def NamespaceError.text : NamespaceError → String
  | invalidNamespaceSelector err => Reason.namespaceSelectorInvalid.text ++ ": " ++ err
  | unavailable err => err

def targetNamespaces (lib : ControlLib Sel) (kind : RuleKind) (obj : Rule Sel) :
    Prog Sel (Except NamespaceError (List Namespace)) :=
  if kind.scope = .namespacedRule then return .ok [obj.ns]
  else match obj.namespaceSelector with
    | none => return .ok [allNamespaces]
    | some selector =>
      match lib.asSelector selector with
      | .error err => return .error (.invalidNamespaceSelector err)
      | .ok labelSelector => do
        match ← call (.listNamespaces labelSelector) with
        | .error err => return .error (.unavailable
            ("list namespaces matching " ++ lib.quoting.quote labelSelector ++ ": " ++ err))
        | .ok items => return .ok (((items.filter (!·.terminating)).map (·.name)).insertionSort
            (·.1 ≤ ·.1))

structure ResolvedResource where
  gvk : GroupVersionKind
  gvr : GroupVersionResource
  selector : String
  namespaces : List Namespace

structure Resolution where
  resolved : List ResolvedResource := []
  failures : List String := []

def resolveResource (lib : ControlLib Sel) (scope : RuleScope) (namespaces : List Namespace)
    (acc : Resolution) (res : WatchedResource Sel) : Prog Sel Resolution := do
  match ← resolveForScope res.gvk scope with
  | .error err => return { acc with failures := acc.failures ++ [res.gvk.text ++ ": " ++
      err.text lib.quoting.quote] }
  | .ok mapping =>
    match canonicalSelector lib res.labelSelector with
    | .error err => return { acc with failures := acc.failures ++ [res.gvk.text ++ ": " ++ err] }
    | .ok selector => return { acc with
        resolved := acc.resolved ++ [⟨res.gvk, mapping.gvr, selector,
        namespacesFor mapping.namespaced namespaces⟩] }

def resolveResources (lib : ControlLib Sel) (scope : RuleScope) (namespaces : List Namespace)
    (resources : List (WatchedResource Sel)) : Prog Sel Resolution :=
  resources.foldlM (resolveResource lib scope namespaces) {}

def review (lib : ControlLib Sel) (gvr : GroupVersionResource) (ns : Namespace) (verb : Verb) :
    Prog Sel (Except String Bool) := do
  match ← call (.review gvr ns verb) with
  | .error err => return .error ("review access to " ++ gvr.groupResource ++ " (verb " ++
      lib.quoting.quote verb.text ++
      ", namespace " ++ lib.quoting.quote ns.1 ++ "): " ++ err)
  | .ok allowed => return .ok allowed

def reviewVerb (lib : ControlLib Sel) (gvr : GroupVersionResource) (ns : Namespace) (verb : Verb) :
    Prog Sel (Except String Bool) := do
  -- a grant for the cluster is asked for first, then one where the target lives
  match ← review lib gvr allNamespaces verb with
  | .error err => return .error err
  | .ok true => return .ok true
  | .ok false => if ns = allNamespaces then return .ok false else review lib gvr ns verb

def missingVerbs (lib : ControlLib Sel) (gvr : GroupVersionResource) (ns : Namespace) :
    List Verb → List Verb → Prog Sel (Except String (List Verb))
  | [], missing => return .ok missing
  | verb :: verbs, missing => do
    match ← reviewVerb lib gvr ns verb with
    | .error err => return .error err
    | .ok allowed => missingVerbs lib gvr ns verbs (if allowed then missing else missing ++ [verb])

def reviewTarget (lib : ControlLib Sel) (gvr : GroupVersionResource) (ns : Namespace) :
    Prog Sel (Except String String) := do
  match ← missingVerbs lib gvr ns accessVerbs [] with
  | .error err => return .error err
  | .ok [] => return .ok ""
  | .ok missing =>
    let scope := if ns = allNamespaces then "at cluster scope" else "in namespace " ++
      lib.quoting.quote ns.1
    return .ok (gvr.groupResource ++ ": missing " ++ ",".intercalate (missing.map Verb.text) ++
      " " ++ scope)

def verdictKey (gvr : GroupVersionResource) (ns : Namespace) : String := gvr.text ++ "|" ++ ns.1

structure Reviewed where
  targets : List Target := []
  denials : List String := []
  seen : List (String × String) := []

def verdictFor (lib : ControlLib Sel) (seen : List (String × String)) (gvr : GroupVersionResource)
    (ns : Namespace) :
    Prog Sel (Except String (String × List (String × String))) := do
  match seen.lookup (verdictKey gvr ns) with
  | some denial => return .ok (denial, seen)
  | none =>
    match ← reviewTarget lib gvr ns with
    | .error err => return .error err
    | .ok denial => return .ok (denial, (verdictKey gvr ns, denial) :: seen)

def reviewTargets (lib : ControlLib Sel) (sinkName redaction : String) :
    List (ResolvedResource × Namespace) → Reviewed → Prog Sel (Except String Reviewed)
  | [], acc => return .ok acc
  | (res, ns) :: rest, acc => do
    match ← verdictFor lib acc.seen res.gvr ns with
    | .error err => return .error err
    | .ok (denial, seen) =>
      if denial ≠ "" then
        reviewTargets lib sinkName redaction rest
          { acc with
            denials := if acc.denials.contains denial then acc.denials else acc.denials ++ [denial]
            seen := seen }
      else
        reviewTargets lib sinkName redaction rest
          { acc with targets := acc.targets ++ [⟨sinkName, res.gvk, ns, res.selector, redaction⟩], seen := seen }

structure PlanOutcome where
  targets : List Target := []
  verdict : Option SinkVerdict := none
  install : Bool := false
  err : Option String := none

structure SinkAnswer where
  chSink : Option ClickHouseSink
  verdict : Option SinkVerdict

def judgeSink (lib : ControlLib Sel) (name : String) (chSink : ClickHouseSink) : Option SinkVerdict :=
  match findCondition chSink.conditions .ready with
  | none => some ⟨.sinkNotReady, "ClickHouseSink " ++ lib.quoting.quote name ++
      " has not reported its health yet"⟩
  | some ready =>
    if ready.status ≠ .conditionTrue then
      some ⟨.sinkNotReady, "ClickHouseSink " ++ lib.quoting.quote name ++ " is not ready (" ++
        ready.reason.text ++ ": " ++
        ready.message ++ ")"⟩
    else none

def resolveSink (lib : ControlLib Sel) (name : String) : Prog Sel (Except String SinkAnswer) := do
  match ← call (.getSink name) with
  | .error .notFound => return .ok ⟨none,
      some ⟨.sinkMissing, "ClickHouseSink " ++ lib.quoting.quote name ++ " does not exist"⟩⟩
  | .error (.failed err) => return .error ("get ClickHouseSink " ++ lib.quoting.quote name ++
      ": " ++ err)
  | .ok chSink => return .ok ⟨some chSink, judgeSink lib name chSink⟩

def planTargets (lib : ControlLib Sel) (kind : RuleKind) (obj : Rule Sel) (chSink : ClickHouseSink)
    (verdict : Option SinkVerdict) (status : StatusWriter) : Prog Sel (PlanOutcome × StatusWriter) := do
  match ← targetNamespaces lib kind obj with
  | .error (.invalidNamespaceSelector err) =>
    return ({ verdict := verdict, install := true }, status.set .resourceResolved .conditionFalse
      .namespaceSelectorInvalid (NamespaceError.invalidNamespaceSelector err).text)
  | .error (.unavailable err) =>
    return ({ verdict := verdict, err := some err },
      status.set .resourceResolved .conditionUnknown .namespacesUnavailable err)
  | .ok namespaces =>
    let resolution ← resolveResources lib kind.scope namespaces obj.resources
    let status := setGateCondition status .resourceResolved resolution.failures .allKindsResolved
      "Every kind this rule names resolved to a watchable resource" .kindsUnresolved
    let redaction := canonicalRedaction lib.quoting chSink.policy.redaction obj.extraRedaction
    match ← reviewTargets lib obj.sinkRef redaction
        (resolution.resolved.flatMap fun res => res.namespaces.map (res, ·)) {} with
    | .error err =>
      return ({ verdict := verdict, err := some err },
        status.set .rbacGranted .conditionUnknown .accessReviewFailed err)
    | .ok reviewed =>
      return ({ targets := reviewed.targets, verdict := verdict, install := true },
        setGateCondition status .rbacGranted reviewed.denials .allVerbsGranted
          "The operator may get, list and watch every resource this rule names" .missingPermissions)

def plan (lib : ControlLib Sel) (kind : RuleKind) (obj : Rule Sel) (status : StatusWriter) :
    Prog Sel (PlanOutcome × StatusWriter) := do
  match ← resolveSink lib obj.sinkRef with
  | .error err => return ({ err := some err }, status)
  | .ok ⟨none, verdict⟩ =>
    return ({ verdict := verdict, install := true },
      setUnevaluated status ((verdict.map (·.message)).getD ""))
  | .ok ⟨some chSink, verdict⟩ =>
    match checkPolicy obj.resources chSink.policy with
    | some denied =>
      let status := status.set .policyAllowed .conditionFalse denied.reason denied.message
      let status := status.set .resourceResolved .conditionUnknown .notEvaluated
        "Resources are not resolved while the sink's policy denies this rule"
      let status := status.set .rbacGranted .conditionUnknown .notEvaluated
        "Access is not reviewed while the sink's policy denies this rule"
      return ({ verdict := verdict, install := true }, status)
    | none =>
      planTargets lib kind obj chSink verdict
        (status.set .policyAllowed .conditionTrue .allResourcesPermitted
        ("Every resource this rule names is admitted by sink " ++ lib.quoting.quote obj.sinkRef))

def updateStatus {O : Type} {A : O → Type} {Obj Status : Type} (get : Program O A (Except GetError Obj))
    (update : Status → Program O A UpdateAnswer) (mutate : Obj → Status) :
    Nat → Program O A (Except String Unit)
  | 0 => return .ok ()
  | attempts + 1 => do
    match ← get with
    | .error .notFound => return .error "not found"
    | .error (.failed err) => return .error err
    | .ok fresh =>
      match ← update (mutate fresh) with
      | .updated => return .ok ()
      | .failed err => return .error err
      | .conflict => if attempts = 0 then return .error "conflict" else updateStatus get update mutate attempts

def defaultRetrySteps : Nat := 5

def install (key : String) (outcome : PlanOutcome) (status : StatusWriter) : Prog Sel StatusWriter :=
  if outcome.install then do
    match ← call (.upsert key outcome.targets) with
    | .error err => return status.set .resourceResolved .conditionFalse .invalidSelector err
    | .ok () => return status
  else return status

inductive Reconciled
  | done
  | requeueAfter
  | failed (err : String)
deriving DecidableEq

def report (kind : RuleKind) (req : NamespacedName) (outcome : PlanOutcome) (status : StatusWriter) :
    Prog Sel Reconciled := do
  let status ← install (ruleKey kind req) outcome status
  let ready := readyCondition status outcome.verdict
  let status := status.set .ready ready.status ready.reason ready.message
  let activeWatches ← call (.targetCountForRule (ruleKey kind req))
  let written (fresh : Rule Sel) : RuleStatus :=
    ⟨status.apply fresh.conditions, activeWatches, status.generation⟩
  match ← updateStatus (call (.getRule kind req))
    (fun status => call (.updateStatus kind req status)) written defaultRetrySteps with
  | .error err => return .failed ("update " ++ kind.kind ++ " " ++ req.text ++ " status: " ++ err)
  | .ok () =>
    match outcome.err with
    | some err => return .failed err
    | none => return .requeueAfter

def reconcile (lib : ControlLib Sel) (kind : RuleKind) (req : NamespacedName) : Prog Sel Reconciled := do
  match ← call (.getRule kind req) with
  | .error .notFound =>
    call (.remove (ruleKey kind req))
    return .done
  | .error (.failed err) => return .failed ("get " ++ kind.kind ++ " " ++ req.text ++ ": " ++ err)
  | .ok obj =>
    if obj.deleting then do
      call (.remove (ruleKey kind req))
      return .done
    else do
      let (outcome, status) ← plan lib kind obj { generation := obj.generation }
      report kind req outcome status

structure ControlState where
  registry : Registry GroupVersionKind Namespace := {}
  resolver : Resolver := {}

inductive Input (Sel : Type)
  | rule (a : Except GetError (Rule Sel))
  | sink (a : Except GetError ClickHouseSink)
  | namespaces (a : Except String (List NamespaceItem))
  | mapping (a : Except MapperError Mapping)
  | allowed (a : Except String Bool)
  | update (a : UpdateAnswer)
  | time (now : Nat)
  | orders (adds drops : LoopOrder Target)
  | go

inductive Tid
  | reconciler (kind : RuleKind) (name : NamespacedName)
  | manager
deriving DecidableEq

inductive Boot
  | reconcile
  | resolve (gvk : GroupVersionKind)

inductive Env | receive

abbrev Action (Sel : Type) := Threads.Action Tid Boot (Input Sel) Env

abbrev System (Sel : Type) := Threads.System Op (Op.Ans Sel) Reconciled Tid ControlState

def exec (lib : ControlLib Sel) (s : ControlState) (_ : Tid) :
    (o : Op) → Input Sel → Option (ControlState × o.Ans Sel)
  | .getRule _ _, .rule a => some (s, a)
  | .getSink _, .sink a => some (s, a)
  | .listNamespaces _, .namespaces a => some (s, a)
  | .gatedError gvk, .time now => some (s, s.resolver.gatedError now gvk)
  | .restMapping _, .mapping a => some (s, a)
  | .park gvk err, .time now => some ({ s with resolver := s.resolver.park now gvk err }, ())
  | .unpark gvk, .go => some ({ s with resolver := s.resolver.unpark gvk }, ())
  | .review _ _ _, .allowed a => some (s, a)
  | .upsert key targets, .orders adds drops =>
    let (answer, registry) := s.registry.upsert lib.selectors adds drops key targets
    some ({ s with registry := registry }, answer)
  | .remove key, .orders _ drops => some ({ s with registry := s.registry.remove drops key }, ())
  | .targetCountForRule key, .go => some (s, s.registry.targetCountForRule key)
  | .updateStatus _ _ _, .update a => some (s, a)
  | _, _ => none

def start (lib : ControlLib Sel) (s : ControlState) :
    Tid → Boot → Option (ControlState × Prog Sel Reconciled)
  | .reconciler kind name, .reconcile => some (s, reconcile lib kind name)
  | .manager, .resolve gvk => some (s, do
      let _ ← resolve gvk
      return .done)
  | _, _ => none

def controlMachine (lib : ControlLib Sel) :
    Machine Op (Op.Ans Sel) Reconciled Tid Boot (Input Sel) Env ControlState where
  start := start lib
  exec := exec lib
  finish s _ _ := s
  env s
    | .receive => some { s with registry := { s.registry with changes := false } }
  crash _ := {}

end Kuberecord.Control
