import Kuberecord.RedactionRules
import Kuberecord.Watch.Interests

namespace Kuberecord

def GroupVersionKind.text (gvk : GroupVersionKind) : String :=
  gvk.group.1 ++ "/" ++ gvk.version ++ ", Kind=" ++ gvk.kind.1

def GroupVersionResource.text (gvr : GroupVersionResource) : String :=
  gvr.group ++ "/" ++ gvr.version ++ ", Resource=" ++ gvr.resource

def GroupVersionResource.groupResource (gvr : GroupVersionResource) : String :=
  if gvr.group = "" then gvr.resource else gvr.resource ++ "." ++ gvr.group

def GroupVersionResource.Plain (gvr : GroupVersionResource) : Prop :=
  '/' ∉ gvr.group.toList ∧ ',' ∉ gvr.version.toList ∧ '|' ∉ gvr.resource.toList

instance (gvr : GroupVersionResource) : Decidable gvr.Plain := inferInstanceAs (Decidable (_ ∧ _ ∧ _))

namespace Control

abbrev Target := WatchTarget GroupVersionKind Namespace

inductive RuleScope | namespacedRule | clusterRule
deriving DecidableEq

inductive RuleKind | streamRule | clusterStreamRule
deriving DecidableEq

def RuleKind.kind : RuleKind → String
  | streamRule => "streamrule"
  | clusterStreamRule => "clusterstreamrule"

def RuleKind.scope : RuleKind → RuleScope
  | streamRule => .namespacedRule
  | clusterStreamRule => .clusterRule

structure NamespacedName where
  ns : Namespace
  name : String
deriving DecidableEq

def NamespacedName.text (n : NamespacedName) : String := n.ns.1 ++ "/" ++ n.name

def ruleKey (kind : RuleKind) (n : NamespacedName) : String :=
  kind.kind ++ "/" ++ n.ns.1 ++ "/" ++ n.name

inductive ConditionType | ready | schemaValid | credentialsResolved | rbacGranted | policyAllowed | resourceResolved
deriving DecidableEq

inductive ConditionStatus | conditionTrue | conditionFalse | conditionUnknown
deriving DecidableEq

inductive Reason
  | secretsDenied | notInAllowList | allResourcesPermitted | allVerbsGranted | missingPermissions
  | accessReviewFailed | allKindsResolved | invalidSelector | namespaceSelectorInvalid | namespacesUnavailable
  | sinkMissing | sinkNotReady | kindsUnresolved | notEvaluated | streaming | unreachable
  | other (text : String)
deriving DecidableEq

def Reason.text : Reason → String
  | secretsDenied => "SecretsDenied"
  | notInAllowList => "NotInAllowList"
  | allResourcesPermitted => "AllResourcesPermitted"
  | allVerbsGranted => "AllVerbsGranted"
  | missingPermissions => "MissingPermissions"
  | accessReviewFailed => "AccessReviewFailed"
  | allKindsResolved => "AllKindsResolved"
  | invalidSelector => "InvalidSelector"
  | namespaceSelectorInvalid => "NamespaceSelectorInvalid"
  | namespacesUnavailable => "NamespacesUnavailable"
  | sinkMissing => "SinkMissing"
  | sinkNotReady => "SinkNotReady"
  | kindsUnresolved => "KindsUnresolved"
  | notEvaluated => "NotEvaluated"
  | streaming => "Streaming"
  | unreachable => "Unreachable"
  | other text => text

structure Condition where
  type : ConditionType
  status : ConditionStatus
  reason : Reason
  message : String
  observedGeneration : Int
deriving DecidableEq

def findCondition (conditions : List Condition) (condType : ConditionType) : Option Condition :=
  conditions.find? (·.type = condType)

def setStatusCondition : List Condition → Condition → List Condition
  | [], c => [c]
  -- transition times are left out
  | old :: rest, c => if old.type = c.type then c :: rest else old :: setStatusCondition rest c

structure WatchedResource (Sel : Type) where
  group : Segment
  version : String
  kind : Segment
  labelSelector : Option Sel := none

def WatchedResource.gvk {Sel : Type} (res : WatchedResource Sel) : GroupVersionKind :=
  ⟨res.group, res.version, res.kind⟩

structure Rule (Sel : Type) where
  ns : Namespace
  generation : Int
  deleting : Bool := false
  sinkRef : String
  resources : List (WatchedResource Sel)
  extraRedaction : List RedactionRule := []
  namespaceSelector : Option Sel := none
  conditions : List Condition := []

structure GVKSelector where
  group : Segment
  version : String
  kinds : List String

structure SinkPolicy where
  allowedGVKs : List GVKSelector := []
  redaction : List RedactionRule := []

structure ClickHouseSink where
  policy : SinkPolicy
  conditions : List Condition

structure NamespaceItem where
  name : Namespace
  terminating : Bool

/-- `LabelSelectorAsSelector` and `labels.Parse`, both followed by `String`. -/
structure ControlLib (Sel : Type) where
  asSelector : Sel → Except String String
  parse : String → Except String String
  quoting : Quoting

def ControlLib.selectors {Sel : Type} (lib : ControlLib Sel) : SelectorLib GroupVersionKind Namespace :=
  ⟨lib.parse, lib.quoting.quote, GroupVersionKind.text, (·.1)⟩

/-- A rendered selector is its own canonical form. -/
def ControlLib.Lawful {Sel : Type} (lib : ControlLib Sel) : Prop :=
  ∀ ls s, lib.asSelector ls = .ok s → s ≠ "" → lib.parse s = .ok s

def canonicalSelector {Sel : Type} (lib : ControlLib Sel) : Option Sel → Except String String
  | none => .ok ""
  | some ls =>
    match lib.asSelector ls with
    | .error err => .error ("canonicalize label selector: " ++ err)
    | .ok sel => .ok sel

def gvkString (group version kind : String) : String :=
  if group = "" then version ++ "/" ++ kind else group ++ "/" ++ version ++ "/" ++ kind

def deniedGroup : String := ""

def deniedKind : String := "Secret"

structure PolicyDenial where
  reason : Reason
  message : String

section

variable {Sel : Type}

def policyAdmits (allowed : List GVKSelector) (res : WatchedResource Sel) : Bool :=
  allowed.any fun sel => sel.group = res.group && sel.version = res.version &&
    (sel.kinds.contains "*" || sel.kinds.contains res.kind.1)

def checkPolicy (resources : List (WatchedResource Sel)) (policy : SinkPolicy) : Option PolicyDenial :=
  match resources.find? fun res => res.group.1 = deniedGroup && res.kind.1 = deniedKind with
  | some res => some ⟨.secretsDenied, gvkString res.group.1 res.version res.kind.1 ++
      " is never watchable in v1alpha1: Secrets are denied in code and no sink policy can admit them"⟩
  | none =>
    if policy.allowedGVKs = [] then none
    else match resources.find? fun res => !policyAdmits policy.allowedGVKs res with
      | some res => some ⟨.notInAllowList, gvkString res.group.1 res.version res.kind.1 ++
          " is not in the sink's spec.policy.allowedGVKs"⟩
      | none => none

end

inductive MapperError
  | noMatch (text : String)
  | other (text : String)
deriving DecidableEq

inductive ResolveError
  | kindNotFound (gvk : GroupVersionKind) (err : String)
  | clusterScopedKind (gvk : GroupVersionKind) (gvr : GroupVersionResource)
  | discovery (gvk : GroupVersionKind) (err : String)
deriving DecidableEq

def ResolveError.text (quote : String → String) : ResolveError → String
  | kindNotFound gvk err => "kind " ++ gvk.text ++ " is not installed in this cluster: " ++ err
  | clusterScopedKind gvk gvr =>
    "kind " ++ gvk.text ++ " resolves to cluster-scoped resource " ++ quote gvr.resource ++
      ": a namespaced StreamRule may only watch namespaced resources, use a ClusterStreamRule instead"
  | discovery gvk err => "resolve " ++ gvk.text ++ ": " ++ err

def classify (gvk : GroupVersionKind) : MapperError → ResolveError
  | .noMatch err => .kindNotFound gvk err
  | .other err => .discovery gvk err

structure Mapping where
  gvr : GroupVersionResource
  namespaced : Bool
  plain : gvr.Plain

def checkScope (gvk : GroupVersionKind) (mapping : Mapping) (scope : RuleScope) : Option ResolveError :=
  if scope = .namespacedRule ∧ mapping.namespaced = false then
    some (.clusterScopedKind gvk mapping.gvr)
  else none

structure ParkedKind where
  err : ResolveError
  delay : Nat
  retryAt : Nat

def baseRetryDelay : Nat := 1000000000

def maxRetryDelay : Nat := 30000000000

structure Resolver where
  parked : GroupVersionKind → Option ParkedKind := fun _ => none

def Resolver.gatedError (r : Resolver) (now : Nat) (gvk : GroupVersionKind) : Option ResolveError :=
  match r.parked gvk with
  | some parked => if now < parked.retryAt then some parked.err else none
  | none => none

def Resolver.park (r : Resolver) (now : Nat) (gvk : GroupVersionKind) (err : ResolveError) : Resolver :=
  let delay :=
    match r.parked gvk with
    | some parked => min (parked.delay * 2) maxRetryDelay
    | none => baseRetryDelay
  ⟨Function.update r.parked gvk (some ⟨err, delay, now + delay⟩)⟩

def Resolver.unpark (r : Resolver) (gvk : GroupVersionKind) : Resolver :=
  ⟨Function.update r.parked gvk none⟩

def namespacesFor (namespaced : Bool) (expanded : List Namespace) : List Namespace :=
  if namespaced then expanded else [allNamespaces]

inductive Verb | get | list | watch
deriving DecidableEq

def Verb.text : Verb → String
  | get => "get"
  | list => "list"
  | watch => "watch"

def accessVerbs : List Verb := [.get, .list, .watch]

def maxConditionMessage : Nat := 4096

def takeBytes : Nat → List Char → List Char
  | _, [] => []
  | n, c :: cs => if c.utf8Size ≤ n then c :: takeBytes (n - c.utf8Size) cs else []

-- the source cuts between bytes; here a character that does not fit is left out whole
def truncateMessage (message : String) : String :=
  if message.utf8ByteSize ≤ maxConditionMessage then message
  else
    let suffix := " […truncated]"
    String.ofList (takeBytes (maxConditionMessage - suffix.utf8ByteSize) message.toList) ++ suffix

theorem setStatusCondition_types (conditions : List Condition) (c : Condition) :
    (setStatusCondition conditions c).map (·.type) =
      if c.type ∈ conditions.map (·.type) then conditions.map (·.type) else conditions.map
        (·.type) ++ [c.type] := by
  induction conditions with
  | nil => rfl
  | cons old rest ih =>
    rw [setStatusCondition]
    by_cases h : old.type = c.type
    · simp [h]
    · rw [if_neg h, List.map_cons, ih]
      simp only [List.map_cons, List.mem_cons, Ne.symm h, false_or]
      split_ifs <;> rfl

theorem setStatusCondition_nodup {conditions : List Condition} (h : (conditions.map (·.type)).Nodup)
    (c : Condition) :
    ((setStatusCondition conditions c).map (·.type)).Nodup := by
  rw [setStatusCondition_types]
  split_ifs with hc
  · exact h
  · exact List.nodup_append.mpr ⟨h, List.nodup_singleton _, fun a ha b hb he => hc (by
      rw [← List.mem_singleton.mp hb, ← he]
      exact ha)⟩

structure StatusWriter where
  conditions : List Condition := []
  generation : Int
  nodup : (conditions.map (·.type)).Nodup := by exact List.nodup_nil

def StatusWriter.set (w : StatusWriter) (condType : ConditionType) (status : ConditionStatus)
    (reason : Reason) (message : String) : StatusWriter where
  conditions := setStatusCondition w.conditions ⟨condType, status, reason, message, w.generation⟩
  generation := w.generation
  nodup := setStatusCondition_nodup w.nodup _

def StatusWriter.apply (w : StatusWriter) (existing : List Condition) : List Condition :=
  w.conditions.foldl setStatusCondition existing

def setGateCondition (w : StatusWriter) (condType : ConditionType) (failures : List String)
    (trueReason : Reason) (trueMessage : String) (falseReason : Reason) : StatusWriter :=
  if failures = [] then w.set condType .conditionTrue trueReason trueMessage
  else w.set condType .conditionFalse falseReason (truncateMessage ("; ".intercalate failures))

def ruleReadyOrder : List ConditionType := [.policyAllowed, .resourceResolved, .rbacGranted]

def setUnevaluated (w : StatusWriter) (message : String) : StatusWriter :=
  ruleReadyOrder.foldl (fun w condType => w.set condType .conditionUnknown .notEvaluated message) w

def readyFor (w : StatusWriter) (readyType : ConditionType) (order : List ConditionType)
    (trueReason : Reason) (trueMessage : String) : Condition :=
  match order.findSome? fun condType =>
      (findCondition w.conditions condType).filter (·.status ≠ .conditionTrue) with
  | some c =>
    let readyStatus :=
      if c.status = .conditionUnknown ∧
        c.reason = .unreachable then ConditionStatus.conditionFalse else c.status
    ⟨readyType, readyStatus, c.reason, c.message, w.generation⟩
  | none => ⟨readyType, .conditionTrue, trueReason, trueMessage, w.generation⟩

structure SinkVerdict where
  reason : Reason
  message : String

def readyCondition (w : StatusWriter) : Option SinkVerdict → Condition
  | some verdict => ⟨.ready, .conditionFalse, verdict.reason, verdict.message, w.generation⟩
  | none => readyFor w .ready ruleReadyOrder .streaming
      "Every resource this rule names is admitted, resolved, permitted and installed in the watch plan"

end Control

end Kuberecord
