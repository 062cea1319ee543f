import Kuberecord.Control.Gates

namespace Kuberecord.Control

open Threads

variable {Sel : Type}

section

variable {conditions : List Condition} {c : Condition} {t : ConditionType}

theorem findCondition_set_self : findCondition (setStatusCondition conditions c) c.type = some c := by
  induction conditions with
  | nil => simp [setStatusCondition, findCondition]
  | cons old rest ih =>
    rw [setStatusCondition]
    split_ifs with h
    · simp [findCondition]
    · rw [findCondition, List.find?_cons_of_neg (by simpa using h)]
      exact ih

theorem findCondition_set_of_ne (h : t ≠ c.type) :
    findCondition (setStatusCondition conditions c) t = findCondition conditions t := by
  induction conditions with
  | nil => simp [setStatusCondition, findCondition, h.symm]
  | cons old rest ih =>
    rw [setStatusCondition]
    split_ifs with he
    · have hold : old.type ≠ t := fun hc => h (hc ▸ he)
      rw [findCondition, findCondition, List.find?_cons_of_neg (by simpa using h.symm),
        List.find?_cons_of_neg (by simpa using hold)]
    · by_cases hold : old.type = t
      · rw [findCondition, findCondition, List.find?_cons_of_pos (by simpa using hold),
          List.find?_cons_of_pos (by simpa using hold)]
      · rw [findCondition, findCondition, List.find?_cons_of_neg (by simpa using hold),
          List.find?_cons_of_neg (by simpa using hold)]
        exact ih

end

def StatusWriter.Says (w : StatusWriter) (condType : ConditionType) (status : ConditionStatus) : Prop :=
  ∃ c, findCondition w.conditions condType = some c ∧ c.status = status

section

variable {w : StatusWriter} {t t' : ConditionType} {status status' : ConditionStatus}
  {reason : Reason} {message : String}

theorem StatusWriter.says_set : (w.set t status reason message).Says t status :=
  ⟨⟨t, status, reason, message, w.generation⟩, findCondition_set_self, rfl⟩

theorem StatusWriter.Says.set (h : w.Says t status) (hne : t ≠ t') :
    (w.set t' status' reason message).Says t status := by
  obtain ⟨c, hc, hs⟩ := h
  exact ⟨c, (findCondition_set_of_ne hne).trans hc, hs⟩

def gateStatus (failures : List String) : ConditionStatus :=
  if failures = [] then .conditionTrue else .conditionFalse

theorem says_setGateCondition {failures : List String} {trueReason falseReason : Reason}
    {trueMessage : String} :
    (setGateCondition w t failures trueReason trueMessage falseReason).Says t (gateStatus failures) := by
  unfold setGateCondition gateStatus
  split_ifs
  · exact StatusWriter.says_set
  · exact StatusWriter.says_set

theorem StatusWriter.Says.gate {failures : List String} {trueReason falseReason : Reason}
    {trueMessage : String} (h : w.Says t status) (hne : t ≠ t') :
    (setGateCondition w t' failures trueReason trueMessage falseReason).Says t status := by
  unfold setGateCondition
  split_ifs
  · exact h.set hne
  · exact h.set hne

theorem readyFor_true {order : List ConditionType} {trueReason : Reason} {trueMessage : String}
    (h : (readyFor w t' order trueReason trueMessage).status = .conditionTrue) (ht : t ∈ order)
    (hs : w.Says t status) : status = .conditionTrue := by
  obtain ⟨c, hc, rfl⟩ := hs
  by_contra hne
  unfold readyFor at h
  split at h
  · rename_i c' hc'
    obtain ⟨t'', -, hfound⟩ := List.exists_of_findSome?_eq_some hc'
    have hbad := (Option.filter_eq_some_iff.mp hfound).2
    dsimp only at h
    split_ifs at h
    simp [h] at hbad
  · rename_i hnone
    have := List.findSome?_eq_none_iff.mp hnone t ht
    rw [hc, Option.filter_some, if_pos (by simpa using hne)] at this
    cases this

end

def pairsOf (resolution : Resolution) : List (ResolvedResource × Namespace) :=
  resolution.resolved.flatMap fun res => res.namespaces.map (res, ·)

theorem mem_pairsOf {resolution : Resolution} {r : ResolvedResource} {ns : Namespace} :
    (r, ns) ∈ pairsOf resolution ↔ r ∈ resolution.resolved ∧ ns ∈ r.namespaces := by
  simp [pairsOf]

structure Survey (lib : ControlLib Sel) (kind : RuleKind) (obj : Rule Sel) (tr : Trace Sel)
    (chSink : ClickHouseSink) (namespaces : List Namespace) (resolution : Resolution)
    (reviewed : Reviewed) : Prop where
  sink : tr.Has (.getSink obj.sinkRef) (.ok chSink)
  policy : checkPolicy obj.resources chSink.policy = none
  expanded : Expanded lib kind obj tr (.ok namespaces)
  vets : resolution.Vets lib kind.scope namespaces tr obj.resources
  judged : Judged tr obj.sinkRef
    (canonicalRedaction lib.quoting chSink.policy.redaction obj.extraRedaction)
    (pairsOf resolution) {} reviewed

inductive Planned (lib : ControlLib Sel) (kind : RuleKind) (obj : Rule Sel) (tr : Trace Sel)
    (w : StatusWriter) :
    PlanOutcome → StatusWriter → Prop
  | sinkFailed (err text : String) : tr.Has (.getSink obj.sinkRef) (.error (.failed err)) →
      Planned lib kind obj tr w { err := some text } w
  | sinkMissing (v : SinkVerdict) (w' : StatusWriter) : tr.Has (.getSink obj.sinkRef)
      (.error .notFound) →
      Planned lib kind obj tr w { verdict := some v, install := true } w'
  | denied (chSink : ClickHouseSink) (d : PolicyDenial) (w' : StatusWriter) :
      tr.Has (.getSink obj.sinkRef) (.ok chSink) → checkPolicy obj.resources chSink.policy = some d →
      w'.Says .policyAllowed .conditionFalse →
      Planned lib kind obj tr w { verdict := judgeSink lib obj.sinkRef chSink, install := true } w'
  | namespacesInvalid (chSink : ClickHouseSink) (err : String) (w' : StatusWriter) :
      tr.Has (.getSink obj.sinkRef) (.ok chSink) → checkPolicy obj.resources chSink.policy = none →
      Expanded lib kind obj tr (.error (.invalidNamespaceSelector err)) →
      w'.Says .resourceResolved .conditionFalse →
      Planned lib kind obj tr w { verdict := judgeSink lib obj.sinkRef chSink, install := true } w'
  | namespacesUnavailable (chSink : ClickHouseSink) (err : String) (w' : StatusWriter) :
      tr.Has (.getSink obj.sinkRef) (.ok chSink) → Expanded lib kind obj tr (.error (.unavailable err)) →
      w'.Says .resourceResolved .conditionUnknown →
      Planned lib kind obj tr w { verdict := judgeSink lib obj.sinkRef chSink, err := some err } w'
  | reviewFailed (chSink : ClickHouseSink) (err : String) (w' : StatusWriter) :
      tr.Has (.getSink obj.sinkRef) (.ok chSink) → ReviewFailed tr →
      w'.Says .rbacGranted .conditionUnknown →
      Planned lib kind obj tr w { verdict := judgeSink lib obj.sinkRef chSink, err := some err } w'
  | surveyed (chSink : ClickHouseSink) (namespaces : List Namespace) (resolution : Resolution)
      (reviewed : Reviewed) (w' : StatusWriter) :
      Survey lib kind obj tr chSink namespaces resolution reviewed →
      w'.Says .policyAllowed .conditionTrue →
      w'.Says .resourceResolved (gateStatus resolution.failures) →
      w'.Says .rbacGranted (gateStatus reviewed.denials) →
      Planned lib kind obj tr w
        { targets := reviewed.targets, verdict := judgeSink lib obj.sinkRef chSink, install := true } w'

section

variable {tr tr' : Trace Sel} {lib : ControlLib Sel} {kind : RuleKind} {obj : Rule Sel}

theorem ReviewFailed.mono (hp : tr <+: tr') (h : ReviewFailed tr) : ReviewFailed tr' := by
  obtain ⟨gvr, ns, verb, err, h⟩ := h
  exact ⟨gvr, ns, verb, err, h.mono hp⟩

theorem Judged.mono (hp : tr <+: tr') {sinkName redaction : String}
    {pairs : List (ResolvedResource × Namespace)} {acc acc' : Reviewed}
    (h : Judged tr sinkName redaction pairs acc acc') :
    Judged tr' sinkName redaction pairs acc acc' where
  kept := h.kept
  told := h.told
  sound t ht := (h.sound t ht).imp_right fun ⟨p, hm, hg, he⟩ => ⟨p, hm, hg.mono hp, he⟩
  complete p hm := (h.complete p hm).imp (fun ⟨hg, ht⟩ => ⟨hg.mono hp, ht⟩) (fun ⟨hb, hd⟩ =>
    ⟨hb.mono hp, hd⟩)

theorem Survey.mono (hp : tr <+: tr') {chSink : ClickHouseSink} {namespaces : List Namespace}
    {resolution : Resolution} {reviewed : Reviewed}
    (h : Survey lib kind obj tr chSink namespaces resolution reviewed) :
    Survey lib kind obj tr' chSink namespaces resolution reviewed :=
  ⟨h.sink.mono hp, h.policy, h.expanded.mono hp, h.vets.mono hp, h.judged.mono hp⟩

theorem Planned.mono (hp : tr <+: tr') {w w' : StatusWriter} {outcome : PlanOutcome}
    (h : Planned lib kind obj tr w outcome w') : Planned lib kind obj tr' w outcome w' := by
  cases h with
  | sinkFailed err text h => exact .sinkFailed err text (h.mono hp)
  | sinkMissing v _ h => exact .sinkMissing v _ (h.mono hp)
  | denied chSink d _ h hd hw => exact .denied chSink d _ (h.mono hp) hd hw
  | namespacesInvalid chSink err _ h hd he hw =>
    exact .namespacesInvalid chSink err _ (h.mono hp) hd (he.mono hp) hw
  | namespacesUnavailable chSink err _ h he hw =>
    exact .namespacesUnavailable chSink err _ (h.mono hp) (he.mono hp) hw
  | reviewFailed chSink err _ h hr hw => exact .reviewFailed chSink err _ (h.mono hp) (hr.mono hp) hw
  | surveyed chSink namespaces resolution reviewed _ h hpol hres hrbac =>
    exact .surveyed chSink namespaces resolution reviewed _ (h.mono hp) hpol hres hrbac

variable {R : Trace Sel → Op → Prop} (hR : ∀ tr o, o.Asks → R tr o) {w : StatusWriter}
include hR

theorem planTargets_spec {chSink : ClickHouseSink} {w₀ : StatusWriter}
    (hsink : tr.Has (.getSink obj.sinkRef) (.ok chSink))
    (hpol : checkPolicy obj.resources chSink.policy = none) (hw : w.Says .policyAllowed .conditionTrue) :
    (chronicle R).Obeys (planTargets lib kind obj chSink (judgeSink lib obj.sinkRef chSink) w) tr
    fun r tr' =>
      Planned lib kind obj tr' w₀ r.1 r.2 := by
  refine ((targetNamespaces_spec hR lib kind obj).grows).bind _ fun r tr' ⟨hr, hp⟩ => ?_
  rcases r with (err | err) | namespaces
  · exact .namespacesInvalid chSink err _ (hsink.mono hp) hpol hr StatusWriter.says_set
  · exact .namespacesUnavailable chSink err _ (hsink.mono hp) hr StatusWriter.says_set
  refine ((resolveResources_spec hR lib kind.scope namespaces obj.resources).grows).bind _
    fun resolution tr₁ ⟨hvets, hp₁⟩ => ?_
  have hplain : ∀ p ∈ pairsOf resolution, p.1.gvr.Plain := by
    rintro ⟨r, ns⟩ hm
    obtain ⟨res, -, m, sel, -, -, rfl⟩ := hvets.sound r (mem_pairsOf.mp hm).1
    exact m.plain
  refine ((reviewTargets_spec hR lib obj.sinkRef _ (pairsOf resolution) {} nofun hplain).grows).bind _
    fun r tr₂ ⟨hrev, hp₂⟩ => ?_
  rcases r with err | reviewed
  · exact .reviewFailed chSink err _ (hsink.mono (hp.trans (hp₁.trans hp₂))) hrev StatusWriter.says_set
  · refine .surveyed chSink namespaces resolution reviewed _
      ⟨hsink.mono (hp.trans (hp₁.trans hp₂)), hpol, hr.mono (hp₁.trans hp₂), hvets.mono hp₂,
      hrev⟩ ?_ ?_ ?_
    · exact (hw.gate (by decide)).gate (by decide)
    · exact says_setGateCondition.gate (by decide)
    · exact says_setGateCondition

theorem plan_spec (hsink : R tr (.getSink obj.sinkRef)) :
    (chronicle R).Obeys (plan lib kind obj w) tr fun r tr' =>
    Planned lib kind obj tr' w r.1 r.2 := by
  refine ⟨hsink, fun a _ => ?_⟩
  have hhas := tr.has_snoc (.getSink obj.sinkRef) a
  rcases a with (_ | err) | chSink
  · exact .sinkMissing _ _ hhas
  · exact .sinkFailed err _ hhas
  simp only [Program.bind, Program.pure_eq]
  cases hpol : checkPolicy obj.resources chSink.policy with
  | some d => exact Planned.denied chSink d _ hhas hpol ((StatusWriter.says_set.set (by decide)).set (by decide))
  | none => exact planTargets_spec hR hhas hpol StatusWriter.says_set

end

def Trace.About (tr : Trace Sel) (kind : RuleKind) (req : NamespacedName)
    (a : Except GetError (Rule Sel)) : Prop :=
  tr.head? = some ⟨.getRule kind req, a⟩

theorem Trace.About.mono {tr tr' : Trace Sel} (hp : tr <+: tr') {kind : RuleKind} {req : NamespacedName}
    {a : Except GetError (Rule Sel)} (h : tr.About kind req a) : tr'.About kind req a := by
  obtain ⟨rest, rfl⟩ := hp
  cases tr with
  | nil => cases h
  | cons e tr => exact h

inductive Installed (key : String) (tr : Trace Sel) (outcome : PlanOutcome)
    (w : StatusWriter) : StatusWriter → Prop
  | kept : outcome.install = false → Installed key tr outcome w w
  | replaced : outcome.install = true → tr.Has (.upsert key outcome.targets) (.ok ()) →
      Installed key tr outcome w w
  | refused (err : String) : outcome.install = true → tr.Has (.upsert key outcome.targets) (.error err) →
      Installed key tr outcome w (w.set .resourceResolved .conditionFalse .invalidSelector err)

theorem Installed.mono {tr tr' : Trace Sel} (hp : tr <+: tr') {key : String} {outcome : PlanOutcome}
    {w w' : StatusWriter} (h : Installed key tr outcome w w') : Installed key tr' outcome w w' := by
  cases h with
  | kept h => exact .kept h
  | replaced h ht => exact .replaced h (ht.mono hp)
  | refused err h ht => exact .refused err h (ht.mono hp)

def StatusWriter.rolledUp (w : StatusWriter) (verdict : Option SinkVerdict) : StatusWriter :=
  w.set .ready (readyCondition w verdict).status (readyCondition w verdict).reason
    (readyCondition w verdict).message

def Sanctioned (lib : ControlLib Sel) (tr : Trace Sel) : Op → Prop
  | .getSink _ => ∀ name a, ¬ tr.Has (.getSink name) a
  | .upsert key targets => ∃ kind req obj outcome w, tr.About kind req (.ok obj) ∧
      key = ruleKey kind req ∧
      Planned lib kind obj tr { generation := obj.generation } outcome w ∧ outcome.install = true ∧
      outcome.targets = targets
  | .remove key => ∃ kind req a, tr.About kind req a ∧ key = ruleKey kind req ∧
      (a = .error .notFound ∨ ∃ obj, a = .ok obj ∧ obj.deleting = true)
  | .updateStatus kind req status => ∃ obj outcome w w' fresh, tr.About kind req (.ok obj) ∧
      Planned lib kind obj tr { generation := obj.generation } outcome w ∧
      Installed (ruleKey kind req) tr outcome w w' ∧
      status.conditions = (w'.rolledUp outcome.verdict).apply fresh
  | _ => True

section

variable {lib : ControlLib Sel} {kind : RuleKind} {req : NamespacedName} {tr : Trace Sel}

theorem sanctioned_asks (tr : Trace Sel) (o : Op) (h : o.Asks) : Sanctioned lib tr o := by
  cases o with
  | getSink | upsert | remove | updateStatus => exact h.elim
  | _ => trivial

theorem install_spec {obj : Rule Sel} {outcome : PlanOutcome} {w : StatusWriter}
    (ha : tr.About kind req (.ok obj))
    (hplan : Planned lib kind obj tr { generation := obj.generation } outcome w) :
    (chronicle (Sanctioned lib)).Obeys (install (ruleKey kind req) outcome w) tr fun w' tr' =>
      Installed (ruleKey kind req) tr' outcome w w' := by
  unfold install
  cases hi : outcome.install with
  | false => exact .kept hi
  | true =>
    rw [if_pos rfl]
    refine ⟨⟨kind, req, obj, outcome, w, ha, rfl, hplan, hi, rfl⟩, fun a _ => ?_⟩
    rcases a with err | ⟨⟩
    · exact .refused err hi (tr.has_snoc ..)
    · exact .replaced hi (tr.has_snoc ..)

theorem updateStatus_spec {mutate : Rule Sel → RuleStatus} {C : Trace Sel → Prop}
    (hmono : ∀ tr tr', tr <+: tr' → C tr → C tr')
    (hC : ∀ tr fresh, C tr → Sanctioned lib tr (.updateStatus kind req (mutate fresh))) (h : C tr)
    (attempts : Nat) :
    (chronicle (Sanctioned lib)).Obeys
      (updateStatus (call (.getRule kind req)) (fun status =>
          call (.updateStatus kind req status)) mutate attempts) tr fun _ _ => True := by
  induction attempts generalizing tr with
  | zero => trivial
  | succ attempts ih =>
    refine ⟨trivial, fun a _ => ?_⟩
    have h₁ := hmono _ _ (List.prefix_append tr [⟨.getRule kind req, a⟩]) h
    rcases a with (_ | err) | fresh
    · trivial
    · trivial
    refine ⟨hC _ fresh h₁, fun a _ => ?_⟩
    cases a with
    | updated | failed => trivial
    | conflict =>
      show (chronicle (Sanctioned lib)).Obeys (if attempts = 0 then _ else _) _ _
      split_ifs
      · trivial
      · exact ih (hmono _ _ (List.prefix_append ..) h₁)

theorem report_spec {obj : Rule Sel} {outcome : PlanOutcome} {w : StatusWriter}
    (ha : tr.About kind req (.ok obj))
    (hplan : Planned lib kind obj tr { generation := obj.generation } outcome w) :
    (chronicle (Sanctioned lib)).Obeys (report kind req outcome w) tr fun _ _ => True := by
  refine ((install_spec ha hplan).grows).bind _ fun w' tr' ⟨hw, hp⟩ => ?_
  refine ⟨trivial, fun n _ => ?_⟩
  refine (updateStatus_spec (C := fun tr => tr.About kind req (.ok obj) ∧
      Planned lib kind obj tr { generation := obj.generation } outcome w ∧
      Installed (ruleKey kind req) tr outcome w w')
    (fun _ _ hp h => ⟨h.1.mono hp, h.2.1.mono hp, h.2.2.mono hp⟩)
    (fun _ fresh h => ⟨obj, outcome, w, w', fresh.conditions, h.1, h.2.1, h.2.2, rfl⟩) ?_ _).bind _
    fun r _ _ => ?_
  · have hp' := hp.trans (List.prefix_append tr' [⟨.targetCountForRule (ruleKey kind req), n⟩])
    exact ⟨ha.mono hp', hplan.mono hp', hw.mono (List.prefix_append ..)⟩
  · rcases r with err | ⟨⟩
    · trivial
    · dsimp only
      cases outcome.err <;> trivial

theorem reconcile_spec :
    (chronicle (Sanctioned lib)).Obeys (reconcile lib kind req) ([] : Trace Sel) fun _ _ => True := by
  refine ⟨trivial, fun a _ => ?_⟩
  rcases a with (_ | err) | obj
  · exact ⟨⟨kind, req, _, rfl, rfl, .inl rfl⟩, fun _ _ => trivial⟩
  · trivial
  show (chronicle (Sanctioned lib)).Obeys (if obj.deleting = true then _ else _) _ _
  split_ifs with hdel
  · exact ⟨⟨kind, req, _, rfl, rfl, .inr ⟨obj, rfl, hdel⟩⟩, fun _ _ => trivial⟩
  · have hsink : Sanctioned lib [⟨.getRule kind req, .ok obj⟩] (.getSink obj.sinkRef) :=
      fun name a h => by
      cases List.mem_singleton.mp h
    refine ((plan_spec sanctioned_asks hsink).grows).bind _ fun r tr' ⟨hr, hp⟩ => ?_
    exact report_spec (Trace.About.mono hp rfl) hr

end

theorem control_safe (lib : ControlLib Sel) :
    (controlMachine lib).Safe (chronicle (Sanctioned lib)) (fun _ => []) fun _ _ _ => True where
  start s t b s' code h := by
    cases t with
    | reconciler kind name =>
      cases b with
      | reconcile =>
        cases h
        exact reconcile_spec
      | resolve => cases h
    | manager =>
      cases b with
      | reconcile => cases h
      | resolve gvk =>
        cases h
        exact (resolve_spec sanctioned_asks gvk).bind _ fun _ _ _ => trivial
  answers := fun _ _ _ _ _ _ _ => trivial

theorem getSink_unique {lib : ControlLib Sel} {ok : System Sel → Action Sel → Prop} {c₀ : ControlState}
    {as : List (Action Sel)} {s : System Sel}
    (hrun : Runs.Run (controlMachine lib).step ok { shared := c₀ } as s)
    {x : LogEntry (Op.Ans Sel) Tid} (hx : x ∈ s.log) {name name' : String}
      {a a' : Except GetError ClickHouseSink}
    (h : Trace.Has x.trace (.getSink name) a) (h' : Trace.Has x.trace (.getSink name') a') : a = a' := by
  have first (before after : Trace Sel) (name : String) (a : Except GetError ClickHouseSink)
      (htr : x.trace = before ++ ⟨.getSink name, a⟩ :: after) : ∀ name a,
      ¬ before.Has (.getSink name) a :=
    (control_safe lib).chronicled hrun _ ((Machine.logged_of_run hrun).2 x hx before _ after htr)
  obtain ⟨before, after, htr⟩ := List.append_of_mem h
  rcases List.mem_append.mp (htr ▸ h' : _ ∈ before ++ _) with h' | h'
  · exact absurd h' (first before after name a htr name' a')
  rcases List.mem_cons.mp h' with h' | h'
  · cases h'
    rfl
  · obtain ⟨between, rest, rfl⟩ := List.append_of_mem h'
    have hsplit : x.trace = (before ++ ⟨.getSink name, a⟩ :: between) ++
      ⟨.getSink name', a'⟩ :: rest := by simp [htr]
    exact absurd (List.mem_append_right before List.mem_cons_self) (first _ rest name' a' hsplit name a)

end Kuberecord.Control
