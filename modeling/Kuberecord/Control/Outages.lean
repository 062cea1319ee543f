import Kuberecord.Control.Contributions
import Kuberecord.Control.Readiness

namespace Kuberecord.Control

open Threads

variable {Sel : Type}

structure Names (lib : ControlLib Sel) (kind : RuleKind) (obj : Rule Sel) (tr : Trace Sel)
    (t : Target) : Prop where
  sink : t.sink = obj.sinkRef
  resource : ∃ res ∈ obj.resources, res.gvk = t.gvk ∧
    canonicalSelector lib res.labelSelector = .ok t.selector
  ns : ∀ namespaces m, Expanded lib kind obj tr (.ok namespaces) → Answered tr t.gvk (.ok m) →
    t.ns ∈ namespacesFor m.namespaced namespaces
  redaction : ∀ chSink, tr.Has (.getSink obj.sinkRef) (.ok chSink) →
    t.redaction = canonicalRedaction lib.quoting chSink.policy.redaction obj.extraRedaction

inductive Refused (lib : ControlLib Sel) (kind : RuleKind) (obj : Rule Sel) (tr : Trace Sel)
    (t : Target) : Prop
  | sinkMissing : tr.Has (.getSink obj.sinkRef) (.error .notFound) → Refused lib kind obj tr t
  | policy (chSink : ClickHouseSink) (d : PolicyDenial) : tr.Has (.getSink obj.sinkRef) (.ok chSink) →
      checkPolicy obj.resources chSink.policy = some d → Refused lib kind obj tr t
  | selector (err : String) : Expanded lib kind obj tr (.error (.invalidNamespaceSelector err)) →
      Refused lib kind obj tr t
  | kindNotFound (gvk : GroupVersionKind) (err : String) :
      Answered tr t.gvk (.error (.kindNotFound gvk err)) → Refused lib kind obj tr t
  | clusterScoped (err : ResolveError) (gvk : GroupVersionKind) (gvr : GroupVersionResource) :
      ScopeAnswered tr kind.scope t.gvk (.error err) → err = .clusterScopedKind gvk gvr →
      Refused lib kind obj tr t
  | verb (m : Mapping) : Answered tr t.gvk (.ok m) → Barred tr m.gvr t.ns → Refused lib kind obj tr t

def Undiscovered (tr : Trace Sel) (gvk : GroupVersionKind) : Prop :=
  ∃ gvk' err, Answered tr gvk (.error (.discovery gvk' err))

section

variable {lib : ControlLib Sel} {kind : RuleKind} {obj : Rule Sel} {tr : Trace Sel} {w w' : StatusWriter}
  {outcome : PlanOutcome} {t : Target}

theorem ScopeAnswered.error_cases {err : ResolveError}
    (h : ScopeAnswered tr kind.scope t.gvk (.error err)) :
    Refused lib kind obj tr t ∨ Undiscovered tr t.gvk := by
  cases herr : err with
  | kindNotFound gvk text =>
    subst herr
    cases h with
    | unresolved _ h => exact .inl (.kindNotFound gvk text h)
    | outOfScope m _ hm hs =>
      unfold checkScope at hs
      split_ifs at hs
      cases hs
  | clusterScopedKind gvk gvr => exact .inl (.clusterScoped err gvk gvr h herr)
  | discovery gvk text =>
    subst herr
    cases h with
    | unresolved _ h => exact .inr ⟨gvk, text, h⟩
    | outOfScope m _ hm hs =>
      unfold checkScope at hs
      split_ifs at hs
      cases hs

theorem Planned.keeps (h : Planned lib kind obj tr w outcome w') (hi : outcome.install = true)
    (hn : Names lib kind obj tr t) (hr : ¬ Refused lib kind obj tr t) (hd : ¬ Undiscovered tr t.gvk) :
    t ∈ outcome.targets := by
  cases h with
  | sinkFailed | namespacesUnavailable | reviewFailed => cases hi
  | sinkMissing _ _ h => exact absurd (.sinkMissing h) hr
  | denied chSink d _ h hpol _ => exact absurd (.policy chSink d h hpol) hr
  | namespacesInvalid chSink err _ _ _ h _ => exact absurd (.selector err h) hr
  | surveyed chSink namespaces resolution reviewed _ h _ _ _ =>
    obtain ⟨res, hres, hgvk, hsel⟩ := hn.resource
    rcases h.vets.complete res hres with ⟨r, hm, m, sel, hans, hsel',
      rfl⟩ | ⟨⟨err, herr⟩ | ⟨err, herr⟩, -⟩
    · rw [hgvk] at hans hm
      cases Except.ok.inj (hsel'.symm.trans hsel)
      cases hans with
      | ok m hans hscope =>
        have hns := hn.ns namespaces m h.expanded hans
        rcases h.judged.complete _ (mem_pairsOf.mpr ⟨hm, hns⟩) with ⟨-, ht⟩ | ⟨hbar, -⟩
        · rw [targetOf, ← hn.sink, ← hn.redaction chSink h.sink] at ht
          exact ht
        · exact absurd (.verb m hans hbar) hr
    · rw [hgvk] at herr
      exact (herr.error_cases.elim hr hd).elim
    · cases herr.symm.trans hsel

theorem Planned.mapped (h : Planned lib kind obj tr w outcome w') (ht : t ∈ outcome.targets) :
    ∃ m, Answered tr t.gvk (.ok m) := by
  cases h with
  | surveyed chSink namespaces resolution reviewed _ h =>
    obtain ht | ⟨⟨r, ns⟩, hp, -, rfl⟩ := h.judged.sound t ht
    · cases ht
    · obtain ⟨res, -, m, sel, hm, -, rfl⟩ := h.vets.sound r (mem_pairsOf.mp hp).1
      cases hm with
      | ok m hm => exact ⟨m, hm⟩
  | _ => cases ht

end

theorem ruleKey_inj {kind kind' : RuleKind} {req req' : NamespacedName}
    (h : ruleKey kind req = ruleKey kind' req') :
    kind = kind' ∧ req = req' := by
  have htext (kind : RuleKind) (req : NamespacedName) : (ruleKey kind req).toList =
      kind.kind.toList ++ '/' :: (req.ns.1.toList ++ '/' :: req.name.toList) := by
    simp [ruleKey]
  have hkind (kind : RuleKind) : '/' ∉ kind.kind.toList := by cases kind <;> decide
  have hlist := congrArg String.toList h
  rw [htext, htext] at hlist
  obtain ⟨hk, hlist⟩ := append_sep_inj (hkind kind) (hkind kind') hlist
  obtain ⟨hns, hname⟩ := append_sep_inj req.ns.2.2 req'.ns.2.2 hlist
  have hns := Subtype.ext (String.toList_inj.mp hns)
  have hname := String.toList_inj.mp hname
  refine ⟨?_, ?_⟩
  · cases kind <;> cases kind' <;> first | rfl | exact absurd hk (by decide)
  · cases req
    cases req'
    rw [NamespacedName.mk.injEq]
    exact ⟨hns, hname⟩

theorem canonicalSelector_canonical {lib : ControlLib Sel} (hlib : lib.Lawful) {ls : Option Sel}
    {sel : String} (h : canonicalSelector lib ls = .ok sel) :
    canonicalizeSelectorString lib.selectors sel = .ok sel := by
  unfold canonicalizeSelectorString
  split_ifs with he
  · rw [he]
  · cases ls with
    | none => exact absurd (Except.ok.inj h).symm he
    | some ls =>
      simp only [canonicalSelector] at h
      cases ha : lib.asSelector ls with
      | error err =>
        rw [ha] at h
        cases h
      | ok s =>
        rw [ha] at h
        obtain rfl : s = sel := Except.ok.inj h
        have hparse : lib.selectors.parse s = .ok s := hlib ls s ha he
        rw [hparse]

inductive Cause (lib : ControlLib Sel) (kind : RuleKind) (req : NamespacedName) (tr : Trace Sel)
    (t : Target) : Prop
  | gone : tr.About kind req (.error .notFound) → Cause lib kind req tr t
  | deleting (obj : Rule Sel) : tr.About kind req (.ok obj) → obj.deleting = true →
      Cause lib kind req tr t
  | unnamed (obj : Rule Sel) : tr.About kind req (.ok obj) → ¬ Names lib kind obj tr t →
      Cause lib kind req tr t
  | refused (obj : Rule Sel) : tr.About kind req (.ok obj) → Refused lib kind obj tr t →
      Cause lib kind req tr t

theorem RegistryEffect.keeps {lib : ControlLib Sel} (hlib : lib.Lawful)
    {r r' : Registry GroupVersionKind Namespace} {o : Op} (h : RegistryEffect lib r o r')
    {tr : Trace Sel} (hs : Sanctioned lib tr o) {kind : RuleKind} {req : NamespacedName}
    {t : Target} (ht : t ∈ (r.rules.lookup (ruleKey kind req)).getD ∅)
    (hfound : ∀ obj, tr.About kind req (.ok obj) → ¬ Undiscovered tr t.gvk) :
    t ∈ (r'.rules.lookup (ruleKey kind req)).getD ∅ ∨
      o.rule = some (ruleKey kind req) ∧ Cause lib kind req tr t := by
  by_cases hkey : o.rule = some (ruleKey kind req)
  case neg =>
    rw [h.lookup_of_ne hkey]
    exact .inl ht
  cases h with
  | none _ hn =>
    rw [hn] at hkey
    cases hkey
  | remove key drops =>
    cases hkey
    obtain ⟨kind', req', a, habout, hk, ha⟩ := hs
    obtain ⟨rfl, rfl⟩ := ruleKey_inj hk
    rcases ha with rfl | ⟨obj, rfl, hdel⟩
    · exact .inr ⟨rfl, .gone habout⟩
    · exact .inr ⟨rfl, .deleting obj habout hdel⟩
  | upsert key targets adds drops =>
    cases hkey
    obtain ⟨kind', req', obj, outcome, w, habout, hk, hplan, hi, rfl⟩ := hs
    obtain ⟨rfl, rfl⟩ := ruleKey_inj hk
    by_cases hn : Names lib kind obj tr t
    case neg => exact .inr ⟨rfl, .unnamed obj habout hn⟩
    by_cases hr : Refused lib kind obj tr t
    · exact .inr ⟨rfl, .refused obj habout hr⟩
    have hmem := hplan.keeps hi hn hr (hfound obj habout)
    refine .inl ?_
    cases hdes : Registry.desiredTargets lib.selectors (ruleKey kind req) outcome.targets with
    | error err =>
      rw [Registry.upsert, hdes]
      exact ht
    | ok desired =>
      rw [Registry.lookup_upsert hdes]
      refine (Registry.mem_desiredTargets hdes t).mpr ⟨t, hmem, ?_⟩
      obtain ⟨res, -, -, hsel⟩ := hn.resource
      rw [Registry.canonicalizeTarget, canonicalSelector_canonical hlib hsel]

theorem contributed_of_run {lib : ControlLib Sel} (hlib : lib.Lawful) {c₀ : ControlState}
    {as bs : List (Action Sel)} {s s' : System Sel}
    (hrun : Runs.Run (controlMachine lib).step (fun _ _ => True) { shared := c₀ } as s)
    (hrun' : Runs.Run (controlMachine lib).step (fun _ _ => True) s bs s')
      (hcrash : Threads.Action.crash ∉ bs)
    {kind : RuleKind} {req : NamespacedName} {t : Target}
      (ht : t ∈ s.shared.contributed (ruleKey kind req))
    (hfound : ∀ x ∈ s'.log.drop s.log.length, ∀ obj, Trace.About x.trace kind req (.ok obj) →
      ¬ Undiscovered x.trace t.gvk) :
    t ∈ s'.shared.contributed (ruleKey kind req) ∨
      ∃ x ∈ s'.log.drop s.log.length, x.event.1.rule = some (ruleKey kind req) ∧
      Cause lib kind req x.trace t := by
  induction hrun' with
  | nil => exact .inl ht
  | @snoc u v bs a hrun' _ hstep ih =>
    have hall := (control_safe lib).chronicled (hrun.append (hrun'.snoc trivial hstep))
    obtain ⟨hcrash', hlast⟩ : Threads.Action.crash ∉ bs ∧ a ≠ .crash := by
      simpa [eq_comm] using hcrash
    cases (controlMachine lib).step_cases hstep with
    | start t' b shared code hn hs =>
      have hshared : shared = u.shared := by
        cases t' <;> cases b <;> cases hs <;> rfl
      subst hshared
      exact ih hcrash' hfound
    | exec t' i o k tr shared answer hth hx =>
      have hlen := (Machine.log_prefix hrun').length_le
      rw [List.drop_append_of_le_length hlen] at hfound ⊢
      have hlast := List.mem_append_right (u.log.drop s.log.length)
        (List.mem_singleton_self (⟨t', tr, ⟨o, answer⟩⟩ : LogEntry (Op.Ans Sel) Tid))
      rcases ih hcrash' fun x hx => hfound x (List.mem_append_left _ hx) with hu | ⟨x, hx, hcause⟩
      · have hsanct := hall ⟨t', tr, ⟨o, answer⟩⟩ (List.mem_append_right _ (List.mem_singleton_self _))
        rcases (exec_registry (t := t') hx).keeps hlib hsanct hu (hfound _ hlast) with hv | hcause
        · exact .inl hv
        · exact .inr ⟨_, hlast, hcause⟩
      · exact .inr ⟨x, List.mem_append_left _ hx, hcause⟩
    | finish t' r tr hth => exact ih hcrash' hfound
    | env e shared he =>
      cases e
      cases he
      exact ih hcrash' hfound
    | crash => exact absurd rfl hlast

theorem withdrawn_of_unmapped {lib : ControlLib Sel} {c₀ : ControlState} {as : List (Action Sel)}
    {s s' : System Sel}
    (hrun : Runs.Run (controlMachine lib).step (fun _ _ => True) { shared := c₀ } as s) {a : Action Sel}
    (hstep : (controlMachine lib).step s a = some s') {x : LogEntry (Op.Ans Sel) Tid}
      (hlog : s'.log = s.log ++ [x])
    {kind : RuleKind} {req : NamespacedName} {targets : List Target}
    (he : x.event = ⟨.upsert (ruleKey kind req) targets, .ok ()⟩) {t : Target}
    (hm : ∀ m, ¬ Answered x.trace t.gvk (.ok m)) : t ∉ s'.shared.contributed (ruleKey kind req) := by
  have hs : Sanctioned lib x.trace x.event.1 :=
    (control_safe lib).chronicled (hrun.snoc trivial hstep) x (by simp [hlog])
  rw [he] at hs
  obtain ⟨_, _, obj, outcome, w, -, -, hplan, -, rfl⟩ := hs
  cases (controlMachine lib).step_cases hstep with
  | exec t' i o k tr shared answer hth hx =>
    obtain rfl : x = ⟨t', tr, ⟨o, answer⟩⟩ := by simpa using hlog.symm
    cases he
    cases i <;> simp only [controlMachine, exec, reduceCtorEq, Option.some.injEq] at hx
    obtain ⟨rfl, hok⟩ := Prod.mk.inj hx
    intro ht
    cases hdes : Registry.desiredTargets lib.selectors (ruleKey kind req) outcome.targets with
    | error err =>
      rw [Registry.upsert, hdes] at hok
      cases hok
    | ok desired =>
      rw [ControlState.contributed, Registry.lookup_upsert hdes, Registry.mem_desiredTargets hdes] at ht
      obtain ⟨t', ht', hc⟩ := ht
      obtain ⟨sel, -, rfl⟩ := Registry.canonicalizeTarget_ok hc
      obtain ⟨m, hmapped⟩ := hplan.mapped ht'
      exact hm m hmapped
  | _ => simp at hlog

/--
Whatever fails in the passes between two states, the rule still contributes the target, or one of
them had cause to take it away; discovery must not fail for the target's kind. Where it does, the
pass takes the target away.
-/
theorem targets_survive_outages {lib : ControlLib Sel} (hlib : lib.Lawful) {c₀ : ControlState}
    {as : List (Action Sel)} {s : System Sel}
    (hrun : Runs.Run (controlMachine lib).step (fun _ _ => True) { shared := c₀ } as s)
    (kind : RuleKind) (req : NamespacedName) (t : Target) :
    (∀ bs s', Runs.Run (controlMachine lib).step (fun _ _ => True) s bs s' →
      Threads.Action.crash ∉ bs → t ∈ s.shared.contributed (ruleKey kind req) →
      (∀ x ∈ s'.log.drop s.log.length, ∀ obj, Trace.About x.trace kind req (.ok obj) →
        ¬ Undiscovered x.trace t.gvk) →
      t ∈ s'.shared.contributed (ruleKey kind req) ∨
        ∃ x ∈ s'.log.drop s.log.length, x.event.1.rule = some (ruleKey kind req) ∧
          Cause lib kind req x.trace t) ∧
    ∀ a s' x targets, (controlMachine lib).step s a = some s' → s'.log = s.log ++ [x] →
      x.event = ⟨.upsert (ruleKey kind req) targets, .ok ()⟩ →
      (∀ m, ¬ Answered x.trace t.gvk (.ok m)) →
      t ∉ s'.shared.contributed (ruleKey kind req) :=
  ⟨fun _ _ hrun' hcrash ht hfound => contributed_of_run hlib hrun hrun' hcrash ht hfound,
    fun _ _ _ _ hstep hlog he hm => withdrawn_of_unmapped hrun hstep hlog he hm⟩

def podTarget : Target := ⟨"s", podResource.gvk, namespaceA, "", ""⟩

theorem openLib_lawful : openLib.Lawful := by
  intro ls s h hne
  exact absurd (Except.ok.inj h).symm hne

def failsDiscovery (e : Sigma (Op.Ans Unit)) : Bool :=
  match e with
  | ⟨.gatedError _, some _⟩ => true
  | ⟨.restMapping _, .error _⟩ => true
  | _ => false

def unreadSinkSteps : List (Action Unit) :=
  passSteps ([.rule (.ok podRule), .sink (.error (.failed "timeout"))] ++ statusInputs)

theorem pods_survive : ∃ (s : System Unit), (∃ x ∈ s.log, sinkFails x.event = true) ∧
    podTarget ∈ s.shared.contributed (ruleKey .streamRule podRequest) := by
  obtain ⟨s, hrun, hbefore, hnext⟩ :=
    Runs.Run.exists_of_exec (controlMachine openLib).step (fun _ _ => True)
    { shared := {} } (passSteps podInputs)
    (fun s => podTarget ∈ s.shared.contributed (ruleKey .streamRule podRequest) ∧
      (Runs.exec (controlMachine openLib).step (fun _ _ => True) s unreadSinkSteps).any
        (fun s' => (∃ x ∈ s'.log, sinkFails x.event = true) ∧ ∀ x ∈ s'.log.drop s.log.length,
          x.event.1.rule = none ∧ ∀ e ∈ x.trace, failsDiscovery e = false) = true) (by decide)
  obtain ⟨s', hrun', hfails, hquiet⟩ := Runs.Run.exists_of_exec _ _ s _ _ hnext
  have hfound (x : LogEntry (Op.Ans Unit) Tid) (hx : x ∈ s'.log.drop s.log.length) :
      ¬ Undiscovered x.trace podTarget.gvk := by
    rintro ⟨gvk', err, herr⟩
    generalize hr : (Except.error (.discovery gvk' err) : Except ResolveError Mapping) = r at herr
    cases herr with
    | mapped => cases hr
    | parked _ h | refused _ h => simpa [failsDiscovery] using (hquiet x hx).2 _ h
  refine ⟨s', hfails, ?_⟩
  rcases (targets_survive_outages openLib_lawful hrun .streamRule podRequest podTarget).1 _ s' hrun'
    (by simp [unreadSinkSteps, passSteps, statusInputs]) hbefore
    fun x hx _ _ => hfound x hx with h | ⟨x, hx, hrule, -⟩
  · exact h
  · rw [(hquiet x hx).1] at hrule
    cases hrule

def speaksFor (e : Sigma (Op.Ans Unit)) : Bool :=
  match e with
  | ⟨.getSink _, .ok chSink⟩ => (checkPolicy podRule.resources chSink.policy).isNone &&
      chSink.policy.redaction.isEmpty
  | ⟨.getSink _, .error .notFound⟩ => false
  | ⟨.gatedError _, some _⟩ => false
  | ⟨.restMapping _, .ok _⟩ => false
  | ⟨.restMapping _, .error (.noMatch _)⟩ => false
  | _ => true

section

variable {tr : Trace Unit} (h : ∀ e ∈ tr, speaksFor e = true)
include h

theorem unmapped_of_speaksFor {gvk : GroupVersionKind} {m : Mapping} : ¬ Answered tr gvk (.ok m) := by
  intro hm
  cases hm with
  | mapped _ hm => simpa [speaksFor] using h _ hm

theorem named_of_speaksFor : Names openLib .streamRule podRule tr podTarget where
  sink := rfl
  resource := ⟨podResource, by simp [podRule], rfl, rfl⟩
  ns := fun _ _ _ hm => absurd hm (unmapped_of_speaksFor h)
  redaction := by
    intro chSink hsink
    have hs := h _ hsink
    simp only [speaksFor, Bool.and_eq_true, List.isEmpty_iff] at hs
    rw [hs.2]
    decide

theorem not_refused_of_speaksFor : ¬ Refused openLib .streamRule podRule tr podTarget := by
  have unresolved {gvk : GroupVersionKind} {err : ResolveError} (herr : Answered tr gvk (.error err)) :
      ∃ text, err = .discovery gvk text := by
    generalize hr : (Except.error err : Except ResolveError Mapping) = r at herr
    cases herr with
    | mapped => cases hr
    | parked _ hm => simpa [speaksFor] using h _ hm
    | refused e hm =>
      cases hr
      cases e with
      | noMatch text => simpa [speaksFor] using h _ hm
      | other text => exact ⟨text, rfl⟩
  intro hr
  cases hr with
  | sinkMissing hs => simpa [speaksFor] using h _ hs
  | policy chSink d hs hd =>
    have hs := h _ hs
    simp [speaksFor, hd] at hs
  | selector err he => cases he with | invalid _ _ hk => cases hk
  | kindNotFound gvk err herr =>
    obtain ⟨text, he⟩ := unresolved herr
    cases he
  | clusterScoped err gvk gvr herr he =>
    subst he
    cases herr with
    | unresolved _ herr =>
      obtain ⟨text, he⟩ := unresolved herr
      cases he
    | outOfScope m _ hm => exact unmapped_of_speaksFor h hm
  | verb m hm => exact unmapped_of_speaksFor h hm

end

noncomputable def undiscoveredSteps : List (Action Unit) :=
  passSteps ([.rule (.ok podRule), .sink (.ok readySink), .time 0,
    .mapping (.error (.other "timeout")), .time 0,
    .orders (anyOrder Target) (anyOrder Target)] ++ statusInputs)

/--
Discovery times out for the one kind a rule names. The failure goes into a message like any other,
the pass installs what is left, and the rule's watch is withdrawn although nothing has been said
against it.
-/
theorem discovery_outage_withdraws_pods : ∃ (as bs : List (Action Unit)) (s s' : System Unit),
    Runs.Run (controlMachine openLib).step (fun _ _ => True) { shared := {} } as s ∧
      Runs.Run (controlMachine openLib).step (fun _ _ => True) s bs s' ∧ Threads.Action.crash ∉ bs ∧
      podTarget ∈ s.shared.contributed (ruleKey .streamRule podRequest) ∧
      podTarget ∉ s'.shared.contributed (ruleKey .streamRule podRequest) ∧
      ∀ x ∈ s'.log.drop s.log.length, x.event.1.rule = some (ruleKey .streamRule podRequest) →
        Names openLib .streamRule podRule x.trace podTarget ∧
        ¬ Refused openLib .streamRule podRule x.trace podTarget := by
  obtain ⟨s, hrun, hbefore, hnext⟩ :=
    Runs.Run.exists_of_exec (controlMachine openLib).step (fun _ _ => True)
    { shared := {} } (passSteps podInputs)
    (fun s => podTarget ∈ s.shared.contributed (ruleKey .streamRule podRequest) ∧
      (Runs.exec (controlMachine openLib).step (fun _ _ => True) s undiscoveredSteps).any
        (fun s' => podTarget ∉ s'.shared.contributed (ruleKey .streamRule podRequest) ∧
          ∀ x ∈ s'.log.drop s.log.length, x.event.1.rule = some (ruleKey .streamRule podRequest) →
            ∀ e ∈ x.trace, speaksFor e = true) = true) (by decide)
  obtain ⟨s', hrun', hgone, hspeaks⟩ := Runs.Run.exists_of_exec _ _ s _ _ hnext
  refine ⟨_, _, s, s', hrun, hrun', by simp [undiscoveredSteps, passSteps, statusInputs], hbefore, hgone,
    fun x hx hrule => ?_⟩
  exact ⟨named_of_speaksFor (hspeaks x hx hrule), not_refused_of_speaksFor (hspeaks x hx hrule)⟩

end Kuberecord.Control
