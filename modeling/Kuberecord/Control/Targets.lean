import Kuberecord.Control.Contributions
import Kuberecord.Control.Readiness

namespace Kuberecord.Control

open Threads

variable {Sel : Type}

/-- Answers that do not change while a pass asks, with no call failing. -/
structure Answers where
  sinks : String → Option ClickHouseSink
  namespaces : List NamespaceItem
  selects : String → NamespaceItem → Bool
  resolver : GroupVersionKind → Except ResolveError Mapping
  allows : GroupVersionResource → Namespace → Verb → Bool

def Answers.Tells (ans : Answers) : Sigma (Op.Ans Sel) → Prop
  | ⟨.getSink name, a⟩ => a = match ans.sinks name with
    | some chSink => .ok chSink
    | none => .error .notFound
  | ⟨.listNamespaces selector, a⟩ => a = .ok (ans.namespaces.filter (ans.selects selector))
  | ⟨.gatedError gvk, a⟩ => ∀ err, a = some err → ans.resolver gvk = .error err
  | ⟨.restMapping gvk, a⟩ => ans.resolver gvk = match a with
    | .ok m => .ok m
    | .error err => .error (classify gvk err)
  | ⟨.review gvr ns verb, a⟩ => a = .ok (ans.allows gvr ns verb)
  | _ => True

def CoreSecret (gvk : GroupVersionKind) : Prop := gvk.group.1 = "" ∧ gvk.kind.1 = "Secret"

def Admits (allowed : List GVKSelector) (gvk : GroupVersionKind) : Prop :=
  ∃ sel ∈ allowed, sel.group = gvk.group ∧ sel.version = gvk.version ∧
    ("*" ∈ sel.kinds ∨ gvk.kind.1 ∈ sel.kinds)

def Answers.Matches (ans : Answers) (selector : String) (ns : Namespace) : Prop :=
  ∃ item ∈ ans.namespaces, ans.selects selector item = true ∧ item.terminating = false ∧ item.name = ns

def Answers.Expands (ans : Answers) (lib : ControlLib Sel) (kind : RuleKind) (obj : Rule Sel)
    (m : Mapping) (ns : Namespace) : Prop :=
  if m.namespaced = false then ns = allNamespaces
  else match kind with
    | .streamRule => ns = obj.ns
    | .clusterStreamRule =>
      match obj.namespaceSelector with
      | none => ns = allNamespaces
      | some sel => ∃ s, lib.asSelector sel = .ok s ∧ ans.Matches s ns

structure Answers.Admitted (ans : Answers) (lib : ControlLib Sel) (kind : RuleKind) (obj : Rule Sel)
    (chSink : ClickHouseSink) : Prop where
  sink : ans.sinks obj.sinkRef = some chSink
  noSecret : ∀ res ∈ obj.resources, ¬ CoreSecret res.gvk
  allowed : chSink.policy.allowedGVKs ≠ [] →
    ∀ res ∈ obj.resources, Admits chSink.policy.allowedGVKs res.gvk
  selector : kind = .clusterStreamRule → ∀ sel, obj.namespaceSelector = some sel →
    ∃ s, lib.asSelector sel = .ok s

def Answers.Declares (ans : Answers) (lib : ControlLib Sel) (kind : RuleKind) (obj : Rule Sel)
    (t : Target) : Prop :=
  ∃ chSink, ans.Admitted lib kind obj chSink ∧ ∃ res ∈ obj.resources, ∃ m sel ns,
    ans.resolver res.gvk = .ok m ∧ (kind = .streamRule → m.namespaced = true) ∧
    canonicalSelector lib res.labelSelector = .ok sel ∧ ans.Expands lib kind obj m ns ∧
    (∀ verb, ans.allows m.gvr allNamespaces verb = true ∨ ans.allows m.gvr ns verb = true) ∧
    t = ⟨obj.sinkRef, res.gvk, ns, sel,
      canonicalRedaction lib.quoting chSink.policy.redaction obj.extraRedaction⟩

section

variable {resources : List (WatchedResource Sel)} {policy : SinkPolicy}

theorem policyAdmits_iff {allowed : List GVKSelector} {res : WatchedResource Sel} :
    policyAdmits allowed res = true ↔ Admits allowed res.gvk := by
  simp [policyAdmits, Admits, WatchedResource.gvk, and_assoc]

theorem checkPolicy_none_iff : checkPolicy resources policy = none ↔
    (∀ res ∈ resources, ¬ CoreSecret res.gvk) ∧
      (policy.allowedGVKs ≠ [] → ∀ res ∈ resources, Admits policy.allowedGVKs res.gvk) := by
  have hsecret : (resources.find? fun res => res.group.1 = deniedGroup && res.kind.1 =
    deniedKind) = none ↔
      ∀ res ∈ resources, ¬ CoreSecret res.gvk := by
    rw [List.find?_eq_none]
    refine forall₂_congr fun res _ => not_congr ?_
    rw [Bool.and_eq_true, decide_eq_true_iff, decide_eq_true_iff]
    rfl
  have hallow : (resources.find? fun res => !policyAdmits policy.allowedGVKs res) = none ↔
      ∀ res ∈ resources, Admits policy.allowedGVKs res.gvk := by
    simp [List.find?_eq_none, policyAdmits_iff]
  unfold checkPolicy
  cases hs : resources.find? fun res => res.group.1 = deniedGroup && res.kind.1 = deniedKind with
  | some res =>
    refine ⟨nofun, fun h => ?_⟩
    rw [hsecret.mpr h.1] at hs
    cases hs
  | none =>
    have hno := hsecret.mp hs
    by_cases hempty : policy.allowedGVKs = []
    · rw [if_pos hempty]
      exact ⟨fun _ => ⟨hno, fun h => absurd hempty h⟩, fun _ => rfl⟩
    · rw [if_neg hempty]
      cases ha : resources.find? fun res => !policyAdmits policy.allowedGVKs res with
      | some res =>
        refine ⟨nofun, fun h => ?_⟩
        rw [hallow.mpr (h.2 hempty)] at ha
        cases ha
      | none => exact ⟨fun _ => ⟨hno, fun _ => hallow.mp ha⟩, fun _ => rfl⟩

end

section

variable {ans : Answers} {tr : Trace Sel} (htr : ∀ e ∈ tr, ans.Tells e)
variable {ns : Namespace} {namespaces : List Namespace}
include htr

theorem Answered.told {gvk : GroupVersionKind} {r : Except ResolveError Mapping}
    (h : Answered tr gvk r) :
    ans.resolver gvk = r := by
  cases h with
  | mapped _ h | refused _ h => exact htr _ h
  | parked err h => exact htr _ h err rfl

theorem Trace.Has.sinkTold {name : String} {a : Except GetError ClickHouseSink}
    (h : tr.Has (.getSink name) a) :
    a = match ans.sinks name with
      | some chSink => .ok chSink
      | none => .error .notFound := htr _ h

theorem Trace.Has.reviewTold {gvr : GroupVersionResource} {verb : Verb} {b : Bool}
    (h : tr.Has (.review gvr ns verb) (.ok b)) : ans.allows gvr ns verb = b := by
  have htold : Except.ok b = Except.ok (ans.allows gvr ns verb) := htr _ h
  exact (Except.ok.inj htold).symm

theorem Granted.told {gvr : GroupVersionResource} (h : Granted tr gvr ns) (verb : Verb) :
    ans.allows gvr allNamespaces verb = true ∨ ans.allows gvr ns verb = true := by
  have hv : verb ∈ accessVerbs := by cases verb <;> decide
  exact (h verb hv).imp (fun h => h.reviewTold htr) (fun h => h.reviewTold htr)

theorem Barred.told {gvr : GroupVersionResource} (h : Barred tr gvr ns) :
    ∃ verb, ans.allows gvr allNamespaces verb = false ∧ ans.allows gvr ns verb = false := by
  obtain ⟨verb, -, hc, hn⟩ := h
  exact ⟨verb, hc.reviewTold htr, hn.reviewTold htr⟩

variable {lib : ControlLib Sel} {kind : RuleKind} {obj : Rule Sel}

omit htr in
theorem mem_selectedNamespaces {items : List NamespaceItem} :
    ns ∈ selectedNamespaces items ↔ ∃ item ∈ items, item.terminating = false ∧ item.name = ns := by
  simp [selectedNamespaces, List.mem_insertionSort, and_assoc]

theorem Expanded.mem_iff (h : Expanded lib kind obj tr (.ok namespaces)) (m : Mapping)
    (ns : Namespace) : ns ∈ namespacesFor m.namespaced namespaces ↔ ans.Expands lib kind obj m ns := by
  unfold namespacesFor Answers.Expands
  cases hm : m.namespaced with
  | false => simp
  | true =>
    cases h with
    | pinned hk =>
      cases kind with
      | streamRule => simp
      | clusterStreamRule => cases hk
    | everywhere hk hs =>
      cases kind with
      | streamRule => cases hk
      | clusterStreamRule => simp [hs]
    | selected sel s items hk hs ha hl =>
      cases kind with
      | streamRule => cases hk
      | clusterStreamRule =>
        have htold : Except.ok items = Except.ok (ans.namespaces.filter (ans.selects s)) := htr _ hl
        cases Except.ok.inj htold
        simp [hs, ha, mem_selectedNamespaces, Answers.Matches, and_assoc]

omit htr in
theorem Expanded.valid (h : Expanded lib kind obj tr (.ok namespaces))
    (hk : kind = .clusterStreamRule) (sel : Sel) (hs : obj.namespaceSelector = some sel) :
    ∃ s, lib.asSelector sel = .ok s := by
  subst hk
  cases h with
  | pinned hk => cases hk
  | everywhere _ hn =>
    rw [hn] at hs
    cases hs
  | selected sel' s _ _ hs' ha =>
    cases Option.some.inj (hs'.symm.trans hs)
    exact ⟨s, ha⟩

omit htr in
theorem checkScope_none {gvk : GroupVersionKind} {m : Mapping} :
    checkScope gvk m kind.scope = none ↔ (kind = .streamRule → m.namespaced = true) := by
  unfold checkScope
  cases kind <;> cases m.namespaced <;> simp [RuleKind.scope]

theorem Survey.declares {chSink : ClickHouseSink} {resolution : Resolution}
    {reviewed : Reviewed} (h : Survey lib kind obj tr chSink namespaces resolution reviewed)
    (hsink : ans.sinks obj.sinkRef = some chSink) {t : Target} (ht : t ∈ reviewed.targets) :
    ans.Declares lib kind obj t := by
  obtain ⟨hno, hallow⟩ := checkPolicy_none_iff.mp h.policy
  obtain ⟨⟨r, ns⟩, hp, hgrant, rfl⟩ := (h.judged.sound t ht).resolve_left List.not_mem_nil
  obtain ⟨hr, hns⟩ := mem_pairsOf.mp hp
  obtain ⟨res, hres, m, sel, hm, hsel, rfl⟩ := h.vets.sound r hr
  cases hm with
  | ok m hm hscope =>
    exact ⟨chSink, ⟨hsink, hno, hallow, h.expanded.valid⟩, res, hres, m, sel, ns, hm.told htr,
      checkScope_none.mp hscope,
      hsel, (h.expanded.mem_iff htr m ns).mp hns, hgrant.told htr, rfl⟩

theorem Survey.contains {chSink : ClickHouseSink} {resolution : Resolution}
    {reviewed : Reviewed} (h : Survey lib kind obj tr chSink namespaces resolution reviewed)
    (hsink : ans.sinks obj.sinkRef = some chSink) {t : Target} (ht : ans.Declares lib kind obj t) :
    t ∈ reviewed.targets := by
  obtain ⟨chSink', hadm, res, hres, m, sel, ns, hm, hscope, hsel, hns, hverbs, rfl⟩ := ht
  cases Option.some.inj (hsink.symm.trans hadm.sink)
  rcases h.vets.complete res hres with ⟨r, hr, m', sel', hm', hsel', rfl⟩ | ⟨hun, -⟩
  · cases hm' with
    | ok _ hm' _ =>
      cases Except.ok.inj ((hm'.told htr).symm.trans hm)
      cases Except.ok.inj (hsel'.symm.trans hsel)
      have hmem := (h.expanded.mem_iff htr m ns).mpr hns
      rcases h.judged.complete _ (mem_pairsOf.mpr ⟨hr, hmem⟩) with ⟨-, ht⟩ | ⟨hbar, -⟩
      · exact ht
      · obtain ⟨verb, hc, hn⟩ := hbar.told htr
        simpa [hc, hn] using hverbs verb
  · rcases hun with ⟨err, herr⟩ | ⟨err, herr⟩
    · cases herr with
      | unresolved _ herr => cases (herr.told htr).symm.trans hm
      | outOfScope m' _ hm' hbad =>
        cases Except.ok.inj ((hm'.told htr).symm.trans hm)
        rw [checkScope_none.mpr hscope] at hbad
        cases hbad
    · cases herr.symm.trans hsel

theorem Planned.mem_targets {w w' : StatusWriter} {outcome : PlanOutcome}
    (h : Planned lib kind obj tr w outcome w') (t : Target) :
    t ∈ outcome.targets ↔ ans.Declares lib kind obj t := by
  have sinkOk {chSink : ClickHouseSink} (h : tr.Has (.getSink obj.sinkRef) (.ok chSink)) :
      ans.sinks obj.sinkRef = some chSink := by
    have htold := h.sinkTold htr
    cases hs : ans.sinks obj.sinkRef with
    | none => simp [hs] at htold
    | some chSink' => simpa [hs, eq_comm] using htold
  have refuse (hno : ¬ ans.Declares lib kind obj t) : t ∈ ([] : List Target) ↔
    ans.Declares lib kind obj t :=
    ⟨nofun, fun h => absurd h hno⟩
  cases h with
  | sinkFailed err text h =>
    have htold := h.sinkTold htr
    cases hs : ans.sinks obj.sinkRef <;> simp [hs] at htold
  | sinkMissing v _ h =>
    have htold := h.sinkTold htr
    refine refuse fun ⟨chSink, hadm, _⟩ => ?_
    simp [hadm.sink] at htold
  | denied chSink d _ h hd _ =>
    refine refuse fun ⟨chSink', hadm, _⟩ => ?_
    cases Option.some.inj ((sinkOk h).symm.trans hadm.sink)
    rw [checkPolicy_none_iff.mpr ⟨hadm.noSecret, hadm.allowed⟩] at hd
    cases hd
  | namespacesInvalid chSink err _ h _ he _ =>
    refine refuse fun ⟨chSink', hadm, _⟩ => ?_
    cases he with
    | invalid sel _ hk hs ha =>
      have hkind : kind = .clusterStreamRule := by
        cases kind with
        | streamRule => cases hk
        | clusterStreamRule => rfl
      obtain ⟨s, hs'⟩ := hadm.selector hkind sel hs
      cases ha.symm.trans hs'
  | namespacesUnavailable chSink err _ _ he _ =>
    cases he with
    | unavailable s err _ h =>
      have htold : Except.error err = Except.ok (ans.namespaces.filter (ans.selects s)) := htr _ h
      cases htold
  | reviewFailed chSink err _ _ h _ =>
    obtain ⟨gvr, ns, verb, err, h⟩ := h
    have htold : Except.error err = Except.ok (ans.allows gvr ns verb) := htr _ h
    cases htold
  | surveyed chSink namespaces resolution reviewed _ h _ _ _ =>
    exact ⟨h.declares htr (sinkOk h.sink), h.contains htr (sinkOk h.sink)⟩

end

theorem Planned.noSecret {lib : ControlLib Sel} {kind : RuleKind} {obj : Rule Sel} {tr : Trace Sel}
    {w w' : StatusWriter} {outcome : PlanOutcome} (h : Planned lib kind obj tr w outcome w')
    {t : Target} (ht : t ∈ outcome.targets) :
    ¬ CoreSecret t.gvk := by
  cases h with
  | surveyed chSink namespaces resolution reviewed _ h _ _ _ =>
    obtain ⟨⟨r, ns⟩, hp, -, rfl⟩ := (h.judged.sound t ht).resolve_left List.not_mem_nil
    obtain ⟨res, hres, m, sel, -, -, rfl⟩ := h.vets.sound r (mem_pairsOf.mp hp).1
    exact (checkPolicy_none_iff.mp h.policy).1 res hres
  | _ => cases ht

structure Answers.AgreeOn (ans ans' : Answers) (t : Target) : Prop where
  sink : ans'.sinks t.sink = ans.sinks t.sink
  namespaces : ∀ selector, ans'.Matches selector t.ns ↔ ans.Matches selector t.ns
  resolver : ans'.resolver t.gvk = ans.resolver t.gvk
  allows : ∀ m, ans.resolver t.gvk = .ok m →
    ∀ verb, ans'.allows m.gvr allNamespaces verb = ans.allows m.gvr allNamespaces verb ∧
    ans'.allows m.gvr t.ns verb = ans.allows m.gvr t.ns verb

variable {ans : Answers}

theorem Answers.AgreeOn.symm {ans' : Answers} {t : Target} (h : ans.AgreeOn ans' t) :
    ans'.AgreeOn ans t where
  sink := h.sink.symm
  namespaces selector := (h.namespaces selector).symm
  resolver := h.resolver.symm
  allows m hm verb := by
    obtain ⟨hc, hn⟩ := h.allows m (h.resolver.symm.trans hm) verb
    exact ⟨hc.symm, hn.symm⟩

theorem Answers.AgreeOn.declares {ans' : Answers} {t : Target} (h : ans.AgreeOn ans' t)
    {lib : ControlLib Sel} {kind : RuleKind} {obj : Rule Sel} (ht : ans.Declares lib kind obj t) :
    ans'.Declares lib kind obj t := by
  obtain ⟨chSink, hadm, res, hres, m, sel, ns, hm, hscope, hsel, hns, hverbs, rfl⟩ := ht
  have hallows := h.allows m hm
  refine ⟨chSink, ⟨h.sink.trans hadm.sink, hadm.noSecret, hadm.allowed, hadm.selector⟩, res, hres,
    m, sel, ns,
    h.resolver.trans hm, hscope, hsel, ?_, fun verb => ?_, rfl⟩
  · unfold Answers.Expands at hns ⊢
    simpa only [h.namespaces] using hns
  · rw [(hallows verb).1, (hallows verb).2]
    exact hverbs verb

theorem plan_targets_iff {lib : ControlLib Sel} {kind : RuleKind} {obj : Rule Sel}
    {answer : Trace Sel → (o : Op) → o.Ans Sel} {w : StatusWriter}
    (h : ∀ e ∈ ((plan lib kind obj w).run answer []).2, ans.Tells e) (t : Target) :
    t ∈ ((plan lib kind obj w).run answer []).1.1.targets ↔ ans.Declares lib kind obj t :=
  Planned.mem_targets h ((plan_spec (R := fun _ _ => True) (fun _ _ _ => trivial) trivial).run answer) t

/--
A plan has exactly the declared targets. A core Secret never gets into the registry, and whether a
target is planned depends on the answers about it alone.
-/
theorem planned_targets_exact {lib : ControlLib Sel} :
    (∀ kind (obj : Rule Sel) w (ans : Answers) (answer : Trace Sel → (o : Op) → o.Ans Sel),
      (∀ e ∈ ((plan lib kind obj w).run answer []).2, ans.Tells e) →
      ∀ t, t ∈ ((plan lib kind obj w).run answer []).1.1.targets ↔ ans.Declares lib kind obj t) ∧
    (∀ as s, Runs.Run (controlMachine lib).step (fun _ _ => True) { shared := {} } as s →
      (∀ key, ∀ t ∈ s.shared.contributed key, ¬ CoreSecret t.gvk) ∧
        ∀ key ∈ s.shared.registry.targets, ¬ CoreSecret key.gvk) ∧
    (∀ kind (obj : Rule Sel) w (ans ans' : Answers)
        (answer answer' : Trace Sel → (o : Op) → o.Ans Sel) t,
      (∀ e ∈ ((plan lib kind obj w).run answer []).2, ans.Tells e) →
      (∀ e ∈ ((plan lib kind obj w).run answer' []).2, ans'.Tells e) → ans.AgreeOn ans' t →
      (t ∈ ((plan lib kind obj w).run answer []).1.1.targets ↔
        t ∈ ((plan lib kind obj w).run answer' []).1.1.targets)) := by
  refine ⟨fun kind obj w ans answer h t => plan_targets_iff h t, fun as s hrun => ?_, ?_⟩
  · obtain ⟨d, hserves, hd⟩ := registry_invariant (fun t => ¬ CoreSecret t.gvk)
      (fun tr key targets hs t ht _ => by
      obtain ⟨kind, req, obj, outcome, w, -, -, hplan, -, rfl⟩ := hs
      exact hplan.noSecret (t := t) ht) hrun
    refine ⟨fun key t ht => hd (key, t) ((hserves.rules key t).mpr ht), fun key hkey => ?_⟩
    rcases hserves.merged key with ⟨-, hnone⟩ | ⟨hne, -⟩
    · rw [← Finmap.lookup_isSome, hnone] at hkey
      cases hkey
    · obtain ⟨x, hx⟩ := Finset.nonempty_iff_ne_empty.mpr hne
      obtain ⟨hmem, rfl⟩ := Finset.mem_filter.mp hx
      exact hd x hmem
  · intro kind obj w ans ans' answer answer' t h h' hagree
    rw [plan_targets_iff h, plan_targets_iff h']
    exact ⟨hagree.declares, hagree.symm.declares⟩

def mapperAnswer : Except ResolveError Mapping → Except MapperError Mapping
  | .ok m => .ok m
  | .error (.kindNotFound _ err) => .error (.noMatch err)
  | .error _ => .error (.other "")

def Answers.reply (ans : Answers) (_ : Trace Sel) : (o : Op) → o.Ans Sel
  | .getRule _ _ => .error .notFound
  | .getSink name => match ans.sinks name with
    | some chSink => .ok chSink
    | none => .error .notFound
  | .listNamespaces selector => .ok (ans.namespaces.filter (ans.selects selector))
  | .gatedError _ => none
  | .restMapping gvk => mapperAnswer (ans.resolver gvk)
  | .park _ _ | .unpark _ | .remove _ => ()
  | .review gvr ns verb => .ok (ans.allows gvr ns verb)
  | .upsert _ _ => .ok ()
  | .targetCountForRule _ => (0 : Nat)
  | .updateStatus _ _ _ => .updated

def Answers.Discovered (ans : Answers) : Prop :=
  ∀ gvk err, ans.resolver gvk = .error err → ∃ text, err = .kindNotFound gvk text

theorem Answers.Discovered.reply_tells (h : ans.Discovered) (tr : Trace Sel) (o : Op) :
    ans.Tells (⟨o, ans.reply tr o⟩ : Sigma (Op.Ans Sel)) := by
  cases o with
  | gatedError gvk => exact nofun
  | restMapping gvk =>
    simp only [Answers.Tells, Answers.reply]
    cases hr : ans.resolver gvk with
    | ok m => rfl
    | error err =>
      obtain ⟨text, rfl⟩ := h gvk err hr
      rfl
  | getSink | listNamespaces | review => rfl
  | _ => trivial

theorem Answers.Discovered.run_tells {α : Type} (h : ans.Discovered) (x : Prog Sel α) {tr : Trace Sel}
    (htr : ∀ e ∈ tr, ans.Tells e) : ∀ e ∈ (x.run ans.reply tr).2, ans.Tells e := by
  induction x generalizing tr with
  | ret a => exact htr
  | op o k ih =>
    refine ih _ fun e he => ?_
    rcases List.mem_append.mp he with he | he
    · exact htr e he
    · cases List.mem_singleton.mp he
      exact h.reply_tells tr o

def nodeResource : WatchedResource Unit := ⟨coreGroup, "v1", ⟨"Node", by decide⟩, none⟩

def nodeMapping : Mapping := ⟨⟨"", "v1", "nodes"⟩, false, by decide⟩

def fleetLib : ControlLib Unit := ⟨fun _ => .ok "env=prod", .ok, .verbatim⟩

def fleetRule : Rule Unit where
  ns := allNamespaces
  generation := 1
  sinkRef := "s"
  resources := [podResource, nodeResource]
  namespaceSelector := some ()

def fleetAnswers : Answers where
  sinks name := if name = "s" then some readySink else none
  namespaces := [⟨namespaceB, true⟩, ⟨⟨"c", by decide⟩, false⟩, ⟨namespaceA, false⟩,
    ⟨⟨"d", by decide⟩, false⟩]
  selects selector item := selector = "env=prod" && item.name.1 ≠ "d"
  resolver gvk :=
    if gvk = podResource.gvk then .ok podMapping
    else if gvk = nodeResource.gvk then .ok nodeMapping else .error (.kindNotFound gvk "no match")
  allows gvr ns _ := gvr.resource = "nodes" || ns.1 = "a" || ns.1 = "d"

theorem fleetAnswers_discovered : fleetAnswers.Discovered := by
  intro gvk err h
  simp only [fleetAnswers] at h
  split_ifs at h
  exact ⟨"no match", (Except.error.inj h).symm⟩

theorem fleet_planned :
    fleetAnswers.Declares fleetLib .clusterStreamRule fleetRule
      ⟨"s", podResource.gvk, ⟨"a", by decide⟩, "", ""⟩ ∧
    fleetAnswers.Declares fleetLib .clusterStreamRule fleetRule
      ⟨"s", nodeResource.gvk, allNamespaces, "", ""⟩ ∧
    ¬ fleetAnswers.Declares fleetLib .clusterStreamRule fleetRule
      ⟨"s", podResource.gvk, ⟨"c", by decide⟩, "", ""⟩ ∧
    ¬ fleetAnswers.Declares fleetLib .clusterStreamRule fleetRule
      ⟨"s", podResource.gvk, ⟨"d", by decide⟩, "", ""⟩ := by
  have hexact := planned_targets_exact.1 .clusterStreamRule fleetRule ⟨[], 1,
    List.nodup_nil⟩ fleetAnswers fleetAnswers.reply
    (fleetAnswers_discovered.run_tells (plan fleetLib _ _ _) nofun)
  exact ⟨(hexact _).mp (by decide), (hexact _).mp (by decide),
    fun h => absurd ((hexact _).mpr h) (by decide),
    fun h => absurd ((hexact _).mpr h) (by decide)⟩

end Kuberecord.Control
