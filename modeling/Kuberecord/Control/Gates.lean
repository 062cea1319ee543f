import Kuberecord.Control.Reconcile
import Kuberecord.Library.Chronicles

namespace Kuberecord.Control

open Threads

variable {Sel : Type}

abbrev Trace (Sel : Type) := List (Sigma (Op.Ans Sel))

def Trace.Has (tr : Trace Sel) (o : Op) (a : o.Ans Sel) : Prop := (⟨o, a⟩ : Sigma (Op.Ans Sel)) ∈ tr

theorem Trace.Has.mono {tr tr' : Trace Sel} {o : Op} {a : o.Ans Sel} (h : tr.Has o a)
    (hp : tr <+: tr') : tr'.Has o a :=
  hp.subset h

theorem Trace.has_snoc (tr : Trace Sel) (o : Op) (a : o.Ans Sel) : Trace.Has (tr ++ [⟨o, a⟩]) o a := by
  simp [Trace.Has]

inductive Answered (tr : Trace Sel) (gvk : GroupVersionKind) : Except ResolveError Mapping → Prop
  | mapped (m : Mapping) : tr.Has (.restMapping gvk) (.ok m) → Answered tr gvk (.ok m)
  | parked (err : ResolveError) : tr.Has (.gatedError gvk) (some err) → Answered tr gvk (.error err)
  | refused (err : MapperError) : tr.Has (.restMapping gvk) (.error err) →
      Answered tr gvk (.error (classify gvk err))

inductive ScopeAnswered (tr : Trace Sel) (scope : RuleScope) (gvk : GroupVersionKind) :
    Except ResolveError Mapping → Prop
  | ok (m : Mapping) : Answered tr gvk (.ok m) → checkScope gvk m scope = none →
      ScopeAnswered tr scope gvk (.ok m)
  | unresolved (err : ResolveError) : Answered tr gvk (.error err) →
      ScopeAnswered tr scope gvk (.error err)
  | outOfScope (m : Mapping) (err : ResolveError) : Answered tr gvk (.ok m) →
      checkScope gvk m scope = some err →
      ScopeAnswered tr scope gvk (.error err)

def selectedNamespaces (items : List NamespaceItem) : List Namespace :=
  ((items.filter (!·.terminating)).map (·.name)).insertionSort (·.1 ≤ ·.1)

inductive Expanded (lib : ControlLib Sel) (kind : RuleKind) (obj : Rule Sel) (tr : Trace Sel) :
    Except NamespaceError (List Namespace) → Prop
  | pinned : kind.scope = .namespacedRule → Expanded lib kind obj tr (.ok [obj.ns])
  | everywhere : kind.scope = .clusterRule → obj.namespaceSelector = none →
      Expanded lib kind obj tr (.ok [allNamespaces])
  | selected (sel : Sel) (s : String) (items : List NamespaceItem) : kind.scope = .clusterRule →
      obj.namespaceSelector = some sel → lib.asSelector sel = .ok s →
      tr.Has (.listNamespaces s) (.ok items) →
      Expanded lib kind obj tr (.ok (selectedNamespaces items))
  | invalid (sel : Sel) (err : String) : kind.scope = .clusterRule → obj.namespaceSelector = some sel →
      lib.asSelector sel = .error err → Expanded lib kind obj tr (.error (.invalidNamespaceSelector err))
  | unavailable (s err text : String) : tr.Has (.listNamespaces s) (.error err) →
      Expanded lib kind obj tr (.error (.unavailable text))

section

variable {tr tr' : Trace Sel} (hp : tr <+: tr')
include hp

theorem Answered.mono {gvk : GroupVersionKind} {r : Except ResolveError Mapping}
    (h : Answered tr gvk r) :
    Answered tr' gvk r := by
  cases h with
  | mapped m h => exact .mapped m (h.mono hp)
  | parked err h => exact .parked err (h.mono hp)
  | refused err h => exact .refused err (h.mono hp)

theorem ScopeAnswered.mono {scope : RuleScope} {gvk : GroupVersionKind} {r : Except ResolveError Mapping}
    (h : ScopeAnswered tr scope gvk r) : ScopeAnswered tr' scope gvk r := by
  cases h with
  | ok m h hs => exact .ok m (h.mono hp) hs
  | unresolved err h => exact .unresolved err (h.mono hp)
  | outOfScope m err h hs => exact .outOfScope m err (h.mono hp) hs

theorem Expanded.mono {lib : ControlLib Sel} {kind : RuleKind} {obj : Rule Sel}
    {r : Except NamespaceError (List Namespace)} (h : Expanded lib kind obj tr r) :
    Expanded lib kind obj tr' r := by
  cases h with
  | pinned h => exact .pinned h
  | everywhere h hn => exact .everywhere h hn
  | selected sel s items h hs ha ht => exact .selected sel s items h hs ha (ht.mono hp)
  | invalid sel err h hs ha => exact .invalid sel err h hs ha
  | unavailable s err text ht => exact .unavailable s err text (ht.mono hp)

end

def Vetted (lib : ControlLib Sel) (scope : RuleScope) (namespaces : List Namespace) (tr : Trace Sel)
    (res : WatchedResource Sel) (r : ResolvedResource) : Prop :=
  ∃ m sel, ScopeAnswered tr scope res.gvk (.ok m) ∧ canonicalSelector lib res.labelSelector = .ok sel ∧
    r = ⟨res.gvk, m.gvr, sel, namespacesFor m.namespaced namespaces⟩

def Unvetted (lib : ControlLib Sel) (scope : RuleScope) (tr : Trace Sel)
    (res : WatchedResource Sel) : Prop :=
  (∃ err, ScopeAnswered tr scope res.gvk (.error err)) ∨
    ∃ err, canonicalSelector lib res.labelSelector = .error err

structure Resolution.Vets (lib : ControlLib Sel) (scope : RuleScope) (namespaces : List Namespace)
    (tr : Trace Sel) (resources : List (WatchedResource Sel)) (acc : Resolution) : Prop where
  sound : ∀ r ∈ acc.resolved, ∃ res ∈ resources, Vetted lib scope namespaces tr res r
  complete : ∀ res ∈ resources, (∃ r ∈ acc.resolved, Vetted lib scope namespaces tr res r) ∨
    Unvetted lib scope tr res ∧ acc.failures ≠ []

def Allowed (tr : Trace Sel) (gvr : GroupVersionResource) (ns : Namespace) (verb : Verb) : Prop :=
  tr.Has (.review gvr allNamespaces verb) (.ok true) ∨ tr.Has (.review gvr ns verb) (.ok true)

def Denied (tr : Trace Sel) (gvr : GroupVersionResource) (ns : Namespace) (verb : Verb) : Prop :=
  tr.Has (.review gvr allNamespaces verb) (.ok false) ∧ tr.Has (.review gvr ns verb) (.ok false)

def Granted (tr : Trace Sel) (gvr : GroupVersionResource) (ns : Namespace) : Prop :=
  ∀ verb ∈ accessVerbs, Allowed tr gvr ns verb

def Barred (tr : Trace Sel) (gvr : GroupVersionResource) (ns : Namespace) : Prop :=
  ∃ verb ∈ accessVerbs, Denied tr gvr ns verb

def ReviewFailed (tr : Trace Sel) : Prop :=
  ∃ gvr ns verb err, tr.Has (.review gvr ns verb) (.error err)

def Verdict (tr : Trace Sel) (gvr : GroupVersionResource) (ns : Namespace) (denial : String) : Prop :=
  denial = "" ∧ Granted tr gvr ns ∨ denial ≠ "" ∧ Barred tr gvr ns

section

variable {tr tr' : Trace Sel} (hp : tr <+: tr')
include hp

theorem Vetted.mono {lib : ControlLib Sel} {scope : RuleScope} {namespaces : List Namespace}
    {res : WatchedResource Sel} {r : ResolvedResource} (h : Vetted lib scope namespaces tr res r) :
    Vetted lib scope namespaces tr' res r := by
  obtain ⟨m, sel, hm, hs, hr⟩ := h
  exact ⟨m, sel, hm.mono hp, hs, hr⟩

theorem Unvetted.mono {lib : ControlLib Sel} {scope : RuleScope} {res : WatchedResource Sel}
    (h : Unvetted lib scope tr res) : Unvetted lib scope tr' res :=
  h.imp_left fun ⟨err, he⟩ => ⟨err, he.mono hp⟩

theorem Resolution.Vets.mono {lib : ControlLib Sel} {scope : RuleScope} {namespaces : List Namespace}
    {resources : List (WatchedResource Sel)} {acc : Resolution}
    (h : acc.Vets lib scope namespaces tr resources) :
    acc.Vets lib scope namespaces tr' resources where
  sound r hr := by
    obtain ⟨res, hres, hv⟩ := h.sound r hr
    exact ⟨res, hres, hv.mono hp⟩
  complete res hres := by
    rcases h.complete res hres with ⟨r, hr, hv⟩ | ⟨hu, hf⟩
    · exact .inl ⟨r, hr, hv.mono hp⟩
    · exact .inr ⟨hu.mono hp, hf⟩

variable {gvr : GroupVersionResource} {ns : Namespace}

theorem Allowed.mono {verb : Verb} (h : Allowed tr gvr ns verb) : Allowed tr' gvr ns verb :=
  h.imp (fun h => h.mono hp) (fun h => h.mono hp)

theorem Denied.mono {verb : Verb} (h : Denied tr gvr ns verb) : Denied tr' gvr ns verb :=
  ⟨h.1.mono hp, h.2.mono hp⟩

theorem Granted.mono (h : Granted tr gvr ns) : Granted tr' gvr ns := fun verb hv => (h verb hv).mono hp

theorem Barred.mono (h : Barred tr gvr ns) : Barred tr' gvr ns := by
  obtain ⟨verb, hv, hd⟩ := h
  exact ⟨verb, hv, hd.mono hp⟩

theorem Verdict.mono {denial : String} (h : Verdict tr gvr ns denial) : Verdict tr' gvr ns denial :=
  h.imp (fun h => ⟨h.1, h.2.mono hp⟩) (fun h => ⟨h.1, h.2.mono hp⟩)

end

def Op.Asks : Op → Prop
  | getSink _ | upsert _ _ | remove _ | updateStatus _ _ _ => False
  | _ => True

section

variable {R : Trace Sel → Op → Prop} (hR : ∀ tr o, o.Asks → R tr o) {tr : Trace Sel}
include hR

theorem resolve_spec (gvk : GroupVersionKind) :
    (chronicle R).Obeys (resolve gvk) tr fun r tr' => Answered tr' gvk r := by
  refine ⟨hR _ _ trivial, fun a _ => ?_⟩
  cases a with
  | some err => exact .parked err (tr.has_snoc ..)
  | none =>
    refine ⟨hR _ _ trivial, fun a _ => ?_⟩
    cases a with
    | error err => exact ⟨hR _ _ trivial,
        fun _ _ => .refused err ((Trace.has_snoc ..).mono (List.prefix_append ..))⟩
    | ok m => exact ⟨hR _ _ trivial,
        fun _ _ => .mapped m ((Trace.has_snoc ..).mono (List.prefix_append ..))⟩

theorem resolveForScope_spec (gvk : GroupVersionKind) (scope : RuleScope) :
    (chronicle R).Obeys (resolveForScope gvk scope) tr fun r tr' => ScopeAnswered tr' scope gvk r := by
  refine (resolve_spec hR gvk).bind _ fun r tr' hr => ?_
  cases r with
  | error err => exact .unresolved err hr
  | ok m =>
    dsimp only
    cases hs : checkScope gvk m scope with
    | some err => exact .outOfScope m err hr hs
    | none => exact .ok m hr hs

theorem targetNamespaces_spec (lib : ControlLib Sel) (kind : RuleKind) (obj : Rule Sel) :
    (chronicle R).Obeys (targetNamespaces lib kind obj) tr fun r tr' => Expanded lib kind obj tr' r := by
  unfold targetNamespaces
  cases hk : kind.scope with
  | namespacedRule => exact .pinned hk
  | clusterRule =>
    rw [if_neg (by decide)]
    cases hs : obj.namespaceSelector with
    | none => exact .everywhere hk hs
    | some sel =>
      dsimp only
      cases ha : lib.asSelector sel with
      | error err => exact .invalid sel err hk hs ha
      | ok s =>
        refine ⟨hR _ _ trivial, fun a _ => ?_⟩
        cases a with
        | error err => exact .unavailable s err _ (tr.has_snoc ..)
        | ok items => exact .selected sel s items hk hs ha (tr.has_snoc ..)

theorem resolveResources_spec (lib : ControlLib Sel) (scope : RuleScope) (namespaces : List Namespace)
    (resources : List (WatchedResource Sel)) :
    (chronicle R).Obeys (resolveResources lib scope namespaces resources) tr fun acc tr' =>
      acc.Vets lib scope namespaces tr' resources := by
  refine Protocol.Obeys.foldlM (I := fun done (acc : Resolution) tr' =>
    acc.Vets lib scope namespaces tr' done)
    (fun done res rest acc tr _ hacc => ?_) ⟨nofun, nofun⟩
  refine ((resolveForScope_spec hR res.gvk scope).grows).bind _ fun r tr' ⟨hr, hp⟩ => ?_
  have hacc := hacc.mono hp
  have failed (text : String) (hu : Unvetted lib scope tr' res) :
      Resolution.Vets lib scope namespaces tr' (done ++ [res])
      { acc with failures := acc.failures ++ [text] } := by
    refine ⟨fun r hr => ?_, fun res' hres => ?_⟩
    · obtain ⟨res', hres, hv⟩ := hacc.sound r hr
      exact ⟨res', List.mem_append_left _ hres, hv⟩
    · rcases List.mem_append.mp hres with hres | hres
      · exact (hacc.complete res' hres).imp_right fun h => ⟨h.1, by simp⟩
      · cases List.mem_singleton.mp hres
        exact .inr ⟨hu, by simp⟩
  cases r with
  | error err => exact failed _ (.inl ⟨err, hr⟩)
  | ok m =>
    dsimp only
    cases hs : canonicalSelector lib res.labelSelector with
    | error err => exact failed _ (.inr ⟨err, hs⟩)
    | ok sel =>
      have hv : Vetted lib scope namespaces tr' res ⟨res.gvk, m.gvr, sel,
        namespacesFor m.namespaced namespaces⟩ :=
        ⟨m, sel, hr, hs, rfl⟩
      refine ⟨fun r hr => ?_, fun res' hres => ?_⟩
      · rcases List.mem_append.mp hr with hr | hr
        · obtain ⟨res', hres, hv⟩ := hacc.sound r hr
          exact ⟨res', List.mem_append_left _ hres, hv⟩
        · cases List.mem_singleton.mp hr
          exact ⟨res, by simp, hv⟩
      · rcases List.mem_append.mp hres with hres | hres
        · exact (hacc.complete res' hres).imp_left fun ⟨r, hr, hv⟩ => ⟨r, List.mem_append_left _ hr, hv⟩
        · cases List.mem_singleton.mp hres
          exact .inl ⟨_, by simp, hv⟩

theorem reviewVerb_spec (lib : ControlLib Sel) (gvr : GroupVersionResource) (ns : Namespace)
    (verb : Verb) :
    (chronicle R).Obeys (reviewVerb lib gvr ns verb) tr fun r tr' =>
      match r with
      | .ok true => Allowed tr' gvr ns verb
      | .ok false => Denied tr' gvr ns verb
      | .error _ => ReviewFailed tr' := by
  refine ⟨hR _ _ trivial, fun a _ => ?_⟩
  rcases a with err | allowed
  · exact ⟨gvr, allNamespaces, verb, err, tr.has_snoc ..⟩
  · cases allowed with
    | true => exact .inl (tr.has_snoc ..)
    | false =>
      have hcluster := tr.has_snoc (.review gvr allNamespaces verb) (.ok false)
      show (chronicle R).Obeys (if ns = allNamespaces then _ else _) _ _
      by_cases hns : ns = allNamespaces
      · rw [if_pos hns]
        exact ⟨hcluster, hns ▸ hcluster⟩
      · rw [if_neg hns]
        refine ⟨hR _ _ trivial, fun a _ => ?_⟩
        rcases a with err | allowed
        · exact ⟨gvr, ns, verb, err, Trace.has_snoc ..⟩
        · cases allowed with
          | true => exact .inr (Trace.has_snoc ..)
          | false => exact ⟨hcluster.mono (List.prefix_append ..), Trace.has_snoc ..⟩

theorem missingVerbs_spec (lib : ControlLib Sel) (gvr : GroupVersionResource) (ns : Namespace)
    (verbs missing : List Verb) :
    (chronicle R).Obeys (missingVerbs lib gvr ns verbs missing) tr fun r tr' =>
      match r with
      | .ok missing' => missing' = missing ∧ (∀ verb ∈ verbs, Allowed tr' gvr ns verb) ∨
          missing' ≠ [] ∧ ∃ verb ∈ verbs, Denied tr' gvr ns verb
      | .error _ => ReviewFailed tr' := by
  induction verbs generalizing missing tr with
  | nil => exact .inl ⟨rfl, nofun⟩
  | cons verb verbs ih =>
    refine (reviewVerb_spec hR lib gvr ns verb).bind _ fun r tr' hr => ?_
    rcases r with err | allowed
    · exact hr
    · refine ((ih _).grows).mono _ fun r tr'' ⟨hrest, hp⟩ => ?_
      rcases r with err | missing'
      · exact hrest
      · cases allowed with
        | true =>
          rcases hrest with ⟨he, hall⟩ | ⟨hne, v, hv, hd⟩
          · exact .inl ⟨he, List.forall_mem_cons.mpr ⟨Allowed.mono hp hr, hall⟩⟩
          · exact .inr ⟨hne, v, List.mem_cons_of_mem _ hv, hd⟩
        | false =>
          refine .inr ⟨?_, verb, List.mem_cons_self, Denied.mono hp hr⟩
          rcases hrest with ⟨rfl, -⟩ | ⟨hne, -⟩
          · simp
          · exact hne

theorem reviewTarget_spec (lib : ControlLib Sel) (gvr : GroupVersionResource) (ns : Namespace) :
    (chronicle R).Obeys (reviewTarget lib gvr ns) tr fun r tr' =>
      match r with
      | .ok denial => Verdict tr' gvr ns denial
      | .error _ => ReviewFailed tr' := by
  refine (missingVerbs_spec hR lib gvr ns accessVerbs []).bind _ fun r tr' hr => ?_
  rcases r with err | missing
  · exact hr
  · cases missing with
    | nil =>
      rcases hr with ⟨-, hall⟩ | ⟨hne, -⟩
      · exact .inl ⟨rfl, hall⟩
      · exact absurd rfl hne
    | cons verb missing =>
      rcases hr with ⟨he, -⟩ | ⟨-, hd⟩
      · cases he
      · refine .inr ⟨fun he => ?_, hd⟩
        have hlen := congrArg String.length he
        simp at hlen

end

theorem verdictKey_inj {gvr gvr' : GroupVersionResource} {ns ns' : Namespace} (h : gvr.Plain)
    (h' : gvr'.Plain) (he : verdictKey gvr ns = verdictKey gvr' ns') : gvr = gvr' ∧ ns = ns' := by
  have htext (gvr : GroupVersionResource) (ns : Namespace) : (verdictKey gvr ns).toList =
    gvr.group.toList ++ '/' ::
      (gvr.version.toList ++ ',' :: (" Resource=".toList ++
      (gvr.resource.toList ++ '|' :: ns.1.toList))) := by
    simp [verdictKey, GroupVersionResource.text]
  have hlist := congrArg String.toList he
  rw [htext, htext] at hlist
  obtain ⟨hg, hlist⟩ := append_sep_inj h.1 h'.1 hlist
  obtain ⟨hv, hlist⟩ := append_sep_inj h.2.1 h'.2.1 hlist
  obtain ⟨hr, hns⟩ := append_sep_inj h.2.2 h'.2.2 (List.append_cancel_left hlist)
  refine ⟨?_, Subtype.ext (String.toList_inj.mp hns)⟩
  cases gvr
  cases gvr'
  rw [GroupVersionResource.mk.injEq]
  exact ⟨String.toList_inj.mp hg, String.toList_inj.mp hv, String.toList_inj.mp hr⟩

def Seen (tr : Trace Sel) (seen : List (String × String)) : Prop :=
  ∀ x ∈ seen, ∃ gvr ns, gvr.Plain ∧ x.1 = verdictKey gvr ns ∧ Verdict tr gvr ns x.2

theorem Seen.mono {tr tr' : Trace Sel} (hp : tr <+: tr') {seen : List (String × String)}
    (h : Seen tr seen) :
    Seen tr' seen := by
  intro x hx
  obtain ⟨gvr, ns, hg, hk, hv⟩ := h x hx
  exact ⟨gvr, ns, hg, hk, hv.mono hp⟩

def targetOf (sinkName redaction : String) (p : ResolvedResource × Namespace) : Target :=
  ⟨sinkName, p.1.gvk, p.2, p.1.selector, redaction⟩

structure Judged (tr : Trace Sel) (sinkName redaction : String)
    (pairs : List (ResolvedResource × Namespace)) (acc acc' : Reviewed) : Prop where
  kept : ∀ t ∈ acc.targets, t ∈ acc'.targets
  told : acc.denials ≠ [] → acc'.denials ≠ []
  sound : ∀ t ∈ acc'.targets, t ∈ acc.targets ∨
    ∃ p ∈ pairs, Granted tr p.1.gvr p.2 ∧ t = targetOf sinkName redaction p
  complete : ∀ p ∈ pairs, Granted tr p.1.gvr p.2 ∧ targetOf sinkName redaction p ∈ acc'.targets ∨
    Barred tr p.1.gvr p.2 ∧ acc'.denials ≠ []

theorem Judged.cons {tr : Trace Sel} {sinkName redaction : String} {p : ResolvedResource × Namespace}
    {pairs : List (ResolvedResource × Namespace)} {acc acc₁ acc' : Reviewed}
    (h : Judged tr sinkName redaction pairs acc₁ acc')
    (hkept : ∀ t ∈ acc.targets, t ∈ acc₁.targets) (htold : acc.denials ≠ [] → acc₁.denials ≠ [])
    (hsound : ∀ t ∈ acc₁.targets, t ∈ acc.targets ∨ Granted tr p.1.gvr p.2 ∧
      t = targetOf sinkName redaction p)
    (hcomplete : Granted tr p.1.gvr p.2 ∧ targetOf sinkName redaction p ∈ acc₁.targets ∨
      Barred tr p.1.gvr p.2 ∧ acc₁.denials ≠ []) :
    Judged tr sinkName redaction (p :: pairs) acc acc' where
  kept t ht := h.kept t (hkept t ht)
  told hd := h.told (htold hd)
  sound t ht := by
    rcases h.sound t ht with ht | ⟨q, hq, hg, rfl⟩
    · exact (hsound t ht).imp_right fun ⟨hg, he⟩ => ⟨p, List.mem_cons_self, hg, he⟩
    · exact .inr ⟨q, List.mem_cons_of_mem _ hq, hg, rfl⟩
  complete q hq := by
    rcases List.mem_cons.mp hq with rfl | hq
    · exact hcomplete.imp (fun ⟨hg, ht⟩ => ⟨hg, h.kept _ ht⟩) (fun ⟨hb, hd⟩ => ⟨hb, h.told hd⟩)
    · exact h.complete q hq

section

variable {R : Trace Sel → Op → Prop} (hR : ∀ tr o, o.Asks → R tr o) {tr : Trace Sel}
include hR

theorem verdictFor_spec (lib : ControlLib Sel) {seen : List (String × String)}
    {gvr : GroupVersionResource} (ns : Namespace) (hseen : Seen tr seen) (hg : gvr.Plain) :
    (chronicle R).Obeys (verdictFor lib seen gvr ns) tr fun r tr' =>
      match r with
      | .ok (denial, seen') => Verdict tr' gvr ns denial ∧ Seen tr' seen'
      | .error _ => ReviewFailed tr' := by
  unfold verdictFor
  cases hl : seen.lookup (verdictKey gvr ns) with
  | some denial =>
    obtain ⟨before, after, rfl, -⟩ := List.lookup_eq_some_iff.mp hl
    obtain ⟨gvr', ns', hg', hk, hv⟩ := hseen (verdictKey gvr ns, denial) (by simp)
    obtain ⟨rfl, rfl⟩ := verdictKey_inj hg hg' hk
    exact ⟨hv, hseen⟩
  | none =>
    refine ((reviewTarget_spec hR lib gvr ns).grows).bind _ fun r tr' ⟨hr, hp⟩ => ?_
    rcases r with err | denial
    · exact hr
    · refine ⟨hr, fun x hx => ?_⟩
      rcases List.mem_cons.mp hx with rfl | hx
      · exact ⟨gvr, ns, hg, rfl, hr⟩
      · exact hseen.mono hp x hx

theorem reviewTargets_spec (lib : ControlLib Sel) (sinkName redaction : String)
    (pairs : List (ResolvedResource × Namespace)) (acc : Reviewed) (hseen : Seen tr acc.seen)
    (hg : ∀ p ∈ pairs, p.1.gvr.Plain) :
    (chronicle R).Obeys (reviewTargets lib sinkName redaction pairs acc) tr fun r tr' =>
      match r with
      | .ok acc' => Judged tr' sinkName redaction pairs acc acc'
      | .error _ => ReviewFailed tr' := by
  induction pairs generalizing acc tr with
  | nil => exact ⟨fun t ht => ht, fun h => h, fun t ht => .inl ht, nofun⟩
  | cons p pairs ih =>
    obtain ⟨res, ns⟩ := p
    obtain ⟨hgp, hgs⟩ := List.forall_mem_cons.mp hg
    refine (verdictFor_spec hR lib ns hseen hgp).bind _ fun r tr' hr => ?_
    rcases r with err | ⟨denial, seen⟩
    · exact hr
    obtain ⟨hv, hseen'⟩ := hr
    show (chronicle R).Obeys (if denial ≠ "" then _ else _) _ _
    by_cases hd : denial = ""
    · rw [if_neg (not_not.mpr hd)]
      obtain ⟨-, hgrant⟩ : denial = "" ∧ Granted tr' res.gvr ns := hv.resolve_right fun h => h.1 hd
      refine ((ih _ hseen' hgs).grows).mono _ fun r tr'' ⟨hrest, hp⟩ => ?_
      rcases r with err | acc'
      · exact hrest
      · refine Judged.cons hrest (fun t ht => List.mem_append_left _ ht) (fun h => h) (fun t ht => ?_)
          (.inl ⟨hgrant.mono hp, by simp [targetOf]⟩)
        rcases List.mem_append.mp ht with ht | ht
        · exact .inl ht
        · exact .inr ⟨hgrant.mono hp, List.mem_singleton.mp ht⟩
    · rw [if_pos hd]
      obtain ⟨-, hbar⟩ : denial ≠ "" ∧ Barred tr' res.gvr ns := hv.resolve_left fun h => hd h.1
      refine ((ih _ hseen' hgs).grows).mono _ fun r tr'' ⟨hrest, hp⟩ => ?_
      rcases r with err | acc'
      · exact hrest
      · have hne : (if acc.denials.contains denial then acc.denials else acc.denials ++
          [denial]) ≠ [] := by
          split_ifs with hc
          · exact List.ne_nil_of_mem (List.contains_iff_mem.mp hc)
          · simp
        exact Judged.cons hrest (fun t ht => ht) (fun _ => hne) (fun t ht => .inl ht)
          (.inr ⟨hbar.mono hp, hne⟩)

end

end Kuberecord.Control
