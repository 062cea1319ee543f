import Kuberecord.Control.Outages
import Mathlib.Data.Set.List

/-!
When a sink is gone for good, the rules that streamed to it are reconciled again. The sink runtime
knows them by their registry keys only, so the way back to the rules leads through the text of the
keys.
-/

namespace Kuberecord.Control

open Threads

structure RuleStub where
  ns : String
  name : String
deriving DecidableEq

def NamespacedName.stub (n : NamespacedName) : RuleStub := ⟨n.ns.1, n.name⟩

def ruleKinds : List RuleKind := [.streamRule, .clusterStreamRule]

def parseRuleKey (key : String) : Option (RuleKind × RuleStub) :=
  match key.toList.splitOn '/' with
  | [kind, ns, name] =>
    if kind = [] ∨ name = [] then none
    else (ruleKinds.find? (·.kind.toList = kind)).map (·, ⟨String.ofList ns, String.ofList name⟩)
  | _ => none

inductive ParkError
  | unparseableRuleKey (rule : String)
  | noReconciler (rule : String) (kind : RuleKind)
  | parkChannelFull (rule : String)

def parkChannelCapacity : Nat := 128

structure Parker where
  channels : RuleKind → Option (List RuleStub)

namespace Parker

def park (p : Parker) (key : String) : Parker × Option ParkError :=
  match parseRuleKey key with
  | none => (p, some (.unparseableRuleKey key))
  | some (kind, stub) =>
    match p.channels kind with
    | none => (p, some (.noReconciler key kind))
    | some events =>
      if events.length < parkChannelCapacity then
        (⟨Function.update p.channels kind (some (events ++ [stub]))⟩, none)
      else (p, some (.parkChannelFull key))

def sinkGone (p : Parker) : List String → Parker × List ParkError
  | [] => (p, [])
  | key :: keys =>
    let parked := p.park key
    let rest := parked.1.sinkGone keys
    (rest.1, parked.2.toList ++ rest.2)

end Parker

def parkDependents (s : ControlState) (p : Parker) (sinkName : String) : Parker × List ParkError :=
  p.sinkGone (s.registry.rulesForSink sinkName)

def NamespacedName.Valid (n : NamespacedName) : Prop := n.name ≠ "" ∧ '/' ∉ n.name.toList

instance (n : NamespacedName) : Decidable (n.Valid) := inferInstanceAs (Decidable (_ ∧ _))

def Op.asked : Op → Option NamespacedName
  | getRule _ n => some n
  | _ => none

variable {kind : RuleKind} {n : NamespacedName}

theorem parseRuleKey_ruleKey (h : n.Valid) :
    parseRuleKey (ruleKey kind n) = some (kind, n.stub) := by
  have htext : (ruleKey kind n).toList = ['/'].intercalate [kind.kind.toList, n.ns.1.toList,
    n.name.toList] := by
    simp [ruleKey, List.intercalate]
  have hsep : ∀ part ∈ [kind.kind.toList, n.ns.1.toList, n.name.toList], '/' ∉ part := by
    have hkind : '/' ∉ kind.kind.toList := by cases kind <;> decide
    simp [hkind, n.ns.2.2, h.2]
  have hfind : ruleKinds.find? (·.kind.toList = kind.kind.toList) = some kind := by cases kind <;> decide
  have hkind : kind.kind.toList ≠ [] := by cases kind <;> decide
  have hname : n.name.toList ≠ [] := fun he => h.1 (String.toList_eq_nil_iff.mp he)
  rw [parseRuleKey, htext, List.splitOn_intercalate '/' hsep (List.cons_ne_nil _ _)]
  simp only [hkind, hname, or_self, if_false, hfind, Option.map_some, String.ofList_toList]
  rfl

abbrev NamedRule := {r : RuleKind × NamespacedName // r.2.Valid}

def NamedRule.key (r : NamedRule) : String := ruleKey r.1.1 r.1.2

theorem channels_sinkGone (p : Parker) (rules : List NamedRule) {events : List RuleStub}
    (he : p.channels kind = some events) :
    (p.sinkGone (rules.map NamedRule.key)).1.channels kind =
      some (events ++ ((rules.filter (·.1.1 = kind)).map fun r => r.1.2.stub).take
        (parkChannelCapacity - events.length)) := by
  induction rules generalizing p events with
  | nil => simp [Parker.sinkGone, he]
  | cons r rules ih =>
    obtain ⟨⟨kind', n⟩, hvalid⟩ := r
    have hparse : parseRuleKey (NamedRule.key ⟨(kind', n), hvalid⟩) = some (kind', n.stub) :=
      parseRuleKey_ruleKey hvalid
    simp only [List.map_cons, Parker.sinkGone, Parker.park, hparse]
    by_cases hkind : kind' = kind
    · subst hkind
      simp only [he, List.filter_cons, decide_true, if_true, List.map_cons]
      split_ifs with hroom
      · rw [ih _ (Function.update_self ..), List.append_assoc]
        obtain ⟨room, hr⟩ := Nat.exists_eq_add_of_lt hroom
        have hr' : parkChannelCapacity - events.length = room + 1 := by omega
        have hr'' : parkChannelCapacity - (events ++ [n.stub]).length = room := by
          rw [List.length_append, List.length_singleton]
          omega
        rw [hr', hr'', List.take_succ_cons, List.singleton_append]
      · rw [ih _ he]
        have hfull : parkChannelCapacity - events.length = 0 := by omega
        simp [hfull]
    · simp only [List.filter_cons, hkind, decide_false, Bool.false_eq_true, if_false]
      cases p.channels kind' with
      | none => exact ih _ he
      | some events' =>
        dsimp only
        split_ifs
        · exact ih _ ((Function.update_of_ne (Ne.symm hkind) ..).trans he)
        · exact ih _ he

variable {Sel : Type} {lib : ControlLib Sel} {as : List (Action Sel)} {s : System Sel}

theorem installed_of_contributed
    (h : Runs.Run (controlMachine lib).step (fun _ _ => True) { shared := {} } as s)
    {key : String} (hkey : s.shared.contributed key ≠ ∅) : ∃ x ∈ s.log, x.event.1.rule = some key := by
  induction h with
  | nil => exact absurd rfl hkey
  | @snoc s _ as a hrun _ hst ih =>
    cases (controlMachine lib).step_cases hst with
    | start t b shared code hn hs =>
      have hshared : shared = s.shared := by
        cases t <;> cases b <;> cases hs <;> rfl
      subst hshared
      exact ih hkey
    | exec t i o k tr shared a hth hx =>
      by_cases ho : o.rule = some key
      · exact ⟨_, List.mem_append_right _ (List.mem_singleton_self _), ho⟩
      · have hsame := (exec_registry (t := t) hx).lookup_of_ne ho
        rw [ControlState.contributed, hsame] at hkey
        obtain ⟨x, hx, hr⟩ := ih hkey
        exact ⟨x, List.mem_append_left _ hx, hr⟩
    | finish => exact ih hkey
    | env e shared he =>
      cases e
      cases he
      exact ih hkey
    | crash => exact absurd rfl hkey

theorem ruleKey_of_contributed
    (h : Runs.Run (controlMachine lib).step (fun _ _ => True) { shared := {} } as s)
    {key : String} (hkey : s.shared.contributed key ≠ ∅) :
    ∃ kind n, key = ruleKey kind n ∧ ∃ x ∈ s.log, x.event.1.asked = some n := by
  obtain ⟨x, hx, hrule⟩ := installed_of_contributed h hkey
  have habout : ∃ kind n a, Trace.About x.trace kind n a ∧ key = ruleKey kind n := by
    have hs := (control_safe lib).chronicled h x hx
    cases ho : x.event.1 <;> rw [ho] at hrule hs <;> cases hrule
    case upsert =>
      obtain ⟨kind, n, obj, _, _, ha, hk, -⟩ := hs
      exact ⟨kind, n, .ok obj, ha, hk⟩
    case remove =>
      obtain ⟨kind, n, a, ha, hk, -⟩ := hs
      exact ⟨kind, n, a, ha, hk⟩
  obtain ⟨kind, n, a, ha, rfl⟩ := habout
  obtain ⟨rest, hrest⟩ := List.head?_eq_some_iff.mp ha
  exact ⟨kind, n, rfl, _, (Machine.logged_of_run h).2 x hx [] _ rest hrest, rfl⟩

theorem gone_sink_wakes_its_rules
    (h : Runs.Run (controlMachine lib).step (fun _ _ => True) { shared := {} } as s)
    (hnames : ∀ x ∈ s.log, ∀ n ∈ x.event.1.asked, n.Valid) (p : Parker) (sinkName : String)
    (kind : RuleKind) {events : List RuleStub} (he : p.channels kind = some events) :
    ∃ woken : List NamespacedName, woken.Nodup ∧
      (∀ n, n ∈ woken ↔ ∃ t ∈ s.shared.contributed (ruleKey kind n), t.sink = sinkName) ∧
      (parkDependents s.shared p sinkName).1.channels kind =
        some (events ++ (woken.map NamespacedName.stub).take (parkChannelCapacity - events.length)) := by
  obtain ⟨d, hd, -⟩ := registry_invariant (fun _ => True) (fun _ _ _ _ _ _ _ => trivial) h
  set keys := s.shared.registry.rulesForSink sinkName with hkeys
  have hmem (key : String) : key ∈ keys ↔ ∃ t ∈ s.shared.contributed key, t.sink = sinkName := by
    simp [hkeys, hd.rulesForSink, mergedRules, hd.rules, ControlState.contributed]
  have hrange : keys ∈ Set.range (List.map NamedRule.key) := by
    rw [Set.range_list_map]
    intro key hkey
    obtain ⟨t, ht, -⟩ := (hmem key).mp hkey
    obtain ⟨kind, n, rfl, x, hx, ho⟩ := ruleKey_of_contributed h (Finset.ne_empty_of_mem ht)
    exact ⟨⟨(kind, n), hnames x hx n ho⟩, rfl⟩
  obtain ⟨rules, hback⟩ := hrange
  refine ⟨(rules.filter (·.1.1 = kind)).map (·.1.2), ?_, fun n => ?_, ?_⟩
  · have hsame : ((rules.filter (·.1.1 = kind)).map (·.1.2)).map (ruleKey kind) =
        (rules.filter (·.1.1 = kind)).map NamedRule.key := by
      rw [List.map_map]
      refine List.map_congr_left fun r hr => ?_
      rw [Function.comp_apply, NamedRule.key, of_decide_eq_true (List.mem_filter.mp hr).2]
    have hsub : ((rules.filter (·.1.1 = kind)).map NamedRule.key).Sublist keys :=
      hback ▸ List.filter_sublist.map _
    apply List.Nodup.of_map (ruleKey kind)
    rw [hsame]
    exact hsub.nodup (Finset.sort_nodup _ _)
  · rw [← hmem, ← hback]
    simp only [List.mem_map, List.mem_filter, decide_eq_true_eq]
    constructor
    · rintro ⟨r, ⟨hr, rfl⟩, rfl⟩
      exact ⟨r, hr, rfl⟩
    · rintro ⟨r, hr, he⟩
      obtain ⟨rfl, rfl⟩ := ruleKey_inj he
      exact ⟨r, ⟨hr, rfl⟩, rfl⟩
  · rw [parkDependents, ← hkeys, ← hback, List.map_map]
    exact channels_sinkGone p rules he

theorem pod_rule_woken : ∃ (s : System Unit) (woken : List NamespacedName), podRequest ∈ woken ∧
    (parkDependents s.shared ⟨fun _ => some []⟩ podTarget.sink).1.channels .streamRule =
      some ((woken.map NamespacedName.stub).take parkChannelCapacity) := by
  obtain ⟨s, hrun, hpod, hlog⟩ :=
    Runs.Run.exists_of_exec (controlMachine openLib).step (fun _ _ => True) { shared := {} }
    (passSteps podInputs)
    (fun s => podTarget ∈ s.shared.contributed (ruleKey .streamRule podRequest) ∧
      ∀ x ∈ s.log, ∀ n ∈ x.event.1.asked, n.Valid) (by decide)
  obtain ⟨woken, -, hwoken, hchannel⟩ :=
    gone_sink_wakes_its_rules hrun hlog ⟨fun _ => some []⟩ podTarget.sink
    .streamRule rfl
  exact ⟨s, woken, (hwoken podRequest).mpr ⟨podTarget, hpod, rfl⟩, hchannel⟩

end Kuberecord.Control
