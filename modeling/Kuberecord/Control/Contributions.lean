import Kuberecord.Control.Plans

namespace Kuberecord

section

variable {Gvk Ns : Type} [DecidableEq Gvk] [DecidableEq Ns] {lib : SelectorLib Gvk Ns} {rule : String}

theorem Registry.mem_desiredTargets {targets : List (WatchTarget Gvk Ns)}
    {desired : Finset (WatchTarget Gvk Ns)} (h : desiredTargets lib rule targets = .ok desired)
    (t : WatchTarget Gvk Ns) :
    t ∈ desired ↔ ∃ t' ∈ targets, canonicalizeTarget lib rule t' = .ok t := by
  suffices go : ∀ acc, targets.foldlM (fun desired t => do
      let t ← canonicalizeTarget lib rule t
      return insert t desired) acc = .ok desired →
      (t ∈ desired ↔ t ∈ acc ∨ ∃ t' ∈ targets, canonicalizeTarget lib rule t' = .ok t) by
    rw [go ∅ h]
    simp
  clear h
  intro acc h
  induction targets generalizing acc with
  | nil =>
    cases h
    simp
  | cons t₁ targets ih =>
    rw [List.foldlM_cons] at h
    cases hc : canonicalizeTarget lib rule t₁ with
    | error err =>
      rw [hc] at h
      cases h
    | ok t₂ =>
      rw [hc] at h
      rw [ih (insert t₂ acc) h, Finset.mem_insert, List.exists_mem_cons_iff, hc, Except.ok.injEq,
        eq_comm (a := t₂)]
      tauto

omit [DecidableEq Gvk] [DecidableEq Ns] in
theorem Registry.canonicalizeTarget_ok {t t' : WatchTarget Gvk Ns}
    (h : canonicalizeTarget lib rule t = .ok t') :
    ∃ sel, canonicalizeSelectorString lib t.selector = .ok sel ∧ t' = { t with selector := sel } := by
  unfold canonicalizeTarget at h
  cases hs : canonicalizeSelectorString lib t.selector with
  | error err =>
    rw [hs] at h
    cases h
  | ok sel =>
    rw [hs] at h
    exact ⟨sel, rfl, (Except.ok.inj h).symm⟩

variable {r : Registry Gvk Ns} {adds drops : Tallies.LoopOrder (WatchTarget Gvk Ns)}
  {targets : List (WatchTarget Gvk Ns)}

theorem Registry.lookup_upsert {desired : Finset (WatchTarget Gvk Ns)}
    (h : desiredTargets lib rule targets = .ok desired) :
    ((r.upsert lib adds drops rule targets).2.rules.lookup rule).getD ∅ = desired := by
  simp only [Registry.upsert, h]
  split_ifs with hd
  · rw [Finmap.lookup_erase, hd, Option.getD_none]
  · rw [Finmap.lookup_insert, Option.getD_some]

theorem Registry.lookup_upsert_of_ne {rule' : String} (hne : rule' ≠ rule) :
    (r.upsert lib adds drops rule targets).2.rules.lookup rule' = r.rules.lookup rule' := by
  unfold Registry.upsert
  split
  · rfl
  · dsimp only
    split_ifs
    · exact Finmap.lookup_erase_ne hne
    · exact Finmap.lookup_insert_of_ne _ hne

theorem Registry.lookup_remove_of_ne {rule' : String} (hne : rule' ≠ rule) :
    (r.remove drops rule).rules.lookup rule' = r.rules.lookup rule' := by
  unfold Registry.remove
  split
  · rfl
  · exact Finmap.lookup_erase_ne hne

end

namespace Control

open Threads Tallies

variable {Sel : Type}

def Op.rule : Op → Option String
  | upsert ruleKey _ | remove ruleKey => some ruleKey
  | _ => none

inductive RegistryEffect (lib : ControlLib Sel) (r : Registry GroupVersionKind Namespace) :
    Op → Registry GroupVersionKind Namespace → Prop
  | upsert (key : String) (targets : List Target) (adds drops : LoopOrder Target) :
      RegistryEffect lib r (.upsert key targets) (r.upsert lib.selectors adds drops key targets).2
  | remove (key : String) (drops : LoopOrder Target) : RegistryEffect lib r (.remove key)
      (r.remove drops key)
  | none (o : Op) : o.rule = none → RegistryEffect lib r o r

theorem exec_registry {lib : ControlLib Sel} {s s' : ControlState} {t : Tid} {o : Op}
    {i : Input Sel} {a : o.Ans Sel} (h : exec lib s t o i = some (s', a)) :
    RegistryEffect lib s.registry o s'.registry := by
  unfold exec at h
  split at h <;> cases h
  case h_9 adds drops => exact .upsert _ _ adds drops
  case h_10 drops => exact .remove _ drops
  all_goals exact .none _ rfl

def ControlState.contributed (s : ControlState) (key : String) : Finset Target :=
  (s.registry.rules.lookup key).getD ∅

theorem RegistryEffect.lookup_of_ne {lib : ControlLib Sel}
    {r r' : Registry GroupVersionKind Namespace} {o : Op} {key : String}
    (h : RegistryEffect lib r o r') (hne : o.rule ≠ some key) :
    r'.rules.lookup key = r.rules.lookup key := by
  cases h with
  | upsert key' => exact Registry.lookup_upsert_of_ne fun he => hne (congrArg some he.symm)
  | remove key' => exact Registry.lookup_remove_of_ne fun he => hne (congrArg some he.symm)
  | none => rfl

theorem registry_invariant {lib : ControlLib Sel} {as : List (Action Sel)}
    {s : System Sel} (P : Target → Prop)
    (hP : ∀ tr key targets, Sanctioned lib tr (.upsert key targets) →
      ∀ t ∈ targets, ∀ sel, P { t with selector := sel })
    (hrun : Runs.Run (controlMachine lib).step (fun _ _ => True) { shared := {} } as s) :
    ∃ d, s.shared.registry.Serves d ∧ ∀ x ∈ d, P x.2 := by
  have hempty : ∃ d, (({} : ControlState).registry).Serves d ∧ ∀ x ∈ d, P x.2 :=
    ⟨∅, ⟨by simp, fun key => .inl ⟨rfl, rfl⟩⟩, by simp⟩
  refine (control_safe lib).invariant (I := fun v => ∃ d, v.shared.registry.Serves d ∧
    ∀ x ∈ d, P x.2) hrun ?_ hempty
  intro s a d v' hinv _ _ hmove
  generalize s.view (chronicle (Sanctioned lib)) (fun _ => []) = v at hinv hmove
  obtain ⟨d, hd, hall⟩ := hinv
  cases hmove with
  | start t b shared code hn hs =>
    have hshared : shared = v.shared := by
      cases t <;> cases b <;> cases hs <;> rfl
    exact ⟨d, hshared ▸ hd, hall⟩
  | exec t i o tr shared a hq hallow hans hx =>
    rw [chronicle_after] at hallow
    have heffect := exec_registry (t := t) hx
    show ∃ d, shared.registry.Serves d ∧ _
    generalize shared.registry = registry at heffect
    cases heffect with
    | upsert key targets adds drops =>
      cases hdes : Registry.desiredTargets lib.selectors key targets with
      | error err =>
        rw [Registry.upsert, hdes]
        exact ⟨d, hd, hall⟩
      | ok desired =>
        obtain ⟨d', hd', hmem⟩ := hd.upsert adds drops hdes
        refine ⟨d', hd', ?_⟩
        rintro ⟨rule, t⟩ hx
        rw [hmem] at hx
        split_ifs at hx with hr
        · obtain ⟨t', ht', hc⟩ := (Registry.mem_desiredTargets hdes t).mp hx
          obtain ⟨sel, -, rfl⟩ := Registry.canonicalizeTarget_ok hc
          exact hP _ _ _ hallow t' ht' sel
        · exact hall (rule, t) hx
    | remove key drops =>
      obtain ⟨d', hd', hmem⟩ := hd.remove drops key
      exact ⟨d', hd', fun x hx => hall _ ((hmem x.1 x.2).mp hx).2⟩
    | none => exact ⟨d, hd, hall⟩
  | finish t a p => exact ⟨d, hd, hall⟩
  | env e shared he =>
    cases e
    cases he
    exact ⟨d, ⟨hd.rules, hd.merged⟩, hall⟩
  | crash => exact hempty

end Control

end Kuberecord
