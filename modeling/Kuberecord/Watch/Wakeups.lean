import Kuberecord.Library.Runs
import Kuberecord.Registry

namespace Kuberecord

open Tallies

variable {Gvk Ns : Type} [DecidableEq Gvk] [DecidableEq Ns] {lib : SelectorLib Gvk Ns}

inductive LoopPhase
  | initial
  | waiting
  | debouncing
  | woken
  | ticked
  | reconciling
deriving DecidableEq

def LoopPhase.owes : LoopPhase → Bool
  | .initial | .debouncing | .woken => true
  | .waiting | .ticked | .reconciling => false

structure Following (Gvk Ns : Type) where
  registry : Registry Gvk Ns := {}
  phase : LoopPhase := .initial
  last : Option (Finmap (fun _ : TargetKey Gvk Ns => TargetState Gvk Ns)) := none

inductive FollowStep (Gvk Ns : Type)
  | upsert (adds drops : LoopOrder (WatchTarget Gvk Ns)) (ruleKey : String)
      (targets : List (WatchTarget Gvk Ns))
  | remove (drops : LoopOrder (WatchTarget Gvk Ns)) (ruleKey : String)
  | receive
  | elapse
  | settle
  | tick
  | snapshot (order : LoopOrder (TargetKey Gvk Ns))
  | finish

namespace Following

def step (lib : SelectorLib Gvk Ns) (s : Following Gvk Ns) :
    FollowStep Gvk Ns → Option (Following Gvk Ns)
  | .upsert adds drops ruleKey targets =>
    some { s with registry := (s.registry.upsert lib adds drops ruleKey targets).2 }
  | .remove drops ruleKey => some { s with registry := s.registry.remove drops ruleKey }
  | .receive =>
    -- the select of the loop and the one of `debounce` take the same notification
    if (s.phase = .waiting ∨ s.phase = .debouncing) ∧ s.registry.changes then
      some { s with registry := { s.registry with changes := false }, phase := .debouncing }
    else none
  | .elapse => if s.phase = .debouncing then some { s with phase := .woken } else none
  | .settle => if s.phase = .waiting then some s else none
  | .tick => if s.phase = .waiting then some { s with phase := .ticked } else none
  | .snapshot order =>
    if s.phase = .initial ∨ s.phase = .woken ∨ s.phase = .ticked then
      some { s with phase := .reconciling, last := some (s.registry.snapshot order) }
    else none
  | .finish => if s.phase = .reconciling then some { s with phase := .waiting } else none

def Current (s : Following Gvk Ns) : Prop := ∀ order, s.last = some (s.registry.snapshot order)

end Following

namespace Registry

theorem lookup_snapshot (order : LoopOrder (TargetKey Gvk Ns)) (r : Registry Gvk Ns)
    (key : TargetKey Gvk Ns) :
    (r.snapshot order).lookup key = if key ∈ r.targets.keys then
      some { key := key
             ruleKeys := ((r.targets.lookup key).getD ⟨∅, ∅, ∅⟩).rules.keys.sort
             selectors := ((r.targets.lookup key).getD ⟨∅, ∅, ∅⟩).selectors.keys.sort
             redactions := ((r.targets.lookup key).getD ⟨∅, ∅, ∅⟩).redactions.keys.sort }
    else none := by
  simp only [snapshot, lookup_foldl_insert, order.mem, Finmap.lookup_empty]

theorem snapshot_congr {r r' : Registry Gvk Ns} (h : r'.targets = r.targets)
    (order order' : LoopOrder (TargetKey Gvk Ns)) :
    r'.snapshot order' = r.snapshot order := by
  refine Finmap.ext_lookup fun key => ?_
  rw [lookup_snapshot, lookup_snapshot, h]

theorem upsert_quiet {adds drops : LoopOrder (WatchTarget Gvk Ns)} {r : Registry Gvk Ns}
    {ruleKey : String} {targets : List (WatchTarget Gvk Ns)}
    (h : (r.upsert lib adds drops ruleKey targets).2.changes = false) :
    r.changes = false ∧ (r.upsert lib adds drops ruleKey targets).2.targets = r.targets := by
  unfold upsert at h ⊢
  cases hd : desiredTargets lib ruleKey targets with
  | error err =>
    rw [hd] at h
    exact ⟨h, rfl⟩
  | ok desired =>
    simp only [hd] at h ⊢
    generalize (r.rules.lookup ruleKey).getD ∅ = current at h ⊢
    rw [foldl_skipping (· ∈ current) (addRefLocked · ruleKey),
      foldl_skipping (· ∈ desired) (dropRefLocked · ruleKey)]
      at h ⊢
    simp only [Bool.false_or, Bool.or_eq_false_iff, Bool.not_eq_false', List.isEmpty_iff] at h
    rw [h.2.1, h.2.2]
    exact ⟨h.1, rfl⟩

theorem remove_quiet {drops : LoopOrder (WatchTarget Gvk Ns)} {r : Registry Gvk Ns} {ruleKey : String}
    (h : (r.remove drops ruleKey).changes = false) :
    r.changes = false ∧ (r.remove drops ruleKey).targets = r.targets := by
  unfold remove at h ⊢
  split at h
  · exact ⟨h, rfl⟩
  · cases h

end Registry

namespace Following

variable {s s' : Following Gvk Ns}

def Abreast (s : Following Gvk Ns) : Prop :=
  s.phase.owes = false → s.registry.changes = false → s.Current

theorem Abreast.registry (h : s.Abreast) {r : Registry Gvk Ns}
    (hr : r.changes = false → s.registry.changes = false ∧ r.targets = s.registry.targets) :
    Abreast { s with registry := r } := by
  intro hp hc order
  obtain ⟨hold, htargets⟩ := hr hc
  rw [h hp hold order, Registry.snapshot_congr htargets]

theorem Abreast.step {a : FollowStep Gvk Ns} (h : s.Abreast) (hst : s.step lib a = some s') :
    s'.Abreast := by
  cases a with
  | upsert adds drops ruleKey targets =>
    cases hst
    exact h.registry Registry.upsert_quiet
  | remove drops ruleKey =>
    cases hst
    exact h.registry Registry.remove_quiet
  | receive | elapse =>
    simp only [Following.step, Option.ite_none_right_eq_some] at hst
    cases hst.2
    exact fun hp => by cases hp
  | settle =>
    simp only [Following.step, Option.ite_none_right_eq_some] at hst
    cases hst.2
    exact h
  | tick | finish =>
    simp only [Following.step, Option.ite_none_right_eq_some] at hst
    cases hst.2
    exact fun _ => h (by rw [hst.1]; rfl)
  | snapshot order =>
    simp only [Following.step, Option.ite_none_right_eq_some] at hst
    cases hst.2
    exact fun _ _ order' => congrArg some (Registry.snapshot_congr rfl order' order)

end Following

theorem no_lost_wakeup (lib : SelectorLib Gvk Ns) {steps : List (FollowStep Gvk Ns)}
    {s : Following Gvk Ns} (h : Runs.Run (Following.step lib) (fun _ _ => True) {} steps s)
    (hphase : s.phase.owes = false) (hchanges : s.registry.changes = false) :
    ∀ order, s.last = some (s.registry.snapshot order) :=
  h.invariant (I := Following.Abreast) (fun _ _ _ hi _ hst => hi.step hst)
    (fun hp => by cases hp) hphase hchanges

def plainSelectors : SelectorLib String String := ⟨.ok, fun s => s, fun s => s, fun s => s⟩

def podsFor (sink : String) : WatchTarget String String := ⟨sink, "Pod", "a", "", ""⟩

theorem late_rule_followed : ∃ steps s,
    Runs.Run (Following.step plainSelectors) (fun _ _ => True) {} steps s ∧
    s.registry.rules.lookup "r" = some {podsFor "s"} ∧
      ∀ order, s.last = some (s.registry.snapshot order) := by
  have hset : Registry.desiredTargets plainSelectors "r" [podsFor "s"] = .ok {podsFor "s"} := rfl
  let before : Following String String :=
    { phase := .waiting, last := some (Registry.snapshot (anyOrder _) ({} : Registry String String)) }
  let registry := (before.registry.upsert plainSelectors (anyOrder _) (anyOrder _) "r" [podsFor "s"]).2
  have hnews : registry.changes = true := by
    refine (Registry.upsert_changes hset).mpr (.inr ?_)
    simp [before]
  have hrule : registry.rules.lookup "r" = some {podsFor "s"} := by
    simp [registry, before, Registry.upsert, hset]
  have hfirst : Runs.Run (Following.step plainSelectors) (fun _ _ => True) {}
    [.snapshot (anyOrder _), .finish] before :=
    .snoc (.snoc .nil trivial rfl) trivial rfl
  have hupsert := hfirst.snoc trivial
    (show before.step plainSelectors (.upsert (anyOrder _) (anyOrder _) "r" [podsFor "s"]) =
    some _ from rfl)
  have hreceive := hupsert.snoc trivial
    (show Following.step plainSelectors { before with registry := registry } .receive = some _ from
      if_pos ⟨.inl rfl, hnews⟩)
  have hlast := (hreceive.snoc (a := .elapse) trivial rfl).snoc (a := .snapshot (anyOrder _)) trivial rfl
  exact ⟨_, _, hlast, hrule, no_lost_wakeup plainSelectors hlast rfl rfl⟩

end Kuberecord
