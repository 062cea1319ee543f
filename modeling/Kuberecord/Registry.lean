import Kuberecord.Library.Tallies
import Mathlib.Data.Finset.Sort
import Mathlib.Data.Finset.Union
import Mathlib.Data.String.Basic

namespace Kuberecord

open Tallies

noncomputable def anyOrder (α : Type) : LoopOrder α :=
  ⟨Finset.toList, Finset.nodup_toList, fun _ _ => Finset.mem_toList⟩

section

variable {Gvk Ns : Type} [DecidableEq Gvk] [DecidableEq Ns]

structure TargetKey (Gvk Ns : Type) where
  sink : String
  gvk : Gvk
  ns : Ns
deriving DecidableEq

structure WatchTarget (Gvk Ns : Type) where
  sink : String
  gvk : Gvk
  ns : Ns
  selector : String
  redaction : String
deriving DecidableEq

def WatchTarget.key (t : WatchTarget Gvk Ns) : TargetKey Gvk Ns := ⟨t.sink, t.gvk, t.ns⟩

structure TargetState (Gvk Ns : Type) where
  key : TargetKey Gvk Ns
  ruleKeys : List String
  selectors : List String
  redactions : List String

/-- `labels.Parse` followed by `String`, and how error texts spell strings, kinds and namespaces. -/
structure SelectorLib (Gvk Ns : Type) where
  parse : String → Except String String
  quote : String → String
  gvkText : Gvk → String
  nsText : Ns → String

structure TargetEntry where
  rules : Tally String
  selectors : Tally String
  redactions : Tally String

structure Registry (Gvk Ns : Type) where
  rules : Finmap (fun _ : String => Finset (WatchTarget Gvk Ns)) := ∅
  targets : Finmap (fun _ : TargetKey Gvk Ns => TargetEntry) := ∅
  -- the notification channel has room for one element
  changes : Bool := false

def canonicalizeSelectorString (lib : SelectorLib Gvk Ns) (s : String) : Except String String :=
  if s = "" then .ok ""
  else
    match lib.parse s with
    | .error err => .error ("parse label selector " ++ lib.quote s ++ ": " ++ err)
    | .ok sel => .ok sel

namespace Registry

def addRefLocked (targets : Finmap (fun _ : TargetKey Gvk Ns => TargetEntry)) (ruleKey : String)
    (t : WatchTarget Gvk Ns) : Finmap (fun _ : TargetKey Gvk Ns => TargetEntry) :=
  let entry := (targets.lookup t.key).getD ⟨∅, ∅, ∅⟩
  targets.insert t.key
    { rules := entry.rules.incr ruleKey
      selectors := entry.selectors.incr t.selector
      redactions := if t.redaction = "" then entry.redactions else entry.redactions.incr t.redaction }

def dropRefLocked (targets : Finmap (fun _ : TargetKey Gvk Ns => TargetEntry)) (ruleKey : String)
    (t : WatchTarget Gvk Ns) : Finmap (fun _ : TargetKey Gvk Ns => TargetEntry) :=
  match targets.lookup t.key with
  | none => targets
  | some entry =>
    let entry : TargetEntry :=
      { rules := entry.rules.decr ruleKey
        selectors := entry.selectors.decr t.selector
        redactions := if t.redaction = "" then entry.redactions else entry.redactions.decr t.redaction }
    if entry.rules.keys = ∅ then targets.erase t.key else targets.insert t.key entry

def canonicalizeTarget (lib : SelectorLib Gvk Ns) (ruleKey : String) (t : WatchTarget Gvk Ns) :
    Except String (WatchTarget Gvk Ns) :=
  match canonicalizeSelectorString lib t.selector with
  | .error err => .error ("rule " ++ lib.quote ruleKey ++ ": target " ++ lib.gvkText t.gvk ++
      " in namespace " ++
      lib.quote (lib.nsText t.ns) ++ ": " ++ err)
  | .ok sel => .ok { t with selector := sel }

def desiredTargets (lib : SelectorLib Gvk Ns) (ruleKey : String) (targets : List (WatchTarget Gvk Ns)) :
    Except String (Finset (WatchTarget Gvk Ns)) :=
  targets.foldlM (fun desired t => do
    let t ← canonicalizeTarget lib ruleKey t
    return insert t desired) ∅

def upsert (lib : SelectorLib Gvk Ns) (adds drops : LoopOrder (WatchTarget Gvk Ns)) (r : Registry Gvk Ns)
    (ruleKey : String) (targets : List (WatchTarget Gvk Ns)) : Except String Unit × Registry Gvk Ns :=
  match desiredTargets lib ruleKey targets with
  | .error err => (.error err, r)
  | .ok desired =>
    -- both loops range over maps, so either may take any order
    let current := (r.rules.lookup ruleKey).getD ∅
    let added := (adds.list desired).foldl (fun (acc : _ × Bool) t =>
      if t ∈ current then acc else (addRefLocked acc.1 ruleKey t, true)) (r.targets, false)
    let dropped := (drops.list current).foldl (fun (acc : _ × Bool) t =>
      if t ∈ desired then acc else (dropRefLocked acc.1 ruleKey t, true)) added
    (.ok (), {
      rules := if desired = ∅ then r.rules.erase ruleKey else r.rules.insert ruleKey desired
      targets := dropped.1
      changes := r.changes || dropped.2 })

def remove (drops : LoopOrder (WatchTarget Gvk Ns)) (r : Registry Gvk Ns) (ruleKey : String) :
    Registry Gvk Ns :=
  match r.rules.lookup ruleKey with
  | none => r
  | some current =>
    { rules := r.rules.erase ruleKey
      targets := (drops.list current).foldl (fun acc t => dropRefLocked acc ruleKey t) r.targets
      changes := true }

def snapshot (order : LoopOrder (TargetKey Gvk Ns)) (r : Registry Gvk Ns) :
    Finmap (fun _ : TargetKey Gvk Ns => TargetState Gvk Ns) :=
  (order.list r.targets.keys).foldl (fun out key =>
    let entry := (r.targets.lookup key).getD ⟨∅, ∅, ∅⟩
    out.insert key
      { key := key
        ruleKeys := entry.rules.keys.sort
        selectors := entry.selectors.keys.sort
        redactions := entry.redactions.keys.sort }) ∅

def rulesForSink (r : Registry Gvk Ns) (sinkName : String) : List String :=
  ((r.targets.keys.filter (·.sink = sinkName)).biUnion fun key =>
    ((r.targets.lookup key).getD ⟨∅, ∅, ∅⟩).rules.keys).sort

def targetCountForRule (r : Registry Gvk Ns) (ruleKey : String) : Nat :=
  (((r.rules.lookup ruleKey).getD ∅).image WatchTarget.key).card

end Registry

inductive Call (Gvk Ns : Type) where
  | upsert (adds drops : LoopOrder (WatchTarget Gvk Ns)) (ruleKey : String)
      (targets : List (WatchTarget Gvk Ns))
  | remove (drops : LoopOrder (WatchTarget Gvk Ns)) (ruleKey : String)
  | receive

def Registry.step (lib : SelectorLib Gvk Ns) (r : Registry Gvk Ns) : Call Gvk Ns → Registry Gvk Ns
  | .upsert adds drops ruleKey targets => (r.upsert lib adds drops ruleKey targets).2
  | .remove drops ruleKey => r.remove drops ruleKey
  | .receive => { r with changes := false }

def Registry.run (lib : SelectorLib Gvk Ns) (calls : List (Call Gvk Ns)) : Registry Gvk Ns :=
  calls.foldl (Registry.step lib) {}

def canonicalTargets (lib : SelectorLib Gvk Ns) (targets : List (WatchTarget Gvk Ns)) :
    Option (Finset (WatchTarget Gvk Ns)) :=
  (targets.mapM fun t => (canonicalizeSelectorString lib t.selector).toOption.map fun sel =>
    { t with selector := sel }).map List.toFinset

def Call.revise (lib : SelectorLib Gvk Ns) (ruleKey : String) (desired : Finset (WatchTarget Gvk Ns)) :
    Call Gvk Ns → Finset (WatchTarget Gvk Ns)
  | .upsert _ _ rule targets => if rule = ruleKey then
    (canonicalTargets lib targets).getD desired else desired
  | .remove _ rule => if rule = ruleKey then ∅ else desired
  | .receive => desired

def desiredBy (lib : SelectorLib Gvk Ns) (ruleKey : String) (calls : List (Call Gvk Ns)) :
    Finset (WatchTarget Gvk Ns) :=
  calls.foldl (Call.revise lib ruleKey) ∅

def Call.rule : Call Gvk Ns → Option String
  | .upsert _ _ ruleKey _ | .remove _ ruleKey => some ruleKey
  | .receive => none

def demand (lib : SelectorLib Gvk Ns) (calls : List (Call Gvk Ns)) :
    Finset (String × WatchTarget Gvk Ns) :=
  (calls.filterMap Call.rule).toFinset.biUnion fun rule => (desiredBy lib rule calls).image (rule, ·)

def mergedState (d : Finset (String × WatchTarget Gvk Ns)) (key : TargetKey Gvk Ns) :
    Option (TargetState Gvk Ns) :=
  let here := d.filter (·.2.key = key)
  if here = ∅ then none
  else some
    { key := key
      ruleKeys := (here.image (·.1)).sort
      selectors := (here.image (·.2.selector)).sort
      redactions := ((here.image (·.2.redaction)).erase "").sort }

def mergedRules (d : Finset (String × WatchTarget Gvk Ns)) (sinkName : String) : List String :=
  ((d.filter (·.2.sink = sinkName)).image (·.1)).sort

theorem desiredBy_snoc (lib : SelectorLib Gvk Ns) (rule : String) (calls : List (Call Gvk Ns))
    (c : Call Gvk Ns) :
    desiredBy lib rule (calls ++ [c]) = c.revise lib rule (desiredBy lib rule calls) := by
  simp [desiredBy]

theorem Call.revise_of_ne {lib : SelectorLib Gvk Ns} {rule : String}
    {desired : Finset (WatchTarget Gvk Ns)} {c : Call Gvk Ns} (h : c.rule ≠ some rule) :
    c.revise lib rule desired = desired := by
  cases c with
  | upsert | remove => exact if_neg fun hr => h (congrArg some hr)
  | receive => rfl

theorem mem_demand {lib : SelectorLib Gvk Ns} {calls : List (Call Gvk Ns)} {rule : String}
    {t : WatchTarget Gvk Ns} :
    (rule, t) ∈ demand lib calls ↔ t ∈ desiredBy lib rule calls := by
  have named (h : t ∈ desiredBy lib rule calls) : rule ∈ calls.filterMap Call.rule := by
    induction calls using List.reverseRecOn with
    | nil => simp [desiredBy] at h
    | append_singleton calls c ih =>
      rw [List.filterMap_append, List.mem_append]
      rw [desiredBy_snoc] at h
      by_cases hc : c.rule = some rule
      · exact .inr (by simp [hc])
      · rw [Call.revise_of_ne hc] at h
        exact .inl (ih h)
  simp only [demand, Finset.mem_biUnion, List.mem_toFinset, Finset.mem_image, Prod.mk.injEq]
  constructor
  · rintro ⟨_, -, _, h, rfl, rfl⟩
    exact h
  · exact fun h => ⟨rule, named h, t, h, rfl, rfl⟩

structure TargetEntry.Merges (e : TargetEntry) (here : Finset (String × WatchTarget Gvk Ns)) : Prop where
  rules : e.rules.Counts (here.val.map (·.1))
  selectors : e.selectors.Counts (here.val.map (·.2.selector))
  redactions : e.redactions.Counts ((here.filter (·.2.redaction ≠ "")).val.map (·.2.redaction))

def Merged (targets : Finmap (fun _ : TargetKey Gvk Ns => TargetEntry))
    (d : Finset (String × WatchTarget Gvk Ns)) : Prop :=
  ∀ key, (d.filter (·.2.key = key) = ∅ ∧ targets.lookup key = none) ∨
    d.filter (·.2.key = key) ≠ ∅ ∧ ∃ e, targets.lookup key = some e ∧ e.Merges (d.filter (·.2.key = key))

namespace TargetEntry.Merges

variable {e : TargetEntry} {here : Finset (String × WatchTarget Gvk Ns)} {rule : String}
  {t : WatchTarget Gvk Ns}

omit [DecidableEq Gvk] [DecidableEq Ns] in
theorem empty : (⟨∅, ∅, ∅⟩ : TargetEntry).Merges (∅ : Finset (String × WatchTarget Gvk Ns)) :=
  ⟨.empty, .empty, .empty⟩

theorem insert (h : e.Merges here) (hx : (rule, t) ∉ here) :
    TargetEntry.Merges
      { rules := e.rules.incr rule
        selectors := e.selectors.incr t.selector
        redactions := if t.redaction = "" then e.redactions else e.redactions.incr t.redaction }
      (insert (rule, t) here) := by
  refine ⟨?_, ?_, ?_⟩
  · simpa [Finset.insert_val_of_notMem hx] using h.rules.incr rule
  · simpa [Finset.insert_val_of_notMem hx] using h.selectors.incr t.selector
  · by_cases hr : t.redaction = ""
    · simpa [Finset.filter_insert, hr] using h.redactions
    · have hx' : (rule, t) ∉ here.filter (·.2.redaction ≠ "") := fun hm => hx (Finset.mem_of_mem_filter _ hm)
      simpa [Finset.filter_insert, hr, Finset.insert_val_of_notMem hx'] using h.redactions.incr t.redaction

theorem erase (h : e.Merges here) (hx : (rule, t) ∈ here) :
    TargetEntry.Merges
      { rules := e.rules.decr rule
        selectors := e.selectors.decr t.selector
        redactions := if t.redaction = "" then e.redactions else e.redactions.decr t.redaction }
      (here.erase (rule, t)) := by
  refine ⟨?_, ?_, ?_⟩
  · rw [Finset.erase_val, Multiset.map_erase_of_mem _ _ hx]
    exact h.rules.decr (Multiset.mem_map_of_mem _ hx)
  · rw [Finset.erase_val, Multiset.map_erase_of_mem _ _ hx]
    exact h.selectors.decr (Multiset.mem_map_of_mem _ hx)
  · rw [Finset.filter_erase]
    by_cases hr : t.redaction = ""
    · rw [Finset.erase_eq_of_notMem (by simp [hr])]
      simpa [hr] using h.redactions
    · have hx' : (rule, t) ∈ here.filter (·.2.redaction ≠ "") := by simp [hx, hr]
      rw [Finset.erase_val, Multiset.map_erase_of_mem _ _ hx', if_neg hr]
      exact h.redactions.decr (Multiset.mem_map_of_mem _ hx')

omit [DecidableEq Gvk] [DecidableEq Ns] in
theorem rules_keys (h : e.Merges here) : e.rules.keys = here.image (·.1) := h.rules.keys

end TargetEntry.Merges

namespace Merged

variable {targets : Finmap (fun _ : TargetKey Gvk Ns => TargetEntry)}
  {d : Finset (String × WatchTarget Gvk Ns)}
  {rule : String} {t : WatchTarget Gvk Ns}

theorem addRefLocked (h : Merged targets d) (hx : (rule, t) ∉ d) :
    Merged (Registry.addRefLocked targets rule t) (insert (rule, t) d) := by
  intro key
  by_cases hk : key = t.key
  · subst hk
    have hx' : (rule, t) ∉ d.filter (·.2.key = t.key) := fun hm => hx (Finset.mem_of_mem_filter _ hm)
    rw [Finset.filter_insert, if_pos rfl]
    refine .inr ⟨Finset.insert_ne_empty _ _, _, Finmap.lookup_insert .., ?_⟩
    rcases h t.key with ⟨hd, hl⟩ | ⟨-, e, hl, he⟩
    · rw [hl, hd]
      exact TargetEntry.Merges.empty.insert (by simp)
    · rw [hl]
      exact he.insert hx'
  · rw [Finset.filter_insert, if_neg (Ne.symm hk), Registry.addRefLocked,
      Finmap.lookup_insert_of_ne _ hk]
    exact h key

theorem dropRefLocked (h : Merged targets d) (hx : (rule, t) ∈ d) :
    Merged (Registry.dropRefLocked targets rule t) (d.erase (rule, t)) := by
  have hx' : (rule, t) ∈ d.filter (·.2.key = t.key) := by simp [hx]
  rcases h t.key with ⟨hd, -⟩ | ⟨-, e, hl, he⟩
  · simp [hd] at hx'
  have he' := he.erase hx'
  intro key
  rw [Finset.filter_erase]
  simp only [Registry.dropRefLocked, hl, he'.rules_keys, Finset.image_eq_empty]
  by_cases hk : key = t.key
  · subst hk
    by_cases hempty : (d.filter (·.2.key = t.key)).erase (rule, t) = ∅
    · rw [if_pos hempty]
      exact .inl ⟨hempty, Finmap.lookup_erase ..⟩
    · rw [if_neg hempty]
      exact .inr ⟨hempty, _, Finmap.lookup_insert .., he'⟩
  · have hn : (rule, t) ∉ d.filter (·.2.key = key) := fun hm => hk (Finset.mem_filter.mp hm).2.symm
    rw [Finset.erase_eq_of_notMem hn]
    by_cases hempty : (d.filter (·.2.key = t.key)).erase (rule, t) = ∅
    · rw [if_pos hempty, Finmap.lookup_erase_ne hk]
      exact h key
    · rw [if_neg hempty, Finmap.lookup_insert_of_ne _ hk]
      exact h key

theorem adds {l : List (WatchTarget Gvk Ns)} (h : Merged targets d) (hl : l.Nodup)
    (hd : ∀ t ∈ l, (rule, t) ∉ d) :
    ∃ d', Merged (l.foldl (Registry.addRefLocked · rule) targets) d' ∧
      ∀ x, x ∈ d' ↔ x ∈ d ∨ x.1 = rule ∧ x.2 ∈ l := by
  induction l generalizing targets d with
  | nil => exact ⟨d, h, by simp⟩
  | cons t l ih =>
    obtain ⟨ht, hl⟩ := List.nodup_cons.mp hl
    have hrest (t') (ht' : t' ∈ l) : (rule, t') ∉ insert (rule, t) d := by
      simp only [Finset.mem_insert, Prod.mk.injEq, true_and, not_or]
      exact ⟨fun he => ht (he ▸ ht'), hd t' (.tail _ ht')⟩
    obtain ⟨d', hm, hx⟩ := ih (h.addRefLocked (hd t (.head _))) hl hrest
    refine ⟨d', hm, fun x => ?_⟩
    rw [hx, List.mem_cons, Finset.mem_insert, Prod.ext_iff]
    tauto

theorem drops {l : List (WatchTarget Gvk Ns)} (h : Merged targets d) (hl : l.Nodup)
    (hd : ∀ t ∈ l, (rule, t) ∈ d) :
    ∃ d', Merged (l.foldl (Registry.dropRefLocked · rule) targets) d' ∧
      ∀ x, x ∈ d' ↔ x ∈ d ∧ ¬ (x.1 = rule ∧ x.2 ∈ l) := by
  induction l generalizing targets d with
  | nil => exact ⟨d, h, by simp⟩
  | cons t l ih =>
    obtain ⟨ht, hl⟩ := List.nodup_cons.mp hl
    have hrest (t') (ht' : t' ∈ l) : (rule, t') ∈ d.erase (rule, t) := by
      simp only [Finset.mem_erase, Ne, Prod.mk.injEq, true_and]
      exact ⟨fun he => ht (he ▸ ht'), hd t' (.tail _ ht')⟩
    obtain ⟨d', hm, hx⟩ := ih (h.dropRefLocked (hd t (.head _))) hl hrest
    refine ⟨d', hm, fun x => ?_⟩
    rw [hx, List.mem_cons, Finset.mem_erase, Ne, Prod.ext_iff]
    tauto

end Merged

omit [DecidableEq Gvk] [DecidableEq Ns] in
theorem canonicalizeTarget_toOption (lib : SelectorLib Gvk Ns) (rule : String) (t : WatchTarget Gvk Ns) :
    (Registry.canonicalizeTarget lib rule t).toOption =
      (canonicalizeSelectorString lib t.selector).toOption.map fun sel =>
        { t with selector := sel } := by
  unfold Registry.canonicalizeTarget
  cases canonicalizeSelectorString lib t.selector <;> rfl

theorem desiredTargets_toOption (lib : SelectorLib Gvk Ns) (rule : String)
    (targets : List (WatchTarget Gvk Ns)) :
    (Registry.desiredTargets lib rule targets).toOption = canonicalTargets lib targets := by
  have go (desired : Finset (WatchTarget Gvk Ns)) :
      (targets.foldlM (fun desired t => do
        let t ← Registry.canonicalizeTarget lib rule t
        return insert t desired) desired).toOption =
      (targets.mapM fun t => (Registry.canonicalizeTarget lib rule t).toOption).map
      (desired ∪ ·.toFinset) := by
    induction targets generalizing desired with
    | nil => simp [Except.toOption, pure, Except.pure]
    | cons t targets ih =>
      rw [List.foldlM_cons, List.mapM_cons]
      cases Registry.canonicalizeTarget lib rule t with
      | error err => rfl
      | ok t' =>
        refine (ih (insert t' desired)).trans ?_
        cases targets.mapM fun t => (Registry.canonicalizeTarget lib rule t).toOption with
        | none => rfl
        | some l =>
          simp only [Except.toOption, Option.map_some, Option.pure_def, Option.bind_eq_bind,
            Option.bind_some, List.toFinset_cons, Option.some.injEq]
          rw [Finset.insert_union, Finset.union_insert]
  rw [Registry.desiredTargets, go, canonicalTargets]
  simp only [canonicalizeTarget_toOption, Finset.empty_union]

structure Registry.Serves (r : Registry Gvk Ns) (d : Finset (String × WatchTarget Gvk Ns)) : Prop where
  rules : ∀ rule t, (rule, t) ∈ d ↔ t ∈ (r.rules.lookup rule).getD ∅
  merged : Merged r.targets d

namespace Registry

variable {r : Registry Gvk Ns} {d : Finset (String × WatchTarget Gvk Ns)} {lib : SelectorLib Gvk Ns}
  {rule : String}

theorem Serves.upsert (h : r.Serves d) (adds drops : LoopOrder (WatchTarget Gvk Ns))
    {targets : List (WatchTarget Gvk Ns)} {desired : Finset (WatchTarget Gvk Ns)}
    (hd : desiredTargets lib rule targets = .ok desired) :
    ∃ d', (r.upsert lib adds drops rule targets).2.Serves d' ∧
      ∀ rule' t, (rule', t) ∈ d' ↔ if rule' = rule then t ∈ desired else (rule', t) ∈ d := by
  have hrule := h.rules rule
  simp only [Registry.upsert, hd]
  generalize (r.rules.lookup rule).getD ∅ = current at hrule ⊢
  rw [foldl_skipping (· ∈ current) (addRefLocked · rule),
    foldl_skipping (· ∈ desired) (dropRefLocked · rule)]
  have hnew (t) (ht : t ∈ (adds.list desired).filter (fun a => ¬ a ∈ current)) : (rule, t) ∉ d := by
    simp only [List.mem_filter, decide_eq_true_eq] at ht
    exact fun hm => ht.2 ((hrule t).mp hm)
  obtain ⟨d₁, hm₁, hx₁⟩ := h.merged.adds ((adds.nodup desired).filter _) hnew
  have hold (t) (ht : t ∈ (drops.list current).filter (fun a => ¬ a ∈ desired)) : (rule, t) ∈ d₁ := by
    simp only [List.mem_filter, drops.mem] at ht
    exact (hx₁ _).mpr (.inl ((hrule t).mpr ht.1))
  obtain ⟨d₂, hm₂, hx₂⟩ := hm₁.drops ((drops.nodup current).filter _) hold
  have hmem (rule' t) : (rule', t) ∈ d₂ ↔ if rule' = rule then t ∈ desired else (rule', t) ∈ d := by
    simp only [hx₂, hx₁, List.mem_filter, adds.mem, drops.mem, decide_eq_true_eq]
    split_ifs with hr
    · subst hr
      rw [hrule]
      tauto
    · tauto
  refine ⟨d₂, ⟨fun rule' t => ?_, hm₂⟩, hmem⟩
  rw [hmem]
  by_cases hr : rule' = rule
  · subst hr
    by_cases hempty : desired = ∅
    · simp [hempty]
    · simp [hempty, Finmap.lookup_insert]
  · by_cases hempty : desired = ∅
    · simp [hempty, hr, Finmap.lookup_erase_ne hr, h.rules]
    · simp [hempty, hr, Finmap.lookup_insert_of_ne _ hr, h.rules]

theorem Serves.remove (h : r.Serves d) (drops : LoopOrder (WatchTarget Gvk Ns)) (rule : String) :
    ∃ d', (r.remove drops rule).Serves d' ∧ ∀ rule' t, (rule', t) ∈ d' ↔ rule' ≠ rule ∧
      (rule', t) ∈ d := by
  unfold Registry.remove
  cases hr : r.rules.lookup rule with
  | none =>
    refine ⟨d, h, fun rule' t => ⟨fun hm => ⟨?_, hm⟩, And.right⟩⟩
    rintro rfl
    simp [h.rules, hr] at hm
  | some current =>
    have hrule (t) : (rule, t) ∈ d ↔ t ∈ current := by rw [h.rules, hr, Option.getD_some]
    obtain ⟨d', hm, hx⟩ := h.merged.drops (drops.nodup current)
      (fun t ht => (hrule t).mpr ((drops.mem _ _).mp ht))
    have hmem (rule' t) : (rule', t) ∈ d' ↔ rule' ≠ rule ∧ (rule', t) ∈ d := by
      rw [hx, drops.mem]
      constructor
      · rintro ⟨hd, hn⟩
        exact ⟨fun he => hn ⟨he, (hrule t).mp (he ▸ hd)⟩, hd⟩
      · rintro ⟨hn, hd⟩
        exact ⟨hd, fun he => hn he.1⟩
    refine ⟨d', ⟨fun rule' t => ?_, hm⟩, hmem⟩
    rw [hmem]
    by_cases he : rule' = rule
    · subst he
      simp
    · simp [he, Finmap.lookup_erase_ne he, h.rules]

theorem Serves.step {calls : List (Call Gvk Ns)} (h : r.Serves (demand lib calls)) (c : Call Gvk Ns) :
    (r.step lib c).Serves (demand lib (calls ++ [c])) := by
  cases c with
  | upsert adds drops rule targets =>
    have hcanon := desiredTargets_toOption lib rule targets
    cases hd : desiredTargets lib rule targets with
    | error err =>
      rw [hd] at hcanon
      have hsame : demand lib (calls ++ [.upsert adds drops rule targets]) = demand lib calls := by
        ext ⟨rule', t⟩
        simp only [mem_demand, desiredBy_snoc, Call.revise, ← hcanon, Except.toOption,
          Option.getD_none, ite_self]
      simp only [Registry.step, Registry.upsert, hd, hsame]
      exact h
    | ok desired =>
      rw [hd] at hcanon
      obtain ⟨d', hs, hx⟩ := h.upsert adds drops hd
      obtain rfl : d' = demand lib (calls ++ [.upsert adds drops rule targets]) := by
        ext ⟨rule', t⟩
        rw [hx, mem_demand, mem_demand, desiredBy_snoc]
        simp only [Call.revise, ← hcanon, Except.toOption, Option.getD_some, eq_comm (a := rule)]
        split_ifs <;> rfl
      exact hs
  | remove drops rule =>
    obtain ⟨d', hs, hx⟩ := h.remove drops rule
    obtain rfl : d' = demand lib (calls ++ [.remove drops rule]) := by
      ext ⟨rule', t⟩
      rw [hx, mem_demand, mem_demand, desiredBy_snoc]
      by_cases he : rule' = rule
      · simp [Call.revise, he]
      · simp [Call.revise, he, Ne.symm he]
    exact hs
  | receive =>
    have hsame : demand lib (calls ++ [.receive]) = demand lib calls := by
      ext ⟨rule', t⟩
      simp only [mem_demand, desiredBy_snoc, Call.revise]
    rw [hsame]
    exact ⟨h.rules, h.merged⟩

theorem run_serves (lib : SelectorLib Gvk Ns) (calls : List (Call Gvk Ns)) :
    (run lib calls).Serves (demand lib calls) := by
  induction calls using List.reverseRecOn with
  | nil =>
    refine ⟨fun rule t => ?_, fun key => .inl ⟨rfl, rfl⟩⟩
    simp [run, demand]
  | append_singleton calls c ih =>
    rw [run, List.foldl_append]
    exact ih.step c

theorem Serves.snapshot (h : r.Serves d) (order : LoopOrder (TargetKey Gvk Ns))
    (key : TargetKey Gvk Ns) :
    (r.snapshot order).lookup key = mergedState d key := by
  have hkey : key ∈ order.list r.targets.keys ↔ (r.targets.lookup key).isSome = true := by
    rw [order.mem, Finmap.mem_keys, Finmap.lookup_isSome]
  rw [Registry.snapshot, lookup_foldl_insert, mergedState]
  rcases h.merged key with ⟨hd, hl⟩ | ⟨hd, e, hl, he⟩
  · rw [if_neg (by simp [hkey, hl]), if_pos hd, Finmap.lookup_empty]
  · have hred : e.redactions.keys = ((d.filter (·.2.key = key)).image (·.2.redaction)).erase "" := by
      rw [he.redactions.keys]
      ext s
      simp only [Multiset.mem_toFinset, Multiset.mem_map, Finset.mem_val, Finset.mem_filter,
        Finset.mem_erase, Finset.mem_image]
      constructor
      · rintro ⟨x, ⟨hx, hne⟩, rfl⟩
        exact ⟨hne, x, hx, rfl⟩
      · rintro ⟨hne, x, hx, rfl⟩
        exact ⟨x, ⟨hx, hne⟩, rfl⟩
    rw [if_pos (by simp [hkey, hl]), if_neg hd, hl]
    simp only [Option.getD_some, he.rules.keys, he.selectors.keys, hred]
    rfl

theorem Serves.rulesForSink (h : r.Serves d) (sinkName : String) :
    r.rulesForSink sinkName = mergedRules d sinkName := by
  rw [Registry.rulesForSink, mergedRules]
  congr 1
  ext rule
  simp only [Finset.mem_biUnion, Finset.mem_filter, Finset.mem_image]
  constructor
  · rintro ⟨key, ⟨hk, hs⟩, hr⟩
    rcases h.merged key with ⟨-, hl⟩ | ⟨-, e, hl, he⟩
    · exact absurd (Finmap.mem_keys.mp hk) (Finmap.lookup_eq_none.mp hl)
    · rw [hl, Option.getD_some, he.rules_keys, Finset.mem_image] at hr
      obtain ⟨x, hx, rfl⟩ := hr
      obtain ⟨hd, rfl⟩ := Finset.mem_filter.mp hx
      exact ⟨x, ⟨hd, hs⟩, rfl⟩
  · rintro ⟨x, ⟨hx, hs⟩, rfl⟩
    have hx' : x ∈ d.filter (·.2.key = x.2.key) := by simp [hx]
    rcases h.merged x.2.key with ⟨hd, -⟩ | ⟨-, e, hl, he⟩
    · simp [hd] at hx'
    · refine ⟨x.2.key, ⟨Finmap.mem_keys.mpr (Finmap.mem_of_lookup_eq_some hl), hs⟩, ?_⟩
      rw [hl, Option.getD_some, he.rules_keys]
      exact Finset.mem_image_of_mem _ hx'

theorem Serves.targetCountForRule {calls : List (Call Gvk Ns)} (h : r.Serves (demand lib calls))
    (rule : String) :
    r.targetCountForRule rule = ((desiredBy lib rule calls).image WatchTarget.key).card := by
  have hrule : (r.rules.lookup rule).getD ∅ = desiredBy lib rule calls := by
    ext t
    rw [← h.rules, mem_demand]
  rw [Registry.targetCountForRule, hrule]

theorem upsert_changes {adds drops : LoopOrder (WatchTarget Gvk Ns)}
    {targets : List (WatchTarget Gvk Ns)} {desired : Finset (WatchTarget Gvk Ns)}
    (hd : desiredTargets lib rule targets = .ok desired) :
    (r.upsert lib adds drops rule targets).2.changes = true ↔
      r.changes = true ∨ desired ≠ (r.rules.lookup rule).getD ∅ := by
  simp only [Registry.upsert, hd]
  generalize (r.rules.lookup rule).getD ∅ = current
  rw [foldl_skipping (· ∈ current) (addRefLocked · rule),
    foldl_skipping (· ∈ desired) (dropRefLocked · rule)]
  simp only [Bool.false_or, Bool.or_eq_true, Bool.not_eq_true', List.isEmpty_eq_false_iff, ne_eq,
    List.filter_eq_nil_iff, adds.mem, drops.mem, decide_eq_true_eq, not_not]
  rw [← not_and_or, ← Finset.subset_iff, ← Finset.subset_iff, ← Finset.Subset.antisymm_iff]

theorem upsert_failed {adds drops : LoopOrder (WatchTarget Gvk Ns)}
    {targets : List (WatchTarget Gvk Ns)} {err : String}
    (h : (r.upsert lib adds drops rule targets).1 = .error err) :
    (r.upsert lib adds drops rule targets).2 = r := by
  unfold Registry.upsert at h ⊢
  cases hd : desiredTargets lib rule targets with
  | error _ => rfl
  | ok desired => simp [hd] at h

end Registry

theorem registry_refines (lib : SelectorLib Gvk Ns) (calls : List (Call Gvk Ns)) :
    (∀ order key, ((Registry.run lib calls).snapshot order).lookup key =
      mergedState (demand lib calls) key) ∧
      (∀ sinkName, (Registry.run lib calls).rulesForSink sinkName =
          mergedRules (demand lib calls) sinkName) ∧
      (∀ rule, (Registry.run lib calls).targetCountForRule rule =
        ((desiredBy lib rule calls).image WatchTarget.key).card) ∧
      ∀ adds drops rule targets err,
        ((Registry.run lib calls).upsert lib adds drops rule targets).1 = .error err →
        ((Registry.run lib calls).upsert lib adds drops rule targets).2 = Registry.run lib calls := by
  have h := Registry.run_serves lib calls
  exact ⟨h.snapshot, h.rulesForSink, h.targetCountForRule, fun _ _ _ _ _ => Registry.upsert_failed⟩

end

end Kuberecord
