import Mathlib.Data.Prod.Lex
import Mathlib.Data.String.Basic
import Kuberecord.Warm

namespace Kuberecord

def KnownState.rank (x : KnownState) : ℕ ×ₗ String := toLex (x.ts, x.uid)

theorem newer_iff {x y : KnownState} : newer x y ↔ y.rank < x.rank := by
  rw [KnownState.rank, KnownState.rank, Prod.Lex.toLex_lt_toLex, newer, eq_comm]

variable {x : KnownState} {g : Group} {groups : List Group} {states : List KnownState}

theorem foldl_newer (rest : List KnownState) (head : KnownState) :
    let current := rest.foldl (fun current state => if newer state current then state else current) head
    current ∈ head :: rest ∧ ∀ x ∈ head :: rest, x.rank ≤ current.rank := by
  induction rest generalizing head with
  | nil => simp
  | cons state rest ih =>
    obtain ⟨hmem, hmax⟩ := ih (if newer state head then state else head)
    rw [List.forall_mem_cons] at hmax
    simp only [List.foldl_cons, List.forall_mem_cons]
    by_cases hn : newer state head
    · simp only [hn, ↓reduceIte] at hmem hmax ⊢
      exact ⟨.tail _ hmem, le_trans (le_of_lt (newer_iff.mp hn)) hmax.1, hmax.1, hmax.2⟩
    · simp only [hn, ↓reduceIte] at hmem hmax ⊢
      refine ⟨?_, hmax.1, le_trans (not_lt.mp (newer_iff.not.mp hn)) hmax.1, hmax.2⟩
      rcases List.mem_cons.mp hmem with h | h
      · exact List.mem_cons.mpr (.inl h)
      · exact .tail _ (.tail _ h)

theorem split_current_mem (g : Group) : (splitIncarnations g).1 ∈ g.states :=
  (foldl_newer g.rest g.head).1

theorem split_newer (hx : x ∈ g.states) (hu : x.uid ≠ (splitIncarnations g).1.uid) :
    newer (splitIncarnations g).1 x := by
  refine newer_iff.mpr (lt_of_le_of_ne ((foldl_newer g.rest g.head).2 x hx) fun h => hu ?_)
  exact (Prod.ext_iff.mp (toLex.injective h)).2

def Grouped (states : List KnownState) (groups : List Group) : Prop :=
  ∀ g ∈ groups, ∀ x ∈ g.states, x ∈ states ∧ x.identity = g.head.identity

theorem Grouped.addToGroup (h : Grouped states groups) (hx : x ∈ states) :
    Grouped states (addToGroup x groups) := by
  induction groups with
  | nil =>
    intro g hg y hy
    rw [List.mem_singleton.mp hg] at hy ⊢
    rw [List.mem_singleton.mp hy]
    exact ⟨hx, rfl⟩
  | cons g groups ih =>
    have hg := h g (.head _)
    have hgs : Grouped states groups := fun g' hg' => h g' (.tail _ hg')
    unfold Kuberecord.addToGroup
    split_ifs with hi
    · refine List.forall_mem_cons.mpr ⟨fun y hy => ?_, hgs⟩
      rcases List.mem_append.mp (show y ∈ g.states ++ [x] from hy) with hy | hy
      · exact hg y hy
      · rw [List.mem_singleton.mp hy]
        exact ⟨hx, hi.symm⟩
    · exact List.forall_mem_cons.mpr ⟨hg, ih hgs⟩

theorem groupByIdentity_grouped (states : List KnownState) :
    Grouped states (groupByIdentity states) := by
  refine List.foldlRecOn states _ (motive := Grouped states) (fun g hg => by cases hg) ?_
  exact fun groups h x hx => h.addToGroup hx

def identities (groups : List Group) : List (Namespace × String) := groups.map (fun g => g.head.identity)

theorem identities_addToGroup (x : KnownState) (groups : List Group) :
    identities (addToGroup x groups) =
      if x.identity ∈ identities groups then identities groups else identities groups ++
        [x.identity] := by
  unfold identities
  induction groups with
  | nil => rfl
  | cons g groups ih =>
    unfold Kuberecord.addToGroup
    by_cases hi : g.head.identity = x.identity
    · simp [hi]
    · simp only [hi, ↓reduceIte, List.map_cons, ih, List.mem_cons, Ne.symm hi, false_or]
      split_ifs <;> simp

theorem identities_nodup (states : List KnownState) : (identities (groupByIdentity states)).Nodup := by
  refine List.foldlRecOn states _ (motive := fun groups => (identities groups).Nodup) List.nodup_nil ?_
  intro groups h x _
  rw [identities_addToGroup]
  split_ifs with hm
  · exact h
  · refine List.nodup_append.mpr ⟨h, List.nodup_singleton _, ?_⟩
    rintro i hi _ hj rfl
    exact hm (List.mem_singleton.mp hj ▸ hi)

def Replaced (states : List KnownState) (x : KnownState) : Prop :=
  x ∈ states ∧ ∃ y ∈ states, y.identity = x.identity ∧ y.uid ≠ x.uid ∧ newer y x

theorem replaced_of_split (hg : g ∈ groupByIdentity states) (hx : x ∈ g.states)
    (hu : x.uid ≠ (splitIncarnations g).1.uid) : Replaced states x := by
  have hgrp := groupByIdentity_grouped states g hg
  have hc := hgrp _ (split_current_mem g)
  exact ⟨(hgrp x hx).1, _, hc.1, hc.2.trans (hgrp x hx).2.symm, Ne.symm hu, split_newer hx hu⟩

theorem split_prior_replaced (hg : g ∈ groupByIdentity states) (hx : x ∈ (splitIncarnations g).2) :
    Replaced states x := by
  obtain ⟨hm, hu⟩ := List.mem_filter.mp hx
  exact replaced_of_split hg hm (of_decide_eq_true hu)

theorem lookup_of_nodup (hn : (identities groups).Nodup) (hg : g ∈ groups) :
    (groups.map (fun g => (g.head.identity, (splitIncarnations g).1.uid))).lookup g.head.identity =
      some (splitIncarnations g).1.uid := by
  induction groups with
  | nil => cases hg
  | cons g' groups ih =>
    rw [identities, List.map_cons, List.nodup_cons] at hn
    rcases List.mem_cons.mp hg with rfl | hg
    · simp
    · have hne : g.head.identity ≠ g'.head.identity := fun h => hn.1 (h ▸ List.mem_map_of_mem hg)
      rw [List.map_cons, List.lookup_cons, beq_false_of_ne hne]
      exact ih hn.2 hg

theorem lookup_row {target : GcTarget} (h : (indexIncarnations states).1 target = some x) :
    ∃ g ∈ groupByIdentity states, x ∈ g.states ∧ x.target = target := by
  obtain ⟨l₁, l₂, hl, -⟩ := List.lookup_eq_some_iff.mp h
  have hm := List.mem_reverse.mp (hl ▸ List.mem_append_right l₁ (.head l₂))
  obtain ⟨g, hg, hm⟩ := List.mem_flatMap.mp hm
  obtain ⟨x', hx', heq⟩ := List.mem_map.mp hm
  cases heq
  exact ⟨g, hg, hx', rfl⟩

theorem closeable_replaced {pending : List GcTarget} {r : Reincarnation}
    (h : r ∈ (closeable states pending).1) :
    ∃ x, Replaced states x ∧ x.reincarnation = r := by
  obtain ⟨target, -, ht⟩ := List.mem_filterMap.mp h
  split_ifs at ht with hw
  obtain ⟨x, hx, rfl⟩ := Option.map_eq_some_iff.mp ht
  obtain ⟨g, hg, hxg, rfl⟩ := lookup_row hx
  refine ⟨x, replaced_of_split hg hxg fun hu => hw ?_, rfl⟩
  have hi := (groupByIdentity_grouped states g hg x hxg).2
  have hc : (indexIncarnations states).2 x.identity = some x.uid := by
    rw [hi, hu]
    exact lookup_of_nodup (identities_nodup states) hg
  simp only [hx, Option.isSome_some, Bool.true_and, beq_iff_eq]
  exact hc

end Kuberecord
