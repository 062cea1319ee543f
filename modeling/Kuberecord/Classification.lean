import Mathlib.Data.List.Perm.Basic
import Kuberecord.Custody.Warm
import Kuberecord.Library.Chronicles

namespace Kuberecord

open Threads

def currentStates (states : List KnownState) : List KnownState :=
  (groupByIdentity states).map fun g => (splitIncarnations g).1

def unclosedPriors (states : List KnownState) : List KnownState :=
  (groupByIdentity states).flatMap fun g => (splitIncarnations g).2

def Distinct (states : List KnownState) : Prop := (states.map KnownState.target).Nodup

instance (states : List KnownState) : Decidable (Distinct states) :=
  inferInstanceAs (Decidable (List.Nodup _))

variable {states states' : List KnownState} {x y c : KnownState} {g g' : Group} {groups : List Group}

theorem perm_addToGroup (x : KnownState) (groups : List Group) :
    ((addToGroup x groups).flatMap Group.states).Perm (groups.flatMap Group.states ++ [x]) := by
  induction groups with
  | nil => exact .refl _
  | cons g groups ih =>
    unfold addToGroup
    split_ifs
    · have hstates : Group.states { g with rest := g.rest ++ [x] } = g.states ++ [x] := rfl
      rw [List.flatMap_cons, List.flatMap_cons, hstates, List.append_assoc, List.append_assoc]
      exact List.perm_append_comm.append_left _
    · rw [List.flatMap_cons, List.flatMap_cons, List.append_assoc]
      exact ih.append_left _

theorem perm_groupByIdentity (states : List KnownState) :
    ((groupByIdentity states).flatMap Group.states).Perm states := by
  suffices h : ∀ (rest : List KnownState) (groups : List Group),
      ((rest.foldl (fun groups x => addToGroup x groups) groups).flatMap Group.states).Perm
        (groups.flatMap Group.states ++ rest) from h states []
  intro rest
  induction rest with
  | nil => intro groups; simp
  | cons x rest ih =>
    intro groups
    refine (ih (addToGroup x groups)).trans ?_
    simpa using (perm_addToGroup x groups).append_right rest

theorem Distinct.eq (h : Distinct states) (hx : x ∈ states) (hy : y ∈ states)
    (hi : x.identity = y.identity) (hu : x.uid = y.uid) : x = y := by
  refine List.inj_on_of_nodup_map h hx hy ?_
  obtain ⟨hns, hname⟩ := Prod.mk.inj hi
  rw [KnownState.target, KnownState.target, hns, hname, hu]

theorem Distinct.nodup (h : Distinct states) : states.Nodup := List.Nodup.of_map _ h

theorem Distinct.perm (h : Distinct states) (hp : states'.Perm states) : Distinct states' :=
  (hp.map KnownState.target).nodup_iff.mpr h

theorem mem_group_of_mem (hx : x ∈ states) : ∃ g ∈ groupByIdentity states, x ∈ g.states :=
  List.mem_flatMap.mp ((perm_groupByIdentity states).mem_iff.mpr hx)

theorem group_identity (hg : g ∈ groupByIdentity states) (hx : x ∈ g.states) :
    x.identity = g.head.identity :=
  (groupByIdentity_grouped states g hg x hx).2

theorem group_unique (hg : g ∈ groupByIdentity states) (hg' : g' ∈ groupByIdentity states)
    (h : g.head.identity = g'.head.identity) : g = g' :=
  List.inj_on_of_nodup_map (identities_nodup states) hg hg' h

theorem currentStates_identities (states : List KnownState) :
    (currentStates states).map KnownState.identity = identities (groupByIdentity states) := by
  rw [currentStates, identities, List.map_map]
  refine List.map_congr_left fun g hg => ?_
  exact group_identity hg (split_current_mem g)

theorem currentStates_nodup (states : List KnownState) :
    ((currentStates states).map KnownState.identity).Nodup := by
  rw [currentStates_identities]
  exact identities_nodup states

theorem Distinct.of_group (h : Distinct states) (hg : g ∈ groupByIdentity states) :
    Distinct g.states := by
  have hall : Distinct ((groupByIdentity states).flatMap Group.states) :=
    h.perm (perm_groupByIdentity states)
  rw [Distinct, List.map_flatMap] at hall
  exact (List.nodup_flatMap.mp hall).1 g hg

theorem perm_splitIncarnations (h : Distinct states) (hg : g ∈ groupByIdentity states) :
    ((splitIncarnations g).1 :: (splitIncarnations g).2).Perm g.states := by
  have hd := h.of_group hg
  have hc := split_current_mem g
  have hpriors : (splitIncarnations g).2 = g.states.erase (splitIncarnations g).1 := by
    rw [hd.nodup.erase_eq_filter]
    refine List.filter_congr fun y hy => ?_
    simp only [ne_eq, decide_not]
    refine congrArg _ (decide_eq_decide.mpr ⟨fun hu => ?_, fun he => he ▸ rfl⟩)
    exact hd.eq hy hc ((group_identity hg hy).trans (group_identity hg hc).symm) hu
  rw [hpriors]
  exact (List.perm_cons_erase hc).symm

theorem perm_currents_priors (h : Distinct states) :
    (currentStates states ++ unclosedPriors states).Perm states := by
  refine (List.map_append_flatMap_perm _ _ _).trans (List.Perm.trans ?_ (perm_groupByIdentity states))
  exact List.Perm.flatMap_left _ fun g hg => perm_splitIncarnations h hg

theorem mem_currentStates (h : Distinct states) :
    c ∈ currentStates states ↔ c ∈ states ∧ ∀ x ∈ states, x.identity = c.identity → x ≠ c →
      newer c x := by
  have hbeats : ∀ g ∈ groupByIdentity states, ∀ x ∈ states, x.identity = g.head.identity →
      x ≠ (splitIncarnations g).1 → newer (splitIncarnations g).1 x := by
    intro g hg x hx hi hne
    obtain ⟨g', hg', hxg⟩ := mem_group_of_mem hx
    cases group_unique hg' hg ((group_identity hg' hxg).symm.trans hi)
    refine split_newer hxg fun hu => hne ?_
    have hc := groupByIdentity_grouped states g hg _ (split_current_mem g)
    exact h.eq hx hc.1 (hi.trans hc.2.symm) hu
  constructor
  · intro hc
    obtain ⟨g, hg, rfl⟩ := List.mem_map.mp hc
    have hgrp := groupByIdentity_grouped states g hg _ (split_current_mem g)
    exact ⟨hgrp.1, fun x hx hi => hbeats g hg x hx (hi.trans hgrp.2)⟩
  · rintro ⟨hc, hbest⟩
    obtain ⟨g, hg, hcg⟩ := mem_group_of_mem hc
    have hgrp := groupByIdentity_grouped states g hg _ (split_current_mem g)
    have hi := group_identity hg hcg
    refine List.mem_map.mpr ⟨g, hg, Classical.byContradiction fun hne => ?_⟩
    have hlt := newer_iff.mp (hbest _ hgrp.1 (hgrp.2.trans hi.symm) hne)
    exact lt_asymm hlt (newer_iff.mp (hbeats g hg c hc hi (Ne.symm hne)))

theorem mem_unclosedPriors (h : Distinct states) :
    x ∈ unclosedPriors states ↔ x ∈ states ∧ x ∉ currentStates states := by
  have hp := perm_currents_priors h
  have hdisj := List.disjoint_of_nodup_append (hp.nodup_iff.mpr h.nodup)
  constructor
  · exact fun hx => ⟨hp.mem_iff.mp (List.mem_append_right _ hx), fun hc => hdisj hc hx⟩
  · exact fun hx => (List.mem_append.mp (hp.mem_iff.mpr hx.1)).resolve_left hx.2

theorem perm_classified (h : Distinct states) (hp : states'.Perm states) :
    (currentStates states').Perm (currentStates states) ∧ (unclosedPriors states').Perm
    (unclosedPriors states) := by
  have h' := h.perm hp
  have hmem : ∀ c, c ∈ currentStates states' ↔ c ∈ currentStates states := by
    intro c
    rw [mem_currentStates h', mem_currentStates h, hp.mem_iff]
    simp only [hp.mem_iff]
  have hnodup : ∀ {states}, Distinct states → (unclosedPriors states).Nodup := fun h =>
    (List.nodup_append.mp ((perm_currents_priors h).nodup_iff.mpr h.nodup)).2.1
  constructor
  · refine (List.perm_ext_iff_of_nodup ?_ ?_).mpr hmem
    · exact List.Nodup.of_map _ (currentStates_nodup states')
    · exact List.Nodup.of_map _ (currentStates_nodup states)
  · refine (List.perm_ext_iff_of_nodup (hnodup h') (hnodup h)).mpr fun x => ?_
    rw [mem_unclosedPriors h', mem_unclosedPriors h, hp.mem_iff, hmem]

theorem index_current {i : Namespace × String} {u : String} :
    (indexIncarnations states).2 i = some u ↔ ∃ c ∈ currentStates states, c.identity = i ∧
    c.uid = u := by
  constructor
  · intro hi
    obtain ⟨l₁, l₂, hl, -⟩ := List.lookup_eq_some_iff.mp hi
    have hm := hl ▸ List.mem_append_right l₁ (List.Mem.head l₂)
    obtain ⟨g, hg, heq⟩ := List.mem_map.mp hm
    cases heq
    exact ⟨_, List.mem_map_of_mem hg, group_identity hg (split_current_mem g), rfl⟩
  · rintro ⟨c, hc, rfl, rfl⟩
    obtain ⟨g, hg, rfl⟩ := List.mem_map.mp hc
    rw [group_identity hg (split_current_mem g)]
    exact lookup_of_nodup (identities_nodup states) hg

theorem index_rows (h : Distinct states) {t : GcTarget} :
    (indexIncarnations states).1 t = some x ↔ x ∈ states ∧ x.target = t := by
  have hsound : ∀ {y t}, (indexIncarnations states).1 t = some y → y ∈ states ∧ y.target = t := by
    intro y t hy
    obtain ⟨g, hg, hyg, ht⟩ := lookup_row hy
    exact ⟨(groupByIdentity_grouped states g hg y hyg).1, ht⟩
  refine ⟨hsound, ?_⟩
  rintro ⟨hx, rfl⟩
  obtain ⟨g, hg, hxg⟩ := mem_group_of_mem hx
  cases hrow : (indexIncarnations states).1 x.target with
  | none =>
    have hne := List.lookup_eq_none_iff.mp hrow (x.target, x) (List.mem_reverse.mpr
      (List.mem_flatMap.mpr ⟨g, hg, List.mem_map.mpr ⟨x, hxg, rfl⟩⟩))
    simp at hne
  | some y =>
    obtain ⟨hy, ht⟩ := hsound hrow
    rw [List.inj_on_of_nodup_map h hy hx ht]

def storesOf (tr : List (Sigma Op.Ans)) : List (Inst × String × CacheEntry) :=
  tr.filterMap fun
    | ⟨.storeIfAbsent st k entry, _⟩ => some (st, k, entry)
    | _ => none

def seedOf (ref : ScopeRef) (st : Inst) (c : KnownState) : Inst × String × CacheEntry :=
  (st, (ref.key c.ns c.name).cacheKey, seededEntry c)

def Seeded (ref : ScopeRef) (r : Option Err × List GcTarget × List Reincarnation)
    (tr : List (Sigma Op.Ans)) : Prop :=
  match r with
  | (none, seeded, priors) => ∃ states st, ⟨.lastKnownStates ref, some states⟩ ∈ tr ∧
      storesOf tr = (currentStates states).map (seedOf ref st) ∧
      seeded = (currentStates states).map KnownState.target ∧
      priors = (unclosedPriors states).map KnownState.reincarnation
  | (some _, seeded, priors) => storesOf tr = [] ∧ seeded = [] ∧ priors = []

section Seeding

variable {ref : ScopeRef} {st : Inst} {tr : List (Sigma Op.Ans)}

theorem storesOf_snoc (tr : List (Sigma Op.Ans)) (e : Sigma Op.Ans) :
    storesOf (tr ++ [e]) = storesOf tr ++ storesOf [e] := List.filterMap_append ..

abbrev recorder : Protocol Op Op.Ans (List (Sigma Op.Ans)) := chronicle fun _ _ => True

theorem seedGroups_recorded {e : Sigma Op.Ans} (hmem : e ∈ tr) (hclean : storesOf tr = []) :
    recorder.Obeys ((groupByIdentity states).forM (seedGroup ref st)) tr fun _ tr' =>
      e ∈ tr' ∧ storesOf tr' = (currentStates states).map (seedOf ref st) := by
  refine (Protocol.Obeys.forM recorder (I := fun (gs : List Group) tr' => e ∈ tr' ∧
    storesOf tr' ++ gs.map (fun g => seedOf ref st (splitIncarnations g).1) =
      (currentStates states).map (seedOf ref st)) ?_ ⟨hmem, ?_⟩).mono _ ?_
  · rintro g gs tr' ⟨hmem', hstores⟩
    refine ⟨trivial, fun a _ => ⟨List.mem_append_left _ hmem', ?_⟩⟩
    rw [← hstores]
    refine (congrArg (· ++ _) (storesOf_snoc tr' _)).trans ?_
    rw [List.append_assoc]
    rfl
  · rw [hclean, currentStates, List.map_map]
    rfl
  · rintro _ tr' ⟨hmem', hstores⟩
    rw [List.map_nil, List.append_nil] at hstores
    exact ⟨hmem', hstores⟩

theorem seedScope_recorded (ref : ScopeRef) (n : Nat) :
    recorder.Obeys (seedScope ref n) [] (Seeded ref) := by
  refine retry_rule (I := fun _ tr => storesOf tr = []) ?_ ?_ n rfl
  · intro _ tr hclean
    simp only [readState, Program.perform_bind, Program.op_bind, Protocol.obeys_op]
    refine ⟨trivial, fun answer _ => ?_⟩
    have hasked : storesOf (tr ++ [⟨.readerFor ref.sink, answer⟩]) = [] := by
      rw [storesOf_snoc, hclean]
      rfl
    cases answer with
    | noStateReader | notLive => exact ⟨hasked, rfl, rfl⟩
    | reader =>
      refine ⟨trivial, fun rows _ => ?_⟩
      have hread : storesOf (tr ++ [⟨.readerFor ref.sink, .reader⟩] ++
        [⟨.lastKnownStates ref, rows⟩]) = [] := by
        rw [storesOf_snoc, hasked]
        rfl
      cases rows with
      | none => exact ⟨hread, rfl, rfl⟩
      | some states =>
        refine ⟨trivial, fun st _ => ?_⟩
        refine Protocol.Obeys.bind _ (seedGroups_recorded
          (e := ⟨.lastKnownStates ref, some states⟩) ?_ ?_) ?_
        · exact List.mem_append_left _ (List.mem_append_right _ (List.mem_singleton_self _))
        · exact (storesOf_snoc _ _).trans (congrArg (· ++ []) hread)
        · rintro _ tr' ⟨hmem, hstores⟩
          refine ⟨states, st, hmem, hstores, ?_, ?_⟩
          · rw [currentStates, List.map_map]
            rfl
          · rw [unclosedPriors, List.map_flatMap]
  · rintro e s tr ⟨hclean, hs⟩
    have hstill : ∀ b, storesOf (tr ++ [⟨.backoff, b⟩]) = [] := fun b => by
      rw [storesOf_snoc, hclean]
      rfl
    exact ⟨trivial, hstill true, hstill false, hs⟩

end Seeding

theorem history_classified (hdistinct : Distinct states) :
    (∀ x ∈ states, ∃ c ∈ currentStates states, c.identity = x.identity) ∧
    ((currentStates states).map KnownState.identity).Nodup ∧
    (∀ c, c ∈ currentStates states ↔
      c ∈ states ∧ ∀ x ∈ states, x.identity = c.identity → x ≠ c → newer c x) ∧
    (currentStates states ++ unclosedPriors states).Perm states ∧
    (∀ states', states'.Perm states →
      (currentStates states').Perm (currentStates states) ∧
      (unclosedPriors states').Perm (unclosedPriors states)) ∧
    (∀ i u, (indexIncarnations states).2 i = some u ↔
      ∃ c ∈ currentStates states, c.identity = i ∧ c.uid = u) ∧
    (∀ t x, (indexIncarnations states).1 t = some x ↔ x ∈ states ∧ x.target = t) ∧
    (∀ p ∈ unclosedPriors states, p.target ∉ (currentStates states).map KnownState.target) ∧
    ∀ ref n w, Seeded ref ((seedScope ref n).run w []).1 ((seedScope ref n).run w []).2 := by
  refine ⟨fun x hx => ?_, currentStates_nodup states, fun c => mem_currentStates hdistinct,
    perm_currents_priors hdistinct, fun _ => perm_classified hdistinct, fun i u => index_current,
    fun t x => index_rows hdistinct, fun p hp hmem => ?_,
    fun ref n w => (seedScope_recorded ref n).run w⟩
  · obtain ⟨g, hg, hxg⟩ := mem_group_of_mem hx
    refine ⟨_, List.mem_map_of_mem hg, ?_⟩
    exact (group_identity hg (split_current_mem g)).trans (group_identity hg hxg).symm
  · obtain ⟨hstate, hprior⟩ := (mem_unclosedPriors hdistinct).mp hp
    obtain ⟨c, hc, ht⟩ := List.mem_map.mp hmem
    have heq := List.inj_on_of_nodup_map hdistinct ((mem_currentStates hdistinct).mp hc).1 hstate ht
    exact hprior (heq ▸ hc)

def recreatedPods : List KnownState :=
  [⟨allNamespaces, "web", "b", "h1", "v1", 7⟩, ⟨allNamespaces, "db", "a", "h2", "v1", 9⟩,
    ⟨allNamespaces, "web", "c", "h3", "v1", 7⟩, ⟨allNamespaces, "web", "a", "h4", "v1", 3⟩]

theorem recreatedPods_classified : Distinct recreatedPods ∧
    (currentStates recreatedPods).map KnownState.uid = ["c", "a"] ∧
    (currentStates recreatedPods ++ unclosedPriors recreatedPods).Perm recreatedPods :=
  ⟨by decide, by decide, (history_classified (by decide)).2.2.2.1⟩

end Kuberecord
