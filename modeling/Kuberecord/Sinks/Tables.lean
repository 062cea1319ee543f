import Kuberecord.Classification
import Kuberecord.Library.Aggregates
import Mathlib.Logic.Relation

/-!
The sink's tables as its state reader queries them. A table is what a scan of it meets: rows may be
there twice until their parts are merged, and in any order.
-/

namespace Kuberecord

open Aggregates

structure ScopeFilter where
  clusterID : String
  apiGroup : String
  kind : String
  ns : String
deriving DecidableEq

def ScopeRef.filter (r : ScopeRef) (clusterID : String) : ScopeFilter :=
  ⟨clusterID, r.scope.group.1, r.scope.kind.1, r.scope.ns.1⟩

def ScopeFilter.Admits (f : ScopeFilter) (r : Record) : Prop :=
  r.apiGroup = f.apiGroup ∧ r.kind = f.kind ∧ r.clusterID = f.clusterID ∧ (f.ns ≠ "" → r.ns = f.ns)

instance (f : ScopeFilter) (r : Record) : Decidable (f.Admits r) := inferInstanceAs (Decidable (_ ∧ _))

def Record.incarnation (r : Record) : String × String × String := (r.ns, r.name, r.uid)

def Record.known (r : Record) : Option KnownState :=
  -- no Kubernetes namespace has a separator in its name
  if h : '|' ∉ r.ns.toList ∧ '/' ∉ r.ns.toList then
    some ⟨⟨r.ns, h⟩, r.name, r.uid, r.sha256, r.apiVersion, r.timestamp⟩
  else none

namespace Tables

def lastRows (f : ScopeFilter) (rows : List Record) : List Record :=
  latest Record.incarnation Record.timestamp (rows.filter fun r => f.Admits r)

def lastKnownStates (f : ScopeFilter) (rows : List Record) : List KnownState :=
  ((lastRows f rows).filter (·.eventType ≠ .deleted)).filterMap Record.known

def Frozen (rows : List Record) : Prop := ∀ r ∈ rows, ∀ r' ∈ rows, r.orderKey = r'.orderKey → r = r'

instance (rows : List Record) : Decidable (Frozen rows) := inferInstanceAs (Decidable (∀ r ∈ rows, _))

/--
What happens to a table while nothing new is written: of rows that share the sorting key the last
one stays, parts are read in another order, and a row whose insert went unacknowledged is inserted
again.
-/
inductive Merge (rows : List Record) : List Record → Prop
  | collapse (before between after : List Record) (r r' : Record) : rows = before ++ r :: between ++
      r' :: after →
      r.orderKey = r'.orderKey → Merge rows (before ++ between ++ r' :: after)
  | reorder (rows' : List Record) : rows.Perm rows' → Merge rows rows'
  | reinsert (r : Record) : r ∈ rows → Merge rows (rows ++ [r])

variable {f : ScopeFilter} {rows rows' : List Record} {r : Record} {x : KnownState}

theorem Frozen.unambiguous (h : Frozen rows) (f : ScopeFilter) :
    Unambiguous Record.incarnation Record.timestamp (rows.filter fun r => f.Admits r) := by
  intro r hr r' hr' hi ht
  obtain ⟨hr, hadm⟩ := List.mem_filter.mp hr
  obtain ⟨hr', hadm'⟩ := List.mem_filter.mp hr'
  obtain ⟨hg, hk, hc, -⟩ : f.Admits r := by simpa using hadm
  obtain ⟨hg', hk', hc', -⟩ : f.Admits r' := by simpa using hadm'
  simp only [Record.incarnation, Prod.mk.injEq] at hi
  apply h r hr r' hr'
  simp only [Record.orderKey, hg, hk, hc, hg', hk', hc', hi.1, hi.2.1, ht]

theorem Merge.mem_iff (h : Merge rows rows') (hf : Frozen rows) (r : Record) : r ∈ rows ↔ r ∈ rows' := by
  cases h with
  | collapse before between after q q' he hkey =>
    subst he
    -- the row that goes is the row that stays
    have hq : q = q' := hf q (by simp) q' (by simp) hkey
    subst hq
    simp only [List.mem_append, List.mem_cons]
    tauto
  | reorder _ hp => exact hp.mem_iff
  | reinsert q hq =>
    rw [List.mem_append, List.mem_singleton]
    constructor
    · exact .inl
    · rintro (hr | rfl)
      · exact hr
      · exact hq

theorem Frozen.of_mem_iff (h : Frozen rows) (hs : ∀ r, r ∈ rows ↔ r ∈ rows') : Frozen rows' :=
  fun r hr r' hr' => h r ((hs r).mpr hr) r' ((hs r').mpr hr')

theorem mem_iff_of_merges (h : Relation.ReflTransGen Merge rows rows') (hf : Frozen rows) (r : Record) :
    r ∈ rows ↔ r ∈ rows' := by
  induction h generalizing r with
  | refl => rfl
  | tail _ hm ih => exact (ih r).trans (hm.mem_iff (hf.of_mem_iff ih) r)

theorem mem_lastRows (hf : Frozen rows) : r ∈ lastRows f rows ↔ r ∈ rows ∧ f.Admits r ∧
    ∀ r' ∈ rows, f.Admits r' → r'.incarnation = r.incarnation → r'.timestamp ≤ r.timestamp := by
  rw [lastRows, mem_latest_iff (hf.unambiguous f)]
  simp only [List.mem_filter, decide_eq_true_eq, and_imp, and_assoc]

theorem states_unmoved_by_merges (hf : Frozen rows) (h : Relation.ReflTransGen Merge rows rows')
    (f : ScopeFilter) :
    (lastKnownStates f rows).Perm (lastKnownStates f rows') ∧
      ∀ x, x ∈ lastKnownStates f rows' ↔
        ∃ r ∈ rows, f.Admits r ∧ r.eventType ≠ .deleted ∧ r.known = some x ∧
          ∀ r' ∈ rows, f.Admits r' → r'.incarnation = r.incarnation → r'.timestamp ≤ r.timestamp := by
  have hmem := mem_iff_of_merges h hf
  have hperm : (lastKnownStates f rows).Perm (lastKnownStates f rows') := by
    apply List.Perm.filterMap
    apply List.Perm.filter
    apply latest_perm (hf.unambiguous f)
    simp only [List.mem_filter, hmem, implies_true]
  refine ⟨hperm, fun x => ?_⟩
  rw [← hperm.mem_iff, lastKnownStates, List.mem_filterMap]
  constructor
  · rintro ⟨r, hr, hx⟩
    obtain ⟨hr, hopen⟩ := List.mem_filter.mp hr
    obtain ⟨hr, hadm, hmax⟩ := (mem_lastRows hf).mp hr
    exact ⟨r, hr, hadm, by simpa using hopen, hx, hmax⟩
  · rintro ⟨r, hr, hadm, hopen, hx, hmax⟩
    exact ⟨r, List.mem_filter.mpr ⟨(mem_lastRows hf).mpr ⟨hr, hadm, hmax⟩, by simpa using hopen⟩, hx⟩

def podRow (timestamp : Nat) (eventType : EventType) (uid sha256 : String) : Record where
  timestamp := timestamp
  clusterID := "c"
  eventType := eventType
  apiGroup := ""
  apiVersion := "v1"
  kind := "Pod"
  ns := "a"
  name := "p"
  uid := uid
  sha256 := sha256

def copiedRows : List Record :=
  [podRow 3 .added "v" "h", podRow 1 .added "u" "h", podRow 3 .added "v" "h", podRow 2 .deleted "u" ""]

def mergedRows : List Record :=
  [podRow 2 .deleted "u" "", podRow 3 .added "v" "h", podRow 1 .added "u" "h"]

theorem merged_copies_read_alike :
    (lastKnownStates ⟨"c", "", "Pod", "a"⟩ copiedRows).Perm
        (lastKnownStates ⟨"c", "", "Pod", "a"⟩ mergedRows) ∧
      ∃ x ∈ lastKnownStates ⟨"c", "", "Pod", "a"⟩ mergedRows, x.uid = "v" := by
  have hmerges : Relation.ReflTransGen Merge copiedRows mergedRows :=
    (Relation.ReflTransGen.single (.collapse [] [podRow 1 .added "u" "h"] [podRow 2 .deleted "u" ""]
      (podRow 3 .added "v" "h") _ rfl rfl)).tail (.reorder _ (by decide))
  obtain ⟨hperm, hmem⟩ := states_unmoved_by_merges (by decide) hmerges ⟨"c", "", "Pod", "a"⟩
  refine ⟨hperm, _, (hmem _).mpr ⟨podRow 3 .added "v" "h",
    by decide, by decide, by decide, dif_pos ?_, by decide⟩, rfl⟩
  decide

end Tables

end Kuberecord
