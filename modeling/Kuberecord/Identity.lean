import Mathlib.Data.List.Basic

namespace Kuberecord

-- Kubernetes admits no `|` in groups and kinds
def Segment := {s : String // '|' ∉ s.toList}
deriving DecidableEq

/-- Namespaces; the empty one stands for cluster-scoped objects and cluster-wide scopes. -/
def Namespace := {s : String // '|' ∉ s.toList ∧ '/' ∉ s.toList}
deriving DecidableEq

structure ScopeKey where
  group : Segment
  kind : Segment
  ns : Namespace
deriving DecidableEq

structure Key where
  sink : String
  group : Segment
  kind : Segment
  ns : Namespace
  name : String
deriving DecidableEq

def Key.cacheKey (k : Key) : String :=
  k.group.1 ++ "|" ++ k.kind.1 ++ "|" ++ k.ns.1 ++ "/" ++ k.name

def Key.scope (k : Key) : ScopeKey := ⟨k.group, k.kind, k.ns⟩

def ScopeKey.scopeKeyPrefix (s : ScopeKey) : String :=
  if s.ns.1 = "" then s.group.1 ++ "|" ++ s.kind.1 ++ "|"
  else s.group.1 ++ "|" ++ s.kind.1 ++ "|" ++ s.ns.1 ++ "/"

def allNamespaces : Namespace := ⟨"", by decide⟩

def coreGroup : Segment := ⟨"", by decide⟩

-- the identities of the examples below
def podKind : Segment := ⟨"Pod", by decide⟩

def namespaceA : Namespace := ⟨"a", by decide⟩

def namespaceB : Namespace := ⟨"b", by decide⟩

def ephemeralKind (group kind : String) : Bool :=
  kind == "Event" && (group == "" || group == "events.k8s.io")

def Key.ephemeral (k : Key) : Bool := ephemeralKind k.group.1 k.kind.1

def ScopeKey.ephemeral (s : ScopeKey) : Bool := ephemeralKind s.group.1 s.kind.1

theorem append_sep_inj {α : Type*} {c : α} {xs ys us vs : List α} (hx : c ∉ xs) (hy : c ∉ ys)
    (h : xs ++ c :: us = ys ++ c :: vs) : xs = ys ∧ us = vs := by
  induction xs generalizing ys with
  | nil =>
    cases ys with
    | nil => simpa using h
    | cons y ys => simp only [List.nil_append, List.cons_append, List.cons.injEq] at h; simp [← h.1] at hy
  | cons x xs ih =>
    cases ys with
    | nil => simp only [List.nil_append, List.cons_append, List.cons.injEq] at h; simp [h.1] at hx
    | cons y ys =>
      simp only [List.cons_append, List.cons.injEq] at h
      obtain ⟨rfl, rfl⟩ := ih (fun hc => hx (List.mem_cons_of_mem _ hc))
        (fun hc => hy (List.mem_cons_of_mem _ hc)) h.2
      exact ⟨by rw [h.1], rfl⟩

theorem Key.cacheKey_toList (k : Key) : k.cacheKey.toList =
    k.group.1.toList ++ '|' :: (k.kind.1.toList ++ '|' :: (k.ns.1.toList ++ '/' :: k.name.toList)) := by
  simp [Key.cacheKey, List.append_assoc]

theorem Key.cacheKey_inj {k l : Key} (h : k.cacheKey = l.cacheKey) :
    k.group = l.group ∧ k.kind = l.kind ∧ k.ns = l.ns ∧ k.name = l.name := by
  have ht := congrArg String.toList h
  rw [cacheKey_toList, cacheKey_toList] at ht
  obtain ⟨hg, ht⟩ := append_sep_inj k.group.2 l.group.2 ht
  obtain ⟨hk, ht⟩ := append_sep_inj k.kind.2 l.kind.2 ht
  obtain ⟨hn, ht⟩ := append_sep_inj k.ns.2.2 l.ns.2.2 ht
  exact ⟨Subtype.ext (String.toList_inj.mp hg), Subtype.ext (String.toList_inj.mp hk),
    Subtype.ext (String.toList_inj.mp hn), String.toList_inj.mp ht⟩

theorem Key.eq_of_cacheKey {k l : Key} (hs : k.sink = l.sink) (h : k.cacheKey = l.cacheKey) : k = l := by
  obtain ⟨hg, hk, hn, hm⟩ := cacheKey_inj h
  cases k; cases l
  simp_all

def ScopeKey.Spans (s : ScopeKey) (k : Key) : Prop :=
  k.group = s.group ∧ k.kind = s.kind ∧ (s.ns.1 = "" ∨ s.ns = k.ns)

instance (s : ScopeKey) (k : Key) : Decidable (s.Spans k) := inferInstanceAs (Decidable (_ ∧ _))

theorem ScopeKey.scopeKeyPrefix_toList (s : ScopeKey) : s.scopeKeyPrefix.toList =
    s.group.1.toList ++ '|' :: (s.kind.1.toList ++
        '|' :: if s.ns.1 = "" then [] else s.ns.1.toList ++ ['/']) := by
  unfold scopeKeyPrefix
  split_ifs <;> simp [List.append_assoc]

theorem ScopeKey.begins_iff_spans {s : ScopeKey} {k : Key} :
    s.scopeKeyPrefix.toList <+: k.cacheKey.toList ↔ s.Spans k := by
  rw [scopeKeyPrefix_toList, Key.cacheKey_toList]
  constructor
  · rintro ⟨rest, h⟩
    simp only [List.append_assoc, List.cons_append] at h
    obtain ⟨hgroup, h⟩ := append_sep_inj s.group.2 k.group.2 h
    obtain ⟨hkind, h⟩ := append_sep_inj s.kind.2 k.kind.2 h
    refine ⟨Subtype.ext (String.toList_inj.mp hgroup.symm),
      Subtype.ext (String.toList_inj.mp hkind.symm), ?_⟩
    split_ifs at h with hns
    · exact .inl hns
    · rw [List.append_assoc] at h
      exact .inr (Subtype.ext (String.toList_inj.mp (append_sep_inj s.ns.2.2 k.ns.2.2 h).1))
  · rintro ⟨hgroup, hkind, hns⟩
    rw [hgroup, hkind]
    refine (List.prefix_append_right_inj _).mpr (List.cons_prefix_cons.mpr ⟨rfl, ?_⟩)
    refine (List.prefix_append_right_inj _).mpr (List.cons_prefix_cons.mpr ⟨rfl, ?_⟩)
    split_ifs with hempty
    · exact List.nil_prefix
    · rw [hns.resolve_left hempty]
      exact (List.prefix_append_right_inj _).mpr (List.cons_prefix_cons.mpr ⟨rfl, List.nil_prefix⟩)

end Kuberecord
