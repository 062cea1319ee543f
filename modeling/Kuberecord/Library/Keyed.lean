import Mathlib.Data.List.Basic

namespace Keyed

variable {κ α β : Type*} [DecidableEq κ] {k k' : κ} {v : α} {l : List (κ × α)}

def put (k : κ) (v : α) : List (κ × α) → List (κ × α)
  | [] => [(k, v)]
  | (k', w) :: l => if k' = k then (k', v) :: l else (k', w) :: put k v l

theorem lookup_put : (put k v l).lookup k' = if k' = k then some v else l.lookup k' := by
  induction l with
  | nil =>
    by_cases h : k' = k
    · simp [put, h]
    · simp [put, h, List.lookup_cons, beq_false_of_ne h]
  | cons p l ih =>
    obtain ⟨k'', w⟩ := p
    by_cases hk : k'' = k
    · subst hk
      by_cases h : k' = k''
      · simp [put, h]
      · simp [put, h, List.lookup_cons, beq_false_of_ne h]
    · simp only [put, if_neg hk, List.lookup_cons, ih]
      by_cases h : k' = k''
      · subst h
        simp [hk]
      · simp [beq_false_of_ne h]

theorem put_of_lookup_none (h : l.lookup k = none) : put k v l = l ++ [(k, v)] := by
  induction l with
  | nil => rfl
  | cons p l ih =>
    obtain ⟨k', w⟩ := p
    by_cases hk : k' = k
    · simp [hk] at h
    · rw [List.lookup_cons, beq_false_of_ne (Ne.symm hk)] at h
      simp [put, hk, ih h]

theorem lookup_filter_ne (h : k' ≠ k) : (l.filter (·.1 ≠ k)).lookup k' = l.lookup k' := by
  induction l with
  | nil => rfl
  | cons p l ih =>
    by_cases hp : p.1 = k
    · rw [List.filter_cons_of_neg (by simpa using hp), ih, List.lookup_cons,
        beq_false_of_ne (by rwa [hp])]
    · rw [List.filter_cons_of_pos (by simpa using hp), List.lookup_cons, List.lookup_cons, ih]

theorem lookup_filter_self : (l.filter (·.1 ≠ k)).lookup k = none := by
  induction l with
  | nil => rfl
  | cons p l ih =>
    by_cases hp : p.1 = k
    · rw [List.filter_cons_of_neg (by simpa using hp), ih]
    · rw [List.filter_cons_of_pos (by simpa using hp), List.lookup_cons,
        beq_false_of_ne (Ne.symm hp), ih]

theorem lookup_map_snd (f : α → β) (l : List (κ × α)) (k : κ) :
    (l.map (Prod.map id f)).lookup k = (l.lookup k).map f := by
  induction l with
  | nil => rfl
  | cons p l ih =>
    obtain ⟨k', v⟩ := p
    cases hk : k == k' with
    | true => simp [List.lookup_cons, hk]
    | false => simp [List.lookup_cons, hk, ih]

theorem lookup_map_replace (l : List (κ × α)) :
    (l.map fun p => if p.1 = k then (k, v) else p).lookup k' =
    if k' = k then (l.lookup k).map fun _ => v else l.lookup k' := by
  induction l with
  | nil => simp
  | cons p l ih =>
    obtain ⟨k'', w⟩ := p
    by_cases hk : k'' = k
    · subst hk
      by_cases h : k' = k''
      · simp [h]
      · simp [List.lookup_cons, beq_false_of_ne h, ih, h]
    · by_cases h : k' = k''
      · simp [h, hk]
      · simp [List.lookup_cons, beq_false_of_ne h, beq_false_of_ne (Ne.symm hk), ih, hk]

theorem lookup_isSome (l : List (κ × α)) (k : κ) :
    (l.lookup k).isSome = (l.map Prod.fst).contains k := by
  induction l with
  | nil => rfl
  | cons p l ih =>
    rw [List.lookup_cons, List.map_cons, List.contains_cons, ← ih]
    cases k == p.1 <;> rfl

theorem mem_fst_iff (l : List (κ × α)) (k : κ) : k ∈ l.map Prod.fst ↔ l.lookup k ≠ none := by
  rw [← List.contains_iff_mem, ← lookup_isSome, Option.isSome_iff_ne_none]

end Keyed
