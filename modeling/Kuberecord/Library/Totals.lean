import Mathlib.Algebra.BigOperators.Group.Finset.Piecewise

namespace Totals

open Finset

variable {ι φ : Type*} [DecidableEq ι] {weight : φ → Nat} {phase : ι → Option φ} {n : Nat}

def Total (weight : φ → Nat) (phase : ι → Option φ) (n : Nat) : Prop :=
  ∃ running : Finset ι, (∀ t, phase t ≠ none → t ∈ running) ∧ ∑ t ∈ running, (phase t).elim 0 weight = n

omit [DecidableEq ι] in
theorem Total.idle : Total weight (fun _ : ι => none) 0 := ⟨∅, fun _ h => absurd rfl h, rfl⟩

omit [DecidableEq ι] in
theorem Total.eq_zero (h : Total weight phase n) (hz : ∀ t p, phase t = some p → weight p = 0) :
    n = 0 := by
  obtain ⟨running, -, rfl⟩ := h
  refine sum_eq_zero fun t _ => ?_
  cases hp : phase t with
  | none => rfl
  | some p => exact hz t p hp

theorem Total.update (h : Total weight phase n) (t : ι) (x : Option φ) :
    ∃ m, Total weight (Function.update phase t x) m ∧ m +
      (phase t).elim 0 weight = n + x.elim 0 weight := by
  obtain ⟨running, hmem, rfl⟩ := h
  have hin : ∀ u, Function.update phase t x u ≠ none → u ∈ insert t running := by
    intro u hu
    by_cases hut : u = t
    · exact hut ▸ mem_insert_self t running
    · rw [Function.update_of_ne hut] at hu
      exact mem_insert_of_mem (hmem u hu)
  have hrest : ∑ u ∈ running.erase t, (Function.update phase t x u).elim 0 weight =
      ∑ u ∈ running.erase t, (phase u).elim 0 weight :=
    sum_congr rfl fun u hu => by rw [Function.update_of_ne (ne_of_mem_erase hu)]
  have hnew : ∑ u ∈ insert t running, (Function.update phase t x u).elim 0 weight =
      x.elim 0 weight + ∑ u ∈ running.erase t, (phase u).elim 0 weight := by
    rw [← insert_erase (mem_insert_self t running), erase_insert_eq_erase,
      sum_insert (notMem_erase t running), Function.update_self, hrest]
  have hold : ∑ u ∈ running, (phase u).elim 0 weight =
      (phase t).elim 0 weight + ∑ u ∈ running.erase t, (phase u).elim 0 weight := by
    by_cases ht : t ∈ running
    · exact (add_sum_erase running (fun u => (phase u).elim 0 weight) ht).symm
    · have hn : phase t = none := by
        by_contra hne
        exact ht (hmem t hne)
      rw [erase_eq_of_notMem ht, hn, Option.elim_none, zero_add]
  refine ⟨_, ⟨insert t running, hin, rfl⟩, ?_⟩
  rw [hnew, hold]
  omega

end Totals
