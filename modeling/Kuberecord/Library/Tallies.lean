import Mathlib.Data.Finmap
import Mathlib.Data.Finset.Image
import Mathlib.Data.Multiset.AddSub

namespace Tallies

theorem perm_flatMap_set {α β : Type*} (f : α → List β) {l : List α} {i : Nat} {a b : α}
    (h : l[i]? = some a) :
    ((l.set i b).flatMap f ++ f a).Perm (l.flatMap f ++ f b) := by
  induction l generalizing i with
  | nil => cases h
  | cons x l ih =>
    cases i with
    | zero =>
      cases Option.some.inj h
      have hb : (f b ++ l.flatMap f ++ f a).Perm (f a ++ (f b ++ l.flatMap f)) := List.perm_append_comm
      have hl : (f a ++ (f b ++ l.flatMap f)).Perm (f a ++ (l.flatMap f ++ f b)) :=
        List.perm_append_comm.append_left _
      simpa only [List.set_cons_zero, List.flatMap_cons, List.append_assoc] using hb.trans hl
    | succ i =>
      simp only [List.set_cons_succ, List.flatMap_cons, List.append_assoc]
      exact (ih h).append_left _

variable {α β σ : Type*} [DecidableEq α]

structure LoopOrder (α : Type*) where
  list : Finset α → List α
  nodup : ∀ s, (list s).Nodup
  mem : ∀ s a, a ∈ list s ↔ a ∈ s

structure Shuffle (α : Type*) where
  run : List α → List α
  perm : ∀ l, (run l).Perm l

def Shuffle.id : Shuffle α := ⟨fun l => l, fun l => .refl l⟩

def Shuffle.reverse : Shuffle α := ⟨List.reverse, List.reverse_perm⟩

omit [DecidableEq α] in
open scoped Classical in
theorem Shuffle.exists_head {a : α} {l : List α} (h : a ∈ l) : ∃ (order : Shuffle α) (rest : List α),
    order.run l = a :: rest := by
  obtain ⟨before, after, rfl⟩ := List.append_of_mem h
  refine ⟨⟨fun l => if l = before ++ a :: after then a :: (before ++ after) else l, fun l => ?_⟩,
    before ++ after,
    if_pos rfl⟩
  split_ifs with hl
  · rw [hl]
    exact List.perm_middle.symm
  · exact .refl l

theorem lookup_foldl_insert {f : α → β} (l : List α) (m : Finmap (fun _ : α => β)) (a : α) :
    (l.foldl (fun m a => m.insert a (f a)) m).lookup a = if a ∈ l then some (f a) else m.lookup a := by
  induction l generalizing m with
  | nil => simp
  | cons b l ih =>
    rw [List.foldl_cons, ih]
    by_cases hl : a ∈ l
    · simp [hl]
    · by_cases hb : a = b
      · subst hb
        simp
      · rw [Finmap.lookup_insert_of_ne _ hb]
        simp [hl, hb]

omit [DecidableEq α] in
theorem foldl_skipping (p : α → Prop) [DecidablePred p] (f : σ → α → σ) (l : List α) (s : σ)
    (changed : Bool) :
    l.foldl (fun (acc : σ × Bool) a => if p a then acc else (f acc.1 a, true)) (s, changed) =
      ((l.filter (fun a => ¬ p a)).foldl f s, changed || !(l.filter (fun a => ¬ p a)).isEmpty) := by
  induction l generalizing s changed with
  | nil => simp
  | cons a l ih =>
    by_cases ha : p a
    · simpa [ha] using ih s changed
    · simpa [ha] using ih (f s a) true

abbrev Tally (α : Type*) := Finmap (fun _ : α => Int)

namespace Tally

def get (t : Tally α) (a : α) : Int := (t.lookup a).getD 0

def incr (t : Tally α) (a : α) : Tally α := t.insert a (t.get a + 1)

def decr (t : Tally α) (a : α) : Tally α :=
  let rest : Tally α := t.insert a (t.get a - 1)
  if rest.get a ≤ 0 then rest.erase a else rest

def Counts (t : Tally α) (m : Multiset α) : Prop :=
  ∀ a, t.lookup a = if a ∈ m then some (m.count a : Int) else none

variable {t : Tally α} {m : Multiset α} {a : α}

theorem Counts.empty : Counts (∅ : Tally α) 0 := fun a => by simp

theorem Counts.get (h : t.Counts m) (a : α) : t.get a = m.count a := by
  rw [Tally.get, h a]
  by_cases ha : a ∈ m
  · simp [ha]
  · simp [ha]

theorem Counts.keys (h : t.Counts m) : t.keys = m.toFinset := by
  ext a
  rw [Finmap.mem_keys, ← Finmap.lookup_isSome, h a, Multiset.mem_toFinset]
  by_cases ha : a ∈ m <;> simp [ha]

theorem Counts.incr (h : t.Counts m) (a : α) : (t.incr a).Counts (a ::ₘ m) := by
  intro b
  by_cases hb : b = a
  · subst hb
    simp [Tally.incr, h.get]
  · rw [Tally.incr, Finmap.lookup_insert_of_ne _ hb, h b]
    simp [hb, Multiset.count_cons_of_ne hb]

theorem Counts.decr (h : t.Counts m) (ha : a ∈ m) : (t.decr a).Counts (m.erase a) := by
  have hpos : 0 < m.count a := Multiset.count_pos.mpr ha
  have hget : Tally.get (t.insert a (t.get a - 1)) a = (m.count a : Int) - 1 := by
    rw [Tally.get, Finmap.lookup_insert, Option.getD_some, h.get]
  intro b
  by_cases hb : b = a
  · subst hb
    simp only [Tally.decr, hget, ← Multiset.count_pos, Multiset.count_erase_self]
    split_ifs with hle hlt hlt
    · omega
    · rw [Finmap.lookup_erase]
    · rw [Finmap.lookup_insert, h.get]
      congr 1
      omega
    · omega
  · have hother : (t.decr a).lookup b = t.lookup b := by
      simp only [Tally.decr]
      split_ifs
      · rw [Finmap.lookup_erase_ne hb, Finmap.lookup_insert_of_ne _ hb]
      · rw [Finmap.lookup_insert_of_ne _ hb]
    rw [hother, h b, Multiset.count_erase_of_ne hb]
    simp only [Multiset.mem_erase_of_ne hb]

end Tally

end Tallies
