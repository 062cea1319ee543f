import Mathlib.Data.List.Forall2

namespace Records

variable {α : Type*}

def Ends (sep : α) (s : List α) : Prop := ∀ c ∈ s.head?, c = sep

def SelfDelimiting (sep : α) (C : List α → Prop) : Prop :=
  ∀ u v s t, C u → C v → Ends sep s → Ends sep t → u ++ s = v ++ t → u = v ∧ s = t

theorem selfDelimiting_of_not_mem (sep : α) : SelfDelimiting sep (sep ∉ ·) := by
  intro u v s t hu hv hs ht h
  induction u generalizing v with
  | nil =>
    cases v with
    | nil => exact ⟨rfl, h⟩
    | cons c v =>
      rw [List.nil_append] at h
      subst h
      exact absurd (hs c rfl) fun he => hv (he ▸ .head _)
  | cons c u ih =>
    cases v with
    | nil =>
      rw [List.nil_append] at h
      subst h
      exact absurd (ht c rfl) fun he => hu (he ▸ .head _)
    | cons d v =>
      simp only [List.cons_append, List.cons.injEq] at h
      obtain ⟨rfl, h⟩ := h
      obtain ⟨rfl, rfl⟩ := ih v (fun hm => hu (.tail _ hm)) (fun hm => hv (.tail _ hm)) h
      exact ⟨rfl, rfl⟩

section Quoted

variable [DecidableEq α] (quote escape : α)

/--
The closing quotation mark is the first one that is not escaped; the flag says that the next
character is.
-/
def closed : Bool → List α → Bool
  | _, [] => false
  | true, _ :: rest => closed false rest
  | false, c :: rest => if c = quote then rest.isEmpty else closed (c = escape) rest

def Quoted (w : List α) : Prop := ∃ body, w = quote :: body ∧ closed quote escape false body = true

variable {quote escape}

theorem closed_append_inj {esc : Bool} {u v s t : List α} (hu : closed quote escape esc u = true)
    (hv : closed quote escape esc v = true) (h : u ++ s = v ++ t) : u = v ∧ s = t := by
  induction u generalizing v esc with
  | nil => cases hu
  | cons c u ih =>
    cases v with
    | nil => cases hv
    | cons d v =>
      simp only [List.cons_append, List.cons.injEq] at h
      obtain ⟨rfl, h⟩ := h
      have hrest : u = v ∧ s = t := by
        cases esc with
        | true => exact ih hu hv h
        | false =>
          simp only [closed] at hu hv
          split_ifs at hu hv with hc
          · rw [List.isEmpty_iff] at hu hv
            subst hu hv
            exact ⟨rfl, h⟩
          · exact ih hu hv h
      exact ⟨congrArg (c :: ·) hrest.1, hrest.2⟩

theorem selfDelimiting_quoted (sep : α) : SelfDelimiting sep (Quoted quote escape) := by
  rintro _ _ s t ⟨u, rfl, hu⟩ ⟨v, rfl, hv⟩ - - h
  obtain ⟨rfl, rfl⟩ := closed_append_inj hu hv (List.cons.inj h).2
  exact ⟨rfl, rfl⟩

end Quoted

def record (fields : List (List α × List α)) : List α := fields.flatMap fun field => field.1 ++ field.2

structure Alike (sep : α) (f g : List α × List α) : Prop where
  opens : f.1.head? = some sep
  label : f.1 = g.1
  values : ∃ C, SelfDelimiting sep C ∧ C f.2 ∧ C g.2

theorem ends_record_cons {sep : α} {f : List α × List α} {fs : List (List α × List α)}
    (h : f.1.head? = some sep) :
    Ends sep (record (f :: fs)) := by
  intro c hc
  rw [record, List.flatMap_cons, List.head?_append, List.head?_append, h] at hc
  exact (Option.mem_some_iff.mp hc).symm

theorem record_ends {sep : α} {fs gs : List (List α × List α)} (h : List.Forall₂ (Alike sep) fs gs) :
    Ends sep (record fs) ∧ Ends sep (record gs) := by
  cases h with
  | nil => exact ⟨fun _ hc => (by cases hc), fun _ hc => (by cases hc)⟩
  | cons hfg _ => exact ⟨ends_record_cons hfg.opens, ends_record_cons (hfg.label ▸ hfg.opens)⟩

theorem record_inj {sep : α} {fs gs : List (List α × List α)} (h : List.Forall₂ (Alike sep) fs gs)
    (he : record fs = record gs) : fs = gs := by
  induction h with
  | nil => rfl
  | @cons f g fs gs hfg hrest ih =>
    obtain ⟨C, hC, hf, hg⟩ := hfg.values
    obtain ⟨hfs, hgs⟩ := record_ends hrest
    rw [record, record, List.flatMap_cons, List.flatMap_cons, hfg.label, List.append_assoc,
      List.append_assoc] at he
    obtain ⟨hvalue, htail⟩ := hC _ _ _ _ hf hg hfs hgs (List.append_cancel_left he)
    rw [Prod.ext hfg.label hvalue, ih htail]

end Records
