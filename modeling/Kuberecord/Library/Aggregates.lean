import Mathlib.Data.List.Dedup
import Mathlib.Data.List.MinMax

namespace Aggregates

variable {α κ : Type*} [DecidableEq κ] (key : α → κ) (time : α → Nat) {rows rows' : List α} {a b : α}

def latest (rows : List α) : List α :=
  (rows.map key).dedup.filterMap fun k => (rows.filter fun a => key a = k).argmax time

def Unambiguous (rows : List α) : Prop := ∀ a ∈ rows, ∀ b ∈ rows, key a = key b → time a = time b → a = b

variable {key time}

theorem mem_latest (h : a ∈ latest key time rows) : a ∈ rows ∧ ∀ b ∈ rows, key b = key a →
    time b ≤ time a := by
  obtain ⟨k, -, hmax⟩ := List.mem_filterMap.mp h
  obtain ⟨ha, hk⟩ := List.mem_filter.mp (List.argmax_mem hmax)
  refine ⟨ha, fun b hb hkey => ?_⟩
  exact List.le_of_mem_argmax (List.mem_filter.mpr ⟨hb, by simpa [hkey] using hk⟩) hmax

variable (key time) in
theorem argmax_group (h : a ∈ rows) :
    ∃ b, (rows.filter fun b => key b = key a).argmax time = some b ∧ key b = key a := by
  have hne : rows.filter (fun b => key b = key a) ≠ [] :=
    List.ne_nil_of_mem (List.mem_filter.mpr ⟨h, by simp⟩)
  cases hb : (rows.filter fun b => key b = key a).argmax time with
  | none => exact absurd (List.argmax_eq_none.mp hb) hne
  | some b => exact ⟨b, rfl, by simpa using (List.mem_filter.mp (List.argmax_mem hb)).2⟩

theorem map_key_latest (rows : List α) : (latest key time rows).map key = (rows.map key).dedup := by
  have hkeys : ∀ k ∈ (rows.map key).dedup, ((rows.filter fun a => key a = k).argmax time).map key =
    some k := by
    intro k hk
    obtain ⟨a, ha, rfl⟩ := List.mem_map.mp (List.mem_dedup.mp hk)
    obtain ⟨b, hb, hkey⟩ := argmax_group key time ha
    rw [hb, Option.map_some, hkey]
  rw [latest, List.map_filterMap, List.filterMap_congr hkeys]
  exact List.filterMap_some

theorem nodup_latest (rows : List α) : ((latest key time rows).map key).Nodup := by
  rw [map_key_latest]
  exact List.nodup_dedup _

theorem mem_latest_iff_argmax : a ∈ latest key time rows ↔
    (rows.filter fun b => key b = key a).argmax time = some a := by
  constructor
  · intro h
    obtain ⟨k, -, hmax⟩ := List.mem_filterMap.mp h
    obtain rfl : key a = k := by simpa using (List.mem_filter.mp (List.argmax_mem hmax)).2
    exact hmax
  · intro h
    have ha := (List.mem_filter.mp (List.argmax_mem h)).1
    exact List.mem_filterMap.mpr ⟨key a, List.mem_dedup.mpr (List.mem_map_of_mem ha), h⟩

variable (key time) in
theorem exists_mem_latest (h : a ∈ rows) : ∃ b ∈ latest key time rows, key b = key a := by
  obtain ⟨b, hb, hkey⟩ := argmax_group key time h
  exact ⟨b, mem_latest_iff_argmax.mpr (by rwa [hkey]), hkey⟩

theorem argmax_of_increasing (hp : rows'.Perm rows) (hs : rows.Pairwise fun a b => time a < time b) :
    rows'.argmax time = rows.getLast? := by
  rcases List.eq_nil_or_concat rows with rfl | ⟨before, a, rfl⟩
  · rw [hp.eq_nil]
    rfl
  · rw [List.concat_eq_append] at hp hs ⊢
    have ha : a ∈ rows' := hp.mem_iff.mpr (by simp)
    cases hb : rows'.argmax time with
    | none => exact absurd (List.argmax_eq_none.mp hb) (List.ne_nil_of_mem ha)
    | some b =>
      have hle : time a ≤ time b := List.le_of_mem_argmax ha hb
      rcases List.mem_append.mp (hp.mem_iff.mp (List.argmax_mem hb)) with hm | hm
      · have hlt := (List.pairwise_append.mp hs).2.2 b hm a (List.mem_singleton_self a)
        omega
      · rw [List.mem_singleton.mp hm, List.getLast?_concat]

theorem mem_latest_iff (h : Unambiguous key time rows) :
    a ∈ latest key time rows ↔ a ∈ rows ∧ ∀ b ∈ rows, key b = key a → time b ≤ time a := by
  refine ⟨mem_latest, fun ⟨ha, hmax⟩ => ?_⟩
  obtain ⟨b, hb, hk⟩ := exists_mem_latest key time ha
  obtain ⟨hb', hmax'⟩ := mem_latest hb
  have htime : time b = time a := Nat.le_antisymm (hmax b hb' hk) (hmax' a ha hk.symm)
  rwa [← h b hb' a ha hk htime]

omit [DecidableEq κ] in
theorem Unambiguous.of_subset (h : Unambiguous key time rows) (hs : ∀ a ∈ rows', a ∈ rows) :
    Unambiguous key time rows' :=
  fun a ha b hb => h a (hs a ha) b (hs b hb)

theorem latest_perm (h : Unambiguous key time rows) (hs : ∀ a, a ∈ rows ↔ a ∈ rows') :
    (latest key time rows).Perm (latest key time rows') := by
  have h' : Unambiguous key time rows' := h.of_subset fun a ha => (hs a).mpr ha
  rw [List.perm_ext_iff_of_nodup (nodup_latest rows).of_map (nodup_latest rows').of_map]
  intro a
  simp only [mem_latest_iff h, mem_latest_iff h', hs]

end Aggregates
