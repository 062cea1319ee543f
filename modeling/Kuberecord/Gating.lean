import Kuberecord.HashCache

namespace Kuberecord

namespace Slot

variable {s : Slot} {v : Nat} {e : CacheEntry} {t : Ticket}

def Current (s : Slot) (v : Nat) : Prop := s.entry.map CacheEntry.version = some v

instance (s : Slot) (v : Nat) : Decidable (s.Current v) := inferInstanceAs (Decidable (_ = _))

theorem current_iff : s.Current v ↔ ∃ e, s.entry = some e ∧ e.version = v := by
  simp [Current, Option.map_eq_some_iff]

theorem commitIfCurrent_current (h : s.Current v) :
    s.commitIfCurrent v e = ({ s with entry := some { e with version := v } }, true) := by
  obtain ⟨cur, hc, rfl⟩ := current_iff.mp h
  simp [commitIfCurrent, hc]

theorem commitIfCurrent_stale (h : ¬ s.Current v) (hv : v ≠ 0) : s.commitIfCurrent v e = (s, false) := by
  cases hc : s.entry with
  | none => simp [commitIfCurrent, hc, hv]
  | some cur => simp_all [commitIfCurrent, Current]

theorem deleteIfCurrent_current (h : s.Current v) : s.deleteIfCurrent v = (s.remove, true) := by
  obtain ⟨cur, hc, rfl⟩ := current_iff.mp h
  simp [deleteIfCurrent, remove, hc]

theorem deleteIfCurrent_stale (h : ¬ s.Current v) : s.deleteIfCurrent v = (s, false) := by
  cases hc : s.entry with
  | none => simp [deleteIfCurrent, hc]
  | some cur => simp_all [deleteIfCurrent, Current]

theorem unclaimDelete_stale (h : ¬ s.Current v) : s.unclaimDelete v = s := by
  cases hc : s.entry with
  | none => simp [unclaimDelete, hc]
  | some cur => simp_all [unclaimDelete, Current]

theorem unclaimDelete_current (h : s.entry = some e) (hv : e.version = v) :
    s.unclaimDelete v = { s with entry := some { e with pendingDelete := false } } := by
  simp [unclaimDelete, h, hv]

structure Claims (s : Slot) (uid : String) (s' : Slot) (e : CacheEntry) (t : Ticket) : Prop where
  entry : s.entry = some e
  unclaimed : e.pendingDelete = false
  uid : uid = "" ∨ e.uid = uid
  ticket : t = ⟨e.version + 1, s.installs + 1⟩
  slot : s' = s.install { e with version := e.version + 1, pendingDelete := true }

theorem reserveDelete_claimed {uid : String} {s' : Slot} (h : s.reserveDelete uid = (s', .claimed e t)) :
    s.Claims uid s' e t := by
  unfold reserveDelete at h
  split at h
  · simp at h
  · rename_i cur hc
    split_ifs at h with hp hu
    · simp at h
    · simp at h
    · simp only [Prod.mk.injEq, DeleteClaim.claimed.injEq] at h
      obtain ⟨rfl, rfl, rfl⟩ := h
      exact ⟨hc, by simpa using hp, by tauto, rfl, rfl⟩

theorem reserveDelete_refused {uid : String} (h : ∀ e t, (s.reserveDelete uid).2 ≠ .claimed e t) :
    (s.reserveDelete uid).1 = s ∧ ∀ e, s.entry = some e → e.pendingDelete = true ∨ uid ≠ "" ∧
    e.uid ≠ uid := by
  unfold reserveDelete at h ⊢
  split at h
  · rename_i hc
    simp [hc]
  · rename_i cur hc
    split_ifs at h with hp hu
    · simp [hc, hp]
    · simp [hc, hp, hu]
    · exact absurd rfl (h _ _)

theorem reserveDelete_mismatch {uid : String} (h : (s.reserveDelete uid).2 = .uidMismatch) :
    uid ≠ "" := by
  unfold reserveDelete at h
  split at h
  · cases h
  · split_ifs at h with hp hu
    exact hu.1

structure Gated (s : Slot) : Prop where
  base_le : s.base ≤ s.installs
  version : ∀ e, s.entry = some e → e.version + s.base = s.installs + 1

theorem Gated.empty : Gated {} := ⟨Nat.le_refl _, by simp⟩

theorem Gated.install (h : s.Gated) (he : e.version = s.version + 1) : (s.install e).Gated := by
  cases hs : s.entry with
  | none =>
    have hv : s.version = 0 := by simp [Slot.version, hs]
    constructor
    · simp [Slot.install, hs]
    · intro e' he'
      simp only [Slot.install, Option.some.injEq] at he'
      simp [Slot.install, hs, ← he', he, hv, Nat.add_comm]
  | some cur =>
    have hb := h.base_le
    have hc := h.version cur hs
    have hv : s.version = cur.version := by simp [Slot.version, hs]
    constructor
    · simp only [Slot.install, hs, Option.isSome_some, ↓reduceIte]; omega
    · intro e' he'
      simp only [Slot.install, Option.some.injEq] at he'
      simp only [Slot.install, hs, Option.isSome_some, ↓reduceIte, ← he', he, hv]; omega

theorem Gated.rewrite (h : s.Gated) (hc : s.Current e.version) : Gated { s with entry := some e } := by
  obtain ⟨cur, hs, hv⟩ := current_iff.mp hc
  exact ⟨h.base_le,
    fun e' he' => by simp only [Option.some.injEq] at he'; rw [← he', ← hv]; exact h.version cur hs⟩

theorem Gated.remove (h : s.Gated) : s.remove.Gated := ⟨h.base_le, by simp [Slot.remove]⟩

theorem Gated.commitIfCurrent (h : s.Gated) (hv : v ≠ 0) : (s.commitIfCurrent v e).1.Gated := by
  by_cases hc : s.Current v
  · rw [commitIfCurrent_current hc]; exact h.rewrite hc
  · rw [commitIfCurrent_stale hc hv]; exact h

theorem Gated.deleteIfCurrent (h : s.Gated) : (s.deleteIfCurrent v).1.Gated := by
  by_cases hc : s.Current v
  · rw [deleteIfCurrent_current hc]; exact h.remove
  · rw [deleteIfCurrent_stale hc]; exact h

theorem Gated.unclaimDelete (h : s.Gated) : (s.unclaimDelete v).Gated := by
  by_cases hc : s.Current v
  · obtain ⟨cur, hs, hv⟩ := current_iff.mp hc
    rw [unclaimDelete_current hs hv]
    exact h.rewrite (e := { cur with pendingDelete := false }) (current_iff.mpr ⟨cur, hs, rfl⟩)
  · rw [unclaimDelete_stale hc]; exact h

theorem Gated.reserve (h : s.Gated) : (s.reserve e).1.Gated := h.install rfl

theorem Gated.reserveDelete (h : s.Gated) (uid : String) : (s.reserveDelete uid).1.Gated := by
  unfold Slot.reserveDelete
  split
  · exact h
  · rename_i cur hc
    split_ifs
    · exact h
    · exact h
    · exact h.install (by simp [Slot.version, hc])

theorem Gated.storeIfAbsent (h : s.Gated) : (s.storeIfAbsent e).Gated := by
  unfold Slot.storeIfAbsent
  split_ifs with hs
  · exact h
  · rw [Option.not_isSome_iff_eq_none] at hs
    exact h.install (by simp [Slot.version, hs])

structure Issued (s : Slot) (t : Ticket) : Prop where
  issue_le : t.issue ≤ s.installs
  version_pos : t.version ≠ 0
  version : s.base ≤ t.issue → t.version + s.base = t.issue + 1

theorem Issued.install (h : s.Issued t) : (s.install e).Issued t := by
  have hi := h.issue_le
  refine ⟨Nat.le_succ_of_le hi, h.version_pos, ?_⟩
  cases hs : s.entry with
  | none => simp only [Slot.install, hs, Option.isSome_none, Bool.false_eq_true, ↓reduceIte]; omega
  | some cur => simpa only [Slot.install, hs, Option.isSome_some, ↓reduceIte] using h.version

theorem Issued.fresh (h : s.Gated) : (s.install e).Issued ⟨s.version + 1, s.installs + 1⟩ := by
  refine ⟨Nat.le_refl _, Nat.succ_ne_zero _, ?_⟩
  cases hs : s.entry with
  | none => simp [Slot.install, Slot.version, hs, Nat.add_comm]
  | some cur =>
    have hc := h.version cur hs
    have hb := h.base_le
    simp only [Slot.install, Slot.version, hs, Option.isSome_some, ↓reduceIte, Option.map_some,
      Option.getD_some]
    omega

theorem Issued.withEntry (h : s.Issued t) (o : Option CacheEntry) : Issued { s with entry := o } t :=
  ⟨h.issue_le, h.version_pos, h.version⟩

theorem Issued.commitIfCurrent (h : s.Issued t) : (s.commitIfCurrent v e).1.Issued t := by
  unfold Slot.commitIfCurrent
  split <;> split_ifs <;> first | exact h | exact h.withEntry _

theorem Issued.deleteIfCurrent (h : s.Issued t) : (s.deleteIfCurrent v).1.Issued t := by
  unfold Slot.deleteIfCurrent
  split <;> try split_ifs
  all_goals first | exact h | exact h.withEntry _

theorem Issued.unclaimDelete (h : s.Issued t) : (s.unclaimDelete v).Issued t := by
  unfold Slot.unclaimDelete
  split <;> try split_ifs
  all_goals first | exact h | exact h.withEntry _

theorem Issued.reserveDelete (h : s.Issued t) (uid : String) : (s.reserveDelete uid).1.Issued t := by
  unfold Slot.reserveDelete
  split
  · exact h
  · split_ifs
    · exact h
    · exact h
    · exact h.install

theorem Issued.storeIfAbsent (h : s.Issued t) : (s.storeIfAbsent e).Issued t := by
  unfold Slot.storeIfAbsent
  split_ifs
  · exact h
  · exact h.install

theorem Issued.issue_eq (h : s.Issued t) (hg : s.Gated) (hb : s.base ≤ t.issue)
    (hc : s.Current t.version) :
    t.issue = s.installs := by
  obtain ⟨cur, hs, hv⟩ := current_iff.mp hc
  have h1 := hg.version cur hs
  have h2 := h.version hb
  omega

theorem Issued.current (h : s.Issued t) (hg : s.Gated) (hi : t.issue = s.installs)
    (hs : s.entry.isSome) :
    s.Current t.version := by
  obtain ⟨cur, hs⟩ := Option.isSome_iff_exists.mp hs
  have h1 := hg.version cur hs
  have h2 := h.version (hi ▸ hg.base_le)
  exact current_iff.mpr ⟨cur, hs, by omega⟩

end Slot

end Kuberecord
