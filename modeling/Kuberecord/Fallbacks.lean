import Kuberecord.Writes

namespace Kuberecord

variable {lib : Lib} {ephemeral : Bool} {norm : NormalizedObject} {base : Option CacheEntry}
  {plan : Plan}

structure CacheEntry.Alike (e e' : CacheEntry) : Prop where
  hash : e.hash = e'.hash
  uid : e.uid = e'.uid
  seeded : e.seeded = e'.seeded

theorem CacheEntry.Alike.refl (e : CacheEntry) : e.Alike e := ⟨rfl, rfl, rfl⟩

structure Slot.Keeps (s s' : Slot) : Prop where
  installs : s.installs ≤ s'.installs
  entry : ∀ e', s'.entry = some e' → ∃ e, s.entry = some e ∧ e.Alike e'

namespace Slot.Keeps

variable {s : Slot} {v : Nat} {e : CacheEntry}

theorem refl (s : Slot) : s.Keeps s := ⟨Nat.le_refl _, fun e he => ⟨e, he, .refl e⟩⟩

theorem remove : s.Keeps s.remove := ⟨Nat.le_refl _, by simp [Slot.remove]⟩

theorem claims {uid : String} {s' : Slot} {t : Ticket} (h : s.Claims uid s' e t) : s.Keeps s' := by
  rw [h.slot]
  refine ⟨Nat.le_succ _, fun e' he' => ⟨e, h.entry, ?_⟩⟩
  cases he'
  exact ⟨rfl, rfl, rfl⟩

theorem deleteIfCurrent : s.Keeps (s.deleteIfCurrent v).1 := by
  by_cases hc : s.Current v
  · rw [deleteIfCurrent_current hc]
    exact remove
  · rw [deleteIfCurrent_stale hc]
    exact refl s

theorem unclaimDelete : s.Keeps (s.unclaimDelete v) := by
  by_cases hc : s.Current v
  · obtain ⟨cur, hs, hv⟩ := current_iff.mp hc
    rw [unclaimDelete_current hs hv]
    refine ⟨Nat.le_refl _, fun e' he' => ⟨cur, hs, ?_⟩⟩
    cases he'
    exact ⟨rfl, rfl, rfl⟩
  · rw [unclaimDelete_stale hc]
    exact refl s

theorem setSlot {sh : Shared} {st : Inst} {k : String} {slot : Slot} (h : (sh.slot st k).Keeps slot)
    (st' : Inst) (k' : String) : (sh.slot st' k').Keeps ((sh.setSlot st k slot).slot st' k') := by
  rw [Shared.slot_setSlot]
  split_ifs with hs
  · exact hs.1 ▸ hs.2 ▸ h
  · exact refl _

theorem of_same {s s' : Shared} {st : Inst} {k : String} (hs : s.Same s') :
    (s.slot st k).Keeps (s'.slot st k) :=
  hs.slot st k ▸ .refl _

end Slot.Keeps

def Phase.read : Phase → Option (Inst × String × CacheEntry)
  | .loaded st k (some e) | .superseding st k e _ | .closing st k e _ | .superseded st k e =>
    some (st, k, e)
  | _ => none

def Phase.fallback : Phase → Option (Inst × String × Ticket × CacheEntry)
  | .reserved st k (some e) _ t _ | .reverting st k _ t (some e) => some (st, k, t, e)
  | _ => none

def Commit.fallback : Commit → Option (Inst × String × Ticket × CacheEntry)
  | .upsert st k _ t _ (some e) => some (st, k, t, e)
  | _ => none

@[simp]
theorem Phase.read_outsOf (st : Inst) (k : String) (rs : List Record) :
    (Phase.outsOf st k rs).read = none := by
  cases rs <;> rfl

@[simp]
theorem Phase.fallback_outsOf (st : Inst) (k : String) (rs : List Record) :
    (Phase.outsOf st k rs).fallback = none := by
  cases rs <;> rfl

theorem Phase.ticket_of_fallback {p : Phase} {st : Inst} {k : String} {t : Ticket} {e : CacheEntry}
    (h : p.fallback = some (st, k, t, e)) : p.ticket = some (st, k, t) := by
  unfold Phase.fallback at h
  split at h <;> cases h <;> rfl

theorem Commit.ticket_of_fallback {c : Commit} {st : Inst} {k : String} {t : Ticket} {e : CacheEntry}
    (h : c.fallback = some (st, k, t, e)) : c.ticket = some (st, k, t) := by
  unfold Commit.fallback at h
  split at h <;> cases h
  rfl

theorem Slot.fallBack_installs (s : Slot) (t : Ticket) (r : Option CacheEntry) :
    (s.fallBack t r).installs = s.installs := by
  cases r with
  | none =>
    by_cases hc : s.Current t.version
    · simp [Slot.fallBack, Slot.deleteIfCurrent_current hc, Slot.remove]
    · simp [Slot.fallBack, Slot.deleteIfCurrent_stale hc]
  | some e =>
    change (s.commitIfCurrent t.version e).1.installs = s.installs
    unfold Slot.commitIfCurrent
    split <;> split_ifs <;> rfl

theorem Slot.Issued.fallBack_entry {s : Slot} {t : Ticket} {r : Option CacheEntry} {e : CacheEntry}
    (h : s.Issued t) (hg : s.Gated) (hi : t.issue = s.installs)
    (he : (s.fallBack t r).entry = some e) :
    ∃ e', r = some e' ∧ e'.Alike e := by
  by_cases hc : s.Current t.version
  · cases r with
    | none => simp [Slot.fallBack, Slot.deleteIfCurrent_current hc, Slot.remove] at he
    | some e' =>
      rw [Slot.fallBack, Slot.commitIfCurrent_current hc] at he
      cases he
      exact ⟨e', rfl, rfl, rfl, rfl⟩
  · have hs : s.fallBack t r = s := by
      cases r with
      | none => rw [Slot.fallBack, Slot.deleteIfCurrent_stale hc]
      | some e' => rw [Slot.fallBack, Slot.commitIfCurrent_stale hc h.version_pos]
    rw [hs] at he
    exact absurd (h.current hg hi (by simp [he])) hc

theorem modifiedPlan_revertEntry (lib : Lib) (ephemeral : Bool) (every : Int) (e : CacheEntry)
    (norm : NormalizedObject) : (modifiedPlan lib ephemeral every e norm).revertEntry = some e := by
  unfold modifiedPlan
  split_ifs
  · rfl
  · rfl
  · split
    · rfl
    · split
      · rfl
      · split
        · rfl
        · split_ifs <;> rfl

theorem Planned.revertEntry
    (h : Planned lib ephemeral norm base plan) : plan.revertEntry = none ∨ plan.revertEntry = base := by
  cases h with
  | miss | superseding => exact .inl rfl
  | modified e every => exact .inr (modifiedPlan_revertEntry ..)

theorem Planned.revertEntry_eq
    (h : Planned lib ephemeral norm base plan) (hu : ∀ e ∈ base, e.uid = norm.uid) :
    plan.revertEntry = base := by
  cases h with
  | miss => rfl
  | superseding e hs => exact absurd (hu e rfl) hs.2
  | modified e every => exact modifiedPlan_revertEntry ..

def CacheEntry.Precedes (uid : String) (b : CacheEntry) : Bool := b.uid = "" ∨ b.uid = uid

theorem Planned.revertEntry_filter
    (h : Planned lib ephemeral norm base plan) :
    plan.revertEntry = base.filter (CacheEntry.Precedes norm.uid) := by
  cases h with
  | miss => rfl
  | superseding e hs => simp [Option.filter, CacheEntry.Precedes, hs.1, hs.2]
  | modified e every hs =>
    have hp : e.uid = "" ∨ e.uid = norm.uid := by
      unfold Supersedes at hs
      tauto
    simp [Option.filter, CacheEntry.Precedes, hp, modifiedPlan_revertEntry]

theorem Planned.eventType
    (h : Planned lib ephemeral norm base plan) : plan.eventType ≠ .deleted := by
  cases h with
  | miss eventType he => exact he
  | superseding e hs => decide
  | modified e every hs hh =>
    unfold modifiedPlan
    repeat' split
    all_goals simp

section

variable {s : Shared} {c : Commit} {st : Inst} {k : String} {t : Ticket} {e : CacheEntry}

theorem callback_keeps {ok : Bool} (hc : ∀ t e, c.write ≠ some (st, k, t, e)) :
    (s.slot st k).Keeps ((s.callback c ok).slot st k) := by
  rcases c with ⟨st', k', key, t, e, r⟩ | ⟨st', k', key, t⟩ | ⟨st', k', key, r⟩
  · have hne : ¬ (st = st' ∧ k = k') := by
      rintro ⟨rfl, rfl⟩
      exact hc t e rfl
    cases ok <;> cases r <;>
      simp only [Shared.callback, Shared.slot_addKey, Shared.slot_setSlot_of_ne hne] <;> exact .refl _
  · cases ok
    · exact Slot.Keeps.unclaimDelete.setSlot st k
    · exact Slot.Keeps.deleteIfCurrent.setSlot st k
  · cases ok <;> simp only [Shared.callback, Shared.slot_addKey,
      Shared.slot_setCloseOuts] <;> exact .refl _

theorem callback_lapsed {key : Key} {r : Option CacheEntry} :
    (s.callback (.upsert st k key t e r) false).slot st k = (s.slot st k).fallBack t r := by
  cases r <;> exact Shared.slot_setSlot_self

theorem callback_committed (hc : c.write = some (st, k, t, e)) :
    (s.callback c true).slot st k = ((s.slot st k).commitIfCurrent t.version e).1 := by
  cases c <;> cases hc
  exact Shared.slot_setSlot_self

end

namespace World

variable {w w' : World} {cfg : Config} {a : Action} {d : Deed} {st : Inst} {k : String} {t : Ticket}
  {e : CacheEntry} {n : Nat}
variable {tid : Tid}

def Remembers (w : World) (st : Inst) (k : String) (e : CacheEntry) (n : Nat) : Prop :=
  (w.shared.slot st k).installs < n ∧
      ((w.shared.slot st k).entry = some e ∨ ∃ tid, (w.phase tid).read = some (st, k, e)) ∨
    ∃ t : Ticket, t.issue ≤ n ∧ ((∃ tid, (w.phase tid).fallback = some (st, k, t, e)) ∨
      ∃ h ∈ w.shared.jobs, h.status = .inFlight ∧ h.job.commit.fallback = some (st, k, t, e))

theorem Remembers.of_keeps (h : w'.Remembers st k e n)
    (hs : (w.shared.slot st k).Keeps (w'.shared.slot st k))
    (hr : ∀ tid, (w'.phase tid).read = some (st, k, e) → (w.phase tid).read = some (st, k, e))
    (hf : ∀ tid t, (w'.phase tid).fallback = some (st, k, t, e) →
      (w.phase tid).fallback = some (st, k, t, e))
    (hj : ∀ h ∈ w'.shared.jobs, h.status = .inFlight → h.job.commit.fallback ≠ none →
      h ∈ w.shared.jobs) :
    ∃ e', w.Remembers st k e' n ∧ e'.Alike e := by
  rcases h with ⟨hn, he | ⟨tid, hp⟩⟩ | ⟨t, ht, ⟨tid, hp⟩ | ⟨h, hm, hst, hc⟩⟩
  · obtain ⟨e', he', ha⟩ := hs.entry e he
    exact ⟨e', .inl ⟨Nat.lt_of_le_of_lt hs.installs hn, .inl he'⟩, ha⟩
  · exact ⟨e, .inl ⟨Nat.lt_of_le_of_lt hs.installs hn, .inr ⟨tid, hr tid hp⟩⟩, .refl e⟩
  · exact ⟨e, .inr ⟨t, ht, .inl ⟨tid, hf tid t hp⟩⟩, .refl e⟩
  · exact ⟨e, .inr ⟨t, ht, .inr ⟨h, hj h hm hst (by simp [hc]), hst, hc⟩⟩, .refl e⟩

theorem Remembers.set_elim {p : Phase} {s' : Shared} (h : (w.set tid p s').Remembers st k e n)
    (hi : (w.shared.slot st k).installs ≤ (s'.slot st k).installs) :
    w.Remembers st k e n ∨
      (s'.slot st k).installs < n ∧ ((s'.slot st k).entry = some e ∨ p.read = some (st, k, e)) ∨
      ∃ t : Ticket, t.issue ≤ n ∧ (p.fallback = some (st, k, t, e) ∨
        ∃ h ∈ s'.jobs, h.status = .inFlight ∧ h.job.commit.fallback = some (st, k, t, e)) := by
  rcases h with ⟨hn, he | ⟨u, hu⟩⟩ | ⟨t, ht, ⟨u, hu⟩ | hj⟩
  · exact .inr (.inl ⟨hn, .inl he⟩)
  · by_cases hut : u = tid
    · subst hut
      rw [set_phase_self] at hu
      exact .inr (.inl ⟨hn, .inr hu⟩)
    · rw [set_phase_of_ne hut] at hu
      exact .inl (.inl ⟨Nat.lt_of_le_of_lt hi hn, .inr ⟨u, hu⟩⟩)
  · by_cases hut : u = tid
    · subst hut
      rw [set_phase_self] at hu
      exact .inr (.inr ⟨t, ht, .inl hu⟩)
    · rw [set_phase_of_ne hut] at hu
      exact .inl (.inr ⟨t, ht, .inl ⟨u, hu⟩⟩)
  · exact .inr (.inr ⟨t, ht, .inr hj⟩)

theorem Remembers.of_set {p q : Phase} {s : Shared} (h : (w.set tid p s).Remembers st k e n)
    (hq : w.phase tid = q) (hs : (w.shared.slot st k).Keeps (s.slot st k))
    (hr : p.read = none ∨ p.read = q.read) (hf : p.fallback = none ∨ p.fallback = q.fallback)
    (hj : ∀ h ∈ s.jobs, h.status = .inFlight → h.job.commit.fallback ≠ none → h ∈ w.shared.jobs) :
    ∃ e', w.Remembers st k e' n ∧ e'.Alike e := by
  rcases h.set_elim hs.installs with h | ⟨hn, he | hp⟩ | ⟨t, ht, hp | ⟨h, hm, hst, hc⟩⟩
  · exact ⟨e, h, .refl e⟩
  · obtain ⟨e', he', ha⟩ := hs.entry e he
    exact ⟨e', .inl ⟨Nat.lt_of_le_of_lt hs.installs hn, .inl he'⟩, ha⟩
  · rw [hr.resolve_left (by simp [hp]), ← hq] at hp
    exact ⟨e, .inl ⟨Nat.lt_of_le_of_lt hs.installs hn, .inr ⟨tid, hp⟩⟩, .refl e⟩
  · rw [hf.resolve_left (by simp [hp]), ← hq] at hp
    exact ⟨e, .inr ⟨t, ht, .inl ⟨tid, hp⟩⟩, .refl e⟩
  · exact ⟨e, .inr ⟨t, ht, .inr ⟨h, hj h hm hst (by simp [hc]), hst, hc⟩⟩, .refl e⟩

theorem not_remembers_crashed : ¬ w.crashed.Remembers st k e n := by
  rintro (⟨hn, he | ⟨tid, hp⟩⟩ | ⟨t, ht, ⟨tid, hp⟩ | ⟨h, hm, hst, hc⟩⟩)
  · cases he
  · cases hp
  · cases hp
  · obtain ⟨h0, -, rfl⟩ := List.mem_map.mp hm
    split_ifs at hst with hs
    exact absurd hst hs

def Sourced (w w' : World) (st : Inst) (k : String) (e : CacheEntry) (n : Nat) : Prop :=
  (∃ e', w.Remembers st k e' n ∧ e'.Alike e) ∨ e.seeded = true ∨
    ∃ t c, (w.Pending st k t c ∨ w'.Pending st k t c) ∧ t.issue < n ∧ c.hash = e.hash ∧ c.uid = e.uid

theorem fallback_hand {sink : String} {job : Job} (hf : job.commit.fallback = none) :
    ∀ h ∈ (w.hand sink job).jobs, h.status = .inFlight → h.job.commit.fallback ≠ none →
      h ∈ w.shared.jobs := by
  intro h hm _ hne
  rcases List.mem_append.mp hm with hm | hm
  · exact hm
  · obtain rfl := List.mem_singleton.mp hm
    exact absurd hf hne

theorem Remembers.of_reserve {q : Phase} {st₀ : Inst} {k₀ : String} {base : Option CacheEntry}
    {c : CacheEntry} (hq : w.phase tid = q) (hr : ∀ b, base = some b → q.read = some (st₀, k₀, b))
    (hw : w' = w.set tid (.reserved st₀ k₀ base c ((w.shared.slot st₀ k₀).reserve c).2 none)
      (w.shared.setSlot st₀ k₀ ((w.shared.slot st₀ k₀).reserve c).1)) (h : w'.Remembers st k e n) :
    Sourced w w' st k e n := by
  subst hw
  have hi : (w.shared.slot st k).installs ≤
      ((w.shared.setSlot st₀ k₀ ((w.shared.slot st₀ k₀).reserve c).1).slot st k).installs := by
    rw [Shared.slot_setSlot]
    split_ifs with hs
    · rw [hs.1, hs.2]
      exact Nat.le_succ _
    · exact Nat.le_refl _
  rcases h.set_elim hi with h | ⟨hn, he | hp⟩ | ⟨t, ht, hp | hj⟩
  · exact .inl ⟨e, h, .refl e⟩
  · by_cases hs : st = st₀ ∧ k = k₀
    · obtain ⟨rfl, rfl⟩ := hs
      rw [Shared.slot_setSlot_self] at hn he
      cases he
      exact .inr (.inr ⟨_, c, .inr (.inl ⟨tid, by rw [set_phase_self]; rfl⟩), hn, rfl, rfl⟩)
    · rw [Shared.slot_setSlot_of_ne hs] at hn he
      exact .inl ⟨e, .inl ⟨hn, .inl he⟩, .refl e⟩
  · cases hp
  · cases base with
    | none => cases hp
    | some b =>
      cases hp
      exact .inl ⟨_, .inl ⟨ht, .inr ⟨tid, hq ▸ hr _ rfl⟩⟩, .refl _⟩
  · exact .inl ⟨e, .inr ⟨t, ht, .inr hj⟩, .refl e⟩

theorem fallback_unmoved {s : Shared} : ∀ h ∈ s.jobs, h.status = .inFlight →
    h.job.commit.fallback ≠ none → h ∈ s.jobs :=
  fun _ hm _ _ => hm

theorem fallback_same {s : Shared} (hs : w.shared.Same s) : ∀ h ∈ s.jobs, h.status = .inFlight →
    h.job.commit.fallback ≠ none → h ∈ w.shared.jobs :=
  fun _ hm _ _ => hs.jobs ▸ hm

theorem Remembers.of_load {st₀ : Inst} {k₀ : String}
    (h : (w.set tid (.loaded st₀ k₀ (w.shared.slot st₀ k₀).entry) w.shared).Remembers st k e n) :
    w.Remembers st k e n := by
  rcases h.set_elim (Nat.le_refl _) with h | ⟨hn, he | hr⟩ | ⟨t, ht, hr | hj⟩
  · exact h
  · exact .inl ⟨hn, .inl he⟩
  · cases hb : (w.shared.slot st₀ k₀).entry with
    | none =>
      rw [hb] at hr
      cases hr
    | some b =>
      rw [hb] at hr
      cases hr
      exact .inl ⟨hn, .inl hb⟩
  · cases hr
  · exact .inr ⟨t, ht, .inr hj⟩

/-- The job falls back to what its reservation fell back to. -/
theorem Remembers.of_issue {key : Key} {st₀ : Inst} {k₀ : String} {base revertEntry : Option CacheEntry}
    {entry : CacheEntry} {tk : Ticket} {ts : Option Nat} {record : Record} {sink : String}
    (h : (w.set (.worker key) .idle
      (w.hand sink ⟨record, .upsert st₀ k₀ key tk entry revertEntry⟩)).Remembers st k e n)
    (hp : w.phase (.worker key) = .reserved st₀ k₀ base entry tk ts)
    (hr : revertEntry = none ∨ revertEntry = base) : w.Remembers st k e n := by
  rcases h.set_elim (Nat.le_refl _) with h | ⟨hn, he | hr⟩ | ⟨t, ht, hr | ⟨h, hm, hst, hc⟩⟩
  · exact h
  · exact .inl ⟨hn, .inl he⟩
  · cases hr
  · cases hr
  · rcases List.mem_append.mp hm with hm | hm
    · exact .inr ⟨t, ht, .inr ⟨h, hm, hst, hc⟩⟩
    · obtain rfl := List.mem_singleton.mp hm
      refine .inr ⟨t, ht, .inl ⟨.worker key, ?_⟩⟩
      rcases hr with rfl | rfl
      · cases hc
      · rw [hp, ← hc]
        cases revertEntry <;> rfl

theorem Remembers.of_seed {st₀ : Inst} {k₀ : String} {current : KnownState} (hw : w' = { w with
      shared := w.shared.setSlot st₀ k₀ ((w.shared.slot st₀ k₀).storeIfAbsent (seededEntry current)) })
    (h : w'.Remembers st k e n) : Sourced w w' st k e n := by
  subst hw
  by_cases hs : (st = st₀ ∧ k = k₀) ∧ (w.shared.slot st₀ k₀).entry = none
  · obtain ⟨⟨rfl, rfl⟩, hnone⟩ := hs
    rcases h with ⟨hn, he | hr⟩ | hf
    · refine .inr (.inl ?_)
      simp only [Shared.slot_setSlot_self, Slot.storeIfAbsent, hnone, Slot.install] at he
      cases he
      rfl
    · refine .inl ⟨e, .inl ⟨Nat.lt_of_le_of_lt ?_ hn, .inr hr⟩, .refl e⟩
      simp [Slot.storeIfAbsent, hnone, Slot.install]
    · exact .inl ⟨e, .inr hf, .refl e⟩
  · refine .inl (h.of_keeps ?_ (fun _ => id) (fun _ _ => id) fallback_unmoved)
    rw [Shared.slot_setSlot]
    split_ifs with heq
    · obtain ⟨cur, hcur⟩ := Option.ne_none_iff_exists'.mp (fun hnone => hs ⟨heq, hnone⟩)
      obtain ⟨rfl, rfl⟩ := heq
      simpa [Slot.storeIfAbsent, hcur] using .refl _
    · exact .refl _

/-- A callback confirms the write it belongs to, or keeps what the slot has. -/
theorem Remembers.of_settle {j : Nat} {sink : String} {job : Job} {ok : Bool} (hsound : w.Sound cfg)
    (hj : w.shared.jobs[j]? = some ⟨sink, job, .inFlight⟩)
    (hw : w' = { w with shared := w.shared.settled j sink job ok })
    (hok : ∀ t c, job.commit.write = some (st, k, t, c) → ok = true) (h : w'.Remembers st k e n) :
    Sourced w w' st k e n := by
  subst hw
  have keeps (hk : (w.shared.slot st k).Keeps ((w.shared.callback job.commit ok).slot st k)) :
      ∃ e', w.Remembers st k e' n ∧ e'.Alike e :=
    h.of_keeps (by rw [Shared.settled_slot]; exact hk) (fun _ => id) (fun _ _ => id)
      (fun _ hm hst _ => Shared.inFlight_of_settled hm hst)
  by_cases hc : ∃ t c, job.commit.write = some (st, k, t, c)
  · obtain ⟨t, c, hc⟩ := hc
    obtain rfl := hok t c hc
    have hm := List.mem_of_getElem? hj
    have hi := hsound.issued st k t (.inr ⟨_, hm, rfl, Commit.ticket_of_write hc⟩)
    have hslot := callback_committed (s := w.shared) hc
    by_cases hcur : (w.shared.slot st k).Current t.version
    · rw [Slot.commitIfCurrent_current hcur] at hslot
      rcases h with ⟨hn, he | hr⟩ | ⟨t', ht', hf | ⟨x, hx, hst, hf⟩⟩
      · rw [Shared.settled_slot, hslot] at hn he
        cases he
        exact .inr (.inr ⟨t, c, .inl (.inr ⟨_, hm, rfl, hc⟩), Nat.lt_of_le_of_lt hi.issue_le hn, rfl, rfl⟩)
      · rw [Shared.settled_slot, hslot] at hn
        exact .inl ⟨e, .inl ⟨hn, .inr hr⟩, .refl e⟩
      · exact .inl ⟨e, .inr ⟨t', ht', .inl hf⟩, .refl e⟩
      · exact .inl ⟨e, .inr ⟨t', ht', .inr ⟨x, Shared.inFlight_of_settled hx hst, hst, hf⟩⟩, .refl e⟩
    · rw [Slot.commitIfCurrent_stale hcur hi.version_pos] at hslot
      exact .inl (keeps (by rw [hslot]; exact .refl _))
  · exact .inl (keeps (callback_keeps fun t c h => hc ⟨t, c, h⟩))

theorem Remembers.turn (h : w'.Remembers st k e n) (hsound : w.Sound cfg) (ht : Turn cfg w d w')
    (hl : ∀ t, ¬ w.Lapse st k t d.plain w') : Sourced w w' st k e n := by
  cases ht with
  | still _ w' hp hs _ _ _ =>
    exact .inl (h.of_keeps (.of_same hs) (fun _ => by rw [hp]; exact id)
      (fun _ _ => by rw [hp]; exact id) (fallback_same hs))
  | attach | look | consult | vouch | tick => exact .inl ⟨e, h, .refl e⟩
  | drop _ _ _ _ s' hp hs | recoverRefused _ _ _ _ _ s' _ _ _ _ hp hs =>
    exact .inl (of_set (s := s') h hp (.of_same hs) (.inl rfl) (.inl rfl) (fallback_same hs))
  | load key st₀ k₀ hk hi hp => exact .inl ⟨e, h.of_load, .refl e⟩
  | reserve key st₀ k₀ base norm plan hk hd hp =>
    rcases hp with ⟨hp, -⟩ | ⟨b, rfl, -, hp⟩
    · exact of_reserve hp (by rintro b rfl; rfl) rfl h
    · exact of_reserve hp (by rintro b ⟨⟩; rfl) rfl h
  | date tid st₀ k₀ base entry tk ts hp =>
    exact .inl (h.of_set hp (.refl _) (.inl rfl) (.inr (by cases base <;> rfl)) fallback_unmoved)
  | issue key st₀ k₀ base norm plan tk ts hk hd hp =>
    exact .inl ⟨e, h.of_issue hp hd.planned.revertEntry, .refl e⟩
  | refuse key st₀ k₀ base norm plan tk ts s' hk hd hp hs =>
    refine .inl (h.of_set hp (.of_same hs) (.inl rfl) ?_ (fallback_same hs))
    rcases hd.planned.revertEntry with hr | hr <;> rw [hr]
    · exact .inl rfl
    · exact .inr (by cases base <;> rfl)
  | revert tid st' k' confirmed entry tk hp =>
    have hne : ¬ (st = st' ∧ k = k') := by
      rintro ⟨rfl, rfl⟩
      exact hl tk (.revert tid _ _ hp)
    exact .inl (h.of_set hp (Shared.slot_setSlot_of_ne hne ▸ .refl _) (.inl rfl) (.inl rfl)
      fallback_unmoved)
  | retract _ _ _ _ _ hp | forget _ _ _ _ _ _ _ hp =>
    exact .inl (h.of_set hp (Slot.Keeps.deleteIfCurrent.setSlot st k) (.inl rfl) (.inl rfl)
      fallback_unmoved)
  | claim tid key st k uid e tk slot hk hm hp hc =>
    exact .inl (of_set (s := w.shared.setSlot st k slot) h hp ((Slot.Keeps.claims hc).setSlot _ _)
      (.inl rfl) (.inl rfl) fallback_unmoved)
  | dateClaim tid st k e tk ts hp =>
    exact .inl (h.of_set hp (.refl _) (.inl rfl) (.inl rfl) fallback_unmoved)
  | emit tid key st k e tk ts hk he hp =>
    exact .inl (h.of_set hp (.refl _) (.inl rfl) (.inl rfl) (fallback_hand rfl))
  | emitRefused tid st k e tk ts s' hp hs =>
    exact .inl (h.of_set hp (.of_same hs) (.inl rfl) (.inl rfl) (fallback_same hs))
  | release tid st₀ k₀ e tk hp =>
    exact .inl (h.of_set hp (Slot.Keeps.unclaimDelete.setSlot st k) (.inl rfl) (.inl rfl)
      fallback_unmoved)
  | supersede key st k base e norm tk slot hk he hobs hsup hp hc =>
    exact .inl (of_set (s := w.shared.setSlot st k slot) h hp ((Slot.Keeps.claims hc).setSlot _ _)
      (.inr rfl) (.inl rfl) fallback_unmoved)
  | outrun key st k base norm s' hk hobs hsup hp hn hs =>
    exact .inl (h.of_set hp (.of_same hs) (.inr rfl) (.inl rfl) (fallback_same hs))
  | dateClose key st k base e ts hp =>
    exact .inl (h.of_set hp (.refl _) (.inr rfl) (.inl rfl) fallback_unmoved)
  | close key st k base r hk hp =>
    exact .inl (h.of_set hp (.refl _) (.inr rfl) (.inl rfl) (fallback_hand rfl))
  | shelve tid st k base r hp =>
    exact .inl (h.of_set hp (by simpa using .refl _) (.inr rfl) (.inl rfl) fallback_unmoved)
  | takeAll _ _ _ _ hp | reshelve _ _ _ _ _ hp =>
    exact .inl (h.of_set hp (by simpa using .refl _) (by simp) (by simp) fallback_unmoved)
  | resubmit key st k r rs hk hp =>
    exact .inl (h.of_set hp (.refl _) (by simp) (by simp) (fallback_hand rfl))
  | recover tid key st k x hk hn he hx hp =>
    exact .inl (h.of_keeps (.refl _) (fun _ => id) (fun _ _ => id) (fallback_hand rfl))
  | seed tid key st₀ k₀ current hk hn hi hx hp => exact of_seed rfl h
  | evict ref st₀ hst =>
    refine .inl (h.of_keeps ?_ (fun _ => id) (fun _ _ => id) fallback_unmoved)
    rw [Shared.slot_deletePrefix]
    split_ifs
    · exact .remove
    · exact .refl _
  | insert | removeSink =>
    exact .inl (h.of_keeps (.refl _) (fun _ => id) (fun _ _ => id) fallback_unmoved)
  | settle j ok sink job hj hok =>
    refine of_settle hsound hj rfl (fun t c hw => ?_) h
    cases ok with
    | true => rfl
    | false =>
      obtain ⟨record, commit⟩ := job
      cases commit <;> cases hw
      exact absurd (.settle j sink record _ _ _ hj) (hl _)
  | crash => exact absurd h not_remembers_crashed

theorem Ticketed.of_fallback (h : (w.phase tid).fallback = some (st, k, t, e)) : w.Ticketed st k t :=
  .inl ⟨tid, Phase.ticket_of_fallback h⟩

theorem Remembers.lapse {t₀ : Ticket} (h : w'.Remembers st k e n) (hsound : w.Sound cfg)
    (hl : w.Lapse st k t₀ a w') (hi : (w.shared.slot st k).installs = t₀.issue)
    (hr : ∀ tid e, (w.phase tid).read ≠ some (st, k, e)) :
    ∃ e', w.Remembers st k e' (min n t₀.issue) ∧ e'.Alike e := by
  have hg := hsound.gated st k
  have bound {t} (ht : w.Ticketed st k t) : t.issue ≤ t₀.issue := hi ▸ (hsound.issued st k t ht).issue_le
  cases hl with
  | revert tid c r hp =>
    have hi₀ := hsound.issued st k t₀ (.of_phase hp rfl)
    rcases h with ⟨hn, he | ⟨u, hu⟩⟩ | ⟨t, ht, ⟨u, hu⟩ | ⟨h, hm, hst, hc⟩⟩
    · change ((w.shared.setSlot st k _).slot st k).installs < n at hn
      change ((w.shared.setSlot st k _).slot st k).entry = some e at he
      rw [Shared.slot_setSlot_self] at hn he
      rw [Slot.fallBack_installs, hi] at hn
      obtain ⟨e', rfl, ha⟩ := hi₀.fallBack_entry hg hi.symm he
      exact ⟨e', .inr ⟨t₀, Nat.le_min.mpr ⟨Nat.le_of_lt hn, Nat.le_refl _⟩, .inl ⟨tid, hp ▸ rfl⟩⟩, ha⟩
    · by_cases hut : u = tid
      · subst hut
        rw [set_phase_self] at hu
        cases hu
      · rw [set_phase_of_ne hut] at hu
        exact absurd hu (hr u e)
    · by_cases hut : u = tid
      · subst hut
        rw [set_phase_self] at hu
        cases hu
      · rw [set_phase_of_ne hut] at hu
        exact ⟨e, .inr ⟨t, Nat.le_min.mpr ⟨ht, bound (.of_fallback hu)⟩, .inl ⟨u, hu⟩⟩, .refl e⟩
    · have hb := bound (.inr ⟨h, hm, hst, Commit.ticket_of_fallback hc⟩)
      exact ⟨e, .inr ⟨t, Nat.le_min.mpr ⟨ht, hb⟩, .inr ⟨h, hm, hst, hc⟩⟩, .refl e⟩
  | settle j sink record key c r hj =>
    have hm₀ := List.mem_of_getElem? hj
    have hi₀ := hsound.issued st k t₀ (.inr ⟨_, hm₀, rfl, rfl⟩)
    rcases h with ⟨hn, he | ⟨u, hu⟩⟩ | ⟨t, ht, ⟨u, hu⟩ | ⟨h, hm, hst, hc⟩⟩
    · rw [Shared.settled_slot, callback_lapsed] at hn he
      rw [Slot.fallBack_installs, hi] at hn
      obtain ⟨e', rfl, ha⟩ := hi₀.fallBack_entry hg hi.symm he
      exact ⟨e', .inr ⟨t₀, Nat.le_min.mpr ⟨Nat.le_of_lt hn, Nat.le_refl _⟩, .inr ⟨_, hm₀, rfl, rfl⟩⟩, ha⟩
    · exact absurd hu (hr u e)
    · exact ⟨e, .inr ⟨t, Nat.le_min.mpr ⟨ht, bound (.of_fallback hu)⟩, .inl ⟨u, hu⟩⟩, .refl e⟩
    · have hm := Shared.inFlight_of_settled hm hst
      have hb := bound (.inr ⟨h, hm, hst, Commit.ticket_of_fallback hc⟩)
      exact ⟨e, .inr ⟨t, Nat.le_min.mpr ⟨ht, hb⟩, .inr ⟨h, hm, hst, hc⟩⟩, .refl e⟩

end World

end Kuberecord
