import Kuberecord.Slots

namespace Kuberecord

variable {s : Slot}

def Phase.Mild : Phase → Prop
  | .idle | .claimed _ _ _ _ _ | .releasing _ _ _ _ => True
  | .loaded _ _ base | .reserved _ _ base _ _ _ => ∀ e ∈ base, e.pendingDelete = false
  | .reverting _ _ _ _ f => ∀ e ∈ f, e.pendingDelete = false
  | .outs _ _ _ | .superseding _ _ _ _ | .closing _ _ _ _ | .superseded _ _ _ => False

def Commit.Mild : Commit → Prop
  | .upsert _ _ _ _ e f => e.pendingDelete = false ∧ ∀ b ∈ f, b.pendingDelete = false
  | .delete _ _ _ _ | .closeOut _ _ _ _ => False

def Phase.claim : Phase → Option (Inst × String × Ticket)
  | .claimed st k _ t _ | .releasing st k _ t => some (st, k, t)
  | _ => none

def Slot.NoNewMark (s s' : Slot) : Prop := ∀ e, s'.entry = some e → e.pendingDelete = true →
    s.entry = some e

theorem Slot.NoNewMark.refl (s : Slot) : s.NoNewMark s := fun _ he _ => he

theorem Slot.noNewMark_commit {v : Nat} {e : CacheEntry} (hv : v ≠ 0) (he : e.pendingDelete = false) :
    s.NoNewMark (s.commitIfCurrent v e).1 := by
  intro e' he' hp
  by_cases hc : s.Current v
  · rw [Slot.commitIfCurrent_current hc] at he'
    cases he'
    exact absurd (he.symm.trans hp) (by simp)
  · rwa [Slot.commitIfCurrent_stale hc hv] at he'

theorem Slot.noNewMark_delete {v : Nat} : s.NoNewMark (s.deleteIfCurrent v).1 := by
  intro e' he' hp
  by_cases hc : s.Current v
  · rw [Slot.deleteIfCurrent_current hc] at he'
    cases he'
  · rwa [Slot.deleteIfCurrent_stale hc] at he'

theorem Slot.noNewMark_unclaim {v : Nat} : s.NoNewMark (s.unclaimDelete v) := by
  intro e' he' hp
  by_cases hc : s.Current v
  · obtain ⟨e, he, hv⟩ := Slot.current_iff.mp hc
    rw [Slot.unclaimDelete_current he hv] at he'
    cases he'
    cases hp
  · rwa [Slot.unclaimDelete_stale hc] at he'

theorem Slot.noNewMark_store {e : CacheEntry} (he : e.pendingDelete = false) :
    s.NoNewMark (s.storeIfAbsent e) := by
  intro e' he' hp
  cases hs : s.entry with
  | none =>
    simp only [Slot.storeIfAbsent, hs, Slot.install] at he'
    cases he'
    exact absurd (he.symm.trans hp) (by simp)
  | some e₀ =>
    simp only [Slot.storeIfAbsent, hs] at he'
    exact hs.symm.trans he'

namespace World

variable {w w' : World} {cfg : Config} {key : Key} {d : Deed} {tid : Tid} {st : Inst} {k : String}
variable {p : Phase} {slot : Slot}

structure Fleeting (key : Key) (w : World) : Prop where
  serves : ∀ tid st, (w.phase tid).place = some (st, key.cacheKey) → st.sink = key.sink →
    tid = .worker key ∧ (w.phase tid).Mild
  jobs : ∀ h ∈ w.shared.jobs, h.job.commit.key = key → h.job.commit.Mild
  closeOuts : ∀ st, st.sink = key.sink → w.shared.closeOuts st key.cacheKey = []
  marked : ∀ st e, st.sink = key.sink → (w.shared.slot st key.cacheKey).entry = some e →
    e.pendingDelete = true →
    ∃ t, (w.phase (.worker key)).claim = some (st, key.cacheKey, t) ∧ e.version = t.version

theorem Fleeting.empty : Fleeting key {} where
  serves _ _ h := by cases h
  jobs _ h := by cases h
  closeOuts _ _ := rfl
  marked _ _ _ h := by cases h

theorem Fleeting.set (h : w.Fleeting key) {s' : Shared}
    (hn : .worker key = tid → (w.phase tid).claim = none)
    (hp : ∀ st, p.place = some (st, key.cacheKey) → st.sink = key.sink → tid = .worker key ∧ p.Mild)
    (hj : ∀ h ∈ s'.jobs, h ∈ w.shared.jobs ∨ (h.job.commit.key = key → h.job.commit.Mild))
    (hc : ∀ st, st.sink = key.sink → s'.closeOuts st key.cacheKey = [])
    (hs : ∀ st, st.sink = key.sink →
      (w.shared.slot st key.cacheKey).NoNewMark (s'.slot st key.cacheKey)) :
    (w.set tid p s').Fleeting key where
  serves u st hpl hst := by
    by_cases hu : u = tid
    · subst hu
      rw [set_phase_self] at hpl ⊢
      exact hp st hpl hst
    · rw [set_phase_of_ne hu] at hpl ⊢
      exact h.serves u st hpl hst
  jobs j hm hk := (hj j hm).elim (fun hm => h.jobs j hm hk) (fun hmild => hmild hk)
  closeOuts := hc
  marked st e hst he hpend := by
    obtain ⟨t, ht, hv⟩ := h.marked st e hst (hs st hst e he hpend) hpend
    by_cases hu : .worker key = tid
    · rw [hu, hn hu] at ht
      cases ht
    · exact ⟨t, by rwa [set_phase_of_ne hu], hv⟩

theorem Fleeting.same (h : w.Fleeting key) {s' : Shared}
    (hn : .worker key = tid → (w.phase tid).claim = none)
    (hp : ∀ st, p.place = some (st, key.cacheKey) → st.sink = key.sink → tid = .worker key ∧ p.Mild)
    (hs : w.shared.Same s') : (w.set tid p s').Fleeting key :=
  h.set hn hp (fun _ hm => .inl (hs.jobs ▸ hm))
    (fun st hst => (hs.closeOuts st _).trans (h.closeOuts st hst))
    (fun st _ => hs.slot st _ ▸ .refl _)

theorem Fleeting.keep (h : w.Fleeting key) (hp : w'.phase = w.phase)
    (hj : w'.shared.jobs = w.shared.jobs)
    (hc : ∀ st k, w'.shared.closeOuts st k = w.shared.closeOuts st k)
    (hs : ∀ st, st.sink = key.sink →
      (w.shared.slot st key.cacheKey).NoNewMark (w'.shared.slot st key.cacheKey)) :
    w'.Fleeting key where
  serves tid st := hp ▸ h.serves tid st
  jobs := hj ▸ h.jobs
  closeOuts st hst := (hc st _).trans (h.closeOuts st hst)
  marked st e hst he hpend := hp ▸ h.marked st e hst (hs st hst e he hpend) hpend

theorem noNewMark_setSlot {s : Shared} (h : (s.slot st k).NoNewMark slot) (st' : Inst) (k' : String) :
    (s.slot st' k').NoNewMark ((s.setSlot st k slot).slot st' k') := by
  rw [Shared.slot_setSlot]
  split_ifs with hs
  · obtain ⟨rfl, rfl⟩ := hs
    exact h
  · exact .refl _

theorem Fleeting.release (h : w.Fleeting key) {t : Ticket} (hp : w.phase tid = p)
    (hpl : p.place = some (st, k)) (hc : p.claim = some (st, k, t))
    (hs : (w.shared.slot st k).NoNewMark slot)
    (hgone : ∀ e, slot.entry = some e → e.pendingDelete = true → e.version ≠ t.version) :
    (w.set tid .idle (w.shared.setSlot st k slot)).Fleeting key where
  serves u st' hpl' hst := by
    by_cases hu : u = tid
    · subst hu
      rw [set_phase_self] at hpl'
      cases hpl'
    · rw [set_phase_of_ne hu] at hpl' ⊢
      exact h.serves u st' hpl' hst
  jobs := h.jobs
  closeOuts st' hst := Shared.closeOuts_setSlot.trans (h.closeOuts st' hst)
  marked st' e hst he hpend := by
    obtain ⟨t', ht, hv⟩ := h.marked st' e hst (noNewMark_setSlot hs st' _ e he hpend) hpend
    by_cases hu : .worker key = tid
    · rw [hu, hp, hc] at ht
      cases ht
      simp only [World.set, Shared.slot_setSlot_self] at he
      exact absurd hv (hgone e he hpend)
    · exact ⟨t', by rwa [set_phase_of_ne hu], hv⟩

theorem Fleeting.renew (h : w.Fleeting key) {q : Phase} {s' : Shared} (hq : w.phase tid = q)
    (hpl : p.place = q.place) (hcl : p.claim = q.claim) (hm : p.Mild) (hj : s'.jobs = w.shared.jobs)
    (hc : ∀ st k, s'.closeOuts st k = w.shared.closeOuts st k)
    (hs : ∀ st k, s'.slot st k = w.shared.slot st k) :
    (w.set tid p s').Fleeting key where
  serves u st hp hst := by
    by_cases hu : u = tid
    · subst hu
      rw [set_phase_self] at hp ⊢
      rw [hpl, ← hq] at hp
      exact ⟨(h.serves u st hp hst).1, hm⟩
    · rw [set_phase_of_ne hu] at hp ⊢
      exact h.serves u st hp hst
  jobs := hj ▸ h.jobs
  closeOuts st hst := (hc st _).trans (h.closeOuts st hst)
  marked st e hst he hpend := by
    obtain ⟨t, ht, hv⟩ := h.marked st e hst (hs st _ ▸ he) hpend
    refine ⟨t, ?_, hv⟩
    by_cases hu : .worker key = tid
    · rw [hu, set_phase_self, hcl, ← hq, ← hu, ht]
    · rwa [set_phase_of_ne hu]

theorem Sound.elsewhere (h : w.Sound cfg) {q : Phase} {key' : Key} (hp : w.phase tid = q)
    (hpl : q.place = some (st, k)) (hk : key'.Owns st k) (hne : key' ≠ key) : .worker key ≠ tid := by
  rintro rfl
  obtain ⟨key₀, hk₀, ht | ht⟩ := (h.lawful hp).reaches hpl
  · cases ht
    exact hne (hk.unique hk₀)
  · cases ht

theorem Fleeting.aside (h : w.Fleeting key) {key' : Key} (hk : key'.Owns st k)
    (hne : key' ≠ key) (hn : .worker key = tid → (w.phase tid).claim = none)
    (hpl : ∀ x, p.place = some x → x = (st, k)) :
    (w.set tid p (w.shared.setSlot st k slot)).Fleeting key := by
  refine h.set hn (fun st' hp hst => ?_) (fun _ => .inl)
    (fun st' hst => Shared.closeOuts_setSlot.trans (h.closeOuts st' hst)) (fun st' hst => ?_)
  · cases hpl _ hp
    exact absurd (hk.unique ⟨hst, rfl⟩) hne
  · rw [Shared.slot_setSlot]
    split_ifs with hs
    · obtain ⟨rfl, rfl⟩ := hs
      exact absurd (hk.unique ⟨hst, rfl⟩) hne
    · exact .refl _

theorem Fleeting.claim (h : w.Fleeting key) {uid : String} {e : CacheEntry} {t : Ticket}
    (hp : w.phase (.worker key) = .idle) (hk : key.Owns st k)
    (hc : (w.shared.slot st k).Claims uid slot e t) :
    (w.set (.worker key) (.claimed st k e t none) (w.shared.setSlot st k slot)).Fleeting key where
  serves u st' hpl hst := by
    by_cases hu : u = .worker key
    · subst hu
      rw [set_phase_self]
      exact ⟨rfl, trivial⟩
    · rw [set_phase_of_ne hu] at hpl ⊢
      exact h.serves u st' hpl hst
  jobs := h.jobs
  closeOuts st' hst := Shared.closeOuts_setSlot.trans (h.closeOuts st' hst)
  marked st' e' hst he hpend := by
    simp only [World.set, Shared.slot_setSlot] at he
    split_ifs at he with hs
    · obtain ⟨rfl, rfl⟩ := hs
      rw [hc.slot] at he
      cases he
      exact ⟨t, by rw [set_phase_self]; rfl, by rw [hc.ticket]⟩
    · obtain ⟨t', ht, -⟩ := h.marked st' e' hst he hpend
      rw [hp] at ht
      cases ht

theorem callback_noNewMark {s : Shared} {sink : String} {job : Job} {ok : Bool} {status : JobStatus}
    (hl : Handed.Lawful cfg ⟨sink, job, status⟩) (hm : job.commit.key = key → job.commit.Mild)
    (hst : st.sink = key.sink) (hv : ∀ st k t, job.commit.ticket = some (st, k, t) → t.version ≠ 0) :
    (s.slot st key.cacheKey).NoNewMark ((s.callback job.commit ok).slot st key.cacheKey) := by
  obtain ⟨record, commit⟩ := job
  have away {st' : Inst} {k' : String} {key' : Key} {slot : Slot} (hk : key'.Owns st' k')
    (hne : key' ≠ key) :
      (s.setSlot st' k' slot).slot st key.cacheKey = s.slot st key.cacheKey := by
    rw [Shared.slot_setSlot, if_neg]
    rintro ⟨rfl, rfl⟩
    exact hne (hk.unique ⟨hst, rfl⟩)
  cases commit with
  | upsert st' k' key' t e f =>
    by_cases hkey : key' = key
    · obtain ⟨he, hf⟩ := hm hkey
      have hpos := hv st' k' t rfl
      cases ok with
      | true => exact noNewMark_setSlot (Slot.noNewMark_commit hpos he) st _
      | false =>
        cases f with
        | none =>
          simp only [Shared.callback, Shared.slot_addKey]
          exact noNewMark_setSlot Slot.noNewMark_delete st _
        | some b =>
          simp only [Shared.callback, Shared.slot_addKey]
          exact noNewMark_setSlot (Slot.noNewMark_commit hpos (hf b rfl)) st _
    · cases ok with
      | true =>
        simp only [Shared.callback, away hl.2.1 hkey]
        exact .refl _
      | false =>
        cases f <;> simp only [Shared.callback, Shared.slot_addKey, away hl.2.1 hkey] <;> exact .refl _
  | delete st' k' key' t =>
    have hkey : key' ≠ key := fun hkey => (hm hkey).elim
    cases ok <;> simp only [Shared.callback, Shared.slot_addKey, away hl.2.1 hkey] <;> exact .refl _
  | closeOut st' k' key' r =>
    cases ok <;> simp only [Shared.callback, Shared.slot_addKey,
      Shared.slot_setCloseOuts] <;> exact .refl _

theorem claim_none_of_phase {q : Phase} (hq : w.phase tid = q) (hc : q.claim = none) :
    .worker key = tid → (w.phase tid).claim = none := fun _ => hq ▸ hc

theorem idle_serves (st : Inst) (h : Phase.idle.place = some (st, key.cacheKey))
    (_ : st.sink = key.sink) :
    tid = .worker key ∧ Phase.idle.Mild := by
  cases h

theorem Fleeting.tame (h : w.Fleeting key) (hp : w.phase tid = p)
    (hpl : p.place = some (st, key.cacheKey)) (hst : st.sink = key.sink) : tid = .worker key ∧ p.Mild :=
  hp ▸ h.serves tid st (hp ▸ hpl) hst

theorem Fleeting.not_wild (h : w.Fleeting key) (hp : w.phase tid = p)
    (hpl : p.place = some (st, k)) (hw : ¬ p.Mild) (hst : st.sink = key.sink) : k ≠ key.cacheKey := by
  rintro rfl
  exact hw (h.tame hp hpl hst).2

theorem Key.ne_of_ephemeral {key' : Key} (he : key.ephemeral = true) (hl : key'.ephemeral = false) :
    key' ≠ key := by
  rintro rfl
  rw [he] at hl
  cases hl

section Acts

variable {p : Phase} (h : w.Fleeting key) (hn : .worker key = tid → (w.phase tid).claim = none)
  (hp : ∀ st, p.place = some (st, key.cacheKey) → st.sink = key.sink → tid = .worker key ∧ p.Mild)

include h hn hp

theorem Fleeting.setSlot {slot : Slot}
    (hs : st.sink = key.sink → k = key.cacheKey → (w.shared.slot st k).NoNewMark slot) :
    (w.set tid p (w.shared.setSlot st k slot)).Fleeting key := by
  refine h.set hn hp (fun _ => .inl) (fun st' hst => ?_) (fun st' hst => ?_)
  · exact Shared.closeOuts_setSlot.trans (h.closeOuts st' hst)
  · rw [Shared.slot_setSlot]
    split_ifs with hat
    · obtain ⟨rfl, rfl⟩ := hat
      exact hs hst rfl
    · exact .refl _

theorem Fleeting.setCloseOuts {rs : List Record}
    (hno : st.sink = key.sink → k = key.cacheKey → rs = []) :
    (w.set tid p (w.shared.setCloseOuts st k rs)).Fleeting key := by
  refine h.set hn hp (fun _ => .inl) (fun st' hst => ?_) (fun st' _ => ?_)
  · rw [Shared.closeOuts_setCloseOuts]
    split_ifs with hat
    · obtain ⟨rfl, rfl⟩ := hat
      exact hno hst rfl
    · exact h.closeOuts st' hst
  · rw [Shared.slot_setCloseOuts]
    exact .refl _

theorem Fleeting.submit {sink : String} {job : Job} (hm : job.commit.key = key → job.commit.Mild) :
    (w.set tid p (w.hand sink job)).Fleeting key := by
  refine h.set hn hp (fun j hj => ?_) h.closeOuts (fun _ _ => .refl _)
  rcases List.mem_append.mp hj with hj | hj
  · exact .inl hj
  · rw [List.mem_singleton.mp hj]
    exact .inr hm

end Acts

theorem Fleeting.settle (h : w.Fleeting key) (hsound : w.Sound cfg) {j : Nat} {sink : String} {job : Job}
    {ok : Bool} (hj : w.shared.jobs[j]? = some ⟨sink, job, .inFlight⟩) :
    Fleeting key { w with shared := w.shared.settled j sink job ok } := by
  have hm := List.mem_of_getElem? hj
  have hl := hsound.jobs _ hm
  have mild : job.commit.key = key → job.commit.Mild := h.jobs _ hm
  have pos : ∀ st k t, job.commit.ticket = some (st, k, t) → t.version ≠ 0 :=
    fun st k t ht => (hsound.issued st k t (.inr ⟨_, hm, rfl, ht⟩)).version_pos
  refine ⟨h.serves, fun j' hm' hk => ?_, fun st hst => List.eq_nil_iff_forall_not_mem.mpr fun r hr => ?_,
    fun st e hst he hpend => h.marked st e hst (?_ : _ = some e) hpend⟩
  · rw [Shared.settled_jobs] at hm'
    rcases List.mem_or_eq_of_mem_set hm' with hm' | rfl
    · exact h.jobs j' hm' hk
    · exact mild hk
  · rw [Shared.settled_closeOuts] at hr
    rcases mem_closeOuts_callback hr with hr | ⟨-, key', hc⟩
    · rw [h.closeOuts st hst] at hr
      cases hr
    · simp only [Handed.Lawful, hc] at hl
      have hmild := mild (by rw [hc]; exact hl.2.1.unique ⟨hst, rfl⟩)
      rw [hc] at hmild
      exact hmild
  · rw [Shared.settled_slot] at he
    exact callback_noNewMark hl mild hst pos e he hpend

theorem Fleeting.crashed (h : w.Fleeting key) : w.crashed.Fleeting key where
  serves _ _ hp := by cases hp
  jobs j hm hk := by
    obtain ⟨j₀, hm₀, rfl⟩ := List.mem_map.mp hm
    have hj := h.jobs j₀ hm₀
    split_ifs at hk ⊢ <;> exact hj hk
  closeOuts _ _ := rfl
  marked _ _ _ he := by cases he

theorem Fleeting.turn (h : w.Fleeting key) (hsound : w.Sound cfg) (he : key.ephemeral = true)
    (ht : Turn cfg w d w') : w'.Fleeting key := by
  cases ht with
  | still _ w' hp hs => exact h.keep hp hs.jobs hs.closeOuts fun st _ => hs.slot st _ ▸ .refl _
  | attach | look | consult | vouch | tick | insert | removeSink =>
    exact h.keep rfl rfl (fun _ _ => rfl) fun _ _ => .refl _
  | drop tid st k base s' hp hs =>
    exact (h.same (claim_none_of_phase hp rfl) idle_serves hs).keep rfl rfl
      (fun _ _ => rfl) fun _ _ => .refl _
  | load key' st k hk hi hp =>
    refine h.same (claim_none_of_phase hp rfl) (fun st' hpl hst => ?_) (.refl _)
    cases hpl
    obtain rfl := hk.unique ⟨hst, rfl⟩
    refine ⟨rfl, fun e he => ?_⟩
    by_contra hpend
    obtain ⟨t, hc, -⟩ := h.marked st e hst he (by simpa using hpend)
    rw [hp] at hc
    cases hc
  | reserve key' st k base norm plan hk hdec hp =>
    have hnew : (w.shared.slot st k).NoNewMark
        ((w.shared.slot st k).reserve (confirmedEntry cfg.lib key'.ephemeral norm plan)).1 := by
      intro e he hpend
      cases he
      cases hpend
    rcases hp with ⟨hp, -⟩ | ⟨e, -, -, hp⟩ <;>
      refine h.setSlot (claim_none_of_phase hp rfl) (fun st' hpl hst => ?_) (fun _ _ => hnew) <;>
      cases hpl
    · obtain ⟨ht, hm⟩ := h.tame hp rfl hst
      exact ⟨ht, hm⟩
    · exact absurd rfl (h.not_wild hp rfl id hst)
  | date tid st k base entry tk ts hp =>
    refine h.set (claim_none_of_phase hp rfl) (fun st' hpl hst => ?_) (fun _ => .inl) h.closeOuts
      (fun _ _ => .refl _)
    cases hpl
    obtain ⟨ht, hm⟩ := h.tame hp rfl hst
    exact ⟨ht, hm⟩
  | issue key' st k base norm plan tk ts hk hdec hp =>
    refine h.submit (claim_none_of_phase hp rfl) idle_serves ?_
    rintro rfl
    refine ⟨rfl, fun b hb => ?_⟩
    rw [hdec.planned.revertEntry_filter] at hb
    obtain rfl := hk.2
    exact (h.tame hp rfl hk.1).2 b (Option.mem_filter_iff.mp hb).1
  | refuse key' st k base norm plan tk ts s' hk hdec hp hs =>
    refine h.same (claim_none_of_phase hp rfl) (fun st' hpl hst => ?_) hs
    cases hpl
    obtain ⟨ht, hm⟩ := h.tame hp rfl hst
    refine ⟨ht, fun b hb => ?_⟩
    rw [hdec.planned.revertEntry_filter] at hb
    exact hm b (Option.mem_filter_iff.mp hb).1
  | revert tid st k confirmed entry tk hp =>
    refine h.setSlot (claim_none_of_phase hp rfl) idle_serves fun hst hk => ?_
    subst hk
    exact Slot.noNewMark_commit (hsound.version_pos hp rfl) ((h.tame hp rfl hst).2 entry rfl)
  | retract tid st k confirmed tk hp =>
    exact h.setSlot (claim_none_of_phase hp rfl) idle_serves fun _ _ => Slot.noNewMark_delete
  | claim tid key' st k uid e tk slot hk hm hp hc hi =>
    have hw : (w.set tid (.claimed st k e tk none) (w.shared.setSlot st k slot)).Fleeting key := by
      by_cases hkey : key' = key
      · subst hkey
        rcases hm with ⟨rfl, -⟩ | ⟨-, -, -, hl⟩
        · exact h.claim hp hk hc
        · exact absurd rfl (Key.ne_of_ephemeral he hl)
      · exact h.aside hk hkey (claim_none_of_phase hp rfl) (by simp [Phase.place])
    exact hw.keep rfl rfl (fun _ _ => rfl) fun _ _ => .refl _
  | dateClaim tid st k e tk ts hp =>
    exact h.renew hp rfl rfl trivial rfl (fun _ _ => rfl) (fun _ _ => rfl)
  | forget key' st k e tk hk he' hp =>
    refine h.release hp rfl rfl Slot.noNewMark_delete fun e he hpend hv => ?_
    have hold := Slot.noNewMark_delete e he hpend
    rw [Slot.deleteIfCurrent_current (Slot.current_iff.mpr ⟨e, hold, hv⟩)] at he
    cases he
  | emit tid key' st k e tk ts hk hl hp =>
    have hne := Key.ne_of_ephemeral he hl
    exact h.submit (fun hu => absurd hu (hsound.elsewhere hp rfl hk hne)) idle_serves
      fun hkey => absurd hkey hne
  | emitRefused tid st k e tk ts s' hp hs =>
    exact h.renew hp rfl rfl trivial hs.jobs hs.closeOuts hs.slot
  | release tid st k e tk hp =>
    refine h.release hp rfl rfl Slot.noNewMark_unclaim fun e he hpend hv => ?_
    have hold := Slot.noNewMark_unclaim e he hpend
    rw [Slot.unclaimDelete_current hold hv] at he
    have hfalse := congrArg CacheEntry.pendingDelete (Option.some.inj he)
    rw [hpend] at hfalse
    cases hfalse
  | supersede key' st k base e norm tk slot hk hl hobs hsup hp hc =>
    have hw : (w.set (.worker key') (.superseding st k base e)
      (w.shared.setSlot st k slot)).Fleeting key :=
      h.aside hk (Key.ne_of_ephemeral he hl) (claim_none_of_phase hp rfl) (by simp [Phase.place])
    exact hw.keep rfl rfl (fun _ _ => rfl) fun _ _ => .refl _
  | outrun key' st k base norm s' hk hobs hsup hp hn hs hl =>
    refine h.same (claim_none_of_phase hp rfl) (fun st' hpl hst => ?_) hs
    cases hpl
    exact absurd (hk.unique ⟨hst, rfl⟩) (Key.ne_of_ephemeral he hl)
  | dateClose key' st k base e ts hp =>
    refine h.set (claim_none_of_phase hp rfl) (fun st' hpl hst => ?_) (fun _ => .inl) h.closeOuts
      (fun _ _ => .refl _)
    cases hpl
    exact absurd rfl (h.not_wild hp rfl id hst)
  | close key' st k base r hk hp =>
    refine h.submit (claim_none_of_phase hp rfl) (fun st' hpl hst => ?_) ?_
    · cases hpl
      exact absurd rfl (h.not_wild hp rfl id hst)
    · rintro rfl
      exact absurd hk.2 (h.not_wild hp rfl id hk.1)
  | shelve tid st k base r hp =>
    refine h.setCloseOuts (claim_none_of_phase hp rfl) (fun st' hpl hst => ?_) fun hst hk =>
      absurd hk (h.not_wild hp rfl id hst)
    cases hpl
    exact absurd rfl (h.not_wild hp rfl id hst)
  | takeAll key' st k hk hp hi =>
    refine h.setCloseOuts (claim_none_of_phase hp rfl) (fun st' hpl hst => ?_) fun _ _ => rfl
    obtain ⟨rfl, rfl⟩ := Phase.place_outsOf hpl
    rw [h.closeOuts st hst] at hpl
    cases hpl
  | resubmit key' st k r rs hk hp =>
    refine h.submit (claim_none_of_phase hp rfl) (fun st' hpl hst => ?_) ?_
    · obtain ⟨rfl, rfl⟩ := Phase.place_outsOf hpl
      exact absurd rfl (h.not_wild hp rfl id hst)
    · rintro rfl
      exact absurd hk.2 (h.not_wild hp rfl id hk.1)
  | reshelve tid st k r rs hp =>
    refine h.setCloseOuts (claim_none_of_phase hp rfl) (fun st' hpl hst => ?_) fun hst hk =>
      absurd hk (h.not_wild hp rfl id hst)
    obtain ⟨rfl, rfl⟩ := Phase.place_outsOf hpl
    exact absurd rfl (h.not_wild hp rfl id hst)
  | recover tid key' st k x hk hn hl hx hp hi =>
    have hw : (w.set tid .idle (w.hand key'.sink ⟨x.reincarnation.closeOutRecord cfg.clusterID key',
        .closeOut st k key' (x.reincarnation.closeOutRecord cfg.clusterID key')⟩)).Fleeting key :=
      h.submit (claim_none_of_phase hp rfl) idle_serves
        fun hkey => absurd hkey (Key.ne_of_ephemeral he hl)
    refine hw.keep ?_ rfl (fun _ _ => rfl) fun _ _ => .refl _
    rw [World.set, ← hp, Function.update_eq_self]
  | recoverRefused tid key' st k x s' hk hn hl hx hp hs hi =>
    have hw : (w.set tid (.outs st k [x.reincarnation.closeOutRecord cfg.clusterID key'])
      s').Fleeting key := by
      refine h.same (claim_none_of_phase hp rfl) (fun st' hpl hst => ?_) hs
      cases hpl
      exact absurd (hk.unique ⟨hst, rfl⟩) (Key.ne_of_ephemeral he hl)
    exact hw.keep rfl rfl (fun _ _ => rfl) fun _ _ => .refl _
  | seed tid key' st k current hk hn hi hx hp =>
    exact h.keep rfl rfl (fun _ _ => Shared.closeOuts_setSlot) fun st' _ =>
      noNewMark_setSlot (Slot.noNewMark_store rfl) st' _
  | evict ref st hst =>
    refine h.keep rfl rfl (fun _ _ => Shared.closeOuts_deletePrefix ..) fun st' _ => ?_
    simp only [Shared.slot_deletePrefix]
    split_ifs
    · intro e he
      cases he
    · exact .refl _
  | settle j ok sink job hj hok => exact h.settle hsound hj
  | crash => exact h.crashed

end World

/-- `json.Marshal` never answers with nothing. -/
def Lib.Renders (lib : Lib) : Prop := ∀ j b, lib.marshal j = some b → b ≠ []

structure Record.Plain (r : Record) : Prop where
  eventType : r.eventType = .added ∨ r.eventType = .modified
  diff : r.diff = []
  data : r.data ≠ []

theorem Planned.plain {lib : Lib} {norm : NormalizedObject} {base : Option CacheEntry} {plan : Plan}
    (h : Planned lib true norm base plan) :
    (plan.eventType = .added ∨ plan.eventType = .modified) ∧ plan.diffString =
    [] ∧ plan.carriesFullState = true := by
  cases h with
  | miss eventType _ hadded => exact ⟨.inl (hadded rfl), rfl, rfl⟩
  | superseding => exact ⟨.inl rfl, rfl, rfl⟩
  | modified => exact ⟨.inr rfl, rfl, rfl⟩

theorem World.Fleeting.decided {cfg : Config} {key : Key} {w : World} (h : w.Fleeting key)
    (hs : w.Sound cfg) {j : Handed} (hm : j ∈ w.shared.jobs) (hsink : j.sink = key.sink)
    (hof : j.job.record.isOf cfg.clusterID key) :
    ∃ seen base norm plan ts, Decided cfg key seen base norm plan ∧
      j.job.record = upsertRecord cfg.clusterID key norm plan ts := by
  have hl := hs.jobs j hm
  have hkey : j.job.commit.key = key := by
    obtain ⟨hs, ho⟩ := hl.isOf
    exact Record.isOf.unique ho hof (hs.symm.trans hsink)
  have hmild := h.jobs j hm hkey
  obtain ⟨sink, ⟨record, commit⟩, status⟩ := j
  cases commit with
  | upsert st k key' t e f =>
    obtain rfl : key' = key := hkey
    obtain ⟨-, -, seen, base, norm, plan, ts, hdec, -, -, hr⟩ := hl
    exact ⟨seen, base, norm, plan, ts, hdec, hr⟩
  | delete | closeOut => exact hmild.elim

theorem World.Fleeting.plain {cfg : Config} {key : Key} {w : World} (h : w.Fleeting key)
    (hs : w.Sound cfg) (hlib : cfg.lib.Renders) (he : key.ephemeral = true) {j : Handed}
    (hm : j ∈ w.shared.jobs) (hsink : j.sink = key.sink)
    (hof : j.job.record.isOf cfg.clusterID key) : j.job.record.Plain := by
  obtain ⟨seen, base, norm, plan, ts, hdec, hr⟩ := h.decided hs hm hsink hof
  have hplan := hdec.planned
  rw [he] at hplan
  obtain ⟨ht, hd, hf⟩ := hplan.plain
  obtain ⟨obj, policy, -, hn⟩ := hdec.observed
  obtain ⟨v, hv⟩ := normalizeObject_json hn
  rw [hr]
  refine ⟨ht, hd, ?_⟩
  simp only [upsertRecord, hf, ↓reduceIte]
  exact hlib v _ hv

end Kuberecord
