import Kuberecord.Ledger

namespace Kuberecord

def Phase.write : Phase → Option (Inst × String × Ticket × CacheEntry)
  | .reserved st k _ e t _ | .reverting st k e t _ => some (st, k, t, e)
  | _ => none

def Commit.write : Commit → Option (Inst × String × Ticket × CacheEntry)
  | .upsert st k _ t e _ => some (st, k, t, e)
  | _ => none

def Commit.key : Commit → Key
  | .upsert _ _ key _ _ _ | .delete _ _ key _ | .closeOut _ _ key _ => key

theorem Record.isOf.unique {r : Record} {clusterID : String} {key key' : Key} (h : r.isOf clusterID key)
    (h' : r.isOf clusterID key') (hs : key.sink = key'.sink) : key = key' := by
  obtain ⟨-, hg, hk, hn, hm⟩ := h
  obtain ⟨-, hg', hk', hn', hm'⟩ := h'
  obtain ⟨sink, group, kind, ns, name⟩ := key
  obtain ⟨sink', group', kind', ns', name'⟩ := key'
  obtain rfl : group = group' := Subtype.ext (hg.symm.trans hg')
  obtain rfl : kind = kind' := Subtype.ext (hk.symm.trans hk')
  obtain rfl : ns = ns' := Subtype.ext (hn.symm.trans hn')
  cases hs
  cases hm.symm.trans hm'
  rfl

theorem Handed.Lawful.isOf {cfg : Config} {h : Handed} (hl : h.Lawful cfg) :
    h.sink = h.job.commit.key.sink ∧ h.job.record.isOf cfg.clusterID h.job.commit.key := by
  obtain ⟨sink, ⟨record, _ | _ | _⟩, status⟩ := h
  · obtain ⟨hs, -, seen, base, norm, plan, ts, -, -, -, rfl⟩ := hl
    exact ⟨hs, rfl, rfl, rfl, rfl, rfl⟩
  · obtain ⟨hs, -, -, ts, v, u, rfl⟩ := hl
    exact ⟨hs, rfl, rfl, rfl, rfl, rfl⟩
  · obtain ⟨hs, -, hr, ts, v, u, rfl⟩ := hl
    obtain rfl := hr
    exact ⟨hs, rfl, rfl, rfl, rfl, rfl⟩

theorem Commit.ticket_of_write {c : Commit} {st : Inst} {k : String} {t : Ticket} {e : CacheEntry}
    (h : c.write = some (st, k, t, e)) : c.ticket = some (st, k, t) := by
  cases c <;> simp_all [Commit.write, Commit.ticket]

def Slot.fallBack (s : Slot) (t : Ticket) : Option CacheEntry → Slot
  | some entry => (s.commitIfCurrent t.version entry).1
  | none => (s.deleteIfCurrent t.version).1

theorem mem_set_of_ne {α : Type} {l : List α} {j : Nat} {x y z : α} (hx : x ∈ l)
    (hj : l[j]? = some y) (hne : x ≠ y) :
    x ∈ l.set j z := by
  obtain ⟨i, hi⟩ := List.mem_iff_getElem?.mp hx
  have hij : j ≠ i := by
    rintro rfl
    exact hne (Option.some.inj (hi.symm.trans hj))
  exact List.mem_of_getElem? ((List.getElem?_set_ne hij).trans hi)

theorem exists_split_of_getElem? {α : Type} {l : List α} {j : Nat} {x : α} (h : l[j]? = some x) :
    ∃ before after, l = before ++ x :: after ∧ ∀ y, l.set j y = before ++ y :: after := by
  obtain ⟨hj, rfl⟩ := List.getElem?_eq_some_iff.mp h
  refine ⟨l.take j, l.drop (j + 1), by simp, fun y => ?_⟩
  rw [List.set_eq_take_append_cons_drop, if_pos hj]

namespace World

variable {w w' : World} {cfg : Config} {a : Action} {d : Deed} {st : Inst} {k : String} {t : Ticket}
  {e : CacheEntry}

def Pending (w : World) (st : Inst) (k : String) (t : Ticket) (e : CacheEntry) : Prop :=
  (∃ tid, (w.phase tid).write = some (st, k, t, e)) ∨
    ∃ h ∈ w.shared.jobs, h.status = .inFlight ∧ h.job.commit.write = some (st, k, t, e)

def lapsing (w : World) : Action → Option (Inst × String × Ticket)
  | .env (.settle j false) =>
    match w.shared.jobs[j]? with
    | some ⟨_, ⟨_, .upsert st k _ t _ _⟩, .inFlight⟩ => some (st, k, t)
    | _ => none
  | .exec tid .go =>
    match w.phase tid with
    | .reverting st k _ t _ => some (st, k, t)
    | _ => none
  | _ => none

inductive Lapse (w : World) (st : Inst) (k : String) (t : Ticket) : Action → World → Prop
  | revert (tid : Tid) (e : CacheEntry) (revertEntry : Option CacheEntry) :
      w.phase tid = .reverting st k e t revertEntry →
      Lapse w st k t (.exec tid .go)
        (w.set tid .idle (w.shared.setSlot st k ((w.shared.slot st k).fallBack t revertEntry)))
  | settle (j : Nat) (sink : String) (record : Record) (key : Key) (e : CacheEntry)
      (revertEntry : Option CacheEntry) :
      w.shared.jobs[j]? = some ⟨sink, ⟨record, .upsert st k key t e revertEntry⟩, .inFlight⟩ →
      Lapse w st k t (.env (.settle j false))
        { w with shared := w.shared.settled j sink ⟨record, .upsert st k key t e revertEntry⟩ false }

theorem Lapse.lapsing (h : w.Lapse st k t a w') : w.lapsing a = some (st, k, t) := by
  cases h with
  | revert tid e r hp => simp [World.lapsing, hp]
  | settle j sink record key e r hj => simp [World.lapsing, hj]

theorem Pending.keep (h : w.Pending st k t e) (hp : w'.phase = w.phase)
    (hj : ∀ h ∈ w.shared.jobs, h.status = .inFlight → h ∈ w'.shared.jobs) : w'.Pending st k t e := by
  rcases h with ⟨tid, h⟩ | ⟨j, hm, hf, h⟩
  · exact .inl ⟨tid, hp ▸ h⟩
  · exact .inr ⟨j, hj j hm hf, hf, h⟩

theorem Pending.set (h : w.Pending st k t e) {tid : Tid} {p q : Phase} {s' : Shared}
    (hq : w.phase tid = q) (hw : q.write = none ∨ p.write = q.write)
    (hj : ∀ h ∈ w.shared.jobs, h ∈ s'.jobs) :
    (w.set tid p s').Pending st k t e := by
  rcases h with ⟨u, h⟩ | ⟨j, hm, hf, h⟩
  · refine .inl ⟨u, ?_⟩
    by_cases hu : u = tid
    · subst hu
      rw [hq] at h
      rw [set_phase_self, hw.resolve_left (by simp [h]), h]
    · rwa [set_phase_of_ne hu]
  · exact .inr ⟨j, hj j hm, hf, h⟩

theorem Pending.jobs_hand {sink : String} {job : Job} :
    ∀ h ∈ w.shared.jobs, h ∈ (w.hand sink job).jobs :=
  fun _ hm => List.mem_append_left _ hm

theorem Pending.turn (h : w.Pending st k t e) (ht : Turn cfg w d w') :
    w'.Pending st k t e ∨ w.Lapse st k t d.plain w' ∨ w' = w.crashed ∨
      ∃ h ∈ w.shared.jobs, h.job.commit.write = some (st, k, t, e) ∧
        (h.sink, h.job.record) ∈ w'.shared.table := by
  have same {s' : Shared} (hs : w.shared.Same s') : ∀ h ∈ w.shared.jobs, h ∈ s'.jobs :=
    fun _ hm => hs.jobs ▸ hm
  cases ht with
  | still _ w' hp hs _ _ _ => exact .inl (h.keep hp fun _ hm _ => hs.jobs ▸ hm)
  | attach | look | consult | vouch | tick | seed | evict | insert | removeSink =>
    exact .inl (h.keep rfl fun _ hm _ => hm)
  | drop _ _ _ _ _ hp hs | recoverRefused _ _ _ _ _ _ _ _ _ _ hp hs =>
    exact .inl ((h.set hp (.inl rfl) (same hs)).keep rfl fun _ hm _ => hm)
  | load _ _ _ _ _ hp | dateClaim _ _ _ _ _ _ hp | forget _ _ _ _ _ _ _ hp
  | release _ _ _ _ _ hp | dateClose _ _ _ _ _ _ hp | shelve _ _ _ _ _ hp | takeAll _ _ _ _ hp
  | reshelve _ _ _ _ _ hp => exact .inl (h.set hp (.inl rfl) fun _ => id)
  | reserve key st k base norm plan hk hd hp =>
    rcases hp with ⟨hp, -⟩ | ⟨e, -, -, hp⟩
    · exact .inl (h.set hp (.inl rfl) fun _ => id)
    · exact .inl (h.set hp (.inl rfl) fun _ => id)
  | date tid st k base entry tk ts hp => exact .inl (h.set hp (.inr rfl) fun _ => id)
  | issue key st k base norm plan tk ts hk hd hp =>
    -- the reservation moves from the worker's hands into the job
    rcases h with ⟨u, h⟩ | ⟨j, hm, hf, h⟩
    · by_cases hu : u = .worker key
      · subst hu
        rw [hp] at h
        exact .inl (.inr ⟨_, List.mem_append_right _ (List.mem_singleton_self _), rfl, h⟩)
      · exact .inl (.inl ⟨u, by rwa [set_phase_of_ne hu]⟩)
    · exact .inl (.inr ⟨j, List.mem_append_left _ hm, hf, h⟩)
  | refuse key st k base norm plan tk ts s' hk hd hp hs => exact .inl (h.set hp (.inr rfl) (same hs))
  | revert tid _ _ _ _ _ hp | retract tid _ _ _ _ hp =>
    rcases h with ⟨u, h⟩ | ⟨j, hm, hf, h⟩
    · by_cases hu : u = tid
      · subst hu
        rw [hp] at h
        cases h
        exact .inr (.inl (.revert u _ _ hp))
      · exact .inl (.inl ⟨u, by rwa [set_phase_of_ne hu]⟩)
    · exact .inl (.inr ⟨j, hm, hf, h⟩)
  | claim _ _ _ _ _ _ _ _ _ hm hp | supersede _ _ _ _ _ _ _ _ _ _ _ _ hp =>
    exact .inl ((h.set hp (.inl rfl) fun _ => id).keep rfl fun _ hm _ => hm)
  | emit _ _ _ _ _ _ _ _ _ hp | close _ _ _ _ _ _ hp | resubmit _ _ _ _ _ _ hp =>
    exact .inl (h.set hp (.inl rfl) jobs_hand)
  | emitRefused _ _ _ _ _ _ _ hp hs | outrun _ _ _ _ _ _ _ _ _ hp _ hs =>
    exact .inl (h.set hp (.inl rfl) (same hs))
  | recover tid key st k x hk hn he hx hp => exact .inl (h.keep rfl fun _ hm _ => jobs_hand _ hm)
  | settle j ok sink job hj hok =>
    rcases h with ⟨u, h⟩ | ⟨h', hm, hf, h⟩
    · exact .inl (.inl ⟨u, h⟩)
    · by_cases hne : h' = ⟨sink, job, .inFlight⟩
      · subst hne
        cases ok with
        | true => exact .inr (.inr (.inr ⟨_, hm, h, by simpa using hok rfl⟩))
        | false =>
          obtain ⟨record, commit⟩ := job
          cases commit <;> cases h
          exact .inr (.inl (.settle j sink record _ _ _ hj))
      · refine .inl (.inr ⟨h', ?_, hf, h⟩)
        rw [Shared.settled_jobs]
        exact mem_set_of_ne hm hj hne
  | crash => exact .inr (.inr (.inl rfl))

theorem Pending.lapse {t₀ : Ticket} (h : w.Pending st k t e) (hl : w.Lapse st k t₀ a w') (hne : t ≠ t₀) :
    w'.Pending st k t e := by
  cases hl with
  | revert tid c r hp =>
    rcases h with ⟨u, h⟩ | hj
    · by_cases hu : u = tid
      · subst hu
        rw [hp] at h
        cases h
        exact absurd rfl hne
      · exact .inl ⟨u, by rwa [set_phase_of_ne hu]⟩
    · exact .inr hj
  | settle j sink record key c r hj =>
    rcases h with hp | ⟨h', hm, hf, h⟩
    · exact .inl hp
    · refine .inr ⟨h', ?_, hf, h⟩
      rw [Shared.settled_jobs]
      refine mem_set_of_ne hm hj ?_
      rintro rfl
      cases h
      exact absurd rfl hne

end World

end Kuberecord
