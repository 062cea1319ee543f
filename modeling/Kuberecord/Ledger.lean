import Kuberecord.Turns

namespace Kuberecord

variable {st : Inst} {k : String}

def Commit.ticket : Commit → Option (Inst × String × Ticket)
  | .upsert st k _ t _ _ | .delete st k _ t => some (st, k, t)
  | .closeOut _ _ _ _ => none

def Phase.ticket : Phase → Option (Inst × String × Ticket)
  | .claimed st k _ t _ | .releasing st k _ t | .reserved st k _ _ t _ | .reverting st k _ t _ =>
    some (st, k, t)
  | _ => none

@[simp]
theorem Phase.ticket_outsOf (st : Inst) (k : String) (rs : List Record) :
    (Phase.outsOf st k rs).ticket = none := by
  cases rs <;> rfl

def Closes (cfg : Config) (st : Inst) (k : String) (r : Record) : Prop :=
  ∃ key : Key, key.Owns st k ∧ ∃ ts v u, r = Record.closing cfg.clusterID key ts v u

def Tid.Serves (tid : Tid) (st : Inst) (k : String) : Prop :=
  ∃ key : Key, tid = .worker key ∧ key.Owns st k

def Tid.Reaches (tid : Tid) (st : Inst) (k : String) : Prop :=
  ∃ key : Key, key.Owns st k ∧ (tid = .worker key ∨ tid.isWorker = false)

def Phase.Lawful (cfg : Config) (tid : Tid) : Phase → Prop
  | .outs st k rs => tid.Reaches st k ∧ ∀ r ∈ rs, Closes cfg st k r
  | .claimed st k _ _ _ | .releasing st k _ _ => tid.Reaches st k
  | .loaded st k _ | .superseding st k _ _ | .superseded st k _ | .reserved st k _ _ _ _
  | .reverting st k _ _ _ =>
    tid.Serves st k
  | .closing st k _ r => tid.Serves st k ∧ Closes cfg st k r
  | _ => True

def Handed.Lawful (cfg : Config) (h : Handed) : Prop :=
  match h.job.commit with
  | .upsert st k key _ confirmed revertEntry =>
    h.sink = key.sink ∧ key.Owns st k ∧ ∃ seen base norm plan ts, Decided cfg key seen base norm plan ∧
      confirmed = confirmedEntry cfg.lib key.ephemeral norm plan ∧ revertEntry = plan.revertEntry ∧
      h.job.record = upsertRecord cfg.clusterID key norm plan ts
  | .delete st k key _ =>
    h.sink = key.sink ∧ key.Owns st k ∧ key.ephemeral = false ∧
      ∃ ts v u, h.job.record = Record.closing cfg.clusterID key ts v u
  | .closeOut st k key r =>
    h.sink = key.sink ∧ key.Owns st k ∧ h.job.record = r ∧
      ∃ ts v u, r = Record.closing cfg.clusterID key ts v u

theorem Key.Owns.unique {key key' : Key} (h : key.Owns st k) (h' : key'.Owns st k) :
    key = key' :=
  Key.eq_of_cacheKey (h.1.symm.trans h'.1) (h.2.symm.trans h'.2)

theorem Slot.Claims.issued {s s' : Slot} {uid : String} {e : CacheEntry} {t : Ticket}
    (h : s.Claims uid s' e t) (hg : s.Gated) : s'.Issued t := by
  rw [h.slot, h.ticket]
  simpa [Slot.version, h.entry] using
    Slot.Issued.fresh (e := { e with version := e.version + 1, pendingDelete := true }) hg

theorem Closes.of_owns {cfg : Config} {key : Key} {r : Record} (h : Closes cfg st k r)
    (hk : key.Owns st k) : ∃ ts v u, r = Record.closing cfg.clusterID key ts v u := by
  obtain ⟨key', hk', h⟩ := h
  exact hk.unique hk' ▸ h

theorem Phase.lawful_outsOf {cfg : Config} {tid : Tid} {rs : List Record}
    (ht : tid.Reaches st k) (h : ∀ r ∈ rs, Closes cfg st k r) :
    (Phase.outsOf st k rs).Lawful cfg tid := by
  cases rs with
  | nil => trivial
  | cons r rs => exact ⟨ht, h⟩

structure Slot.Evolves (s s' : Slot) : Prop where
  gated : s.Gated → s'.Gated
  issued : ∀ t, s.Issued t → s'.Issued t

namespace Slot.Evolves

variable {s : Slot} {v : Nat} {e : CacheEntry}

theorem refl (s : Slot) : s.Evolves s := ⟨id, fun _ => id⟩

theorem reserve : s.Evolves (s.reserve e).1 := ⟨Gated.reserve, fun _ h => h.install⟩

theorem claims {uid : String} {s' : Slot} {t : Ticket} (h : s.Claims uid s' e t) : s.Evolves s' := by
  rw [h.slot]
  exact ⟨fun hg => hg.install (by simp [Slot.version, h.entry]), fun _ hi => hi.install⟩

theorem commitIfCurrent (hv : v ≠ 0) : s.Evolves (s.commitIfCurrent v e).1 :=
  ⟨fun h => h.commitIfCurrent hv, fun _ h => h.commitIfCurrent⟩

theorem deleteIfCurrent : s.Evolves (s.deleteIfCurrent v).1 :=
  ⟨fun h => h.deleteIfCurrent, fun _ h => h.deleteIfCurrent⟩

theorem unclaimDelete : s.Evolves (s.unclaimDelete v) :=
  ⟨fun h => h.unclaimDelete, fun _ h => h.unclaimDelete⟩

theorem storeIfAbsent : s.Evolves (s.storeIfAbsent e) :=
  ⟨fun h => h.storeIfAbsent, fun _ h => h.storeIfAbsent⟩

theorem remove : s.Evolves s.remove := ⟨fun h => h.remove, fun _ h => h.withEntry _⟩

theorem setSlot {sh : Shared} {st : Inst} {k : String} {slot : Slot}
    (h : (sh.slot st k).Evolves slot) (st' : Inst) (k' : String) :
    (sh.slot st' k').Evolves ((sh.setSlot st k slot).slot st' k') := by
  rw [Shared.slot_setSlot]
  split_ifs with hs
  · exact hs.1 ▸ hs.2 ▸ h
  · exact refl _

end Slot.Evolves

theorem callback_evolves {s : Shared} {c : Commit} {ok : Bool}
    (hv : ∀ st k t, c.ticket = some (st, k, t) → t.version ≠ 0) (st : Inst) (k : String) :
    (s.slot st k).Evolves ((s.callback c ok).slot st k) := by
  rcases c with ⟨st', k', key, t, e, _ | r⟩ | ⟨st', k', key, t⟩ | ⟨st', k', key, r⟩ <;> cases ok
  all_goals simp only [Shared.callback, Shared.slot_addKey, Shared.slot_setCloseOuts]
  · exact Slot.Evolves.deleteIfCurrent.setSlot st k
  · exact (Slot.Evolves.commitIfCurrent (hv _ _ _ rfl)).setSlot st k
  · exact (Slot.Evolves.commitIfCurrent (hv _ _ _ rfl)).setSlot st k
  · exact (Slot.Evolves.commitIfCurrent (hv _ _ _ rfl)).setSlot st k
  · exact Slot.Evolves.unclaimDelete.setSlot st k
  · exact Slot.Evolves.deleteIfCurrent.setSlot st k
  · exact .refl _
  · exact .refl _

theorem mem_closeOuts_callback {s : Shared} {c : Commit} {ok : Bool} {r : Record}
    (h : r ∈ (s.callback c ok).closeOuts st k) :
    r ∈ s.closeOuts st k ∨ ok = false ∧ ∃ key, c = .closeOut st k key r := by
  rcases c with ⟨st', k', key, t, e, _ | e'⟩ | ⟨st', k', key, t⟩ | ⟨st', k', key, r'⟩ <;> cases ok <;>
    simp only [Shared.callback, Shared.closeOuts_addKey, Shared.closeOuts_setSlot,
      Shared.closeOuts_setCloseOuts] at h
  case closeOut.false =>
    split_ifs at h with hs
    · obtain ⟨rfl, rfl⟩ := hs
      rcases List.mem_append.mp h with h | h
      · exact .inl h
      · exact .inr ⟨rfl, key, by rw [List.mem_singleton.mp h]⟩
    · exact .inl h
  all_goals exact .inl h

namespace World

variable {w w' : World} {cfg : Config} {d : Deed} {st : Inst} {k : String} {t : Ticket}
variable {tid : Tid} {p : Phase} {s' : Shared}

def Ticketed (w : World) (st : Inst) (k : String) (t : Ticket) : Prop :=
  (∃ tid, (w.phase tid).ticket = some (st, k, t)) ∨
    ∃ h ∈ w.shared.jobs, h.status = .inFlight ∧ h.job.commit.ticket = some (st, k, t)

structure Sound (cfg : Config) (w : World) : Prop where
  gated : ∀ st k, (w.shared.slot st k).Gated
  issued : ∀ st k t, w.Ticketed st k t → (w.shared.slot st k).Issued t
  phase : ∀ tid, (w.phase tid).Lawful cfg tid
  jobs : ∀ h ∈ w.shared.jobs, h.Lawful cfg
  closeOuts : ∀ st k, ∀ r ∈ w.shared.closeOuts st k, Closes cfg st k r

theorem Sound.empty : Sound cfg {} where
  gated _ _ := Slot.Gated.empty
  issued st k t h := by
    rcases h with ⟨tid, h⟩ | ⟨h, hm, -⟩
    · cases h
    · cases hm
  phase _ := trivial
  jobs h hm := by cases hm
  closeOuts st k r hr := by cases hr

def JobsFrom (cfg : Config) (w : World) (s' : Shared) : Prop :=
  ∀ h ∈ s'.jobs, h ∈ w.shared.jobs ∨
    h.Lawful cfg ∧ ∀ st k t, h.status = .inFlight → h.job.commit.ticket = some (st, k, t) →
    w.Ticketed st k t

def CloseOutsFrom (cfg : Config) (w : World) (s' : Shared) : Prop :=
  ∀ st k, ∀ r ∈ s'.closeOuts st k, r ∈ w.shared.closeOuts st k ∨ Closes cfg st k r

theorem JobsFrom.of_eq (h : s'.jobs = w.shared.jobs) : JobsFrom cfg w s' :=
  fun _ hm => .inl (h ▸ hm)

theorem JobsFrom.hand {sink : String} {job : Job} (hl : Handed.Lawful cfg ⟨sink, job, .inFlight⟩)
    (ht : ∀ st k t, job.commit.ticket = some (st, k, t) → w.Ticketed st k t) :
    JobsFrom cfg w (w.hand sink job) := by
  intro h hm
  rcases List.mem_append.mp hm with hm | hm
  · exact .inl hm
  · obtain rfl := List.mem_singleton.mp hm
    exact .inr ⟨hl, fun st k t _ => ht st k t⟩

theorem CloseOutsFrom.of_eq (h : ∀ st k, s'.closeOuts st k = w.shared.closeOuts st k) :
    CloseOutsFrom cfg w s' :=
  fun st k _ hr => .inl (h st k ▸ hr)

theorem CloseOutsFrom.setCloseOuts {rs : List Record}
    (h : ∀ r ∈ rs, r ∈ w.shared.closeOuts st k ∨ Closes cfg st k r) :
    CloseOutsFrom cfg w (w.shared.setCloseOuts st k rs) := by
  intro st' k' r hr
  rw [Shared.closeOuts_setCloseOuts] at hr
  split_ifs at hr with hs
  · exact hs.1 ▸ hs.2 ▸ h r hr
  · exact .inl hr

theorem Sound.update (h : w.Sound cfg) (hs : ∀ st k, (w.shared.slot st k).Evolves (w'.shared.slot st k))
    (hp : ∀ tid, w'.phase tid = w.phase tid ∨ (w'.phase tid).Lawful cfg tid ∧
      ∀ st k t, (w'.phase tid).ticket = some (st, k, t) → w.Ticketed st k t ∨
        (w'.shared.slot st k).Issued t)
    (hj : JobsFrom cfg w w'.shared) (hc : CloseOutsFrom cfg w w'.shared) : w'.Sound cfg where
  gated st k := (hs st k).gated (h.gated st k)
  issued st k t ht := by
    have old : w.Ticketed st k t → (w'.shared.slot st k).Issued t :=
      fun ht => (hs st k).issued t (h.issued st k t ht)
    rcases ht with ⟨tid, htid⟩ | ⟨j, hm, hf, hjt⟩
    · rcases hp tid with he | ⟨-, hn⟩
      · exact old (.inl ⟨tid, he ▸ htid⟩)
      · exact (hn st k t htid).elim old id
    · rcases hj j hm with hm | ⟨-, hn⟩
      · exact old (.inr ⟨j, hm, hf, hjt⟩)
      · exact old (hn st k t hf hjt)
  phase tid := by
    rcases hp tid with he | ⟨hl, -⟩
    · exact he ▸ h.phase tid
    · exact hl
  jobs j hm := (hj j hm).elim (h.jobs j) And.left
  closeOuts st k r hr := (hc st k r hr).elim (h.closeOuts st k r) id

theorem Sound.set (h : w.Sound cfg)
    (hs : ∀ st k, (w.shared.slot st k).Evolves (s'.slot st k)) (hl : p.Lawful cfg tid)
    (ht : ∀ st k t, p.ticket = some (st, k, t) → w.Ticketed st k t ∨ (s'.slot st k).Issued t)
    (hj : JobsFrom cfg w s') (hc : CloseOutsFrom cfg w s') : (w.set tid p s').Sound cfg := by
  refine h.update hs (fun u => ?_) hj hc
  by_cases hu : u = tid
  · subst hu
    rw [set_phase_self]
    exact .inr ⟨hl, ht⟩
  · exact .inl (set_phase_of_ne hu w p s')

theorem Sound.same (h : w.Sound cfg) (hs : w.shared.Same s')
    (hl : p.Lawful cfg tid) (ht : ∀ st k t, p.ticket = some (st, k, t) → w.Ticketed st k t) :
    (w.set tid p s').Sound cfg :=
  h.set (fun st k => hs.slot st k ▸ .refl _) hl (fun st k t hp => .inl (ht st k t hp)) (.of_eq hs.jobs)
    (.of_eq hs.closeOuts)

theorem Sound.slot (h : w.Sound cfg) {slot : Slot} (hs : (w.shared.slot st k).Evolves slot)
    (hl : p.Lawful cfg tid)
    (ht : ∀ st' k' t, p.ticket = some (st', k', t) →
      ((w.shared.setSlot st k slot).slot st' k').Issued t) :
    (w.set tid p (w.shared.setSlot st k slot)).Sound cfg :=
  h.set hs.setSlot hl (fun st k t hp => .inr (ht st k t hp)) (.of_eq rfl) (.of_eq fun _ _ => by simp)

theorem Ticketed.of_phase (h : w.phase tid = p) (hp : p.ticket = some (st, k, t)) :
    w.Ticketed st k t :=
  .inl ⟨tid, h ▸ hp⟩

theorem Sound.lawful (h : w.Sound cfg) (hp : w.phase tid = p) : p.Lawful cfg tid :=
  hp ▸ h.phase tid

theorem Sound.version_pos (h : w.Sound cfg) (hp : w.phase tid = p) (ht : p.ticket = some (st, k, t)) :
    t.version ≠ 0 :=
  (h.issued st k t (.of_phase hp ht)).version_pos

theorem Sound.keep (h : w.Sound cfg) (hp : w'.phase = w.phase) (hs : w'.shared = w.shared) :
    w'.Sound cfg :=
  h.update (fun _ _ => hs ▸ .refl _) (fun tid => .inl (congrFun hp tid)) (.of_eq (hs ▸ rfl))
    (.of_eq fun _ _ => hs ▸ rfl)

theorem Sound.settle {j : Nat} {ok : Bool} {sink : String} {job : Job} (h : w.Sound cfg)
    (hj : w.shared.jobs[j]? = some ⟨sink, job, .inFlight⟩) :
    Sound cfg { w with shared := w.shared.settled j sink job ok } := by
  have hm := List.mem_of_getElem? hj
  have hv : ∀ st k t, job.commit.ticket = some (st, k, t) → t.version ≠ 0 :=
    fun st k t ht => (h.issued st k t (.inr ⟨_, hm, rfl, ht⟩)).version_pos
  refine h.update (fun st k => ?_) (fun _ => .inl rfl) ?_ ?_
  · rw [Shared.settled_slot]
    exact callback_evolves hv st k
  · intro h' hm'
    rw [Shared.settled_jobs] at hm'
    rcases List.mem_or_eq_of_mem_set hm' with hm' | rfl
    · exact .inl hm'
    · have hl := h.jobs _ hm
      refine .inr ⟨hl, fun st k t hf => ?_⟩
      cases ok <;> cases hf
  · intro st k r hr
    rw [Shared.settled_closeOuts] at hr
    rcases mem_closeOuts_callback hr with hr | ⟨-, key, hc⟩
    · exact .inl hr
    · have hl := h.jobs _ hm
      simp only [Handed.Lawful, hc] at hl
      exact .inr ⟨key, hl.2.1, hl.2.2.2⟩

theorem Sound.crashed (h : w.Sound cfg) : w.crashed.Sound cfg where
  gated _ _ := Slot.Gated.empty
  issued st k t ht := by
    rcases ht with ⟨tid, ht⟩ | ⟨h', hm, hf, -⟩
    · cases ht
    · obtain ⟨h0, -, rfl⟩ := List.mem_map.mp hm
      split_ifs at hf with hs
      exact absurd hf hs
  phase _ := trivial
  jobs h' hm := by
    obtain ⟨h0, hm0, rfl⟩ := List.mem_map.mp hm
    have hl := h.jobs h0 hm0
    split_ifs
    · exact hl
    · exact hl
  closeOuts _ _ _ hr := by cases hr

theorem Sound.turn (h : w.Sound cfg) (ht : Turn cfg w d w') : w'.Sound cfg := by
  cases ht with
  | still _ w' hp hs _ _ _ =>
    exact h.update (fun st k => hs.slot st k ▸ .refl _) (fun tid => .inl (congrFun hp tid))
      (.of_eq hs.jobs) (.of_eq hs.closeOuts)
  | attach | look | consult | vouch => exact h.keep rfl rfl
  | tick | insert | removeSink =>
    exact h.update (fun _ _ => .refl _) (fun _ => .inl rfl) (.of_eq rfl) (.of_eq fun _ _ => rfl)
  | drop tid st k base s' hp hs =>
    have hw : (w.set tid .idle s').Sound cfg := h.same hs trivial (by simp [Phase.ticket])
    exact hw.keep rfl rfl
  | load key st k hk hi hp => exact h.same (.refl _) ⟨key, rfl, hk⟩ (by simp [Phase.ticket])
  | reserve key st k base norm plan hk hd hp =>
    refine h.slot .reserve ⟨key, rfl, hk⟩ ?_
    rintro st' k' t ht
    cases ht
    rw [Shared.slot_setSlot_self]
    exact Slot.Issued.fresh (h.gated st k)
  | date _ _ _ _ _ _ _ hp | dateClaim _ _ _ _ _ _ hp =>
    have hl := h.lawful hp
    exact h.set (fun _ _ => .refl _) hl (fun _ _ _ ht => .inl (.of_phase hp ht)) (.of_eq rfl)
      (.of_eq fun _ _ => rfl)
  | issue key st k base norm plan tk ts hk hd hp =>
    refine h.set (fun _ _ => .refl _) trivial (by simp [Phase.ticket]) (.hand ?_ ?_)
      (.of_eq fun _ _ => rfl)
    · exact ⟨rfl, hk, _, base, norm, plan, ts, hd, rfl, rfl, rfl⟩
    · exact fun st k t ht => .of_phase hp ht
  | refuse key st k base norm plan tk ts s' hk hd hp hs =>
    exact h.same hs ⟨key, rfl, hk⟩ (fun st k t ht => .of_phase hp ht)
  | revert tid st k confirmed entry tk hp =>
    exact h.slot (.commitIfCurrent (h.version_pos hp rfl)) trivial (by simp [Phase.ticket])
  | retract | forget => exact h.slot .deleteIfCurrent trivial (by simp [Phase.ticket])
  | claim tid key st k uid e tk slot hk hm hp hc =>
    have hw : (w.set tid (.claimed st k e tk none) (w.shared.setSlot st k slot)).Sound cfg := by
      refine h.slot (.claims hc) ⟨key, hk, hm.imp And.left And.left⟩ ?_
      rintro st' k' t ht
      cases ht
      rw [Shared.slot_setSlot_self]
      exact hc.issued (h.gated st k)
    exact hw.keep rfl rfl
  | emit tid key st k e tk ts hk he hp =>
    refine h.set (fun _ _ => .refl _) trivial (by simp [Phase.ticket]) (.hand ?_ ?_)
      (.of_eq fun _ _ => rfl)
    · exact ⟨rfl, hk, he, _, _, _, rfl⟩
    · exact fun st k t ht => .of_phase hp ht
  | emitRefused tid st k e tk ts s' hp hs =>
    have hl := h.lawful hp
    exact h.same hs hl (fun st k t ht => .of_phase hp ht)
  | release tid st k e tk hp => exact h.slot .unclaimDelete trivial (by simp [Phase.ticket])
  | supersede key st k base e norm tk slot hk he hobs hsup hp hc =>
    have hw : (w.set (.worker key) (.superseding st k base e) (w.shared.setSlot st k slot)).Sound cfg :=
      h.slot (.claims hc) ⟨key, rfl, hk⟩ (by simp [Phase.ticket])
    exact hw.keep rfl rfl
  | outrun key st k base norm s' hk hobs hsup hp hn hs =>
    exact h.same hs ⟨key, rfl, hk⟩ (by simp [Phase.ticket])
  | dateClose key st k base e ts hp =>
    have hl := h.lawful hp
    obtain ⟨key', hkey, hk⟩ := hl
    cases hkey
    exact h.set (fun _ _ => .refl _) ⟨⟨key, rfl, hk⟩, key, hk, ts, _, _, rfl⟩
      (by simp [Phase.ticket]) (.of_eq rfl) (.of_eq fun _ _ => rfl)
  | close key st k base r hk hp =>
    have hl := h.lawful hp
    refine h.set (fun _ _ => .refl _) hl.1 (by simp [Phase.ticket])
      (.hand ?_ (by simp [Commit.ticket])) (.of_eq fun _ _ => rfl)
    exact ⟨rfl, hk, rfl, hl.2.of_owns hk⟩
  | shelve tid st k base r hp =>
    have hl := h.lawful hp
    refine h.set (fun _ _ => by simpa using .refl _) hl.1 (by simp [Phase.ticket]) (.of_eq rfl)
      (.setCloseOuts ?_)
    intro r' hr'
    rcases List.mem_append.mp hr' with hr' | hr'
    · exact .inl hr'
    · exact .inr (List.mem_singleton.mp hr' ▸ hl.2)
  | takeAll key st k hk hp =>
    exact h.set (fun _ _ => by simpa using .refl _)
      (Phase.lawful_outsOf ⟨key, hk, .inl rfl⟩ (h.closeOuts st k)) (by simp) (.of_eq rfl)
      (.setCloseOuts (by simp))
  | resubmit key st k r rs hk hp =>
    have hl := h.lawful hp
    simp only [Phase.Lawful, List.forall_mem_cons] at hl
    refine h.set (fun _ _ => .refl _) (Phase.lawful_outsOf hl.1 hl.2.2) (by simp)
      (.hand ?_ (by simp [Commit.ticket])) (.of_eq fun _ _ => rfl)
    exact ⟨rfl, hk, rfl, hl.2.1.of_owns hk⟩
  | reshelve tid st k r rs hp =>
    have hl := h.lawful hp
    simp only [Phase.Lawful, List.forall_mem_cons] at hl
    refine h.set (fun _ _ => by simpa using .refl _) (Phase.lawful_outsOf hl.1 hl.2.2) (by simp)
      (.of_eq rfl) (.setCloseOuts ?_)
    intro r' hr'
    rcases List.mem_append.mp hr' with hr' | hr'
    · exact .inl hr'
    · exact .inr (List.mem_singleton.mp hr' ▸ hl.2.1)
  | recover tid key st k x hk hn he hx hp =>
    refine h.update (fun _ _ => .refl _) (fun _ => .inl rfl) (.hand ?_ (by simp [Commit.ticket]))
      (.of_eq fun _ _ => rfl)
    exact ⟨rfl, hk, rfl, _, _, _, rfl⟩
  | recoverRefused tid key st k x s' hk hn he hx hp hs =>
    have hw : (w.set tid (.outs st k [x.reincarnation.closeOutRecord cfg.clusterID key])
      s').Sound cfg := by
      refine h.same hs ?_ (by simp [Phase.ticket])
      exact ⟨⟨key, hk, .inr hn⟩, List.forall_mem_singleton.mpr ⟨key, hk, _, _, _, rfl⟩⟩
    exact hw.keep rfl rfl
  | seed tid key st k current hk hn hi hx hp =>
    exact h.update (fun st' k' => Slot.Evolves.storeIfAbsent.setSlot st' k') (fun _ => .inl rfl)
      (.of_eq rfl) (.of_eq fun _ _ => by simp)
  | evict ref st hst =>
    refine h.update (fun st' k' => ?_) (fun _ => .inl rfl) (.of_eq rfl) (.of_eq
      fun _ _ => Shared.closeOuts_deletePrefix _ _ _ _ _)
    rw [Shared.slot_deletePrefix]
    split_ifs
    · exact .remove
    · exact .refl _
  | settle j ok sink job hj hok => exact h.settle hj
  | crash => exact h.crashed

end World

end Kuberecord
