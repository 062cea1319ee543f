import Kuberecord.Tenure

namespace Kuberecord

inductive World.Touch (w : World) (st : Inst) (k : String) : Deed → Slot → Prop
  | same (d : Deed) : Touch w st k d (w.shared.slot st k)
  | reserve (key : Key) (e : CacheEntry) : key.Owns st k → e.pendingDelete = false →
      Touch w st k (.exec (.worker key) (.reserve st k e, .go)) ((w.shared.slot st k).reserve e).1
  | claim (tid : Tid) (uid : String) (slot : Slot) (e : CacheEntry) (t : Ticket) :
      (w.shared.slot st k).Claims uid slot e t →
      Touch w st k (.exec tid (.reserveDelete st k uid, .go)) slot
  | seed (tid : Tid) (e : CacheEntry) : e.pendingDelete = false →
      Touch w st k (.exec tid (.storeIfAbsent st k e, .go)) ((w.shared.slot st k).storeIfAbsent e)
  | settle (d : Deed) (h : Holder) (t : Ticket) (x : Stake) (ok : Bool) : w.staked h =
      some ((st, k), t, x) →
      t.version ≠ 0 → Touch w st k d ((w.shared.slot st k).settle t x ok)
  | remove (d : Deed) : Touch w st k d (w.shared.slot st k).remove
  | crash : Touch w st k .crash {}

namespace World

variable {w w' : World} {cfg : Config} {d : Deed} {tid : Tid} {st st' : Inst} {k k' : String}

theorem Touch.absent {s : Slot} (h : w.Touch st k d s) (hn : (w.shared.slot st k).entry = none) :
    s.entry = none ∨
    (∃ key e, key.Owns st k ∧ d = .exec (.worker key) (.reserve st k e, .go)) ∨
    ∃ tid e, d = .exec tid (.storeIfAbsent st k e, .go) := by
  cases h with
  | same => exact .inl hn
  | reserve key e hk => exact .inr (.inl ⟨key, e, hk, rfl⟩)
  | claim tid uid slot e t hc =>
    rw [hc.entry] at hn
    cases hn
  | seed tid e => exact .inr (.inr ⟨tid, e, rfl⟩)
  | settle _ h t x ok hx hv =>
    have hc : ¬ (w.shared.slot st k).Current t.version := by simp [Slot.Current, hn]
    rw [Slot.settle_stale hc hv]
    exact .inl hn
  | remove | crash => exact .inl rfl

theorem Touch.current {s : Slot} {v : Nat} (h : w.Touch st k d s) (hc : (w.shared.slot st k).Current v) :
    s.entry = none ∨ s.Current v ∨
      (∃ key e, key.Owns st k ∧ d = .exec (.worker key) (.reserve st k e, .go)) ∨
      ∃ tid uid, d = .exec tid (.reserveDelete st k uid, .go) := by
  obtain ⟨e, he, rfl⟩ := Slot.current_iff.mp hc
  cases h with
  | same => exact .inr (.inl hc)
  | reserve key e hk => exact .inr (.inr (.inl ⟨key, e, hk, rfl⟩))
  | claim tid uid => exact .inr (.inr (.inr ⟨tid, uid, rfl⟩))
  | seed tid e' =>
    refine .inr (.inl ?_)
    rwa [Slot.storeIfAbsent, if_pos (by simp [he])]
  | settle _ h t x ok hx hv =>
    by_cases hcur : e.version = t.version
    · rw [Slot.settle_current he hcur]
      cases x with
      | write c f =>
        cases ok with
        | true => exact .inr (.inl (Slot.current_iff.mpr ⟨_, rfl, hcur.symm⟩))
        | false =>
          cases f with
          | none => exact .inl rfl
          | some b => exact .inr (.inl (Slot.current_iff.mpr ⟨_, rfl, hcur.symm⟩))
      | death u row =>
        cases ok with
        | true => exact .inl rfl
        | false => exact .inr (.inl (Slot.current_iff.mpr ⟨_, rfl, rfl⟩))
    · have hst : ¬ (w.shared.slot st k).Current t.version := by
        simpa [Slot.Current, he] using hcur
      rw [Slot.settle_stale hst hv]
      exact .inr (.inl hc)
  | remove | crash => exact .inl rfl

theorem Touch.of_eq {s : Slot} (h : s = w.shared.slot st k) : w.Touch st k d s := h ▸ .same d

theorem touch_setSlot {slot : Slot} (h : w.Touch st' k' d slot) :
    w.Touch st k d ((w.shared.setSlot st' k' slot).slot st k) := by
  rw [Shared.slot_setSlot]
  split_ifs with hs
  · obtain ⟨rfl, rfl⟩ := hs
    exact h
  · exact .same d

theorem Sound.touch_phase (h : w.Sound cfg) {p : Phase} {t : Ticket} {x : Stake} (ok : Bool)
    (hp : w.phase tid = p) (hx : p.staked = some ((st, k), t, x))
    (ht : p.ticket = some (st, k, t)) :
    w.Touch st k d ((w.shared.slot st k).settle t x ok) := by
  refine .settle d (.hand tid) t x ok ?_ (h.version_pos hp ht)
  rw [World.staked, hp, hx]

theorem Sound.touch_job (h : w.Sound cfg) {j : Nat} {sink : String} {job : Job} {ok : Bool}
    (hj : w.shared.jobs[j]? = some ⟨sink, job, .inFlight⟩) :
    w.Touch st k d ((w.shared.settled j sink job ok).slot st k) := by
  rw [Shared.settled_slot]
  cases hx : Handed.staked ⟨sink, job, .inFlight⟩ with
  | some y =>
    obtain ⟨⟨st', k'⟩, t, x⟩ := y
    have ht : t.version ≠ 0 :=
      (h.issued _ _ t (.inr ⟨_, List.mem_of_getElem? hj, rfl, Handed.ticket_of_staked hx⟩)).version_pos
    rw [callback_settle hx]
    split_ifs with hs
    · obtain ⟨rfl, rfl⟩ := hs
      exact .settle d (.job j) t x ok (by simp [World.staked, hj, hx]) ht
    · exact .same d
  | none =>
    obtain ⟨record, commit⟩ := job
    cases commit with
    | upsert | delete => cases hx
    | closeOut st' k' key r => exact .of_eq (by cases ok <;> simp [Shared.callback])

theorem Sound.touch (h : w.Sound cfg) (ht : Turn cfg w d w') (st : Inst) (k : String) :
    w.Touch st k d (w'.shared.slot st k) := by
  cases ht with
  | still _ _ _ hs | drop _ _ _ _ _ _ hs | refuse _ _ _ _ _ _ _ _ _ _ _ _ hs
  | emitRefused _ _ _ _ _ _ _ _ hs | outrun _ _ _ _ _ _ _ _ _ _ _ hs
  | recoverRefused _ _ _ _ _ _ _ _ _ _ _ hs => exact .of_eq (hs.slot st k)
  | attach | look | consult | vouch | tick | load | date | issue | dateClaim | emit | dateClose | close | resubmit
  | recover | insert | removeSink => exact .same _
  | shelve | takeAll | reshelve => exact .of_eq (Shared.slot_setCloseOuts ..)
  | reserve key st' k' base norm plan hk => exact touch_setSlot (.reserve key _ hk rfl)
  | revert _ _ _ _ _ _ hp | retract _ _ _ _ _ hp | release _ _ _ _ _ hp =>
    exact touch_setSlot (h.touch_phase false hp rfl rfl)
  | claim tid key st' k' uid e tk slot hk hm hp hc => exact touch_setSlot (.claim tid uid slot e tk hc)
  | forget key st' k' e tk hk he hp => exact touch_setSlot (h.touch_phase true hp rfl rfl)
  | supersede key st' k' base e norm tk slot hk he hobs hsup hp hc =>
    exact touch_setSlot (.claim (.worker key) base.uid slot e tk hc)
  | seed tid key st' k' current hk => exact touch_setSlot (.seed tid (seededEntry current) rfl)
  | evict ref st' hst =>
    rw [Shared.slot_deletePrefix]
    split_ifs
    · exact .remove _
    · exact .same _
  | settle j ok sink job hj hok => exact h.touch_job hj
  | crash => exact .crash

end World

end Kuberecord
