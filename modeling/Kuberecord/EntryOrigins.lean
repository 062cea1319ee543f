import Kuberecord.Fallbacks

namespace Kuberecord

open Threads

def CacheEntry.content (e : CacheEntry) : CacheEntry := { e with version := 0, pendingDelete := false }

namespace Slot

variable {P : CacheEntry → Prop} {s s' : Slot} {e : CacheEntry} {t : Ticket} {uid : String} {v : Nat}

def Holds (P : CacheEntry → Prop) (s : Slot) : Prop := ∀ e, s.entry = some e → P e.content

theorem Holds.reserve (hp : P e.content) : (s.reserve e).1.Holds P := by
  intro e' he
  cases he
  exact hp

theorem Holds.commitIfCurrent (h : s.Holds P) (hp : P e.content) :
    (s.commitIfCurrent v e).1.Holds P := by
  unfold Slot.commitIfCurrent
  split
  · split_ifs
    · exact h
    · intro e' he
      cases he
      exact hp
  · split_ifs
    · exact h
    · intro e' he
      cases he
      exact hp

theorem Holds.deleteIfCurrent (h : s.Holds P) : (s.deleteIfCurrent v).1.Holds P := by
  unfold Slot.deleteIfCurrent
  split
  · split_ifs
    · exact h
    · intro e' he
      cases he
  · exact h

theorem Holds.unclaimDelete (h : s.Holds P) : (s.unclaimDelete v).Holds P := by
  unfold Slot.unclaimDelete
  split
  · rename_i cur hc
    split_ifs
    · exact h
    · intro e' he
      cases he
      exact h cur hc
  · exact h

theorem Holds.storeIfAbsent (h : s.Holds P) (hp : s.entry = none → P e.content) :
    (s.storeIfAbsent e).Holds P := by
  unfold Slot.storeIfAbsent
  split_ifs with hs
  · exact h
  · intro e' he
    cases he
    exact hp (by simpa using hs)

theorem Holds.remove : s.remove.Holds P := fun _ he => (by cases he)

theorem Holds.claims (h : s.Holds P) (hc : s.Claims uid s' e t) : s'.Holds P := by
  rw [hc.slot]
  intro e' he
  cases he
  exact h e hc.entry

end Slot

section

variable (R : Inst → String → CacheEntry → Prop)

def Phase.Stocked : Phase → Prop
  | .loaded st k base => ∀ e ∈ base, R st k e.content
  | .superseding st k base _ | .closing st k base _ | .superseded st k base => R st k base.content
  | .reserved st k base entry _ _ => (∀ e ∈ base, R st k e.content) ∧ R st k entry.content
  | .reverting st k _ _ revertEntry => ∀ e ∈ revertEntry, R st k e.content
  | _ => True

def Commit.Stocked : Commit → Prop
  | .upsert st k _ _ confirmed revertEntry =>
    R st k confirmed.content ∧ ∀ e ∈ revertEntry, R st k e.content
  | _ => True

structure Shared.Stocked (s : Shared) : Prop where
  slot : ∀ st k, (s.slot st k).Holds (R st k)
  jobs : ∀ h ∈ s.jobs, h.status = .inFlight → h.job.commit.Stocked R

structure World.Stocked (w : World) : Prop where
  shared : w.shared.Stocked R
  phase : ∀ t, (w.phase t).Stocked R

end

section

variable {R R' : Inst → String → CacheEntry →
  Prop} {s s' : Shared} {st : Inst} {k : String} {slot : Slot}

theorem Phase.stocked_outsOf {rs : List Record} : (Phase.outsOf st k rs).Stocked R := by
  cases rs <;> trivial

theorem Phase.Stocked.mono {p : Phase} (h : p.Stocked R) (hR : ∀ st k e, R st k e → R' st k e) :
    p.Stocked R' := by
  cases p with
  | loaded | reverting => exact fun e he => hR _ _ _ (h e he)
  | superseding | closing | superseded => exact hR _ _ _ h
  | reserved => exact ⟨fun e he => hR _ _ _ (h.1 e he), hR _ _ _ h.2⟩
  | _ => trivial

theorem Commit.Stocked.mono {c : Commit} (h : c.Stocked R) (hR : ∀ st k e, R st k e → R' st k e) :
    c.Stocked R' := by
  cases c with
  | upsert => exact ⟨hR _ _ _ h.1, fun e he => hR _ _ _ (h.2 e he)⟩
  | _ => trivial

theorem World.Stocked.mono {w : World} (h : w.Stocked R) (hR : ∀ st k e, R st k e → R' st k e) :
    w.Stocked R' where
  shared := ⟨fun st k e he => hR _ _ _ (h.shared.slot st k e he),
    fun j hj hs => (h.shared.jobs j hj hs).mono hR⟩
  phase t := (h.phase t).mono hR

namespace Shared

theorem Stocked.same (h : s.Stocked R) (hs : s.Same s') : s'.Stocked R where
  slot st k := hs.slot st k ▸ h.slot st k
  jobs := hs.jobs ▸ h.jobs

theorem Stocked.setSlot (h : s.Stocked R) (hs : slot.Holds (R st k)) :
    (s.setSlot st k slot).Stocked R where
  slot st' k' := by
    rw [slot_setSlot]
    split_ifs with heq
    · obtain ⟨rfl, rfl⟩ := heq
      exact hs
    · exact h.slot st' k'
  jobs := h.jobs

theorem Stocked.setCloseOuts (h : s.Stocked R) {records : List Record} :
    (s.setCloseOuts st k records).Stocked R where
  slot st' k' := by
    rw [slot_setCloseOuts]
    exact h.slot st' k'
  jobs := h.jobs

theorem Stocked.deletePrefix (h : s.Stocked R) {pre : String} :
    (s.modify st fun ss => { ss with cache := ss.cache.deletePrefix pre }).Stocked R where
  slot st' k' := by
    rw [slot_deletePrefix]
    split_ifs
    · exact .remove
    · exact h.slot st' k'
  jobs := h.jobs

theorem Stocked.hand (h : s.Stocked R) {sink : String} {job : Job} (hj : job.commit.Stocked R) :
    Stocked R { s with jobs := s.jobs ++ [{ sink := sink, job := job }] } where
  slot := h.slot
  jobs j hm := by
    rcases List.mem_append.mp hm with hm | hm
    · exact h.jobs j hm
    · obtain rfl := List.mem_singleton.mp hm
      exact fun _ => hj

theorem Stocked.callback (h : s.Stocked R) {c : Commit} (hc : c.Stocked R) (ok : Bool) :
    (s.callback c ok).Stocked R := by
  rcases c with ⟨st, k, key, t, confirmed, revertEntry⟩ | ⟨st, k, key, t⟩ | ⟨st, k, key, record⟩
  · cases ok with
    | true => exact h.setSlot ((h.slot st k).commitIfCurrent hc.1)
    | false =>
      cases revertEntry with
      | none => exact (h.setSlot (h.slot st k).deleteIfCurrent).same (.of_heap rfl rfl rfl rfl rfl)
      | some e =>
        exact (h.setSlot ((h.slot st k).commitIfCurrent (hc.2 e rfl))).same
          (.of_heap rfl rfl rfl rfl rfl)
  · cases ok with
    | true => exact h.setSlot (h.slot st k).deleteIfCurrent
    | false => exact (h.setSlot (h.slot st k).unclaimDelete).same (.of_heap rfl rfl rfl rfl rfl)
  · cases ok with
    | true => exact h
    | false =>
      have hset : (s.setCloseOuts st k (s.closeOuts st k ++ [record])).Stocked R := h.setCloseOuts
      exact hset.same (.of_heap rfl rfl rfl rfl rfl)

theorem Stocked.settled (h : s.Stocked R) {j : Nat} {sink : String} {job : Job} {ok : Bool}
    (hj : s.jobs[j]? = some ⟨sink, job, .inFlight⟩) : (s.settled j sink job ok).Stocked R where
  slot st k := by
    rw [settled_slot]
    exact (h.callback (h.jobs _ (List.mem_of_getElem? hj) rfl) ok).slot st k
  jobs j' hm hs := h.jobs j' (inFlight_of_settled hm hs) hs

theorem Stocked.crash (s : Shared) : (crash s).Stocked R where
  slot st k e he := by cases he
  jobs j hm hs := by
    obtain ⟨j, -, rfl⟩ := List.mem_map.mp hm
    by_cases hf : j.status = .inFlight
    · simp [hf] at hs
    · simp [hf] at hs

end Shared

namespace World

variable {cfg : Config} {w w' : World} {d : Deed}

theorem Stocked.set (h : w.Stocked R) {t : Tid} {p : Phase} (hp : p.Stocked R) (hs : s'.Stocked R) :
    (w.set t p s').Stocked R where
  shared := hs
  phase u := by
    by_cases hu : u = t
    · subst hu
      rwa [set_phase_self]
    · rw [set_phase_of_ne hu]
      exact h.phase u

theorem Stocked.of_phase (h : w.Stocked R) {t : Tid} {p : Phase} (hp : w.phase t = p) :
    p.Stocked R := hp ▸ h.phase t

inductive Puts (s : Shared) (st : Inst) (k : String) (e : CacheEntry) : Deed → Prop
  | reserve (key : Key) : Puts s st k e (.exec (.worker key) (.reserve st k e, .go))
  | storeIfAbsent (t : Tid) : (s.slot st k).entry = none →
      Puts s st k e (.exec t (.storeIfAbsent st k e, .go))

theorem Stocked.turn (h : w.Stocked R) (ht : Turn cfg w d w')
    (hput : ∀ st k e, Puts w.shared st k e d → R st k e.content) : w'.Stocked R := by
  cases ht with
  | still _ _ hp hs => exact ⟨h.shared.same hs, fun t => hp ▸ h.phase t⟩
  | attach | look | consult | vouch => exact ⟨h.shared, h.phase⟩
  | tick | insert | removeSink => exact ⟨⟨h.shared.slot, h.shared.jobs⟩, h.phase⟩
  | drop t st k base s' hp hs =>
    exact ⟨h.shared.same hs, (h.set (t := t) (p := .idle) trivial (h.shared.same hs)).phase⟩
  | load key st k => exact h.set (h.shared.slot st k) h.shared
  | reserve key st k base norm plan hk hd hp =>
    have hnew := hput st k _ (.reserve _)
    refine h.set ⟨?_, hnew⟩ (h.shared.setSlot (.reserve hnew))
    rcases hp with ⟨hp, -⟩ | ⟨e, rfl, -, hp⟩
    · exact h.of_phase hp
    · rintro e' ⟨⟩
      exact h.of_phase hp
  | date t st k base entry tk ts hp =>
    have hres := h.of_phase hp
    exact h.set hres ⟨h.shared.slot, h.shared.jobs⟩
  | issue key st k base norm plan tk ts hk hd hp =>
    have hres := h.of_phase hp
    refine h.set trivial (h.shared.hand ⟨hres.2, fun e he => ?_⟩)
    rcases hd.planned.revertEntry with hr | hr <;> rw [hr] at he
    · cases he
    · exact hres.1 e he
  | refuse key st k base norm plan tk ts s' hk hd hp hs =>
    have hres := h.of_phase hp
    refine h.set (fun e he => ?_) (h.shared.same hs)
    rcases hd.planned.revertEntry with hr | hr <;> rw [hr] at he
    · cases he
    · exact hres.1 e he
  | revert t st k confirmed entry tk hp =>
    exact h.set trivial (h.shared.setSlot
      ((h.shared.slot st k).commitIfCurrent (h.of_phase hp entry rfl)))
  | retract t st k | forget _ st k =>
    exact h.set trivial (h.shared.setSlot (h.shared.slot st k).deleteIfCurrent)
  | claim t key st k uid e tk slot hk hm hp hc =>
    have hset := h.set (t := t) (p := .claimed st k e tk none) trivial
      (h.shared.setSlot ((h.shared.slot st k).claims hc))
    exact ⟨hset.shared, hset.phase⟩
  | dateClaim => exact h.set trivial ⟨h.shared.slot, h.shared.jobs⟩
  | emit => exact h.set trivial (h.shared.hand trivial)
  | emitRefused _ _ _ _ _ _ _ _ hs => exact h.set trivial (h.shared.same hs)
  | release t st k => exact h.set trivial (h.shared.setSlot (h.shared.slot st k).unclaimDelete)
  | supersede key st k base e norm tk slot hk he hobs hsup hp hc =>
    have hbase := h.of_phase hp base rfl
    have hset := h.set (t := .worker key) (p := .superseding st k base e) hbase
      (h.shared.setSlot ((h.shared.slot st k).claims hc))
    exact ⟨hset.shared, hset.phase⟩
  | outrun key st k base norm s' hk hobs hsup hp hin hs =>
    exact h.set (h.of_phase hp base rfl) (h.shared.same hs)
  | dateClose key st k base e ts hp =>
    have hbase := h.of_phase hp
    exact h.set hbase ⟨h.shared.slot, h.shared.jobs⟩
  | close key st k base r hk hp =>
    have hbase := h.of_phase hp
    exact h.set hbase (h.shared.hand trivial)
  | shelve t st k base r hp =>
    have hbase := h.of_phase hp
    exact h.set hbase h.shared.setCloseOuts
  | takeAll | reshelve => exact h.set Phase.stocked_outsOf h.shared.setCloseOuts
  | resubmit => exact h.set Phase.stocked_outsOf (h.shared.hand trivial)
  | recover => exact ⟨h.shared.hand trivial, h.phase⟩
  | recoverRefused t key st k x s' _ _ _ _ _ hs =>
    have hset := h.set (t := t) (p := .outs st k
      [x.reincarnation.closeOutRecord cfg.clusterID key]) trivial
      (h.shared.same hs)
    exact ⟨hset.shared, hset.phase⟩
  | seed t key st k current =>
    exact ⟨h.shared.setSlot ((h.shared.slot st k).storeIfAbsent
      fun hn => hput st k _ (.storeIfAbsent t hn)), h.phase⟩
  | evict => exact ⟨h.shared.deletePrefix, h.phase⟩
  | settle j ok sink job hj => exact ⟨h.shared.settled hj, h.phase⟩
  | crash => exact ⟨.crash _, fun _ => trivial⟩

end World

end

end Kuberecord
