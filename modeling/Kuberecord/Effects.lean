import Kuberecord.Machine

namespace Kuberecord

namespace Shared

variable {s s' : Shared} {st st' : Inst} {k k' : String} {slot : Slot} {records : List Record}
  {key : Key}

structure Same (s s' : Shared) : Prop where
  clock : s'.clock = s.clock
  gens : s'.gens = s.gens
  jobs : s'.jobs = s.jobs
  table : s'.table = s.table
  slot : ∀ st k, s'.slot st k = s.slot st k
  closeOuts : ∀ st k, s'.closeOuts st k = s.closeOuts st k

theorem Same.refl (s : Shared) : s.Same s := ⟨rfl, rfl, rfl, rfl, fun _ _ => rfl, fun _ _ => rfl⟩

theorem Same.of_heap (hc : s'.clock = s.clock) (hg : s'.gens = s.gens) (hj : s'.jobs = s.jobs)
    (ht : s'.table = s.table) (hh : s'.heap = s.heap) : s.Same s' :=
  ⟨hc, hg, hj, ht, fun st k => by rw [Shared.slot, hh, Shared.slot],
    fun st k => by rw [Shared.closeOuts, hh, Shared.closeOuts]⟩

theorem slot_setSlot (s : Shared) (st : Inst) (k : String) (slot : Slot) (st' : Inst) (k' : String) :
    (s.setSlot st k slot).slot st' k' = if st' = st ∧ k' = k then slot else s.slot st' k' := by
  by_cases hst : st' = st
  · subst hst
    by_cases hk : k' = k
    · subst hk
      simp [Shared.slot, setSlot, modify]
    · simp [Shared.slot, setSlot, modify, hk]
  · simp [Shared.slot, setSlot, modify, hst]

@[simp]
theorem slot_setSlot_self : (s.setSlot st k slot).slot st k = slot := by simp [slot_setSlot]

theorem slot_setSlot_of_ne (h : ¬ (st' = st ∧ k' = k)) :
    (s.setSlot st k slot).slot st' k' = s.slot st' k' := by
  simp [slot_setSlot, h]

@[simp]
theorem slot_addKey : (s.addKey key).slot st k = s.slot st k := rfl

@[simp]
theorem slot_setCloseOuts : (s.setCloseOuts st k records).slot st' k' = s.slot st' k' := by
  by_cases hst : st' = st
  · subst hst
    simp [Shared.slot, setCloseOuts, modify]
  · simp [Shared.slot, setCloseOuts, modify, hst]

theorem closeOuts_setCloseOuts (s : Shared) (st : Inst) (k : String) (records : List Record)
    (st' : Inst) (k' : String) :
    (s.setCloseOuts st k records).closeOuts st' k' =
      if st' = st ∧ k' = k then records else s.closeOuts st' k' := by
  by_cases hst : st' = st
  · subst hst
    by_cases hk : k' = k
    · subst hk
      simp [Shared.closeOuts, setCloseOuts, modify]
    · simp [Shared.closeOuts, setCloseOuts, modify, hk]
  · simp [Shared.closeOuts, setCloseOuts, modify, hst]

@[simp]
theorem closeOuts_addKey : (s.addKey key).closeOuts st k = s.closeOuts st k := rfl

@[simp]
theorem closeOuts_setSlot : (s.setSlot st k slot).closeOuts st' k' = s.closeOuts st' k' := by
  by_cases hst : st' = st
  · subst hst
    simp [Shared.closeOuts, setSlot, modify]
  · simp [Shared.closeOuts, setSlot, modify, hst]

theorem same_setWarm (s : Shared) (st : Inst) (scope : ScopeKey) (b : Bool) :
    s.Same (s.setWarm st scope b) := by
  refine ⟨rfl, rfl, rfl, rfl, fun st' k => ?_, fun st' k => ?_⟩
  · by_cases hst : st' = st
    · subst hst
      simp [Shared.slot, setWarm, modify]
    · simp [Shared.slot, setWarm, modify, hst]
  · by_cases hst : st' = st
    · subst hst
      simp [Shared.closeOuts, setWarm, modify]
    · simp [Shared.closeOuts, setWarm, modify, hst]

theorem same_setSlot (s : Shared) (st : Inst) (k : String) : s.Same (s.setSlot st k (s.slot st k)) := by
  refine ⟨rfl, rfl, rfl, rfl, fun st' k' => ?_, fun st' k' => by simp⟩
  rw [slot_setSlot]
  split_ifs with h
  · rw [h.1, h.2]
  · rfl

theorem slot_deletePrefix (s : Shared) (st : Inst) (pre : String) (st' : Inst) (k : String) :
    (s.modify st (fun ss => { ss with cache := ss.cache.deletePrefix pre })).slot st' k =
      if st' = st ∧ pre.toList <+: k.toList then (s.slot st' k).remove else s.slot st' k := by
  by_cases hst : st' = st
  · subst hst
    by_cases hp : pre.toList <+: k.toList <;> simp [Shared.slot, modify, HashCache.deletePrefix, hp]
  · simp [Shared.slot, modify, hst]

theorem closeOuts_deletePrefix (s : Shared) (st : Inst) (pre : String) (st' : Inst) (k : String) :
    (s.modify st (fun ss => { ss with cache := ss.cache.deletePrefix pre })).closeOuts st' k =
    s.closeOuts st' k := by
  by_cases hst : st' = st
  · subst hst
    simp [Shared.closeOuts, modify]
  · simp [Shared.closeOuts, modify, hst]

section

variable (s : Shared) (c : Commit) (ok : Bool) (j : Nat) (sink : String) (job : Job)

theorem callback_jobs : (s.callback c ok).jobs = s.jobs := by
  rcases c with ⟨_, _, _, _, _, _ | _⟩ | _ | _ <;> cases ok <;> rfl

theorem callback_table : (s.callback c ok).table = s.table := by
  rcases c with ⟨_, _, _, _, _, _ | _⟩ | _ | _ <;> cases ok <;> rfl

theorem callback_gens : (s.callback c ok).gens = s.gens := by
  rcases c with ⟨_, _, _, _, _, _ | _⟩ | _ | _ <;> cases ok <;> rfl

theorem callback_clock : (s.callback c ok).clock = s.clock := by
  rcases c with ⟨_, _, _, _, _, _ | _⟩ | _ | _ <;> cases ok <;> rfl

@[simp]
theorem settled_jobs :
    (s.settled j sink job ok).jobs = s.jobs.set j ⟨sink, job, if ok then .written else .failed⟩ := by
  rw [settled, callback_jobs]

@[simp]
theorem settled_table : (s.settled j sink job ok).table = s.table := by rw [settled, callback_table]

@[simp]
theorem settled_clock : (s.settled j sink job ok).clock = s.clock := by rw [settled, callback_clock]

@[simp]
theorem settled_gens : (s.settled j sink job ok).gens = s.gens := by rw [settled, callback_gens]

theorem settled_slot (st : Inst) (k : String) :
    (s.settled j sink job ok).slot st k = (s.callback job.commit ok).slot st k := by
  unfold settled
  rcases job.commit with ⟨_, _, _, _, _, _ | _⟩ | _ | _ <;> cases ok <;> rfl

theorem settled_closeOuts (st : Inst) (k : String) :
    (s.settled j sink job ok).closeOuts st k = (s.callback job.commit ok).closeOuts st k := by
  unfold settled
  rcases job.commit with ⟨_, _, _, _, _, _ | _⟩ | _ | _ <;> cases ok <;> rfl

variable {s ok j sink job} {x : Handed} (hx : x ∈ (s.settled j sink job ok).jobs)

include hx

theorem inFlight_of_settled (hf : x.status = .inFlight) : x ∈ s.jobs := by
  rw [settled_jobs] at hx
  rcases List.mem_or_eq_of_mem_set hx with hx | rfl
  · exact hx
  · cases ok <;> cases hf

theorem exists_of_settled (hj : s.jobs[j]? = some ⟨sink, job, .inFlight⟩) :
    ∃ old ∈ s.jobs, old.sink = x.sink ∧ old.job = x.job := by
  rw [settled_jobs] at hx
  rcases List.mem_or_eq_of_mem_set hx with hx | rfl
  · exact ⟨x, hx, rfl, rfl⟩
  · exact ⟨_, List.mem_of_getElem? hj, rfl, rfl⟩

end

end Shared

open Shared

variable {cfg : Config} {s s' : Shared} {tid : Tid}

def Op.Quiet : Op → Prop
  | .sinkState _ | .listerGet _ | .lastKnownStates _ | .scopeWasActive _ _ | .load _ _
  | .reserve _ _ _ | .reserveDelete _ _ _ | .commitIfCurrent _ _ _ _
  | .deleteIfCurrent _ _ _ | .unclaimDelete _ _ _ | .storeIfAbsent _ _ _ | .closeOutsAdd _ _ _
  | .closeOutsTakeAll _ _ | .deletePrefix _ _ | .now | .enqueue _ _ => False
  | _ => True

inductive Effect (s : Shared) : (o : Op) → Input → o.Ans → Shared → Prop
  | quiet (o : Op) (i : Input) (a : o.Ans) (s' : Shared) : o.Quiet → s.Same s' → Effect s o i a s'
  | listerGet (key : Key) (l : Option Lookup) : Effect s (.listerGet key) (.lookup key l) l s
  | lastKnownStates (ref : ScopeRef) (l : Option (List KnownState)) :
      Effect s (.lastKnownStates ref) (.states ref l) l s
  | scopeWasActive (ref : ScopeRef) (epochStart : Nat) (a : Option Bool) :
      Effect s (.scopeWasActive ref epochStart) (.active ref a) a s
  | sinkState (sink : String) : Effect s (.sinkState sink) .go (s.inst sink) s
  | load (st : Inst) (k : String) : Effect s (.load st k) .go (s.slot st k).entry s
  | reserve (st : Inst) (k : String) (e : CacheEntry) :
      Effect s (.reserve st k e) .go ((s.slot st k).reserve e).2
      (s.setSlot st k ((s.slot st k).reserve e).1)
  | reserveDelete (st : Inst) (k uid : String) :
      Effect s (.reserveDelete st k uid) .go ((s.slot st k).reserveDelete uid).2
        (s.setSlot st k ((s.slot st k).reserveDelete uid).1)
  | commitIfCurrent (st : Inst) (k : String) (t : Ticket) (e : CacheEntry) (b : Bool) :
      Effect s (.commitIfCurrent st k t e) .go b
      (s.setSlot st k ((s.slot st k).commitIfCurrent t.version e).1)
  | deleteIfCurrent (st : Inst) (k : String) (t : Ticket) (b : Bool) :
      Effect s (.deleteIfCurrent st k t) .go b
      (s.setSlot st k ((s.slot st k).deleteIfCurrent t.version).1)
  | unclaimDelete (st : Inst) (k : String) (t : Ticket) :
      Effect s (.unclaimDelete st k t) .go () (s.setSlot st k ((s.slot st k).unclaimDelete t.version))
  | storeIfAbsent (st : Inst) (k : String) (e : CacheEntry) :
      Effect s (.storeIfAbsent st k e) .go () (s.setSlot st k ((s.slot st k).storeIfAbsent e))
  | closeOutsAdd (st : Inst) (k : String) (r : Record) :
      Effect s (.closeOutsAdd st k r) .go () (s.setCloseOuts st k (s.closeOuts st k ++ [r]))
  | closeOutsTakeAll (st : Inst) (k : String) :
      Effect s (.closeOutsTakeAll st k) .go (s.closeOuts st k) (s.setCloseOuts st k [])
  | deletePrefix (st : Inst) (pre : String) :
      Effect s (.deletePrefix st pre) .go ()
      (s.modify st (fun ss => { ss with cache := ss.cache.deletePrefix pre }))
  | now (ts : Nat) : Effect s .now (.time ts) ts { s with clock := ts }
  | accepted (sink : String) (job : Job) :
      Effect s (.enqueue sink job) (.flag true) true
      { s with jobs := s.jobs ++ [{ sink := sink, job := job }] }
  | refused (sink : String) (job : Job) : Effect s (.enqueue sink job) (.flag false) false s

theorem exec_effect {o : Op} {i : Input} {a : o.Ans} (h : exec s tid o i = some (s', a)) : Effect s o i a s' := by
  cases o <;> cases i <;>
    simp only [exec, Option.some.injEq, Prod.mk.injEq, reduceCtorEq, Option.ite_none_left_eq_some,
      Option.ite_none_right_eq_some] at h
  case enqueue.flag sink job accepted =>
    obtain ⟨rfl, rfl⟩ := h
    cases accepted with
    | true => exact .accepted sink job
    | false => exact .refused sink job
  case enqueueScopeEvent.flag sink event accepted =>
    obtain ⟨rfl, rfl⟩ := h
    refine .quiet _ _ _ _ trivial ?_
    split_ifs
    · exact .of_heap rfl rfl rfl rfl rfl
    · exact .refl s
  case markScopeWarm.go ref => exact h.1 ▸ .quiet _ _ _ _ trivial (same_setWarm s _ _ _)
  case unmarkWarm.go st scope => exact h.1 ▸ .quiet _ _ _ _ trivial (same_setWarm s _ _ _)
  case addRateLimited.go key => exact h.1 ▸ .quiet _ _ _ _ trivial (.of_heap rfl rfl rfl rfl rfl)
  case dedupSkip.go => exact h.1 ▸ .quiet _ _ _ _ trivial (.of_heap rfl rfl rfl rfl rfl)
  case ctxErr.flag b => exact h.2.1 ▸ .quiet _ _ _ _ trivial (.refl s)
  case backoff.flag b => exact h.2.1 ▸ .quiet _ _ _ _ trivial (.refl s)
  case mapOrder.order pending l => exact h.2.1 ▸ .quiet _ _ _ _ trivial (.refl s)
  case unclaimDelete.go st k t => exact h.1 ▸ .unclaimDelete st k t
  case storeIfAbsent.go st k e => exact h.1 ▸ .storeIfAbsent st k e
  case closeOutsAdd.go st k r => exact h.1 ▸ .closeOutsAdd st k r
  case deletePrefix.go st pre => exact h.1 ▸ .deletePrefix st pre
  case listerGet.lookup key key' l => obtain ⟨rfl, rfl, rfl⟩ := h; exact .listerGet _ l
  case lastKnownStates.states ref ref' l => obtain ⟨rfl, rfl, rfl⟩ := h; exact .lastKnownStates _ l
  case scopeWasActive.active ref epochStart ref' a => obtain ⟨rfl, rfl, rfl⟩ := h; exact .scopeWasActive _ _ a
  all_goals obtain ⟨rfl, rfl⟩ := h
  case sinkState.go sink => exact .sinkState sink
  case load.go st k => exact .load st k
  case reserve.go st k e => exact .reserve st k e
  case reserveDelete.go st k uid => exact .reserveDelete st k uid
  case commitIfCurrent.go st k t e => exact .commitIfCurrent st k t e _
  case deleteIfCurrent.go st k t => exact .deleteIfCurrent st k t _
  case closeOutsTakeAll.go st k => exact .closeOutsTakeAll st k
  case now.time ts => exact .now ts
  all_goals exact .quiet _ _ _ _ trivial (.refl s)

theorem exec_gens {s s' : Shared} {tid : Tid} {o : Op} {i : Input} {a : o.Ans}
    (hx : exec s tid o i = some (s', a)) :
    s'.gens = s.gens := by
  cases exec_effect hx with
  | quiet _ _ _ _ _ hs => exact hs.gens
  | _ => rfl

theorem start_same {tid : Tid} {b : Boot} {code : Prog (Option Err)}
    (h : start cfg s tid b = some (s', code)) :
    s.Same s' := by
  cases tid <;> cases b <;>
    simp only [start, Option.ite_none_right_eq_some, Option.ite_none_left_eq_some, Option.some.injEq,
      Prod.mk.injEq, reduceCtorEq] at h
  case worker.run key => exact h.2.1 ▸ .of_heap rfl rfl rfl rfl rfl
  case warm.warm id ref epochStart n => exact h.2.1 ▸ .of_heap rfl rfl rfl rfl rfl
  case boot.run sink => exact h.2.1 ▸ .refl s
  case evict.run ref => exact h.1 ▸ .refl s

theorem finish_same (s : Shared) (tid : Tid) (e : Option Err) : s.Same (finish s tid e) := by
  unfold finish
  split <;> exact .of_heap rfl rfl rfl rfl rfl

inductive EnvEffect (s : Shared) : Env → Shared → Prop
  | quiet (e : Env) (s' : Shared) : s.Same s' → EnvEffect s e s'
  | removeSink (sink : String) :
      EnvEffect s (.removeSink sink) { s with gens := Function.update s.gens sink (s.gens sink + 1) }
  | insert (j : Nat) (sink : String) (job : Job) : s.jobs[j]? = some ⟨sink, job, .inFlight⟩ →
      EnvEffect s (.insert j) { s with table := s.table.insert (sink, job.record) }
  | settle (j : Nat) (ok : Bool) (sink : String) (job : Job) : s.jobs[j]? = some ⟨sink, job, .inFlight⟩ →
      (ok = true → (sink, job.record) ∈ s.table) →
      EnvEffect s (.settle j ok) (s.settled j sink job ok)

theorem env_effect {e : Env} (h : env s e = some s') : EnvEffect s e s' := by
  cases e with
  | insert j =>
    simp only [env] at h
    split at h
    · rename_i sink job hj
      cases h
      exact .insert j sink job hj
    · cases h
  | settle j ok =>
    simp only [env] at h
    split at h
    · rename_i sink job hj
      simp only [Option.ite_none_right_eq_some, Option.some.injEq] at h
      obtain ⟨hok, rfl⟩ := h
      exact .settle j ok sink job hj hok
    · cases h
  | add | stopScope | forgetSink => cases h; exact .quiet _ _ (.of_heap rfl rfl rfl rfl rfl)
  | removeSink sink => cases h; exact .removeSink sink

end Kuberecord
