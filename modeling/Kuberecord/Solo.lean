import Kuberecord.Chains

namespace Kuberecord

def Key.home (key : Key) : Inst := ⟨key.sink, 0⟩

def Handed.write (key : Key) : Handed → Option Write
  | ⟨_, ⟨record, .upsert _ _ key' t confirmed revertEntry⟩, status⟩ =>
    if key' = key ∧ (status = .inFlight ∨ status = .written) then some ⟨record, t, confirmed,
      revertEntry⟩ else none
  | _ => none

def Commit.place : Commit → Option (Inst × String)
  | .upsert st k _ _ _ _ | .delete st k _ _ | .closeOut st k _ _ => some (st, k)

structure Shared.Aside (key : Key) (s s' : Shared) : Prop where
  clock : s.clock ≤ s'.clock
  gens : s'.gens key.sink = s.gens key.sink
  jobs : s'.jobs.filter (·.job.commit.key = key) = s.jobs.filter (·.job.commit.key = key)
  slot : ∀ st, st.sink = key.sink → s'.slot st key.cacheKey = s.slot st key.cacheKey
  closeOuts : ∀ st, st.sink = key.sink → s'.closeOuts st key.cacheKey = s.closeOuts st key.cacheKey

theorem Handed.key_of_write {key : Key} {h : Handed} {x : Write} (hw : h.write key = some x) :
    h.job.commit.key = key := by
  obtain ⟨sink, ⟨record, _ | _ | _⟩, status⟩ := h
  · simp only [Handed.write, Option.ite_none_right_eq_some] at hw
    exact hw.1.1
  · cases hw
  · cases hw

theorem filterMap_write_filter (key : Key) (jobs : List Handed) :
    (jobs.filter (·.job.commit.key = key)).filterMap (Handed.write key) = jobs.filterMap
    (Handed.write key) := by
  rw [List.filterMap_filter]
  refine List.filterMap_congr fun h _ => ?_
  cases hw : h.write key with
  | none => simp
  | some x => simp [Handed.key_of_write hw]

namespace Shared.Aside

variable {key key' : Key} {s s' : Shared} {st : Inst} {k : String}

theorem of_same (h : s.Same s') : s.Aside key s' where
  clock := h.clock ▸ Nat.le_refl _
  gens := by rw [h.gens]
  jobs := by rw [h.jobs]
  slot st _ := h.slot st _
  closeOuts st _ := h.closeOuts st _

theorem refl (s : Shared) : s.Aside key s := of_same (.refl s)

theorem tick {ts : Nat} (h : s.clock < ts) : s.Aside key { s with clock := ts } :=
  { refl s with clock := Nat.le_of_lt h }

theorem not_at (hk : key'.Owns st k) (hne : key' ≠ key) {st' : Inst} (hst : st'.sink = key.sink) :
    ¬ (st' = st ∧ key.cacheKey = k) := by
  rintro ⟨rfl, rfl⟩
  exact hne (hk.unique ⟨hst, rfl⟩)

theorem setSlot (hk : key'.Owns st k) (hne : key' ≠ key) (slot : Slot) :
    s.Aside key (s.setSlot st k slot) :=
  { refl s with
    slot := fun _ hst => slot_setSlot_of_ne (not_at hk hne hst)
    closeOuts := fun _ _ => closeOuts_setSlot }

theorem setCloseOuts (hk : key'.Owns st k) (hne : key' ≠ key) (rs : List Record) :
    s.Aside key (s.setCloseOuts st k rs) :=
  { refl s with
    slot := fun _ _ => slot_setCloseOuts
    closeOuts := fun _ hst => by rw [closeOuts_setCloseOuts, if_neg (not_at hk hne hst)] }

theorem hand {w : World} {sink : String} {job : Job} (h : job.commit.key ≠ key) :
    w.shared.Aside key (w.hand sink job) :=
  { refl w.shared with jobs := by simp [World.hand, h] }

theorem callback {c : Commit} {ok : Bool} (hk : ∀ st k, c.place = some (st, k) → c.key.Owns st k)
    (hne : c.key ≠ key) :
    s.Aside key (s.callback c ok) := by
  rcases c with ⟨st, k, key', t, e, _ | r⟩ | ⟨st, k, key', t⟩ | ⟨st, k, key', r⟩
  all_goals
    have hk := hk st k rfl
    cases ok
  all_goals first
    | exact { setSlot hk hne _ with }
    | exact { setCloseOuts hk hne _ with }
    | exact refl s

end Shared.Aside

namespace World

variable {key : Key} {w : World}

def cell (w : World) (key : Key) : Cell where
  phase := w.phase (.worker key)
  slot := w.shared.slot key.home key.cacheKey
  writes := w.shared.jobs.filterMap (Handed.write key)
  clock := w.shared.clock

theorem cell_set {p : Phase} {s' : Shared} : (w.set (.worker key) p s').cell key =
    ⟨p, s'.slot key.home key.cacheKey, s'.jobs.filterMap (Handed.write key), s'.clock⟩ := by
  simp only [cell, set_phase_self]
  rfl

end World

theorem Tid.Reaches.serves {tid : Tid} {st : Inst} {k : String} (h : tid.Reaches st k)
    (hw : tid.isWorker = true) : tid.Serves st k := by
  obtain ⟨key, hk, ht | ht⟩ := h
  · exact ⟨key, ht, hk⟩
  · rw [hw] at ht
    cases ht

def Phase.At (st : Inst) (k : String) : Phase → Prop
  | .loaded st' k' _ | .reserved st' k' _ _ _ _ | .reverting st' k' _ _ _ => st' = st ∧ k' = k
  | _ => True

structure Seen.Knows (key : Key) (uid : String) (seen : Seen) : Prop where
  inst : ∀ st, seen.inst = some st → st.sink = key.sink → st = key.home
  lookup : ∀ l, seen.lookup = some (key, l) → l.scopeActive = true → l.obj.map Json.getUID = some uid

theorem Seen.Knows.nothing {key : Key} {uid : String} : Seen.Knows key uid {} := ⟨by simp, by simp⟩

def Input.Usual (key : Key) (uid : String) (clock : Nat) : Input → Prop
  | .lookup key' (some l) => key' = key → l.scopeActive = true → l.obj.map Json.getUID = some uid
  | .time ts => clock < ts
  | _ => True

/--
Only workers act, on one incarnation of the key; timestamps increase, a failed write has stored
nothing, and nothing evicts the key's entry.
-/
def World.Solo (key : Key) (uid : String) (w : World) : Action → Prop
  | .exec tid input => tid.isWorker = true ∧ input.Usual key uid w.shared.clock
  | .env (.settle j false) => ∀ h ∈ w.shared.jobs[j]?, (h.sink, h.job.record) ∉ w.shared.table
  | .env (.removeSink sink) => sink ≠ key.sink
  | .crash => False
  | _ => True

instance (key : Key) (uid : String) (clock : Nat) (i : Input) : Decidable (i.Usual key uid clock) :=
  match i with
  | .lookup _ (some _) => inferInstanceAs (Decidable (_ → _))
  | .time _ => inferInstanceAs (Decidable (_ < _))
  | .lookup _ none | .go | .writer _ | .policy _ | .flag _ | .reader _ | .states _ _ | .active _ _
  | .order _
  | .scopes _ => .isTrue trivial

instance (key : Key) (uid : String) (w : World) (a : Action) : Decidable (w.Solo key uid a) :=
  match a with
  | .exec _ _ => inferInstanceAs (Decidable (_ ∧ _))
  | .env (.settle _ false) => inferInstanceAs (Decidable (∀ h ∈ _, _))
  | .env (.removeSink _) => inferInstanceAs (Decidable (_ ≠ _))
  | .crash => .isFalse id
  | .env (.settle _ true) | .env (.add _) | .env (.insert _) | .env (.stopScope _) | .env (.forgetSink _)
  | .start _ _ | .finish _ => .isTrue trivial

namespace World

structure Alone (cfg : Config) (apply : Bytes → Bytes →
    Option Bytes) (key : Key) (uid : String) (w : World) : Prop where
  sound : w.Sound cfg
  gens : w.shared.gens key.sink = 0
  seen : (w.seen (.worker key)).Knows key uid
  idle : ∀ tid, tid.isWorker = false → w.phase tid = .idle
  home : (w.phase (.worker key)).At key.home key.cacheKey
  jobs : ∀ h ∈ w.shared.jobs, h.job.commit.key = key →
    ∃ t e r, h.job.commit = .upsert key.home key.cacheKey key t e r
  closeOuts : ∀ st, st.sink = key.sink → w.shared.closeOuts st key.cacheKey = []
  chained : (w.cell key).Chained cfg.lib apply uid

section

variable {cfg : Config} {key : Key} {uid : String} {apply : Bytes → Bytes →
  Option Bytes} {w w' : World} {d : Deed}
  (h : w.Alone cfg apply key uid)
include h

theorem Alone.aside (hs : w'.Sound cfg) (hp : w'.phase (.worker key) = w.phase (.worker key))
    (hi : ∀ tid, tid.isWorker = false → w'.phase tid = w.phase tid)
    (hseen : (w'.seen (.worker key)).Knows key uid) (ha : w.shared.Aside key w'.shared) :
    w'.Alone cfg apply key uid where
  sound := hs
  gens := ha.gens.trans h.gens
  seen := hseen
  idle tid ht := (hi tid ht).trans (h.idle tid ht)
  home := hp ▸ h.home
  jobs j hj hk := by
    have hm : j ∈ w'.shared.jobs.filter (·.job.commit.key = key) :=
      List.mem_filter.mpr ⟨hj, decide_eq_true hk⟩
    rw [ha.jobs] at hm
    exact h.jobs j (List.mem_filter.mp hm).1 hk
  closeOuts st hst := (ha.closeOuts st hst).trans (h.closeOuts st hst)
  chained := by
    have hc : w'.cell key = { w.cell key with clock := w'.shared.clock } := by
      simp only [cell, hp, ha.slot key.home rfl]
      rw [← filterMap_write_filter, ha.jobs, filterMap_write_filter]
    rw [hc]
    exact h.chained.wait ha.clock

theorem Alone.other {key' : Key} {p : Phase} {s' : Shared} (hs : (w.set (.worker key') p s').Sound cfg)
    (hne : key' ≠ key) (ha : w.shared.Aside key s') :
    (w.set (.worker key') p s').Alone cfg apply key uid := by
  have htid : Tid.worker key ≠ .worker key' := fun he => hne (Tid.worker.inj he).symm
  refine h.aside hs (set_phase_of_ne htid w p s') (fun u hu => set_phase_of_ne ?_ w p s') h.seen ha
  rintro rfl
  cases hu

theorem Alone.otherClaim {key' : Key} {p : Phase} {st : Inst} {k : String} {slot : Slot}
    {claims : List (Inst × String × String)}
    (hs : World.Sound cfg { w.set (.worker key') p (w.shared.setSlot st k slot) with claims := claims })
    (hk : key'.Owns st k) (hne : key' ≠ key) :
    Alone cfg apply key uid { w.set (.worker key') p (w.shared.setSlot st k
      slot) with claims := claims } := by
  have hother := h.other (p := p) (hs.keep rfl rfl) hne (.setSlot hk hne slot)
  exact hother.aside hs rfl (fun _ _ => rfl) hother.seen (.refl _)

theorem Alone.own (hl : cfg.lib.Lawful apply) {p : Phase} {s' : Shared}
    (hs : (w.set (.worker key) p s').Sound cfg) (hp : p.At key.home key.cacheKey)
    (hg : s'.gens = w.shared.gens) (hc : ∀ st k, s'.closeOuts st k = w.shared.closeOuts st k)
    (hj : ∀ h ∈ s'.jobs, h ∈ w.shared.jobs ∨
      ∃ t e r, h.job.commit = .upsert key.home key.cacheKey key t e r)
    (hstep : Cell.Step cfg key uid key.home key.cacheKey (w.cell key)
      ⟨p, s'.slot key.home key.cacheKey, s'.jobs.filterMap (Handed.write key), s'.clock⟩) :
    (w.set (.worker key) p s').Alone cfg apply key uid where
  sound := hs
  gens := (congrFun hg key.sink).trans h.gens
  seen := h.seen
  idle tid ht := by
    rw [set_phase_of_ne]
    · exact h.idle tid ht
    · rintro rfl
      cases ht
  home := by rwa [set_phase_self]
  jobs j hm hk := (hj j hm).elim (fun hm => h.jobs j hm hk) id
  closeOuts st hst := (hc st _).trans (h.closeOuts st hst)
  chained := by
    rw [cell_set]
    exact h.chained.step hl hstep

theorem Alone.own_same (hl : cfg.lib.Lawful apply) {p : Phase} {s' : Shared}
    (hs : (w.set (.worker key) p s').Sound cfg) (hp : p.At key.home key.cacheKey)
    (hsame : w.shared.Same s')
    (hstep : Cell.Step cfg key uid key.home key.cacheKey (w.cell key) { w.cell key with phase := p }) :
    (w.set (.worker key) p s').Alone cfg apply key uid := by
  refine h.own hl hs hp hsame.gens hsame.closeOuts (fun _ hm => .inl (hsame.jobs ▸ hm)) ?_
  rw [hsame.slot, hsame.jobs, hsame.clock]
  exact hstep

theorem Alone.own_setSlot (hl : cfg.lib.Lawful apply) {p : Phase} {slot : Slot}
    (hs : (w.set (.worker key) p (w.shared.setSlot key.home key.cacheKey slot)).Sound cfg)
    (hp : p.At key.home key.cacheKey)
    (hstep : Cell.Step cfg key uid key.home key.cacheKey (w.cell key)
      { w.cell key with phase := p, slot := slot }) :
    (w.set (.worker key) p (w.shared.setSlot key.home key.cacheKey slot)).Alone cfg apply key uid := by
  refine h.own hl hs hp rfl (fun _ _ => Shared.closeOuts_setSlot) (fun _ => .inl) ?_
  rw [Shared.slot_setSlot_self]
  exact hstep

theorem Alone.observed {norm : NormalizedObject} (ho : Observed cfg key (w.seen (.worker key)) norm) :
    norm.uid = uid := by
  obtain ⟨obj, policy, ⟨l, hs, ha, hobj⟩, hn⟩ := ho
  have hu := h.seen.lookup l hs ha
  rw [hobj] at hu
  exact (normalizeObject_uid hn).trans (Option.some.inj hu)

theorem Alone.settled {p : Phase} (hp : w.phase (.worker key) = p) :
    (w.cell key).Settled cfg.lib apply uid p := h.chained.agrees hp

theorem Alone.learn {tid : Tid} {seen : Seen} (hseen : tid = .worker key → seen.Knows key uid) :
    (w.learn tid seen).Alone cfg apply key uid := by
  refine h.aside (h.sound.keep rfl rfl) rfl (fun _ _ => rfl) ?_ (.refl _)
  by_cases hne : tid = .worker key
  · subst hne
    simpa [World.learn] using hseen rfl
  · simpa [World.learn, Ne.symm hne] using h.seen

theorem Alone.away {key' : Key} {p : Phase} (hp : w.phase (.worker key') = p)
    (hf : ¬ (w.cell key).Settled cfg.lib apply uid p) : key' ≠ key := by
  rintro rfl
  exact hf (h.settled hp)

theorem Alone.issue (hl : cfg.lib.Lawful apply) {base : Option CacheEntry} {norm : NormalizedObject}
    {plan : Plan} {tk : Ticket} {ts : Nat} {job : Job}
    (hjob : job = ⟨upsertRecord cfg.clusterID key norm plan ts, .upsert key.home key.cacheKey key tk
      (confirmedEntry cfg.lib key.ephemeral norm plan) plan.revertEntry⟩)
    (hd : Decided cfg key (w.seen (.worker key)) base norm plan)
    (hp : w.phase (.worker key) = .reserved key.home key.cacheKey base
      (confirmedEntry cfg.lib key.ephemeral norm plan) tk (some ts))
    (hs : (w.set (.worker key) .idle (w.hand key.sink job)).Sound cfg) :
    (w.set (.worker key) .idle (w.hand key.sink job)).Alone cfg apply key uid := by
  subst hjob
  obtain ⟨obj, policy, hshow, hn⟩ := hd.observed
  refine h.own hl hs trivial rfl (fun _ _ => rfl) ?_ ?_
  · intro j hj
    rcases List.mem_append.mp hj with hj | hj
    · exact .inl hj
    · exact .inr ⟨_, _, _, by rw [List.mem_singleton.mp hj]⟩
  · simp only [World.hand, List.filterMap_append, List.filterMap_cons, List.filterMap_nil, Handed.write]
    exact .issue base obj policy norm plan tk ts hn (h.observed hd.observed) hd.planned hp

theorem Alone.takeAll {st : Inst} (hp : w.phase (.worker key) = .idle) (hst : st.sink = key.sink)
    (hs : (w.set (.worker key) (.outsOf st key.cacheKey (w.shared.closeOuts st key.cacheKey))
      (w.shared.setCloseOuts st key.cacheKey [])).Sound cfg) :
    (w.set (.worker key) (.outsOf st key.cacheKey (w.shared.closeOuts st key.cacheKey))
      (w.shared.setCloseOuts st key.cacheKey [])).Alone cfg apply key uid := by
  refine h.aside hs ?_ (fun tid htid => set_phase_of_ne ?_ _ _ _) h.seen
    { Shared.Aside.refl w.shared with slot := fun _ _ => Shared.slot_setCloseOuts, closeOuts := ?_ }
  · rw [set_phase_self, h.closeOuts st hst, hp]
    rfl
  · rintro rfl
    cases htid
  · intro st' hst'
    refine (Shared.closeOuts_setCloseOuts ..).trans ?_
    split_ifs
    · exact (h.closeOuts st' hst').symm
    · rfl

theorem Alone.not_supersedes {st : Inst} {k : String} {base : CacheEntry} {norm : NormalizedObject}
    (ho : Observed cfg key (w.seen (.worker key)) norm)
    (hp : w.phase (.worker key) = .loaded st k (some base)) : ¬ Supersedes norm base := fun hsup =>
  hsup.2 (((h.settled hp).2.2 base rfl).trans (h.observed ho).symm)

theorem Alone.callback {j : Nat} {sink : String} {job : Job} {ok : Bool} (hs : w'.Sound cfg)
    (hj : w.shared.jobs[j]? = some ⟨sink, job, .inFlight⟩) (hne : job.commit.key ≠ key)
    (hw : w' = { w with shared := w.shared.settled j sink job ok }) : w'.Alone cfg apply key uid := by
  subst hw
  have hl := h.sound.jobs _ (List.mem_of_getElem? hj)
  have hk : ∀ st k, job.commit.place = some (st, k) → job.commit.key.Owns st k := by
    obtain ⟨record, _ | _ | _⟩ := job
    all_goals
      rintro st k ⟨⟩
      exact hl.2.1
  refine h.aside hs rfl (fun _ _ => rfl) h.seen ⟨?_, ?_, ?_, fun st hst => ?_, fun st hst => ?_⟩
  · simp
  · simp
  · obtain ⟨before, after, he, hset⟩ := exists_split_of_getElem? hj
    rw [Shared.settled_jobs, hset, he]
    simp [hne]
  · rw [Shared.settled_slot]
    exact (Shared.Aside.callback hk hne).slot st hst
  · rw [Shared.settled_closeOuts]
    exact (Shared.Aside.callback hk hne).closeOuts st hst

theorem Alone.settle {j : Nat} {sink : String} {job : Job} {ok : Bool} (hl : cfg.lib.Lawful apply)
    (hs : w'.Sound cfg) (hj : w.shared.jobs[j]? = some ⟨sink, job, .inFlight⟩)
    (hkey : job.commit.key = key) (hpun : w.Punctual key (.env (.settle j ok)))
    (hw : w' = { w with shared := w.shared.settled j sink job ok }) :
    w'.Alone cfg apply key uid := by
  subst hw
  have hm := List.mem_of_getElem? hj
  obtain ⟨t, e, r, hc⟩ := h.jobs _ hm hkey
  obtain ⟨record, commit⟩ := job
  subst hc
  have hi : (w.shared.slot key.home key.cacheKey).Issued t :=
    h.sound.issued _ _ _ (.inr ⟨_, hm, rfl, rfl⟩)
  obtain ⟨before, after, he, hset⟩ := exists_split_of_getElem? hj
  have hwrites : (w.cell key).writes = before.filterMap (Handed.write key) ++ ⟨record, t, e, r⟩ ::
      after.filterMap (Handed.write key) := by
    simp [cell, he, Handed.write]
  have hset (status : JobStatus) :=
    hset ⟨sink, ⟨record, .upsert key.home key.cacheKey key t e r⟩, status⟩
  refine ⟨hs, ?_, h.seen, h.idle, h.home, ?_, ?_,
    h.chained.step hl (show Cell.Step cfg key uid key.home key.cacheKey _ _ from ?_)⟩
  · simpa using h.gens
  · intro h' hm' hk'
    simp only [Shared.settled_jobs] at hm'
    rcases List.mem_or_eq_of_mem_set hm' with hm' | rfl
    · exact h.jobs h' hm' hk'
    · exact ⟨t, e, r, rfl⟩
  · intro st hst
    refine List.eq_nil_iff_forall_not_mem.mpr fun x hx => ?_
    rw [Shared.settled_closeOuts] at hx
    rcases mem_closeOuts_callback hx with hx | ⟨-, _, hc⟩
    · simp [h.closeOuts st hst] at hx
    · cases hc
  · cases ok with
    | true =>
      have hc : cell { w with shared := w.shared.settled j sink ⟨record,
        .upsert key.home key.cacheKey key t e r⟩ true } key =
          { w.cell key with slot := ((w.cell key).slot.commitIfCurrent t.version e).1 } := by
        simp only [cell, Shared.settled_slot,
          callback_committed (c := .upsert key.home key.cacheKey key t e r) rfl,
          Shared.settled_jobs, Shared.settled_clock, ↓reduceIte, hset]
        simp [he, Handed.write]
      rw [hc]
      exact .commit ⟨record, t, e, r⟩ (by simp [hwrites]) hi
    | false =>
      have hc : cell { w with shared := w.shared.settled j sink ⟨record,
        .upsert key.home key.cacheKey key t e r⟩ false } key =
          { w.cell key with
            slot := (w.cell key).slot.fallBack t r
            writes := before.filterMap (Handed.write key) ++ after.filterMap (Handed.write key) } := by
        simp only [cell, Shared.settled_slot, callback_lapsed, Shared.settled_jobs,
          Shared.settled_clock, hset]
        simp [Handed.write]
      obtain ⟨hlast, hread⟩ := hpun (key.home, key.cacheKey, t) (by simp [lapsing, hj]) rfl rfl
      rw [hc]
      refine .lapse _ _ ⟨record, t, e, r⟩ hwrites hi hlast ?_
      have hset := h.chained.settled
      have hhome := h.home
      change (w.phase (.worker key)).read = none
      change (w.cell key).Settled cfg.lib apply uid (w.phase (.worker key)) at hset
      cases hp : w.phase (.worker key) with rw [hp] at hset hhome hread
      | loaded st k base =>
        cases base with
        | none => rfl
        | some b => exact absurd (by rw [hhome.1, hhome.2]; rfl) hread
      | superseding => exact hset.elim
      | closing => exact hset.elim
      | superseded => exact hset.elim
      | _ => rfl

end

theorem Alone.turn {cfg : Config} {key : Key} {uid : String} {apply : Bytes → Bytes → Option Bytes}
    {w w' : World} {d : Deed} (hl : cfg.lib.Lawful apply) (h : w.Alone cfg apply key uid)
    (hok : w.Solo key uid d.plain) (hpun : w.Punctual key d.plain) (ht : Turn cfg w d w') :
    w'.Alone cfg apply key uid := by
  have hs := h.sound.turn ht
  cases ht with
  | still _ w' hp hsame _ _ hseen =>
    refine h.aside hs (congrFun hp _) (fun tid _ => congrFun hp tid) ?_ (.of_same hsame)
    rcases hseen (.worker key) with he | he
    · exact he ▸ h.seen
    · exact he ▸ .nothing
  | attach tid sink =>
    refine h.learn ?_
    rintro rfl
    refine { h.seen with inst := ?_ }
    rintro _ ⟨⟩ (rfl : sink = key.sink)
    simp [Shared.inst, Key.home, h.gens]
  | look tid key' l =>
    refine h.learn ?_
    rintro rfl
    refine { h.seen with lookup := ?_ }
    intro l' hl' ha
    obtain ⟨x, rfl, hx⟩ := Option.map_eq_some_iff.mp hl'
    cases hx
    exact hok.2 rfl ha
  | consult | vouch => exact h.learn (by rintro rfl; exact { h.seen with })
  | tick tid ts => exact h.aside hs rfl (fun _ _ => rfl) h.seen (.tick hok.2)
  | drop tid st k base s' hp hsame =>
    obtain ⟨key', rfl, hk⟩ := h.sound.lawful hp
    have hs : (w.set (.worker key') .idle s').Sound cfg :=
      h.sound.same hsame trivial (by simp [Phase.ticket])
    by_cases hne : key' = key
    · subst hne
      obtain ⟨rfl, rfl⟩ := hp ▸ h.home
      exact (h.own_same hl hs trivial hsame (.drop base hp)).learn fun _ => .nothing
    · exact (h.other hs hne (.of_same hsame)).learn fun _ => .nothing
  | load key' st k hk hi hp =>
    by_cases hne : key' = key
    · subst hne
      obtain rfl := h.seen.inst st hi hk.1
      obtain rfl := hk.2
      exact h.own_same hl hs ⟨rfl, rfl⟩ (.refl _) (.load hp)
    · exact h.other hs hne (.refl _)
  | reserve key' st k base norm plan hk hd hp =>
    by_cases hne : key' = key
    · subst hne
      rcases hp with ⟨hp, -⟩ | ⟨e, -, -, hp⟩
      · obtain ⟨rfl, rfl⟩ := hp ▸ h.home
        exact h.own_setSlot hl hs ⟨rfl, rfl⟩ (.reserve base _ hp (h.observed hd.observed))
      · exact (h.settled hp).elim
    · exact h.other hs hne (.setSlot hk hne _)
  | date tid st k base entry tk ts hp =>
    obtain ⟨key', rfl, hk⟩ := h.sound.lawful hp
    by_cases hne : key' = key
    · subst hne
      obtain ⟨rfl, rfl⟩ := hp ▸ h.home
      exact h.own hl hs ⟨rfl, rfl⟩ rfl (fun _ _ => rfl) (fun _ => .inl) (.date base entry tk ts hp hok.2)
    · exact h.other hs hne (.tick hok.2)
  | issue key' st k base norm plan tk ts hk hd hp =>
    by_cases hne : key' = key
    · subst hne
      obtain ⟨rfl, rfl⟩ := hp ▸ h.home
      exact h.issue hl rfl hd hp hs
    · exact h.other hs hne (.hand hne)
  | refuse key' st k base norm plan tk ts s' hk hd hp hsame =>
    by_cases hne : key' = key
    · subst hne
      obtain ⟨rfl, rfl⟩ := hp ▸ h.home
      exact h.own_same hl hs ⟨rfl, rfl⟩ hsame
        (.refuse base norm plan tk ts (h.observed hd.observed) hd.planned hp)
    · exact h.other hs hne (.of_same hsame)
  | revert tid st k confirmed entry tk hp =>
    obtain ⟨key', rfl, hk⟩ := h.sound.lawful hp
    by_cases hne : key' = key
    · subst hne
      obtain ⟨rfl, rfl⟩ := hp ▸ h.home
      exact h.own_setSlot hl hs trivial
        (.revert confirmed tk (some entry) hp (h.sound.issued _ _ _ (.of_phase hp rfl)))
    · exact h.other hs hne (.setSlot hk hne _)
  | retract tid st k confirmed tk hp =>
    obtain ⟨key', rfl, hk⟩ := h.sound.lawful hp
    by_cases hne : key' = key
    · subst hne
      obtain ⟨rfl, rfl⟩ := hp ▸ h.home
      exact h.own_setSlot hl hs trivial
        (.revert confirmed tk none hp (h.sound.issued _ _ _ (.of_phase hp rfl)))
    · exact h.other hs hne (.setSlot hk hne _)
  | claim tid key' st k uid' e tk slot hk hm hp hc =>
    rcases hm with ⟨rfl, l, hlook, ha, hobj⟩ | ⟨hn, -⟩
    · refine h.otherClaim hs hk ?_
      rintro rfl
      simpa [hobj] using h.seen.lookup l hlook ha
    · exact absurd hok.1 (by simp [hn])
  | dateClaim tid st k e tk ts hp =>
    obtain ⟨key', rfl, hk⟩ := (h.sound.lawful hp).serves hok.1
    exact h.other hs (h.away hp id) (.tick hok.2)
  | forget key' st k e tk hk he hp =>
    have hne : key' ≠ key := h.away hp id
    exact h.other hs hne (.setSlot hk hne _)
  | emit tid key' st k e tk ts hk he hp =>
    obtain ⟨key'', rfl, hk'⟩ := (h.sound.lawful hp).serves hok.1
    obtain rfl := hk.unique hk'
    have hne : key' ≠ key := h.away hp id
    exact h.other hs hne (.hand hne)
  | emitRefused tid st k e tk ts s' hp hsame =>
    obtain ⟨key', rfl, hk⟩ := (h.sound.lawful hp).serves hok.1
    exact h.other hs (h.away hp id) (.of_same hsame)
  | release tid st k e tk hp =>
    obtain ⟨key', rfl, hk⟩ := (h.sound.lawful hp).serves hok.1
    have hne : key' ≠ key := h.away hp id
    exact h.other hs hne (.setSlot hk hne _)
  | supersede key' st k base e norm tk slot hk he hobs hsup hp hc =>
    refine h.otherClaim hs hk ?_
    rintro rfl
    exact h.not_supersedes hobs hp hsup
  | outrun key' st k base norm s' hk hobs hsup hp hn hsame =>
    refine h.other hs ?_ (.of_same hsame)
    rintro rfl
    exact h.not_supersedes hobs hp hsup
  | dateClose key' st k base e ts hp => exact h.other hs (h.away hp id) (.tick hok.2)
  | close key' _ _ _ _ _ hp | resubmit key' _ _ _ _ _ hp =>
    have hne : key' ≠ key := h.away hp id
    exact h.other hs hne (.hand hne)
  | shelve tid st k base r hp =>
    obtain ⟨key', rfl, hk⟩ := (h.sound.lawful hp).1
    have hne : key' ≠ key := h.away hp id
    exact h.other hs hne (.setCloseOuts hk hne _)
  | takeAll key' st k hk hp =>
    by_cases hne : key' = key
    · subst hne
      obtain rfl := hk.2
      exact h.takeAll hp hk.1 hs
    · exact h.other hs hne (.setCloseOuts hk hne _)
  | reshelve tid st k r rs hp =>
    obtain ⟨key', rfl, hk⟩ := (h.sound.lawful hp).1.serves hok.1
    have hne : key' ≠ key := h.away hp id
    exact h.other hs hne (.setCloseOuts hk hne _)
  | recover _ _ _ _ _ _ hn | recoverRefused _ _ _ _ _ _ _ hn | seed _ _ _ _ _ _ hn =>
    exact absurd hok.1 (by simp [hn])
  | evict ref st hst => exact absurd hok.1 (by simp [Tid.isWorker])
  | insert j sink job hj => exact h.aside hs rfl (fun _ _ => rfl) h.seen { Shared.Aside.refl w.shared with }
  | settle j ok sink job hj hland =>
    by_cases hkey : job.commit.key = key
    · exact h.settle hl hs hj hkey hpun rfl
    · exact h.callback hs hj hkey rfl
  | removeSink sink =>
    refine h.aside hs rfl (fun _ _ => rfl) h.seen { Shared.Aside.refl w.shared with gens := ?_ }
    exact Function.update_of_ne (Ne.symm hok) _ _
  | crash => exact hok.elim

theorem Alone.empty {cfg : Config} {key : Key} {uid : String} {apply : Bytes → Bytes → Option Bytes} :
    Alone cfg apply key uid {} where
  sound := .empty
  gens := rfl
  seen := .nothing
  idle _ _ := rfl
  home := trivial
  jobs h hm := by cases hm
  closeOuts _ _ := rfl
  chained := by
    constructor
    · exact .nil
    · exact .nil
    · intro r hr
      cases hr
    · exact .nil
    · intro x hx
      cases hx
    · exact .empty
    · refine ⟨?_, ?_⟩
      · intro e he
        cases he
      · intro x hx
        cases hx
    · intro before x hw
      simp [cell] at hw
    · rfl

end World

end Kuberecord
