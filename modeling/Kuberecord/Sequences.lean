import Kuberecord.Histories

namespace Kuberecord

open Threads

def Handed.landed (cfg : Config) (key : Key) (uid : String) (h : Handed) : Option Record :=
  if h.status = .written ∧ h.sink = key.sink ∧ h.job.record.isOf cfg.clusterID key ∧
    h.job.record.eventType ≠ .deleted ∧
      h.job.record.uid = uid then some h.job.record else none

def Shared.history (cfg : Config) (s : Shared) (key : Key) (uid : String) : List Record :=
  s.jobs.filterMap (Handed.landed cfg key uid)

structure Shared.Fresh (s : Shared) (key : Key) : Prop where
  jobs : s.jobs = []
  queue : s.closeOuts (s.inst key.sink) key.cacheKey = []
  entry : ∀ e ∈ (s.slot (s.inst key.sink) key.cacheKey).entry,
    e.json = none ∧ e.modifiedSinceCheckpoint = 0 ∧ e.pendingDelete = false

def Input.Keeps (every : Int) (clock : Nat) : Input → Prop
  | .writer (some w) => checkpointEveryFor w = every
  | .time ts => clock < ts
  | _ => True

/--
One `Process` step of the key after the other, each when everything is settled; a failed write
stores nothing.
-/
def Sequential (key : Key) (every : Int) (s : Shared) : Action → Prop
  | .start tid _ => tid = .worker key ∧ ∀ h ∈ s.jobs, h.status ≠ .inFlight
  | .exec _ input => input.Keeps every s.clock
  | .env (.settle j false) => ∀ h ∈ s.jobs[j]?, (h.sink, h.job.record) ∉ s.table
  | .finish _ | .env (.add _) | .env (.insert _) | .env (.settle _ true) => True
  | _ => False

instance Input.decidableKeeps (every : Int) (clock : Nat) (i : Input) :
    Decidable (i.Keeps every clock) :=
  match i with
  | .writer (some _) => inferInstanceAs (Decidable (_ = _))
  | .time _ => inferInstanceAs (Decidable (_ < _))
  | .writer none | .go | .lookup _ _ | .policy _ | .flag _ | .reader _ | .states _ _ | .active _ _
  | .order _
  | .scopes _ => .isTrue trivial

instance (key : Key) (every : Int) (s : Shared) (a : Action) : Decidable (Sequential key every s a) :=
  match a with
  | .start _ _ => inferInstanceAs (Decidable (_ ∧ _))
  | .exec _ _ => inferInstanceAs (Decidable (Input.Keeps _ _ _))
  | .env (.settle _ false) => inferInstanceAs (Decidable (∀ h ∈ _, _))
  | .finish _ | .env (.add _) | .env (.insert _) | .env (.settle _ true) => .isTrue trivial
  | .env (.removeSink _) | .env (.stopScope _) | .env (.forgetSink _) | .crash => .isFalse id

def Identified : Action → Prop
  | .exec _ (.lookup _ (some l)) => ∀ obj ∈ l.obj, obj.getUID ≠ ""
  | _ => True

instance (a : Action) : Decidable (Identified a) := by
  unfold Identified
  split <;> infer_instance

section

variable (cfg : Config) (apply : Bytes → Bytes → Option Bytes) (key : Key) (every : Int) (st : Inst)

def Handed.Proper (h : Handed) : Prop :=
  match h.job.commit with
  | .upsert st' k key' _ _ _ => st' = st ∧ k = key.cacheKey ∧ key' = key ∧ h.sink = key.sink ∧
      h.job.record.isOf cfg.clusterID key ∧ h.job.record.eventType ≠ .deleted ∧
      (h.job.record.eventType = .checkpoint → 0 < every)
  | .delete st' k key' _ => st' = st ∧ k = key.cacheKey ∧ key' = key ∧ h.job.record.eventType = .deleted
  | .closeOut st' k key' r => st' = st ∧ k = key.cacheKey ∧ key' = key ∧
      h.job.record.eventType = .deleted ∧
      h.job.record = r

structure Notes.Sound (n : Notes) : Prop where
  lookup : ∀ l ∈ n.lookup, ∀ obj ∈ l.obj, obj.getUID ≠ ""
  every : ∀ e ∈ n.every, e = every
  inst : ∀ st' ∈ n.inst, st' = st
  outs : ∀ r ∈ n.outs, r.eventType = .deleted

def Quiet (jobs : List Handed) : Prop :=
  ∀ h ∈ jobs, h.status = .inFlight → ∃ st k key r, h.job.commit = .closeOut st k key r

abbrev CacheEntry.Stands (s : Shared) (e : CacheEntry) : Prop :=
  e.Agrees cfg.lib apply (s.history cfg key)

def Shared.Holds (s : Shared) (t : Ticket) (e : CacheEntry) : Prop :=
  (s.slot st key.cacheKey).entry = some { e with version := t.version }

structure Writing (s : Shared) (before : List Handed) (r : Record) (t : Ticket) (confirmed : CacheEntry)
    (revertEntry : Option CacheEntry) : Prop where
  jobs : s.jobs = before ++ [⟨key.sink, ⟨r, .upsert st key.cacheKey key t confirmed revertEntry⟩,
    .inFlight⟩]
  quiet : Quiet before
  entry : s.Holds key st t confirmed
  fallback : ∀ e ∈ revertEntry, e.Stands cfg apply key s
  confirms : confirmed.Agrees cfg.lib apply (addRow (s.history cfg key) r)
  seals : Sealed cfg.lib apply every (s.history cfg key r.uid ++ [r])

structure Deleting (s : Shared) (before : List Handed) (r : Record) (t : Ticket)
    (e : CacheEntry) : Prop where
  jobs : s.jobs = before ++ [⟨key.sink, ⟨r, .delete st key.cacheKey key t⟩, .inFlight⟩]
  quiet : Quiet before
  entry : s.Holds key st t { e with pendingDelete := true }
  stands : e.Stands cfg apply key s

structure Calm (s : Shared) : Prop where
  quiet : Quiet s.jobs
  entry : ∀ e ∈ (s.slot st key.cacheKey).entry, e.Stands cfg apply key s

inductive Between (s : Shared) : Prop
  | calm : Calm cfg apply key st s → Between s
  | writing (before : List Handed) (r : Record) (t : Ticket) (confirmed : CacheEntry)
      (revertEntry : Option CacheEntry) :
      Writing cfg apply key every st s before r t confirmed revertEntry → Between s
  | deleting (before : List Handed) (r : Record) (t : Ticket) (e : CacheEntry) :
      Deleting cfg apply key st s before r t e → Between s

def Stage (s : Shared) : Option Draft → Prop
  | none | some .done => Between cfg apply key every st s
  | some .aside => False
  | some (.noting n) => Calm cfg apply key st s ∧ n.Sound every st
  | some (.loaded n base) => Calm cfg apply key st s ∧ n.Sound every st ∧
      (s.slot st key.cacheKey).entry = base
  | some (.superseded n e) => Quiet s.jobs ∧ n.Sound every st ∧ e.Stands cfg apply key s
  | some (.reserved n base entry t ts) =>
    Quiet s.jobs ∧ n.Sound every st ∧ (∀ e ∈ base, e.Stands cfg apply key s) ∧
      s.Holds key st t entry ∧
      ∀ stamp, ts = some stamp → stamp ≤ s.clock ∧
        ∀ h ∈ s.jobs, h.job.record.eventType ≠ .deleted → h.job.record.timestamp < stamp
  | some (.reverting n t revertEntry) =>
    Quiet s.jobs ∧ n.Sound every st ∧ (∀ e ∈ revertEntry, e.Stands cfg apply key s) ∧
      ∃ e, s.Holds key st t e
  | some (.claimed n e t) => Quiet s.jobs ∧ n.Sound every st ∧
      s.Holds key st t { e with pendingDelete := true } ∧
      e.Stands cfg apply key s
  | some (.releasing n t) => Quiet s.jobs ∧ n.Sound every st ∧
      ∃ e : CacheEntry, s.Holds key st t { e with pendingDelete := true } ∧ e.Stands cfg apply key s

structure Books (s₀ s : Shared) : Prop where
  inst : s.inst key.sink = st
  sealed : ∀ uid, Sealed cfg.lib apply every (s.history cfg key uid)
  dated : ∀ h ∈ s.jobs, h.job.record.eventType ≠ .deleted → h.job.record.timestamp ≤ s.clock
  proper : ∀ h ∈ s.jobs, h.Proper cfg key every st
  queue : ∀ r ∈ s.closeOuts st key.cacheKey, r.eventType = .deleted
  stored : ∀ x ∈ s.table, x ∈ s₀.table ∨
    ∃ h ∈ s.jobs, (h.sink, h.job.record) = x ∧ (h.status = .inFlight ∨ h.status = .written)
  written : ∀ h ∈ s.jobs, h.status = .written → (h.sink, h.job.record) ∈ s.table

end

structure Shared.Level (s s' : Shared) : Prop where
  clock : s.clock ≤ s'.clock
  gens : s'.gens = s.gens
  jobs : s'.jobs = s.jobs
  table : s'.table = s.table
  slot : ∀ st k, s'.slot st k = s.slot st k
  closeOuts : ∀ st k, s'.closeOuts st k = s.closeOuts st k

theorem Shared.Level.of_same {s s' : Shared} (h : s.Same s') : s.Level s' :=
  ⟨Nat.le_of_eq h.clock.symm, h.gens, h.jobs, h.table, h.slot, h.closeOuts⟩

theorem exec_mild {s s' : Shared} {tid : Tid} {o : Op} {i : Input} {a : o.Ans} (ho : o.Mild)
    (h : exec s tid o i = some (s', a)) (hi : ∀ ts, i = .time ts → s.clock < ts) : s.Level s' := by
  cases exec_effect h with
  | quiet _ _ _ _ _ hs => exact .of_same hs
  | now ts => exact ⟨Nat.le_of_lt (hi ts rfl), rfl, rfl, rfl, fun _ _ => rfl, fun _ _ => rfl⟩
  | sinkState | listerGet | lastKnownStates | scopeWasActive | load => exact .of_same (.refl s)
  | _ => exact ho.elim

section

variable {cfg : Config} {apply : Bytes → Bytes → Option Bytes} {key : Key} {every : Int} {st : Inst}
  {s₀ s s' : Shared} {p : Option Draft}
variable {sink : String} {job : Job} {e : CacheEntry}

theorem history_of_jobs (h : s'.jobs = s.jobs) : s'.history cfg key = s.history cfg key := by
  funext uid
  rw [Shared.history, h, Shared.history]

theorem Books.keep (h : Books cfg apply key every st s₀ s) (hg : s'.gens = s.gens)
    (hj : s'.jobs = s.jobs) (ht : s'.table = s.table) (hc : s.clock ≤ s'.clock)
    (hq : ∀ r ∈ s'.closeOuts st key.cacheKey, r.eventType = .deleted) :
    Books cfg apply key every st s₀ s' where
  inst := by rw [Shared.inst, hg]; exact h.inst
  sealed uid := by rw [history_of_jobs hj]; exact h.sealed uid
  dated x hx hd := Nat.le_trans (h.dated x (hj ▸ hx) hd) hc
  proper x hx := h.proper x (hj ▸ hx)
  queue := hq
  stored := by rw [ht, hj]; exact h.stored
  written := by rw [ht, hj]; exact h.written

theorem Books.level (h : Books cfg apply key every st s₀ s) (hs : s.Level s') :
    Books cfg apply key every st s₀ s' :=
  h.keep hs.gens hs.jobs hs.table hs.clock fun r hr => h.queue r (hs.closeOuts st _ ▸ hr)

theorem Books.setSlot (h : Books cfg apply key every st s₀ s) (slot : Slot) :
    Books cfg apply key every st s₀ (s.setSlot st key.cacheKey slot) := by
  refine h.keep rfl rfl rfl (Nat.le_refl _) fun r hr => h.queue r ?_
  rwa [Shared.closeOuts_setSlot] at hr

theorem Books.setCloseOuts (h : Books cfg apply key every st s₀ s) {records : List Record}
    (hr : ∀ r ∈ records, r.eventType = .deleted) :
    Books cfg apply key every st s₀ (s.setCloseOuts st key.cacheKey records) := by
  refine h.keep rfl rfl rfl (Nat.le_refl _) fun r hm => hr r ?_
  rwa [Shared.closeOuts_setCloseOuts, if_pos ⟨rfl, rfl⟩] at hm

theorem history_hand :
    Shared.history cfg { s with jobs := s.jobs ++ [{ sink := sink, job := job }] } key =
      s.history cfg key := by
  funext uid
  simp [Shared.history, Handed.landed]

theorem Books.hand (h : Books cfg apply key every st s₀ s)
    (hp : Handed.Proper cfg key every st { sink := sink, job := job })
    (hd : job.record.eventType ≠ .deleted → job.record.timestamp ≤ s.clock) :
    Books cfg apply key every st s₀ { s with jobs := s.jobs ++ [{ sink := sink, job := job }] } where
  inst := h.inst
  sealed uid := by rw [history_hand]; exact h.sealed uid
  dated x hx hdel := by
    rcases List.mem_append.mp hx with hx | hx
    · exact h.dated x hx hdel
    · cases List.mem_singleton.mp hx
      exact hd hdel
  proper x hx := by
    rcases List.mem_append.mp hx with hx | hx
    · exact h.proper x hx
    · cases List.mem_singleton.mp hx
      exact hp
  queue := h.queue
  stored x hx := by
    rcases h.stored x hx with hold | ⟨j, hj, hrow⟩
    · exact .inl hold
    · exact .inr ⟨j, List.mem_append_left _ hj, hrow⟩
  written x hx hw := by
    rcases List.mem_append.mp hx with hx | hx
    · exact h.written x hx hw
    · cases List.mem_singleton.mp hx
      cases hw

structure Shared.Beside (cfg : Config) (key : Key) (st : Inst) (s s' : Shared) : Prop where
  clock : s.clock ≤ s'.clock
  slot : s'.slot st key.cacheKey = s.slot st key.cacheKey
  history : s'.history cfg key = s.history cfg key
  records : ∀ h ∈ s'.jobs, ∃ h' ∈ s.jobs, h'.job.record = h.job.record
  quiet : Quiet s.jobs → Quiet s'.jobs
  last : ∀ before h, s.jobs = before ++ [h] → Quiet before →
    (∀ st k key r, h.job.commit ≠ .closeOut st k key r) →
    ∃ before', s'.jobs = before' ++ [h] ∧ Quiet before'

theorem Shared.Level.beside (hs : s.Level s') : s.Beside cfg key st s' where
  clock := hs.clock
  slot := hs.slot _ _
  history := history_of_jobs hs.jobs
  records h hh := ⟨h, hs.jobs ▸ hh, rfl⟩
  quiet hq := hs.jobs ▸ hq
  last before _ hj hq _ := ⟨before, hs.jobs.trans hj, hq⟩

theorem Shared.Beside.holds (hs : s.Beside cfg key st s') {t : Ticket} (h : s.Holds key st t e) :
    s'.Holds key st t e := (congrArg Slot.entry hs.slot).trans h

theorem Shared.Beside.stands (hs : s.Beside cfg key st s') (h : e.Stands cfg apply key s) :
    e.Stands cfg apply key s' := by
  unfold CacheEntry.Stands
  rw [hs.history]
  exact h

theorem Calm.beside (h : Calm cfg apply key st s) (hs : s.Beside cfg key st s') :
    Calm cfg apply key st s' := by
  refine ⟨hs.quiet h.quiet, fun e he => hs.stands (h.entry e ?_)⟩
  rwa [hs.slot] at he

theorem Between.beside (h : Between cfg apply key every st s) (hs : s.Beside cfg key st s') :
    Between cfg apply key every st s' := by
  cases h with
  | calm h => exact .calm (h.beside hs)
  | writing before r t confirmed revertEntry h =>
    obtain ⟨before', hj, hq⟩ := hs.last before _ h.jobs h.quiet nofun
    refine .writing before' r t confirmed revertEntry ⟨hj, hq, hs.holds h.entry, ?_, ?_, ?_⟩
    · exact fun e he => hs.stands (h.fallback e he)
    · rw [hs.history]
      exact h.confirms
    · rw [hs.history]
      exact h.seals
  | deleting before r t e h =>
    obtain ⟨before', hj, hq⟩ := hs.last before _ h.jobs h.quiet nofun
    exact .deleting before' r t e ⟨hj, hq, hs.holds h.entry, hs.stands h.stands⟩

theorem Stage.beside (h : Stage cfg apply key every st s p) (hs : s.Beside cfg key st s') :
    Stage cfg apply key every st s' p := by
  rcases p with _ | p
  · exact Between.beside h hs
  cases p with
  | aside => exact h
  | done => exact Between.beside h hs
  | noting n => exact ⟨h.1.beside hs, h.2⟩
  | loaded n base => exact ⟨h.1.beside hs, h.2.1, (congrArg Slot.entry hs.slot).trans h.2.2⟩
  | superseded n e => exact ⟨hs.quiet h.1, h.2.1, hs.stands h.2.2⟩
  | reserved n base entry t ts =>
    obtain ⟨hq, hn, hb, he, hts⟩ := h
    refine ⟨hs.quiet hq, hn, fun e hm => hs.stands (hb e hm), hs.holds he, fun stamp hstamp => ?_⟩
    refine ⟨Nat.le_trans (hts stamp hstamp).1 hs.clock, fun h hh hd => ?_⟩
    obtain ⟨h', hh', hr⟩ := hs.records h hh
    exact hr ▸ (hts stamp hstamp).2 h' hh' (hr ▸ hd)
  | reverting n t revertEntry =>
    obtain ⟨hq, hn, hb, e, he⟩ := h
    exact ⟨hs.quiet hq, hn, fun e hm => hs.stands (hb e hm), e, hs.holds he⟩
  | claimed n e t => exact ⟨hs.quiet h.1, h.2.1, hs.holds h.2.2.1, hs.stands h.2.2.2⟩
  | releasing n t =>
    obtain ⟨hq, hn, e, he, hb⟩ := h
    exact ⟨hs.quiet hq, hn, e, hs.holds he, hs.stands hb⟩

theorem Stage.level (h : Stage cfg apply key every st s p) (hs : s.Level s') :
    Stage cfg apply key every st s' p :=
  h.beside hs.beside

theorem Calm.level (h : Calm cfg apply key st s) (hs : s.Level s') : Calm cfg apply key st s' :=
  h.beside hs.beside

theorem Notes.Sound.note {n : Notes} {tid : Tid} {o : Op} {i : Input} {a : o.Ans} (hn : n.Sound every st)
    (hx : exec s tid o i = some (s', a)) (hk : i.Keeps every s.clock) (hid : Identified (.exec tid i))
    (hs : ∀ sink, o = .sinkState sink → s.inst sink = st)
    (hq : ∀ st' k, o = .closeOutsTakeAll st' k → ∀ r ∈ s.closeOuts st' k, r.eventType = .deleted) :
    (Draft.note n o a).Sound every st := by
  cases o with
  | listerGet key' =>
    cases i <;> simp only [exec, Option.ite_none_right_eq_some, Option.some.injEq, Prod.mk.injEq,
      reduceCtorEq] at hx
    obtain ⟨-, -, rfl⟩ := hx
    refine { hn with lookup := fun l hl => ?_ }
    cases hl
    exact hid
  | writerFor sink =>
    cases i <;> simp only [exec, Option.some.injEq, Prod.mk.injEq, reduceCtorEq] at hx
    obtain ⟨-, rfl⟩ := hx
    refine { hn with every := fun e he => ?_ }
    obtain ⟨w, rfl, rfl⟩ := Option.map_eq_some_iff.mp he
    exact hk
  | sinkState sink =>
    cases i <;> simp only [exec, Option.some.injEq, Prod.mk.injEq, reduceCtorEq] at hx
    obtain ⟨-, rfl⟩ := hx
    refine { hn with inst := fun st' hst => ?_ }
    cases hst
    exact hs sink rfl
  | closeOutsTakeAll st' k =>
    cases i <;> simp only [exec, Option.some.injEq, Prod.mk.injEq, reduceCtorEq] at hx
    obtain ⟨-, rfl⟩ := hx
    exact { hn with outs := hq st' k rfl }
  | redactionFor => exact { hn with }
  | _ => exact hn

theorem Draft.next_noting {n : Notes} {o : Op} (ho : o.Mild) (hl : ∀ st k, o ≠ .load st k) (a : o.Ans) :
    (Draft.noting n).next o a = .noting (Draft.note n o a) := by
  cases o with
  | load st k => exact absurd rfl (hl st k)
  | reserveDelete => exact ho.elim
  | _ => rfl

abbrev Carried (cfg : Config) (apply : Bytes → Bytes → Option Bytes) (key : Key) (every : Int)
    (st : Inst) (s₀ s : Shared) (p : Draft) : Prop :=
  Books cfg apply key every st s₀ s ∧ Stage cfg apply key every st s (some p)

theorem Calm.setSlot (h : Calm cfg apply key st s) {slot : Slot}
    (hs : ∀ e ∈ slot.entry, e.Stands cfg apply key s) :
    Calm cfg apply key st (s.setSlot st key.cacheKey slot) :=
  ⟨h.quiet, by rw [Shared.slot_setSlot_self]; exact hs⟩

theorem Calm.setCloseOuts (h : Calm cfg apply key st s) (records : List Record) :
    Calm cfg apply key st (s.setCloseOuts st key.cacheKey records) :=
  ⟨h.quiet, by rw [Shared.slot_setCloseOuts]; exact h.entry⟩

theorem Quiet.hand {jobs : List Handed} (h : Quiet jobs)
    (hj : ∃ st k key r, job.commit = .closeOut st k key r) :
    Quiet (jobs ++ [{ sink := sink, job := job }]) := by
  intro x hx hf
  rcases List.mem_append.mp hx with hx | hx
  · exact h x hx hf
  · cases List.mem_singleton.mp hx
    exact hj

theorem Calm.hand (h : Calm cfg apply key st s)
    (hj : ∃ st k key r, job.commit = .closeOut st k key r) :
    Calm cfg apply key st { s with jobs := s.jobs ++ [{ sink := sink, job := job }] } := by
  refine ⟨h.quiet.hand hj, fun e he => ?_⟩
  unfold CacheEntry.Stands
  rw [history_hand]
  exact h.entry e he

theorem Slot.reserveDelete_absent {slot : Slot} {uid : String} (h : slot.entry = none) :
    slot.reserveDelete uid = (slot, .absent) := by
  unfold Slot.reserveDelete
  rw [h]

theorem Slot.reserveDelete_unclaimed {slot : Slot} (h : slot.entry = some e)
    (hp : e.pendingDelete = false) :
    slot.reserveDelete "" = (slot.install { e with pendingDelete := true, version := e.version + 1 },
      .claimed e ⟨e.version + 1, slot.installs + 1⟩) := by
  unfold Slot.reserveDelete
  simp only [h, hp, Bool.false_eq_true, ↓reduceIte, ne_eq, not_true_eq_false, false_and]

section

variable {n : Notes} {tid : Tid} {o : Op} {i : Input} {a : o.Ans}
  (hb : Books cfg apply key every st s₀ s)
  (hx : exec s tid o i = some (s', a)) (hk : i.Keeps every s.clock) (hid : Identified (.exec tid i))
variable {t : Ticket}
include hb hx hk hid

theorem noting_exec (hs : Stage cfg apply key every st s (some (.noting n)))
    (hall : (Draft.noting n).Allowed cfg key o) :
    Carried cfg apply key every st s₀ s' ((Draft.noting n).next o a) := by
  obtain ⟨hcalm, hn⟩ := hs
  have mild (ho : o.Mild) (hl : ∀ st k, o ≠ .load st k) (hsink : ∀ sink, o = .sinkState sink →
    s.inst sink = st) :
      Carried cfg apply key every st s₀ s' ((Draft.noting n).next o a) := by
    have hlevel := exec_mild ho hx (by rintro ts rfl; exact hk)
    rw [Draft.next_noting ho hl]
    refine ⟨hb.level hlevel, hcalm.level hlevel, hn.note hx hk hid hsink ?_⟩
    rintro st' k rfl
    exact ho.elim
  cases exec_effect hx with
  | load st' k =>
    obtain ⟨hi, rfl⟩ := hall
    cases hn.inst st' hi
    exact ⟨hb, hcalm, hn, rfl⟩
  | sinkState sink =>
    refine mild trivial (by simp) ?_
    rintro _ ⟨⟩
    obtain rfl : sink = key.sink := hall
    exact hb.inst
  | closeOutsTakeAll st' k =>
    obtain ⟨hi, rfl⟩ := hall
    cases hn.inst st' hi
    exact ⟨hb.setCloseOuts (by simp), hcalm.setCloseOuts [], { hn with outs := hb.queue }⟩
  | reserveDelete st' k uid =>
    obtain ⟨⟨hi, rfl⟩, rfl⟩ := hall
    cases hn.inst st' hi
    cases hentry : (s.slot st key.cacheKey).entry with
    | none =>
      rw [Slot.reserveDelete_absent hentry]
      exact ⟨hb.setSlot _, hcalm.setSlot hcalm.entry, hn⟩
    | some e =>
      have he := hcalm.entry e hentry
      rw [Slot.reserveDelete_unclaimed hentry he.unclaimed]
      refine ⟨hb.setSlot _, hcalm.quiet, hn, ?_, he⟩
      rw [Shared.Holds, Shared.slot_setSlot_self]
      rfl
  | accepted sink job =>
    obtain ⟨st', k, r, rfl, ⟨hi, rfl⟩, rfl, hr⟩ := hall.resolve_left id
    cases hn.inst st' hi
    have hdel : r.eventType = .deleted := hr.elim (hn.outs r) id
    exact ⟨hb.hand ⟨rfl, rfl, rfl, hdel, rfl⟩ fun h => absurd hdel h, hcalm.hand ⟨_, _, _, _, rfl⟩, hn⟩
  | refused sink job => exact ⟨hb, hcalm, hn⟩
  | closeOutsAdd st' k r =>
    obtain ⟨⟨hi, rfl⟩, hr⟩ := hall.resolve_left id
    cases hn.inst st' hi
    refine ⟨hb.setCloseOuts fun r' hr' => ?_, hcalm.setCloseOuts _, hn⟩
    rcases List.mem_append.mp hr' with hr' | hr'
    · exact hb.queue r' hr'
    · cases List.mem_singleton.mp hr'
      exact hr.elim (hn.outs r) id
  | listerGet | lastKnownStates | scopeWasActive | now => exact mild trivial (by simp) (by simp)
  | quiet _ _ _ _ ho _ =>
    refine mild ?_ ?_ ?_
    · cases o <;> trivial
    · rintro st k rfl
      exact ho
    · rintro sink rfl
      exact ho.elim
  | reserve | commitIfCurrent | deleteIfCurrent | unclaimDelete | storeIfAbsent | deletePrefix =>
    exact (hall.elim id id).elim

theorem loaded_exec {base : Option CacheEntry}
    (hs : Stage cfg apply key every st s (some (.loaded n base)))
    (hall : (Draft.loaded n base).Allowed cfg key o) :
    Carried cfg apply key every st s₀ s' ((Draft.loaded n base).next o a) := by
  obtain ⟨hcalm, hn, rfl⟩ := hs
  have mild (ho : o.Mild) : Carried cfg apply key every st s₀ s'
    (.loaded n (s.slot st key.cacheKey).entry) := by
    have hlevel := exec_mild ho hx (by rintro ts rfl; exact hk)
    exact ⟨hb.level hlevel, Stage.level (p := some (.loaded n _)) ⟨hcalm, hn, rfl⟩ hlevel⟩
  cases exec_effect hx with
  | reserve st' k entry =>
    obtain ⟨⟨hi, rfl⟩, -⟩ := hall
    cases hn.inst st' hi
    refine ⟨hb.setSlot _, hcalm.quiet, hn, hcalm.entry, ?_, nofun⟩
    rw [Shared.Holds, Shared.slot_setSlot_self]
    rfl
  | reserveDelete st' k uid =>
    obtain ⟨⟨hi, rfl⟩, e, he, -⟩ := hall
    cases hn.inst st' hi
    rw [he]
    exact ⟨hb.setSlot _, hcalm.quiet, hn, hcalm.entry e he⟩
  | load => exact hall.elim
  | sinkState | listerGet | lastKnownStates | scopeWasActive | now => exact mild trivial
  | quiet _ _ _ _ ho _ =>
    cases o with
    | reserve | reserveDelete | load => exact ho.elim
    | _ => exact mild hall
  | _ => exact hall.elim

theorem superseded_exec {e : CacheEntry} (hs : Stage cfg apply key every st s (some (.superseded n e)))
    (hall : (Draft.superseded n e).Allowed cfg key o) :
    Carried cfg apply key every st s₀ s' ((Draft.superseded n e).next o a) := by
  have mild (ho : o.Mild) : Carried cfg apply key every st s₀ s' (.superseded n e) := by
    have hlevel := exec_mild ho hx (by rintro ts rfl; exact hk)
    exact ⟨hb.level hlevel, hs.level hlevel⟩
  obtain ⟨hquiet, hn, he⟩ := hs
  cases exec_effect hx with
  | reserve st' k entry =>
    obtain ⟨⟨hi, rfl⟩, -⟩ := hall
    cases hn.inst st' hi
    refine ⟨hb.setSlot _, hquiet, hn, ?_, ?_, nofun⟩
    · rintro _ ⟨⟩
      exact he
    · rw [Shared.Holds, Shared.slot_setSlot_self]
      rfl
  | accepted sink job =>
    obtain ⟨st', k, r, rfl, ⟨hi, rfl⟩, rfl, hr⟩ := hall.resolve_left id
    cases hn.inst st' hi
    have hdel : r.eventType = .deleted := hr.elim (hn.outs r) id
    refine ⟨hb.hand ⟨rfl, rfl, rfl, hdel, rfl⟩ fun h => absurd hdel h,
      hquiet.hand ⟨_, _, _, _, rfl⟩, hn, ?_⟩
    rw [CacheEntry.Stands, history_hand]
    exact he
  | refused sink job => exact ⟨hb, hquiet, hn, he⟩
  | closeOutsAdd st' k r =>
    obtain ⟨⟨hi, rfl⟩, hr⟩ := hall.resolve_left id
    cases hn.inst st' hi
    refine ⟨hb.setCloseOuts fun r' hr' => ?_, hquiet, hn, he⟩
    rcases List.mem_append.mp hr' with hr' | hr'
    · exact hb.queue r' hr'
    · cases List.mem_singleton.mp hr'
      exact hr.elim (hn.outs r) id
  | load => exact hall.elim
  | sinkState | listerGet | lastKnownStates | scopeWasActive | now => exact mild trivial
  | quiet _ _ _ _ ho _ =>
    cases o with
    | reserve | enqueue | closeOutsAdd | load => exact ho.elim
    | _ => exact mild (hall.resolve_right id)
  | _ => exact (hall.elim id id).elim

theorem reserved_exec {base : Option CacheEntry} {entry : CacheEntry} {ts : Option Nat}
    (hl : cfg.lib.Lawful apply) (he : key.ephemeral = false)
    (hs : Stage cfg apply key every st s (some (.reserved n base entry t ts)))
    (hall : (Draft.reserved n base entry t ts).Allowed cfg key o) :
    Carried cfg apply key every st s₀ s' ((Draft.reserved n base entry t ts).next o a) := by
  obtain ⟨hquiet, hn, hbase, hentry, hts⟩ := hs
  cases exec_effect hx with
  | now stamp =>
    have hlt : s.clock < stamp := hk
    refine ⟨hb.keep rfl rfl rfl (Nat.le_of_lt hlt) hb.queue, hquiet, hn, hbase, hentry, ?_⟩
    rintro _ ⟨⟩
    exact ⟨Nat.le_refl _, fun h hh hd => Nat.lt_of_le_of_lt (hb.dated h hh hd) hlt⟩
  | accepted sink job =>
    obtain ⟨st', norm, plan, stamp, hi, rfl, ⟨⟨l, obj, hlook, hobj, hnorm⟩, every', hev, hp⟩, rfl,
      rfl, rfl⟩ := hall
    cases hn.inst st' hi
    cases hn.every every' hev
    obtain ⟨hle, hlt⟩ := hts stamp rfl
    have hu : norm.uid ≠ "" := (normalizeObject_uid hnorm).symm ▸ hn.lookup l hlook obj hobj
    have hrows (r : Record) (hr : r ∈ s.history cfg key norm.uid) : r.timestamp < stamp := by
      obtain ⟨h, hh, hr⟩ := List.mem_filterMap.mp hr
      obtain ⟨hland, hr⟩ := Option.ite_none_right_eq_some.mp hr
      cases hr
      exact hlt h hh hland.2.2.2.1
    rw [he] at hp
    refine ⟨hb.hand ⟨rfl, rfl, rfl, rfl, ⟨rfl, rfl, rfl, rfl, rfl⟩, hp.eventType⟩ fun _ => hle, ?_⟩
    refine .writing s.jobs _ t _ plan.revertEntry ⟨rfl, hquiet, hentry, fun e hm => ?_, ?_, ?_⟩
    · rw [CacheEntry.Stands, history_hand]
      exact hbase e (hp.revertEntry e hm)
    · rw [history_hand, he]
      exact hp.confirms hl hnorm hbase hu
    · rw [history_hand]
      exact hp.seals hl hnorm hbase (hb.sealed _) hrows
  | refused sink job =>
    obtain ⟨st', norm, plan, stamp, hi, rfl, ⟨-, every', hev, hp⟩, rfl, rfl, rfl⟩ := hall
    exact ⟨hb, hquiet, hn, fun e hm => hbase e (hp.revertEntry e hm), _, hentry⟩
  | quiet _ _ _ _ ho _ =>
    cases o with
    | now | enqueue => exact ho.elim
    | _ => exact hall.elim
  | _ => exact hall.elim

theorem reverting_exec {revertEntry : Option CacheEntry}
    (hs : Stage cfg apply key every st s (some (.reverting n t revertEntry)))
    (hall : (Draft.reverting n t revertEntry).Allowed cfg key o) :
    Carried cfg apply key every st s₀ s' ((Draft.reverting n t revertEntry).next o a) := by
  obtain ⟨hquiet, hn, hbase, e₀, hentry⟩ := hs
  have hcur : (s.slot st key.cacheKey).Current t.version := Slot.current_iff.mpr ⟨_, hentry, rfl⟩
  cases exec_effect hx with
  | commitIfCurrent st' k t' e b =>
    obtain ⟨⟨hi, rfl⟩, rfl, rfl⟩ := hall
    cases hn.inst st' hi
    rw [Slot.commitIfCurrent_current hcur]
    refine ⟨hb.setSlot _, .calm ⟨hquiet, ?_⟩⟩
    rw [Shared.slot_setSlot_self]
    rintro _ ⟨⟩
    obtain ⟨hc, hr, hj⟩ := hbase e rfl
    exact ⟨hc, hr, hj⟩
  | deleteIfCurrent st' k t' b =>
    obtain ⟨⟨hi, rfl⟩, rfl, rfl⟩ := hall
    cases hn.inst st' hi
    rw [Slot.deleteIfCurrent_current hcur]
    refine ⟨hb.setSlot _, .calm ⟨hquiet, ?_⟩⟩
    rw [Shared.slot_setSlot_self]
    exact nofun
  | quiet _ _ _ _ ho _ =>
    cases o with
    | commitIfCurrent | deleteIfCurrent => exact ho.elim
    | _ => exact hall.elim
  | _ => exact hall.elim

theorem claimed_exec {e : CacheEntry} (hs : Stage cfg apply key every st s (some (.claimed n e t)))
    (hall : (Draft.claimed n e t).Allowed cfg key o) :
    Carried cfg apply key every st s₀ s' ((Draft.claimed n e t).next o a) := by
  obtain ⟨hquiet, hn, hentry, he⟩ := hs
  cases exec_effect hx with
  | now stamp => exact ⟨hb.keep rfl rfl rfl (Nat.le_of_lt hk) hb.queue, hquiet, hn, hentry, he⟩
  | accepted sink job =>
    obtain ⟨st', r, hi, rfl, hdel, rfl⟩ := hall
    cases hn.inst st' hi
    refine ⟨hb.hand ⟨rfl, rfl, rfl, hdel⟩ fun h => absurd hdel h, ?_⟩
    refine .deleting s.jobs r t e ⟨rfl, hquiet, hentry, ?_⟩
    rw [CacheEntry.Stands, history_hand]
    exact he
  | refused sink job => exact ⟨hb, hquiet, hn, e, hentry, he⟩
  | quiet _ _ _ _ ho _ =>
    cases o with
    | now | enqueue => exact ho.elim
    | _ => exact hall.elim
  | _ => exact hall.elim

theorem releasing_exec (hs : Stage cfg apply key every st s (some (.releasing n t)))
    (hall : (Draft.releasing n t).Allowed cfg key o) :
    Carried cfg apply key every st s₀ s' ((Draft.releasing n t).next o a) := by
  obtain ⟨hquiet, hn, e, hentry, he⟩ := hs
  obtain ⟨st', hi, rfl⟩ := hall
  cases hn.inst st' hi
  cases exec_effect hx with
  | quiet _ _ _ _ ho _ => exact ho.elim
  | unclaimDelete =>
    rw [Slot.unclaimDelete_current hentry rfl]
    refine ⟨hb.setSlot _, .calm ⟨hquiet, ?_⟩⟩
    rw [Shared.slot_setSlot_self]
    rintro _ ⟨⟩
    exact ⟨rfl, he.run, he.baseline⟩

end

section

variable {j : Nat} {sink : String} {job : Job} {ok : Bool} (hb : Books cfg apply key every st s₀ s)
  (hj : s.jobs[j]? = some ⟨sink, job, .inFlight⟩)
include hj

omit hj in
theorem Quiet.settled (h : Quiet s.jobs) : Quiet (s.settled j sink job ok).jobs := by
  intro x hx hf
  exact h x (Shared.inFlight_of_settled hx hf) hf

theorem Quiet.not_upsert (h : Quiet s.jobs) (hc : ∀ st k key r, job.commit ≠ .closeOut st k key r) :
    False := by
  obtain ⟨st, k, key, r, he⟩ := h _ (List.mem_of_getElem? hj) rfl
  exact hc st k key r he

theorem settled_last {before : List Handed} {h : Handed} (hs : s.jobs = before ++ [h])
    (hq : Quiet before) (hc : ∀ st k key r, job.commit ≠ .closeOut st k key r) :
    j = before.length ∧ h = ⟨sink, job, .inFlight⟩ := by
  rw [hs] at hj
  rcases Nat.lt_or_ge j before.length with hlt | hge
  · rw [List.getElem?_append_left hlt] at hj
    obtain ⟨st, k, key, r, he⟩ := hq _ (List.mem_of_getElem? hj) rfl
    exact absurd he (hc st k key r)
  · rw [List.getElem?_append_right hge] at hj
    obtain ⟨hlt, hh⟩ := List.getElem?_eq_some_iff.mp hj
    have hzero : j - before.length = 0 := by
      rw [List.length_singleton] at hlt
      omega
    simp only [hzero, List.getElem_cons_zero] at hh
    exact ⟨by omega, hh⟩

theorem history_settled (h : ok = false ∨ job.record.eventType = .deleted) :
    (s.settled j sink job ok).history cfg key = s.history cfg key := by
  funext uid
  obtain ⟨before, after, he, hset⟩ := exists_split_of_getElem? hj
  have hnone (status : JobStatus) (hs : status ≠ .written ∨ job.record.eventType = .deleted) :
      Handed.landed cfg key uid ⟨sink, job, status⟩ = none := by
    refine if_neg ?_
    rintro ⟨hw, -, -, hd, -⟩
    exact hs.elim (fun h => h hw) hd
  have hsettled : (if ok then JobStatus.written else .failed) ≠ .written ∨
    job.record.eventType = .deleted := by
    rcases h with rfl | h
    · exact .inl (by decide)
    · exact .inr h
  rw [Shared.history, Shared.settled_jobs, hset, Shared.history, he, List.filterMap_append,
    List.filterMap_append, List.filterMap_cons_none (hnone _ hsettled),
    List.filterMap_cons_none (hnone _ (.inl (by decide)))]

include hb

theorem Books.settled (hok : ok = true → (sink, job.record) ∈ s.table)
    (hfail : ok = false → (sink, job.record) ∉ s.table)
    (hseal : ∀ uid, Sealed cfg.lib apply every ((s.settled j sink job ok).history cfg key uid)) :
    Books cfg apply key every st s₀ (s.settled j sink job ok) := by
  have hold := List.mem_of_getElem? hj
  have hmem (x : Handed) (hx : x ∈ (s.settled j sink job ok).jobs) :
      x ∈ s.jobs ∨ x = ⟨sink, job, if ok then .written else .failed⟩ := by
    rw [Shared.settled_jobs] at hx
    exact List.mem_or_eq_of_mem_set hx
  constructor
  · rw [Shared.inst, Shared.settled_gens]
    exact hb.inst
  · exact hseal
  · intro x hx hd
    rw [Shared.settled_clock]
    rcases hmem x hx with hx | rfl
    · exact hb.dated x hx hd
    · exact hb.dated ⟨sink, job, .inFlight⟩ hold hd
  · intro x hx
    rcases hmem x hx with hx | rfl
    · exact hb.proper x hx
    · exact hb.proper ⟨sink, job, .inFlight⟩ hold
  · intro r hr
    rw [Shared.settled_closeOuts] at hr
    rcases mem_closeOuts_callback hr with hr | ⟨-, key', hc⟩
    · exact hb.queue r hr
    · have hp := hb.proper _ hold
      simp only [Handed.Proper, hc] at hp
      exact hp.2.2.2.2 ▸ hp.2.2.2.1
  · intro x hx
    rw [Shared.settled_table] at hx
    rcases hb.stored x hx with hx' | ⟨h, hh, hrow, hst⟩
    · exact .inl hx'
    · refine .inr ?_
      by_cases hhj : h = ⟨sink, job, .inFlight⟩
      · subst hhj
        refine ⟨⟨sink, job, if ok then .written else .failed⟩, ?_, hrow, ?_⟩
        · rw [Shared.settled_jobs]
          exact List.mem_set (List.getElem?_eq_some_iff.mp hj).1 _
        · cases ok with
          | true => exact .inr rfl
          | false => exact absurd (hrow ▸ hx) (hfail rfl)
      · refine ⟨h, ?_, hrow, hst⟩
        rw [Shared.settled_jobs]
        exact mem_set_of_ne hh hj hhj
  · intro x hx hw
    rw [Shared.settled_table]
    rcases hmem x hx with hx | rfl
    · exact hb.written x hx hw
    · cases ok with
      | true => exact hok rfl
      | false => cases hw

omit hb in
theorem beside_closeOut {st' : Inst} {k : String} {key' : Key} {r : Record}
    (hc : job.commit = .closeOut st' k key' r) (hd : job.record.eventType = .deleted) :
    s.Beside cfg key st (s.settled j sink job ok) where
  clock := by rw [Shared.settled_clock]
  slot := by
    rw [Shared.settled_slot, hc]
    cases ok <;> simp [Shared.callback]
  history := history_settled hj (.inr hd)
  records x hx := by
    obtain ⟨old, hold, -, he⟩ := Shared.exists_of_settled hx hj
    exact ⟨old, hold, congrArg Job.record he⟩
  quiet hq := hq.settled
  last before h hs hq hn := by
    have hlt : j < before.length := by
      by_contra hge
      rw [hs, List.getElem?_append_right (Nat.le_of_not_lt hge)] at hj
      have hh := List.mem_singleton.mp (List.mem_of_getElem? hj)
      exact hn st' k key' r (hh ▸ hc)
    refine ⟨before.set j ⟨sink, job, if ok then .written else .failed⟩, ?_, fun x hx hf => ?_⟩
    · rw [Shared.settled_jobs, hs, List.set_append_left _ _ hlt]
    · rcases List.mem_or_eq_of_mem_set hx with hx | rfl
      · exact hq x hx hf
      · cases ok <;> cases hf

end

theorem history_landed {before : List Handed} {r : Record} {c : Commit}
    (hj : s.jobs = before ++ [⟨key.sink, ⟨r, c⟩, .inFlight⟩]) (hof : r.isOf cfg.clusterID key)
    (hd : r.eventType ≠ .deleted) :
    (s.settled before.length key.sink ⟨r, c⟩ true).history cfg key = addRow (s.history cfg key) r := by
  funext uid
  rw [Shared.history, Shared.settled_jobs, hj, List.set_append_right _ _ (Nat.le_refl _), Nat.sub_self]
  simp only [List.set_cons_zero, List.filterMap_append, ↓reduceIte]
  by_cases hu : uid = r.uid
  · subst hu
    rw [addRow, Function.update_self, Shared.history, hj, List.filterMap_append]
    simp [Handed.landed, hof, hd]
  · rw [addRow, Function.update_of_ne hu, Shared.history, hj, List.filterMap_append]
    simp [Handed.landed, Ne.symm hu]

theorem Writing.settle {before : List Handed} {r : Record} {t : Ticket} {confirmed : CacheEntry}
    {revertEntry : Option CacheEntry} {ok : Bool} (hb : Books cfg apply key every st s₀ s)
    (h : Writing cfg apply key every st s before r t confirmed revertEntry)
    (hok : ok = true → (key.sink, r) ∈ s.table) (hfail : ok = false → (key.sink, r) ∉ s.table) :
    Books cfg apply key every st s₀
        (s.settled before.length key.sink ⟨r, .upsert st key.cacheKey key t confirmed revertEntry⟩ ok) ∧
      Calm cfg apply key st
        (s.settled before.length key.sink ⟨r,
            .upsert st key.cacheKey key t confirmed revertEntry⟩ ok) := by
  have hj : s.jobs[before.length]? =
    some ⟨key.sink, ⟨r, .upsert st key.cacheKey key t confirmed revertEntry⟩, .inFlight⟩ := by
    rw [h.jobs, List.getElem?_append_right (Nat.le_refl _), Nat.sub_self]
    rfl
  obtain ⟨-, -, -, -, hof, hd, -⟩ := hb.proper _ (List.mem_of_getElem? hj)
  have hcur : (s.slot st key.cacheKey).Current t.version := Slot.current_iff.mpr ⟨_, h.entry, rfl⟩
  have hquiet : Quiet
      (s.settled before.length key.sink ⟨r, .upsert st key.cacheKey key t confirmed revertEntry⟩
      ok).jobs := by
    rw [Shared.settled_jobs, h.jobs, List.set_append_right _ _ (Nat.le_refl _), Nat.sub_self]
    intro x hx hf
    rcases List.mem_append.mp hx with hx | hx
    · exact h.quiet x hx hf
    · cases List.mem_singleton.mp hx
      cases ok <;> cases hf
  cases ok with
  | true =>
    have hhist := history_landed h.jobs hof hd
    refine ⟨hb.settled hj hok hfail fun uid => ?_, hquiet, fun e he => ?_⟩
    · rw [hhist]
      by_cases hu : uid = r.uid
      · subst hu
        rw [addRow, Function.update_self]
        exact h.seals
      · rw [addRow, Function.update_of_ne hu]
        exact hb.sealed uid
    · rw [CacheEntry.Stands, hhist]
      rw [Shared.settled_slot, Shared.callback, Shared.slot_setSlot_self,
        Slot.commitIfCurrent_current hcur] at he
      cases he
      obtain ⟨hc, hr, hbase⟩ := h.confirms
      exact ⟨hc, hr, hbase⟩
  | false =>
    have hhist : (s.settled before.length key.sink _ false).history cfg key = s.history cfg key :=
      history_settled hj (.inl rfl)
    refine ⟨hb.settled hj hok hfail fun uid => hhist ▸ hb.sealed uid, hquiet, fun e he => ?_⟩
    rw [CacheEntry.Stands, hhist]
    rw [Shared.settled_slot] at he
    cases revertEntry with
    | none =>
      rw [Shared.callback, Shared.slot_addKey, Shared.slot_setSlot_self,
        Slot.deleteIfCurrent_current hcur] at he
      cases he
    | some b =>
      rw [Shared.callback, Shared.slot_addKey, Shared.slot_setSlot_self,
        Slot.commitIfCurrent_current hcur] at he
      cases he
      obtain ⟨hc, hr, hbase⟩ := h.fallback b rfl
      exact ⟨hc, hr, hbase⟩

theorem Deleting.settle {before : List Handed} {r : Record} {t : Ticket} {ok : Bool}
    (hb : Books cfg apply key every st s₀ s) (h : Deleting cfg apply key st s before r t e)
    (hok : ok = true → (key.sink, r) ∈ s.table) (hfail : ok = false → (key.sink, r) ∉ s.table) :
    Books cfg apply key every st s₀
      (s.settled before.length key.sink ⟨r, .delete st key.cacheKey key t⟩ ok) ∧
      Calm cfg apply key st (s.settled before.length key.sink ⟨r,
          .delete st key.cacheKey key t⟩ ok) := by
  have hj : s.jobs[before.length]? = some ⟨key.sink, ⟨r, .delete st key.cacheKey key t⟩, .inFlight⟩ := by
    rw [h.jobs, List.getElem?_append_right (Nat.le_refl _), Nat.sub_self]
    rfl
  obtain ⟨-, -, -, hd⟩ := hb.proper _ (List.mem_of_getElem? hj)
  have hhist : (s.settled before.length key.sink ⟨r, .delete st key.cacheKey key t⟩ ok).history cfg key =
      s.history cfg key := history_settled hj (.inr hd)
  have hcur : (s.slot st key.cacheKey).Current t.version := Slot.current_iff.mpr ⟨_, h.entry, rfl⟩
  refine ⟨hb.settled hj hok hfail fun uid => hhist ▸ hb.sealed uid, ?_, fun e' he => ?_⟩
  · rw [Shared.settled_jobs, h.jobs, List.set_append_right _ _ (Nat.le_refl _), Nat.sub_self]
    intro x hx hf
    rcases List.mem_append.mp hx with hx | hx
    · exact h.quiet x hx hf
    · cases List.mem_singleton.mp hx
      cases ok <;> cases hf
  · rw [CacheEntry.Stands, hhist]
    rw [Shared.settled_slot] at he
    cases ok with
    | true =>
      rw [Shared.callback, Shared.slot_setSlot_self, Slot.deleteIfCurrent_current hcur] at he
      cases he
    | false =>
      rw [Shared.callback, Shared.slot_addKey, Shared.slot_setSlot_self,
        Slot.unclaimDelete_current h.entry rfl] at he
      cases he
      exact ⟨rfl, h.stands.run, h.stands.baseline⟩

theorem settle_carries {j : Nat} {ok : Bool} (hb : Books cfg apply key every st s₀ s)
    (hs : Stage cfg apply key every st s p) (hj : s.jobs[j]? = some ⟨sink, job, .inFlight⟩)
    (hok : ok = true → (sink, job.record) ∈ s.table)
    (hfail : ok = false → (sink, job.record) ∉ s.table) :
    Books cfg apply key every st s₀ (s.settled j sink job ok) ∧
      Stage cfg apply key every st (s.settled j sink job ok) p := by
  have hp := hb.proper _ (List.mem_of_getElem? hj)
  by_cases hc : ∃ st' k key' r, job.commit = .closeOut st' k key' r
  · obtain ⟨st', k, key', r, hc⟩ := hc
    simp only [Handed.Proper, hc] at hp
    have hbeside : s.Beside cfg key st (s.settled j sink job ok) := beside_closeOut hj hc hp.2.2.2.1
    exact ⟨hb.settled hj hok hfail fun uid => hbeside.history ▸ hb.sealed uid, hs.beside hbeside⟩
  · push Not at hc
    have between (hs : Between cfg apply key every st s) :
        Books cfg apply key every st s₀ (s.settled j sink job ok) ∧
        Between cfg apply key every st (s.settled j sink job ok) := by
      cases hs with
      | calm h => exact (h.quiet.not_upsert hj hc).elim
      | writing _ _ _ _ _ h | deleting _ _ _ _ h =>
        obtain ⟨rfl, hh⟩ := settled_last hj h.jobs h.quiet hc
        cases hh
        exact (h.settle hb hok hfail).imp_right .calm
    rcases p with _ | p
    · exact between hs
    cases p with
    | aside => exact hs.elim
    | done => exact between hs
    | noting | loaded => exact (hs.1.quiet.not_upsert hj hc).elim
    | superseded | reserved | reverting | claimed | releasing => exact (hs.1.not_upsert hj hc).elim

structure Tidy (cfg : Config) (apply : Bytes → Bytes →
    Option Bytes) (key : Key) (every : Int) (st : Inst) (s₀ : Shared)
    (v : View Op.Ans Tid Shared Draft) : Prop where
  others : ∀ t, t ≠ .worker key → v.phase t = none
  books : Books cfg apply key every st s₀ v.shared
  stage : Stage cfg apply key every st v.shared (v.phase (.worker key))

section

variable {v v' : View Op.Ans Tid Shared Draft} {d : Deed}

theorem Tidy.update (h : Tidy cfg apply key every st s₀ v) {q : Option Draft}
    {log : List (LogEntry Op.Ans Tid)} (hb : Books cfg apply key every st s₀ s)
    (hs : Stage cfg apply key every st s q) :
    Tidy cfg apply key every st s₀ ⟨Function.update v.phase (.worker key) q, s, log⟩ where
  others t ht := (Function.update_of_ne ht ..).trans (h.others t ht)
  books := hb
  stage := by
    show Stage cfg apply key every st s (Function.update v.phase (.worker key) q (.worker key))
    rw [Function.update_self]
    exact hs

theorem Tidy.worker (h : Tidy cfg apply key every st s₀ v) {t : Tid} {q : Draft}
    (ht : v.phase t = some q) :
    t = .worker key := by
  by_contra hne
  rw [h.others t hne] at ht
  cases ht

theorem Between.settled (h : Between cfg apply key every st s)
    (hn : ∀ h ∈ s.jobs, h.status ≠ .inFlight) :
    Calm cfg apply key st s := by
  cases h with
  | calm h => exact h
  | writing _ _ _ _ _ h | deleting _ _ _ _ h =>
    exact absurd rfl (hn _ (h.jobs ▸ List.mem_append_right _ (.head _)))

theorem Stage.ended {q : Draft} (h : Stage cfg apply key every st s (some q)) (hq : q.Ended) :
    Stage cfg apply key every st s none := by
  cases q with
  | aside => exact h.elim
  | noting | loaded => exact .calm h.1
  | done => exact h
  | superseded | reserved | reverting | claimed | releasing => exact hq.elim

theorem Carried.exec {q : Draft} {tid : Tid} {o : Op} {i : Input} {a : o.Ans} (hl : cfg.lib.Lawful apply)
    (he : key.ephemeral = false) (hb : Books cfg apply key every st s₀ s)
    (hs : Stage cfg apply key every st s (some q)) (hall : q.Allowed cfg key o)
    (hx : Kuberecord.exec s tid o i = some (s', a)) (hk : i.Keeps every s.clock)
    (hid : Identified (.exec tid i)) : Carried cfg apply key every st s₀ s' (q.next o a) := by
  cases q with
  | aside => exact hs.elim
  | noting n => exact noting_exec hb hx hk hid hs hall
  | loaded n base => exact loaded_exec hb hx hk hid hs hall
  | superseded n e => exact superseded_exec hb hx hk hid hs hall
  | reserved n base entry t ts => exact reserved_exec hb hx hk hid hl he hs hall
  | reverting n t revertEntry => exact reverting_exec hb hx hk hid hs hall
  | claimed n e t => exact claimed_exec hb hx hk hid hs hall
  | releasing n t => exact releasing_exec hb hx hk hid hs hall
  | done => exact hall.elim

theorem Books.insert {j : Nat} {sink : String} {job : Job} (h : Books cfg apply key every st s₀ s)
    (hj : s.jobs[j]? = some ⟨sink, job, .inFlight⟩) :
    Books cfg apply key every st s₀ { s with table := s.table.insert (sink, job.record) } := by
  refine { h with stored := fun x hx => ?_, written := fun x hx hw =>
    List.mem_insert_of_mem (h.written x hx hw) }
  rcases List.mem_insert_iff.mp hx with rfl | hx
  · exact .inr ⟨_, List.mem_of_getElem? hj, rfl, .inl rfl⟩
  · exact h.stored x hx

theorem Tidy.move (h : Tidy cfg apply key every st s₀ v) (hl : cfg.lib.Lawful apply)
    (he : key.ephemeral = false) (hok : Sequential key every v.shared d.plain)
    (hid : Identified d.plain)
    (hm : (machine cfg).Move (Draft.protocol cfg key) (Draft.start key)
      (fun _ _ => Draft.Ended) v d v') :
    Tidy cfg apply key every st s₀ v' := by
  cases hm with
  | start t b shared code hn hs =>
    obtain ⟨rfl, hidle⟩ := hok
    have hlevel := Shared.Level.of_same (start_same hs)
    have hstage := h.stage
    rw [hn] at hstage
    rw [Draft.start, if_pos ⟨rfl, he⟩]
    refine h.update (h.books.level hlevel) ⟨(Between.settled hstage hidle).level hlevel, ?_⟩
    constructor <;> intros <;> contradiction
  | exec t i o tr shared a hq hall _ hx =>
    obtain rfl := h.worker hq
    have hstage := h.stage
    rw [hq] at hstage
    obtain ⟨hb, hs⟩ := Carried.exec hl he h.books hstage hall hx hok hid
    exact h.update hb hs
  | finish t a q hq hend =>
    obtain rfl := h.worker hq
    have hlevel := Shared.Level.of_same (finish_same v.shared (.worker key) a)
    have hstage := h.stage
    rw [hq] at hstage
    exact h.update (h.books.level hlevel) ((hstage.ended hend).level hlevel)
  | env e shared hv =>
    cases env_effect hv with
    | quiet _ _ hs =>
      have hlevel := Shared.Level.of_same hs
      exact ⟨h.others, h.books.level hlevel, h.stage.level hlevel⟩
    | removeSink => exact hok.elim
    | insert j sink job hj =>
      refine ⟨h.others, h.books.insert hj,
        h.stage.beside ⟨Nat.le_refl _, rfl, rfl, fun x hx => ⟨x, hx, rfl⟩, id, ?_⟩⟩
      exact fun before x hs hq _ => ⟨before, hs, hq⟩
    | settle j ok sink job hj hland =>
      obtain ⟨hb, hs⟩ := settle_carries h.books h.stage hj hland (by rintro rfl; exact hok _ hj)
      exact ⟨h.others, hb, hs⟩
  | crash => exact hok.elim

theorem Tidy.fresh (hf : s₀.Fresh key) :
    Tidy cfg apply key every (s₀.inst key.sink) s₀ ⟨fun _ => none, s₀, []⟩ := by
  have hrows : s₀.history cfg key = fun _ => [] := by
    funext uid
    rw [Shared.history, hf.jobs]
    rfl
  refine ⟨fun _ _ => rfl, ⟨rfl, fun uid => ?_, ?_, ?_, ?_, fun _ => .inl, ?_⟩,
    .calm ⟨?_, fun e he => ?_⟩⟩
  · rw [hrows]
    exact .nil
  · simp [hf.jobs]
  · simp [hf.jobs]
  · simp [hf.queue]
  · simp [hf.jobs]
  · simp [Quiet, hf.jobs]
  · obtain ⟨hjson, hrun, hpending⟩ := hf.entry e he
    refine ⟨hpending, ?_, fun hne => absurd hjson hne⟩
    rw [hrows, hrun]
    rfl

end

end

/--
Sequential history is replayable with a bounded replay. The rows that landed for an incarnation are
the ones the sink's table holds, in the order of their timestamps; from any of them with `data` a
reader follows them to the document each was hashed from; the confirmed entry counts the diffs after
the last row with `data`; the cadence bounds them.
-/
theorem sequential_history_replays {cfg : Config} {apply : Bytes → Bytes → Option Bytes} {key : Key}
    {every : Int} {s₀ : Shared} {as : List Action} {s : System} (hl : cfg.lib.Lawful apply)
    (he : key.ephemeral = false) (hf : s₀.Fresh key)
    (h : Runs.Run (machine cfg).step
      (fun s a => Sequential key every s.shared a ∧ Identified a) { shared := s₀ } as s) :
    (∀ uid, (s.shared.history cfg key uid).Pairwise (fun r r' => r.timestamp < r'.timestamp) ∧
      (∀ before base rest, s.shared.history cfg key uid = before ++ base :: rest → base.data ≠ [] →
        Faithful cfg.lib apply (base :: rest)) ∧
      (1 ≤ every → (diffsSince (s.shared.history cfg key uid) : Int) ≤ every - 1)) ∧
    (∀ uid, ∀ r ∈ s.shared.history cfg key uid, (key.sink, r) ∈ s.shared.table) ∧
    (every = 0 → ∀ h ∈ s.shared.jobs, h.job.record.eventType ≠ .checkpoint) ∧
    ((∀ h ∈ s.shared.jobs, h.status ≠ .inFlight) →
      (∀ r ∈ landedRows cfg s.shared key, r.eventType ≠ .deleted →
        (key.sink, r) ∈ s₀.table ∨ r ∈ s.shared.history cfg key r.uid) ∧
      (s.threads (.worker key) = none →
        ∀ e ∈ (s.shared.slot (s.shared.inst key.sink) key.cacheKey).entry,
          e.modifiedSinceCheckpoint = diffsSince (s.shared.history cfg key e.uid))) := by
  have ht : Tidy cfg apply key every (s₀.inst key.sink) s₀
    (s.view (Draft.protocol cfg key) (Draft.start key)) := by
    refine (Draft.safe cfg key).invariant h (fun s a d v' hi hok hd hm => ?_) (.fresh hf)
    have ha := System.plain_deed hd
    exact hi.move hl he (ha ▸ hok.1) (ha ▸ hok.2) hm
  have hbooks : Books cfg apply key every (s₀.inst key.sink) s₀ s.shared := ht.books
  have mem (uid : String) (r : Record) (hr : r ∈ s.shared.history cfg key uid) :
      ∃ h ∈ s.shared.jobs, h.status = .written ∧ h.sink = key.sink ∧ h.job.record = r := by
    obtain ⟨h, hh, hr⟩ := List.mem_filterMap.mp hr
    obtain ⟨⟨hw, hs, -⟩, hr⟩ := Option.ite_none_right_eq_some.mp hr
    exact ⟨h, hh, hw, hs, Option.some.inj hr⟩
  refine ⟨fun uid => ⟨(hbooks.sealed uid).ordered, ?_, fun hpos => ?_⟩, fun uid r hr => ?_, ?_,
    fun hdone => ⟨?_, ?_⟩⟩
  · exact fun before base rest hrows hdata => (hbooks.sealed uid).faithful.from hrows hdata
  · have hlt := (hbooks.sealed uid).bounded (by omega)
    omega
  · obtain ⟨h, hh, hw, hs, rfl⟩ := mem uid r hr
    exact hs ▸ hbooks.written h hh hw
  · rintro rfl h hh hcheck
    have hp := hbooks.proper h hh
    unfold Handed.Proper at hp
    split at hp
    · exact absurd (hp.2.2.2.2.2.2 hcheck) (by omega)
    · exact absurd (hp.2.2.2.symm.trans hcheck) nofun
    · exact absurd (hp.2.2.2.1.symm.trans hcheck) nofun
  · intro r hr hd
    obtain ⟨htable, hof⟩ := mem_landedRows.mp hr
    rcases hbooks.stored _ htable with hold | ⟨h, hh, hrow, hst⟩
    · exact .inl hold
    · have hw : h.status = .written := hst.resolve_left (hdone h hh)
      obtain ⟨hs, rfl⟩ := Prod.mk.inj hrow
      exact .inr (List.mem_filterMap.mpr ⟨h, hh, if_pos ⟨hw, hs, hof, hd, rfl⟩⟩)
  · intro hidle e hentry
    have hstage := ht.stage
    have hphase : (s.view (Draft.protocol cfg key) (Draft.start key)).phase (.worker key) = none := by
      simp [System.view, hidle]
    rw [hphase] at hstage
    have hcalm : Calm cfg apply key (s₀.inst key.sink) s.shared := Between.settled hstage hdone
    rw [hbooks.inst] at hentry
    exact (hcalm.entry e hentry).run

def pacedSteps (n : Int) (rest : List Input) : List Action :=
  processSteps ([.lookup sampleKey (some ⟨some (sampleObject "u" n), true⟩),
    .writer (some ⟨some 2⟩), .go, .go,
    .policy (some none), .go] ++ rest)

theorem checkpointed_history_replays : ∃ s : System,
    (s.shared.history sampleConfig sampleKey "u").map (·.eventType) =
      [.snapshot, .modified, .checkpoint] ∧
    (∀ before base rest, s.shared.history sampleConfig sampleKey "u" = before ++ base :: rest →
      base.data ≠ [] → Faithful sampleLib samplePatch (base :: rest)) := by
  obtain ⟨s, hrun, hrows⟩ := Runs.Run.exists_of_exec (machine sampleConfig).step
    (fun s a => Sequential sampleKey 2 s.shared a ∧ Identified a) { shared := {} }
    (pacedSteps 1 [.go, .go, .time 1, .flag true] ++ landSteps 0 ++
      pacedSteps 2 [.go, .time 2, .flag true] ++ landSteps 1 ++
      pacedSteps 1 [.go, .time 3, .flag true] ++ [.env (.settle 2 false)] ++
      pacedSteps 1 [.go, .time 4, .flag true] ++
      landSteps 3)
    (fun s => (s.shared.history sampleConfig sampleKey "u").map (·.eventType) =
      [.snapshot, .modified, .checkpoint]) (by decide)
  have hfresh : Shared.Fresh {} sampleKey := ⟨rfl, rfl, fun e he => by cases he⟩
  exact ⟨s, hrows, ((sequential_history_replays sampleLib_lawful (by decide) hfresh hrun).1 "u").2.1⟩

def specOp (op : String) (value : Option UInt8) : Json :=
  .obj ([("op", .str op), ("path", .str "/spec")] ++ value.toList.map fun y => ("value", .int y.toNat))

def specValue (field : String) (j : Json) : Option UInt8 :=
  match j.get? field with
  | some (.int n) => some (UInt8.ofNat n.toNat)
  | _ => none

def specLib : Lib where
  marshal
    | .arr ops => some (2 :: ops.flatMap fun op =>
        (if op.nestedString ["op"] = "add" then 3 else if op.nestedString ["op"] = "remove" then
        4 else 5) ::
          (specValue "value" op).toList)
    | j => some (match specValue "spec" j with
        | none => [0]
        | some n => [1, n])
  sha256 b := if b = [0] then "h0" else if b = [1, 1] then "h1" else "h2"
  zstd := ⟨none, none⟩
  compareJSON a b :=
    match a, b with
    | [0], [0] => some (.arr [])
    | [0], [1, y] => some (.arr [specOp "add" (some y)])
    | [1, _], [0] => some (.arr [specOp "remove" none])
    | [1, x], [1, y] => some (.arr (if x = y then [] else [specOp "replace" (some y)]))
    | _, _ => none

def specPatch (diff doc : Bytes) : Option Bytes :=
  match diff, doc with
  | [2], doc => some doc
  | [2, 3, y], [0] | [2, 3, y], [1, _] | [2, 5, y], [1, _] => some [1, y]
  | [2, 4], [1, _] => some [0]
  | _, _ => none

theorem specValue_specOp (op : String) (value : Option UInt8) :
    specValue "value" (specOp op value) = value := by
  cases value <;> simp [specValue, specOp, Json.get?, List.lookup_cons, List.lookup_nil]

theorem specLib_lawful : specLib.Lawful specPatch where
  patch a b patch diff hc hm := by
    have op_specOp (op : String) (value : Option UInt8) : (specOp op value).nestedString
      ["op"] = op := rfl
    simp only [specLib] at hc
    split at hc <;> cases hc
    · cases hm
      rfl
    · simp only [specLib, List.flatMap_singleton, specValue_specOp, op_specOp, if_true,
        Option.some.injEq] at hm
      rw [← hm]
      rfl
    · simp only [specLib, List.flatMap_singleton, specValue_specOp, op_specOp, if_true,
        Option.some.injEq] at hm
      rw [← hm]
      rfl
    · split_ifs at hm with hxy
      · cases hm
        rw [hxy]
        rfl
      · simp only [specLib, List.flatMap_singleton, specValue_specOp, op_specOp, Option.some.injEq] at hm
        rw [← hm]
        rfl
  marshal j b h := by
    cases j with
    | arr items =>
      cases h
      simp
    | null | bool | int | float | str =>
      cases h
      simp [specValue, Json.get?]
    | obj fields =>
      cases h
      split <;> simp
  zstd := ⟨by simp [specLib], by simp [specLib]⟩

def specConfig : Config := ⟨specLib, "c"⟩

def bareObject (uid : String) : Json := .obj [("metadata", .obj [("uid", .str uid)])]

/--
The name is taken over by an object without a UID and then given back. The entry without a UID
passes for the returning incarnation, whose row then removes a field that none of its own rows has
added.
-/
theorem nameless_object_breaks_replay : specLib.Lawful specPatch ∧
    ∃ (as : List Action) (s : System) (base r : Record),
    Runs.Run (machine specConfig).step (fun s a => Sequential sampleKey 0 s.shared a)
      { shared := {} } as s ∧
      s.shared.history specConfig sampleKey "u" = [base, r] ∧ base.data ≠ [] ∧
      ¬ Faithful specLib specPatch [base, r] := by
  obtain ⟨s, hrun, base, hbase, r, hr, hrows, hdata, hnone⟩ :=
    Runs.Run.exists_of_exec (machine specConfig).step
    (fun s a => Sequential sampleKey 0 s.shared a) { shared := {} }
    (processSteps (observeInputs (bareObject "u") ++ [.go, .go, .time 1, .flag true]) ++ landSteps 0 ++
      supersededSteps "" 1 2 ++ landSteps 1 ++ landSteps 2 ++
      processSteps (observeInputs (bareObject "u") ++ [.go, .time 4, .flag true]) ++ landSteps 3)
    (fun s => ∃ base ∈ s.shared.history specConfig sampleKey "u",
      ∃ r ∈ s.shared.history specConfig sampleKey "u",
      s.shared.history specConfig sampleKey "u" = [base, r] ∧ base.data ≠ [] ∧
        replay specPatch [base, r] = none) (by decide)
  refine ⟨specLib_lawful, _, s, base, r, hrun, hrows, hdata, fun hfaithful => ?_⟩
  obtain ⟨d, hd, -⟩ := hfaithful [base] r [] rfl
  have hd : replay specPatch [base, r] = some d := hd
  rw [hnone] at hd
  cases hd

end Kuberecord
