import Kuberecord.ClaimedDeaths
import Kuberecord.KeyRows
import Mathlib.Data.List.Induction

namespace Kuberecord

open Threads

variable {key : Key} {cfg : Config} {s : Shared} {o : Op}

abbrev ChoreView := View Op.Ans Tid Shared Chore

def Shared.rowsOf (s : Shared) (key : Key) : List Record :=
  (s.jobs.filter (·.job.commit.key = key)).map (·.job.record)

def Shared.page (s : Shared) (key : Key) : Page where
  slot := s.slot key.home key.cacheKey
  rows := s.rowsOf key
  stakes j := key.sift (s.jobs[j]?.bind Handed.staked)
  clock := s.clock

def answerOf (cfg : Config) (key : Key) (x : LogEntry Op.Ans Tid) : Option Answer :=
  if x.tid = .worker key then
    match x.event with
    | ⟨.listerGet _, some ⟨none, true⟩⟩ => some .absent
    | ⟨.redactionFor _, some policy⟩ =>
      (lastLookup x.trace).bind (fun l => l.2.obj.bind (fun obj =>
        (normalizeObject cfg.lib obj policy).map (fun norm => .present norm.uid norm.hash)))
    | _ => none
  else none

def lastAnswer (cfg : Config) (key : Key) (log : Log) : Option Answer :=
  log.foldl (fun last x => (answerOf cfg key x).or last) none

def Newest (rows : List Record) (r : Record) : Prop :=
  r ∈ rows ∧ ∀ r' ∈ rows, r' ≠ r → r'.timestamp < r.timestamp

instance (rows : List Record) (r : Record) : Decidable (Newest rows r) := by
  unfold Newest
  infer_instance

def Tells (rows : List Record) : Answer → Prop
  | .present uid hash => ∃ r, Newest rows r ∧ r.eventType ≠ .deleted ∧ r.uid = uid ∧ r.sha256 = hash
  | .absent => rows = [] ∨ ∃ r, Newest rows r ∧ r.eventType = .deleted

def Op.Concerns (key : Key) : Op → Prop
  | .reserve st k _ | .reserveDelete st k _ | .commitIfCurrent st k _ _ | .deleteIfCurrent st k _
  | .unclaimDelete st k _ | .storeIfAbsent st k _ | .closeOutsAdd st k _ | .closeOutsTakeAll st k =>
    key.Owns st k
  | .enqueue _ job => job.commit.key = key
  | _ => False

def Chore.obj : Chore → Option Json
  | .shown obj => some obj
  | _ => none

def Chore.base : Chore → Option CacheEntry
  | .loaded _ _ base => base
  | _ => none

def Input.Serves (cfg : Config) (p : Option Chore) : Input → Prop
  | .lookup _ l => ∃ l' ∈ l, l'.scopeActive = true ∧ ∀ obj ∈ l'.obj, obj.getUID ≠ ""
  | .writer w => w.isSome
  | .policy q => ∃ policy ∈ q, ∀ obj ∈ p.bind Chore.obj, (normalizeObject cfg.lib obj policy).isSome
  | .flag b => b = true
  | _ => True

def Input.After (clock : Nat) : Input → Prop
  | .time ts => clock < ts
  | _ => True

/-- The answers are processed by the key's worker, all writes succeed, the clock advances. -/
def Served (cfg : Config) (key : Key) (v : ChoreView) : Deed → Prop
  | .exec tid (o, i) => (tid.isWorker = false → ¬ o.Concerns key) ∧
      (tid = .worker key → i.Serves cfg (v.phase tid)) ∧ i.After v.shared.clock
  | .env (.settle j ok) => ∀ h ∈ v.shared.jobs[j]?, h.job.commit.key = key → ok = true
  | _ => True

def Heeded (key : Key) (v : ChoreView) : Deed → Prop
  | .exec tid (.dedupSkip, _) =>
    tid = .worker key → ∀ b ∈ (v.phase tid).bind Chore.base, b.pendingDelete = false
  | .env (.settle j _) => (v.shared.page key).Timely j
  | _ => True

instance (key : Key) (st : Inst) (k : String) : Decidable (key.Owns st k) := by
  unfold Key.Owns
  infer_instance

instance (key : Key) (o : Op) : Decidable (o.Concerns key) := by
  unfold Op.Concerns
  split <;> infer_instance

instance (cfg : Config) (p : Option Chore) (i : Input) : Decidable (i.Serves cfg p) := by
  unfold Input.Serves
  split <;> infer_instance

instance (clock : Nat) (i : Input) : Decidable (i.After clock) := by
  unfold Input.After
  split <;> infer_instance

instance (cfg : Config) (key : Key) (v : ChoreView) (d : Deed) : Decidable (Served cfg key v d) := by
  unfold Served
  split <;> infer_instance

instance (key : Key) (v : ChoreView) (d : Deed) : Decidable (Heeded key v d) := by
  unfold Heeded
  split <;> infer_instance

section

variable {s s' : Shared} {key : Key}

theorem Shared.Same.page (h : s.Same s') : s'.page key = s.page key := by
  simp only [Shared.page, Shared.rowsOf, h.slot, h.jobs, h.clock]

theorem Shared.page_setSlot (slot : Slot) :
    (s.setSlot key.home key.cacheKey slot).page key = { s.page key with slot := slot } := by
  simp only [Shared.page, Shared.slot_setSlot_self]
  rfl

theorem Shared.page_hand {sink : String} {job : Job} (hj : job.commit.key = key) :
    Shared.page { s with jobs := s.jobs ++ [{ sink := sink, job := job }] } key =
      { (s.page key).issue job.record with
        stakes := Function.update (s.page key).stakes s.jobs.length
          (key.sift (Handed.staked ⟨sink, job, .inFlight⟩)) } := by
  have hrows : Shared.rowsOf { s with jobs := s.jobs ++ [{ sink := sink, job := job }] } key =
      s.rowsOf key ++ [job.record] := by
    simp [Shared.rowsOf, List.filter_append, hj]
  simp only [Shared.page, hrows, Page.issue, Page.mk.injEq, true_and, and_true]
  refine ⟨rfl, ?_⟩
  funext j
  by_cases h : j = s.jobs.length
  · subst h
    simp
  · rw [Function.update_of_ne h, List.getElem?_append]
    split_ifs with hlt
    · rfl
    · rw [List.getElem?_eq_none (by simp; omega), List.getElem?_eq_none (by omega)]

theorem Shared.page_hand_closeOut {sink : String} {r : Record} :
    Shared.page { s with
      jobs := s.jobs ++ [{ sink := sink, job := ⟨r, .closeOut key.home key.cacheKey key r⟩ }] }
        key = (s.page key).issue r := by
  have hand := @Shared.page_hand s key sink ⟨r, .closeOut key.home key.cacheKey key r⟩ rfl
  rw [hand]
  simp only [Page.issue, Handed.staked, Key.sift_none, Page.mk.injEq, true_and, and_true]
  refine Function.update_eq_self_iff.mpr ?_
  simp [Shared.page]

end

structure Page.Follows (key : Key) (s : Shared) (p : Chore) : Prop where
  kept : (s.page key).Kept
  fits : (s.page key).Fits p
  outs : s.closeOuts key.home key.cacheKey = []

namespace Page.Follows

variable {cfg : Config} {key : Key} {s s' : Shared} {p q : Chore} {o : Op} {i : Input} {a : o.Ans}
variable {uid hash : String}

theorem same (h : Page.Follows key s p) (hs : s.Same s') (hq : (s.page key).Fits q) :
    Page.Follows key s' q :=
  ⟨by rw [hs.page]; exact h.kept, by rw [hs.page]; exact hq, by rw [hs.closeOuts, h.outs]⟩

theorem attend (h : Page.Follows key s p) (hg : s.gens key.sink = 0)
    (hp : p = .gone ∨ ∃ obj, p = .shown obj) (hall : p.Allowed key o)
    (ho : (∃ sink, o = .writerFor sink) ∨ (∃ sink, o = .sinkState sink) ∨
      ∃ st k, o = .closeOutsTakeAll st k)
    (hx : exec s (.worker key) o i = some (s', a)) (hi : i.Serves cfg (some p)) :
    Page.Follows key s' (p.next cfg key o a) := by
  rcases ho with ⟨sink, rfl⟩ | ⟨sink, rfl⟩ | ⟨st, k, rfl⟩ <;> cases i <;>
    simp only [exec, Option.some.injEq, Prod.mk.injEq, reduceCtorEq] at hx
  · rename_i w
    obtain ⟨rfl, rfl⟩ := hx
    have hn : p.next cfg key (.writerFor sink) w = p := by
      rcases hp with rfl | ⟨obj, rfl⟩ <;> exact if_pos hi
    rw [hn]
    exact h
  · obtain ⟨rfl, rfl⟩ := hx
    have hhome : s.inst sink = key.home := by
      have hs : sink = key.sink := by rcases hp with rfl | ⟨obj, rfl⟩ <;> exact hall
      rw [hs, Shared.inst, hg, Key.home]
    have hn : p.next cfg key (.sinkState sink) (s.inst sink) = p := by
      rcases hp with rfl | ⟨obj, rfl⟩ <;> exact if_pos (by simpa using hhome)
    rw [hn]
    exact h
  · obtain ⟨rfl, rfl⟩ := hx
    have hat : key.At st k := by rcases hp with rfl | ⟨obj, rfl⟩ <;> exact hall
    obtain ⟨rfl, rfl⟩ := hat
    have hn : p.next cfg key (.closeOutsTakeAll key.home key.cacheKey)
      (s.closeOuts key.home key.cacheKey) = p := by
      rcases hp with rfl | ⟨obj, rfl⟩ <;> exact if_pos (by simp [h.outs])
    have hpage : (s.setCloseOuts key.home key.cacheKey []).page key = s.page key := by
      simp only [Shared.page, Shared.slot_setCloseOuts]
      rfl
    rw [hn]
    exact ⟨hpage ▸ h.kept, hpage ▸ h.fits, by simp [Shared.closeOuts_setCloseOuts]⟩

theorem fresh (h : Page.Follows key s .fresh) (hall : Chore.fresh.Allowed key o)
    (hx : exec s (.worker key) o i = some (s', a)) (hi : i.Serves cfg (some .fresh)) :
    Page.Follows key s' (Chore.fresh.next cfg key o a) := by
  cases hall
  cases exec_effect hx with
  | quiet _ _ _ _ hq => exact hq.elim
  | listerGet _ l =>
    obtain ⟨⟨obj, active⟩, rfl, rfl, hu⟩ := hi
    cases obj with
    | none => exact ⟨h.kept, h.fits, h.outs⟩
    | some obj => exact ⟨h.kept, ⟨hu obj rfl, h.fits⟩, h.outs⟩

theorem claim_cases {c : DeleteClaim} (h : Page.Follows key s p)
    (hx : exec s (.worker key) (.reserveDelete key.home key.cacheKey uid) i = some (s', c)) :
    s'.closeOuts key.home key.cacheKey = [] ∧ (s'.page key).Kept ∧
      ((∃ e t, c = .claimed e t ∧ (s'.page key).Holds t (fun e => e.pendingDelete = true)) ∨
        s'.page key = s.page key ∧ (∀ e t, c ≠ .claimed e t) ∧ (c = .uidMismatch → uid ≠ "") ∧
          ∀ e, (s.page key).slot.entry = some e → e.pendingDelete = true ∨ uid ≠ "" ∧ e.uid ≠ uid) := by
  cases exec_effect hx with
  | quiet _ _ _ _ hq => exact hq.elim
  | reserveDelete =>
    refine ⟨by rw [Shared.closeOuts_setSlot, h.outs], ?_⟩
    rw [Shared.page_setSlot]
    by_cases hc : ∃ e t, ((s.slot key.home key.cacheKey).reserveDelete uid).2 = .claimed e t
    · obtain ⟨e, t, hc⟩ := hc
      obtain ⟨hk, hh⟩ := h.kept.claim (Slot.reserveDelete_claimed (Prod.ext rfl hc))
      exact ⟨hk, .inl ⟨e, t, hc, hh⟩⟩
    · push Not at hc
      obtain ⟨hs, hpend⟩ := Slot.reserveDelete_refused hc
      rw [hs]
      exact ⟨h.kept, .inr ⟨rfl, hc, Slot.reserveDelete_mismatch, hpend⟩⟩

theorem gone (h : Page.Follows key s .gone) (hg : s.gens key.sink = 0) (hall : Chore.gone.Allowed key o)
    (hx : exec s (.worker key) o i = some (s', a)) (hi : i.Serves cfg (some .gone)) :
    Page.Follows key s' (Chore.gone.next cfg key o a) := by
  cases o with
  | writerFor sink => exact h.attend hg (.inl rfl) hall (.inl ⟨sink, rfl⟩) hx hi
  | sinkState sink => exact h.attend hg (.inl rfl) hall (.inr (.inl ⟨sink, rfl⟩)) hx hi
  | closeOutsTakeAll st k => exact h.attend hg (.inl rfl) hall (.inr (.inr ⟨st, k, rfl⟩)) hx hi
  | reserveDelete st k uid =>
    obtain ⟨⟨rfl, rfl⟩, rfl⟩ := hall
    obtain ⟨houts, hk, ⟨e, t, rfl, hh⟩ | ⟨hpage, hc, hmis, hpend⟩⟩ := h.claim_cases hx
    · exact ⟨hk, ⟨by simp [Page.Dated], hh⟩, houts⟩
    · have habsent : (s'.page key).Agrees .absent := by
        rw [hpage]
        exact Page.Steady.absent h.fits fun e he => (hpend e he).elim id fun hne => absurd rfl hne.1
      cases a with
      | claimed e t => exact absurd rfl (hc e t)
      | absent | inFlight => exact ⟨hk, habsent, houts⟩
      | uidMismatch => exact absurd rfl (hmis rfl)
  | _ => exact hall.elim

theorem shown {obj : Json} (h : Page.Follows key s (.shown obj)) (hg : s.gens key.sink = 0)
    (hall : (Chore.shown obj).Allowed key o) (hx : exec s (.worker key) o i = some (s', a))
    (hi : i.Serves cfg (some (.shown obj))) :
    Page.Follows key s' ((Chore.shown obj).next cfg key o a) := by
  cases o with
  | writerFor sink => exact h.attend hg (.inr ⟨obj, rfl⟩) hall (.inl ⟨sink, rfl⟩) hx hi
  | sinkState sink => exact h.attend hg (.inr ⟨obj, rfl⟩) hall (.inr (.inl ⟨sink, rfl⟩)) hx hi
  | closeOutsTakeAll st k => exact h.attend hg (.inr ⟨obj, rfl⟩) hall (.inr (.inr ⟨st, k, rfl⟩)) hx hi
  | redactionFor key' =>
    cases i <;> simp only [exec, Option.some.injEq, Prod.mk.injEq, reduceCtorEq] at hx
    obtain ⟨rfl, rfl⟩ := hx
    obtain ⟨policy, rfl, hn⟩ := hi
    obtain ⟨norm, hnorm⟩ := Option.isSome_iff_exists.mp (hn obj rfl)
    refine ⟨h.kept, ?_, h.outs⟩
    simp only [Chore.next, hnorm]
    exact ⟨normalizeObject_uid hnorm ▸ h.fits.1, h.fits.2⟩
  | _ => exact hall.elim

theorem normed (h : Page.Follows key s (.normed uid hash))
    (hall : (Chore.normed uid hash).Allowed key o) (hx : exec s (.worker key) o i = some (s', a)) :
    Page.Follows key s' ((Chore.normed uid hash).next cfg key o a) := by
  cases o with
  | load st k =>
    obtain ⟨rfl, rfl⟩ := hall
    cases exec_effect hx with
    | quiet _ _ _ _ hq => exact hq.elim
    | load => exact ⟨h.kept, ⟨h.fits.1, h.fits.2, fun b hb hp => h.fits.2.present hb hp⟩, h.outs⟩
  | _ => exact hall.elim

theorem reserve {st : Inst} {k : String} {e : CacheEntry} {t : Ticket} (h : Page.Follows key s p)
    (hu : uid ≠ "") (hall : Chore.MayReserve key uid hash st k e)
    (hx : Kuberecord.exec s (.worker key) (.reserve st k e) i = some (s', t)) :
    Page.Follows key s' (.reserved uid hash t none) := by
  obtain ⟨⟨rfl, rfl⟩, rfl, rfl, hp⟩ := hall
  cases exec_effect hx with
  | quiet _ _ _ _ hq => exact hq.elim
  | reserve =>
    obtain ⟨hk, hh⟩ := h.kept.reserve e
    refine ⟨by rw [Shared.page_setSlot]; exact hk, ?_, by rw [Shared.closeOuts_setSlot, h.outs]⟩
    rw [Shared.page_setSlot]
    refine ⟨hu, by simp [Page.Dated], hh.version, hh.issue, ?_, hh.alone⟩
    obtain ⟨e', he', hv, hu', hh', hp'⟩ := hh.entry
    exact ⟨e', he', hv, hu', hh', hp'.trans hp⟩

theorem loaded {base : Option CacheEntry} (h : Page.Follows key s (.loaded uid hash base))
    (hall : (Chore.loaded uid hash base).Allowed key o) (hx : exec s (.worker key) o i = some (s', a))
    (hd : o = .dedupSkip → ∀ b ∈ base, b.pendingDelete = false) :
    Page.Follows key s' ((Chore.loaded uid hash base).next cfg key o a) := by
  cases o with
  | scopeWarm st key' =>
    cases exec_effect hx with
    | quiet _ _ _ _ _ hs => exact h.same hs h.fits
  | dedupSkip =>
    obtain ⟨b, rfl, hu, rfl⟩ := hall
    cases exec_effect hx with
    | quiet _ _ _ _ _ hs =>
      have hb := h.fits.2.2 b rfl (hd rfl b rfl)
      refine h.same hs ?_
      rcases hu with hu | hu
      · exact absurd hu hb.1
      · exact hu ▸ hb
  | reserveDelete st k u =>
    obtain ⟨rfl, rfl⟩ := hall
    obtain ⟨houts, hk, -⟩ := h.claim_cases hx
    exact ⟨hk, ⟨h.fits.1, by simp [Page.Dated]⟩, houts⟩
  | reserve st k e => exact h.reserve h.fits.1 hall hx
  | _ => exact hall.elim

theorem date {ts : Nat} (h : Page.Follows key s p) (hc : s.clock < ts) :
    (Shared.page { s with clock := ts } key).Kept ∧ (Shared.page { s with clock := ts } key).Dated
    (some ts) := by
  refine ⟨h.kept.wait (Nat.le_of_lt hc), fun t ht => ?_⟩
  cases ht
  exact ⟨Nat.le_refl _, fun r hr => Nat.lt_of_le_of_lt (h.kept.below r hr) hc⟩

theorem shut {ts : Option Nat} (h : Page.Follows key s (.shut uid hash ts))
    (hall : (Chore.shut uid hash ts).Allowed key o) (hx : exec s (.worker key) o i = some (s', a))
    (hi : i.Serves cfg (some (.shut uid hash ts))) (ht : ∀ ts, i = .time ts → s.clock < ts) :
    Page.Follows key s' ((Chore.shut uid hash ts).next cfg key o a) := by
  cases o with
  | now =>
    cases exec_effect hx with
    | quiet _ _ _ _ hq => exact hq.elim
    | now =>
      obtain ⟨hk, hd⟩ := h.date (ht _ rfl)
      exact ⟨hk, ⟨h.fits.1, hd⟩, h.outs⟩
  | enqueue sink job =>
    obtain ⟨r, c⟩ := job
    obtain ⟨rfl, rfl⟩ := hall
    cases exec_effect hx with
    | quiet _ _ _ _ hq => exact hq.elim
    | refused => cases hi
    | accepted =>
      refine ⟨?_, ⟨h.fits.1, by simp [Page.Dated]⟩, h.outs⟩
      rw [Shared.page_hand_closeOut]
      exact h.kept.issue h.fits.2
  | reserve st k e => exact h.reserve h.fits.1 hall hx
  | _ => exact hall.elim

theorem reserved {t : Ticket} {ts : Option Nat} (h : Page.Follows key s (.reserved uid hash t ts))
    (hall : (Chore.reserved uid hash t ts).Allowed key o) (hx : exec s (.worker key) o i = some (s', a))
    (hi : i.Serves cfg (some (.reserved uid hash t ts))) (ht : ∀ ts, i = .time ts → s.clock < ts) :
    Page.Follows key s' ((Chore.reserved uid hash t ts).next cfg key o a) := by
  obtain ⟨hu, hd, hh⟩ := h.fits
  cases o with
  | now =>
    cases exec_effect hx with
    | quiet _ _ _ _ hq => exact hq.elim
    | now =>
      obtain ⟨hk, hd⟩ := h.date (ht _ rfl)
      exact ⟨hk, ⟨hu, hd, hh.wait _⟩, h.outs⟩
  | enqueue sink job =>
    obtain ⟨r, c⟩ := job
    obtain ⟨rfl, hr, rfl, rfl, e, f, he, rfl⟩ := hall
    cases exec_effect hx with
    | quiet _ _ _ _ hq => exact hq.elim
    | refused => cases hi
    | accepted =>
      have hpage := @Shared.page_hand s key sink ⟨r, .upsert key.home key.cacheKey key t e f⟩ rfl
      rw [Handed.staked, Key.sift_home] at hpage
      have hvouch (e' : CacheEntry) (he' : e'.uid = r.uid ∧ e'.hash = r.sha256 ∧
        e'.pendingDelete = false) :
          (Stake.write e f).Vouches e' :=
        ⟨he.2.1.trans he'.1.symm, he.2.2.1.trans he'.2.1.symm, he.2.2.2, he'.2.2⟩
      have hi' : ((s.page key).issue r).Holds t _ := ⟨hh.version, hh.issue, hh.entry, hh.alone⟩
      refine ⟨?_, ?_, h.outs⟩
      · rw [hpage]
        exact (h.kept.issue hd).send hi' hvouch
      · rw [hpage]
        obtain ⟨e', he', -, hp⟩ := hh.entry
        exact ⟨hu, ⟨r, by simp [Page.issue], hr, rfl, rfl⟩, e', he', hp⟩
  | _ => exact hall.elim

theorem claiming {t : Ticket} {ts : Option Nat} (h : Page.Follows key s (.claiming t ts))
    (hall : (Chore.claiming t ts).Allowed key o) (hx : exec s (.worker key) o i = some (s', a))
    (hi : i.Serves cfg (some (.claiming t ts))) (ht : ∀ ts, i = .time ts → s.clock < ts) :
    Page.Follows key s' ((Chore.claiming t ts).next cfg key o a) := by
  obtain ⟨hd, hh⟩ := h.fits
  cases o with
  | now =>
    cases exec_effect hx with
    | quiet _ _ _ _ hq => exact hq.elim
    | now =>
      obtain ⟨hk, hd⟩ := h.date (ht _ rfl)
      exact ⟨hk, ⟨hd, hh.wait _⟩, h.outs⟩
  | enqueue sink job =>
    obtain ⟨r, c⟩ := job
    obtain ⟨rfl, hr, rfl⟩ := hall
    cases exec_effect hx with
    | quiet _ _ _ _ hq => exact hq.elim
    | refused => cases hi
    | accepted =>
      have hpage := @Shared.page_hand s key sink ⟨r, .delete key.home key.cacheKey key t⟩ rfl
      rw [Handed.staked, Key.sift_home] at hpage
      have hi' : ((s.page key).issue r).Holds t (fun e => e.pendingDelete = true) :=
        ⟨hh.version, hh.issue, hh.entry, hh.alone⟩
      refine ⟨?_, ?_, h.outs⟩
      · rw [hpage]
        exact (h.kept.issue hd).send hi' fun _ => id
      · rw [hpage]
        obtain ⟨e, he, -, hp⟩ := hh.entry
        refine ⟨fun r' hr' => ?_, fun e' he' => ?_⟩
        · simp only [Page.issue, List.getLast?_append, List.getLast?_singleton, Option.some_or,
            Option.some.injEq] at hr'
          exact hr' ▸ hr
        · cases he.symm.trans he'
          exact hp
  | _ => exact hall.elim

end Page.Follows

theorem Page.Follows.exec {s' : Shared} {p : Chore} {i : Input} {a : o.Ans}
    (h : Page.Follows key s p) (hg : s.gens key.sink = 0) (hall : p.Allowed key o)
    (hx : Kuberecord.exec s (.worker key) o i = some (s', a)) (hi : i.Serves cfg (some p))
    (ht : ∀ ts, i = .time ts → s.clock < ts)
    (hd : o = .dedupSkip → ∀ b ∈ p.base, b.pendingDelete = false) :
    Page.Follows key s' (p.next cfg key o a) := by
  cases p with
  | failed | other => exact h.fits.elim
  | done => exact hall.elim
  | fresh => exact h.fresh hall hx hi
  | gone => exact h.gone hg hall hx hi
  | shown obj => exact h.shown hg hall hx hi
  | normed uid hash => exact h.normed hall hx
  | loaded uid hash base => exact h.loaded hall hx hd
  | shut uid hash ts => exact h.shut hall hx hi ht
  | reserved uid hash t ts => exact h.reserved hall hx hi ht
  | claiming t ts => exact h.claiming hall hx hi ht

theorem Hand.Allowed.concerns {h : Hand} (hall : h.Allowed cfg o)
    (hl : h.phase.Lawful cfg h.owner) (hc : o.Concerns key) :
    h.owner = .worker key ∨ h.owner.isWorker = false := by
  have reached {st : Inst} {k : String} (hk : key.Owns st k) (hr : h.owner.Reaches st k) :
      h.owner = .worker key ∨ h.owner.isWorker = false := by
    obtain ⟨key', hk', ho⟩ := hr
    exact ho.imp_left fun ho => hk.unique hk' ▸ ho
  have placed {st : Inst} {k : String} {p : Phase} (hk : key.Owns st k) (hp : h.phase = p)
    (hpl : p.place = some (st, k)) :
      h.owner = .worker key ∨ h.owner.isWorker = false :=
    reached hk (hl.reaches (hp ▸ hpl))
  have served {st : Inst} {k : String} (hk : key.Owns st k) (hs : ∃ key', h.owner = .worker key' ∧
    key'.Owns st k) :
      h.owner = .worker key ∨ h.owner.isWorker = false := by
    obtain ⟨key', ho, hk'⟩ := hs
    exact .inl (hk.unique hk' ▸ ho)
  cases o with
  | reserve st k e =>
    obtain ⟨key', -, -, -, ho, hk', -⟩ := hall
    exact served hc ⟨key', ho, hk'⟩
  | reserveDelete st k u =>
    rcases hall with ⟨-, -, key', hk', ⟨ho, -⟩ | ⟨ho, -⟩⟩ | ⟨key', -, -, ho, hk', -⟩
    · exact served hc ⟨key', ho, hk'⟩
    · exact .inr ho
    · exact served hc ⟨key', ho, hk'⟩
  | commitIfCurrent st k t e =>
    obtain ⟨c, hp⟩ := hall
    exact placed hc hp rfl
  | deleteIfCurrent st k t =>
    rcases hall with ⟨c, hp⟩ | ⟨_, _, -, -, -, hp⟩
    · exact placed hc hp rfl
    · exact placed hc hp rfl
  | unclaimDelete st k t =>
    obtain ⟨e, hp⟩ := hall
    exact placed hc hp rfl
  | storeIfAbsent st k e => exact .inr hall.1
  | closeOutsAdd st k r =>
    rcases hall with ⟨rs, hp⟩ | ⟨b, hp⟩
    · exact placed hc hp rfl
    · exact placed hc hp rfl
  | closeOutsTakeAll st k => exact served hc hall.2.2
  | enqueue sink job =>
    obtain ⟨r, c⟩ := job
    cases c with
    | upsert st k key' t e f =>
      obtain rfl : key' = key := hc
      obtain ⟨-, -, -, -, ho, -⟩ := hall
      exact .inl ho
    | delete st k key' t =>
      obtain rfl : key' = key := hc
      obtain ⟨e, ts, hk, -, -, hp, -⟩ := hall
      exact placed hk hp rfl
    | closeOut st k key' r' =>
      obtain rfl : key' = key := hc
      obtain ⟨-, -, -, ⟨ho, -⟩ | ⟨ho, -⟩ | ⟨ho, -⟩⟩ := hall
      · exact .inl ho
      · exact .inl ho
      · exact .inr ho
  | _ => exact hc.elim

structure Page.Beside (key : Key) (s s' : Shared) : Prop where
  page : ∃ c, s.clock ≤ c ∧ s'.page key = { s.page key with clock := c }
  outs : s'.closeOuts key.home key.cacheKey = s.closeOuts key.home key.cacheKey
  gens : s'.gens key.sink = s.gens key.sink

theorem Page.Beside.same {s' : Shared} (h : s.Same s') : Page.Beside key s s' :=
  ⟨⟨s.clock, Nat.le_refl _, h.page⟩, h.closeOuts _ _, by rw [h.gens]⟩

theorem Handed.Lawful.key_of_staked {h : Handed} {y : Ticket × Stake} (hl : h.Lawful cfg)
    (hx : h.staked = some ((key.home, key.cacheKey), y)) : h.job.commit.key = key := by
  obtain ⟨sink, ⟨r, _ | _ | _⟩, _ | _ | _ | _⟩ := h <;> cases hx
  · exact hl.2.1.unique ⟨rfl, rfl⟩
  · exact hl.2.1.unique ⟨rfl, rfl⟩

theorem exec_beside {s' : Shared} {tid : Tid} {i : Input} {a : o.Ans}
    (hx : exec s tid o i = some (s', a)) (hc : ¬ o.Concerns key)
    (hun : Undisturbed key (.exec tid (o, i))) (hl : ∀ h ∈ s'.jobs, h.Lawful cfg)
    (ht : ∀ ts, i = .time ts → s.clock < ts) :
    Page.Beside key s s' := by
  have slot {st : Inst} {k : String} {sl : Slot} (hk : ¬ key.Owns st k) : Page.Beside key s
    (s.setSlot st k sl) := by
    refine ⟨⟨s.clock, Nat.le_refl _, ?_⟩, Shared.closeOuts_setSlot, rfl⟩
    have hne : ¬ (key.home = st ∧ key.cacheKey = k) := by
      rintro ⟨rfl, rfl⟩
      exact hk ⟨rfl, rfl⟩
    simp only [Shared.page, Shared.slot_setSlot_of_ne hne]
    rfl
  have outs {st : Inst} {k : String} {rs : List Record} (hk : ¬ key.Owns st k) :
      Page.Beside key s (s.setCloseOuts st k rs) := by
    refine ⟨⟨s.clock, Nat.le_refl _, ?_⟩, ?_, rfl⟩
    · simp only [Shared.page, Shared.slot_setCloseOuts]
      rfl
    · rw [Shared.closeOuts_setCloseOuts, if_neg]
      rintro ⟨rfl, rfl⟩
      exact hk ⟨rfl, rfl⟩
  cases exec_effect hx with
  | quiet _ _ _ _ _ hs => exact .same hs
  | listerGet | lastKnownStates | scopeWasActive | sinkState | load | refused => exact .same (.refl s)
  | reserve | reserveDelete | commitIfCurrent | deleteIfCurrent | unclaimDelete | storeIfAbsent =>
    exact slot hc
  | closeOutsAdd | closeOutsTakeAll => exact outs hc
  | deletePrefix st pre =>
    refine ⟨⟨s.clock, Nat.le_refl _, ?_⟩, Shared.closeOuts_deletePrefix .., rfl⟩
    simp only [Shared.page, Shared.slot_deletePrefix]
    rw [if_neg]
    · rfl
    · rintro ⟨rfl, hpre⟩
      exact hun rfl hpre
  | now => exact ⟨⟨_, Nat.le_of_lt (ht _ rfl), rfl⟩, rfl, rfl⟩
  | accepted sink job =>
    refine ⟨⟨s.clock, Nat.le_refl _, ?_⟩, rfl, rfl⟩
    have hstake : key.sift (Handed.staked ⟨sink, job, .inFlight⟩) = none := by
      by_contra hne
      obtain ⟨y, hy⟩ := Option.ne_none_iff_exists'.mp hne
      exact hc (Handed.Lawful.key_of_staked (hl _ (List.mem_append_right _ (.head _)))
        (Key.sift_some.mp hy))
    have hkey : job.commit.key ≠ key := hc
    simp only [Shared.page, Shared.rowsOf, List.filter_append, Page.mk.injEq]
    refine ⟨rfl, by simp [hkey], ?_, trivial⟩
    funext j
    rw [List.getElem?_append]
    split_ifs with hlt
    · rfl
    · rw [List.getElem?_eq_none (l := s.jobs) (by omega)]
      by_cases hj : j - s.jobs.length = 0
      · simp [hj, hstake]
      · rw [List.getElem?_eq_none (by simp; omega)]

theorem filter_map_set {α β : Type} {l : List α} {j : Nat} {y z : α} {p : α → Bool} {f : α → β}
    (hj : l[j]? = some y) (hp : p z = p y) (hf : f z = f y) :
    ((l.set j z).filter p).map f = (l.filter p).map f := by
  obtain ⟨before, after, rfl, hset⟩ := exists_split_of_getElem? hj
  rw [hset]
  simp only [List.filter_append, List.map_append, List.filter_cons, hp]
  split_ifs <;> simp [hf]

theorem settled_page {j : Nat} {sink : String} {job : Job} {ok : Bool}
    (hj : s.jobs[j]? = some ⟨sink, job, .inFlight⟩) (hl : Handed.Lawful cfg ⟨sink, job, .inFlight⟩)
    (hok : job.commit.key = key → ok = true) :
    (s.settled j sink job ok).page key = s.page key ∨
      ∃ t x, (s.page key).stakes j = some (t, x) ∧ (s.settled j sink job ok).page key =
        (s.page key).settle j t x := by
  have hrows : (s.settled j sink job ok).rowsOf key = s.rowsOf key := by
    rw [Shared.rowsOf, Shared.settled_jobs, Shared.rowsOf]
    exact filter_map_set hj rfl rfl
  have hstake : (s.page key).stakes j = key.sift (Handed.staked ⟨sink, job, .inFlight⟩) := by
    simp [Shared.page, hj]
  have hstakes : ((s.settled j sink job ok).page key).stakes =
    Function.update (s.page key).stakes j none := by
    funext i
    have hw := congrFun (@World.staked_settled { shared := s } j sink job ok) (.job i)
    by_cases hi : i = j
    · subst hi
      simp only [World.staked, Function.update_self] at hw
      simp only [Shared.page, hw, Key.sift_none, Function.update_self]
    · rw [Function.update_of_ne (by simpa using hi)] at hw
      simp only [World.staked] at hw
      rw [Function.update_of_ne hi]
      simp only [Shared.page, hw]
  have hclock : ((s.settled j sink job ok).page key).clock = (s.page key).clock :=
    Shared.settled_clock ..
  cases hx : key.sift (Handed.staked ⟨sink, job, .inFlight⟩) with
  | none =>
    refine .inl (Page.ext ?_ hrows ?_ hclock)
    · simp only [Shared.page, Shared.settled_slot]
      cases hy : Handed.staked ⟨sink, job, .inFlight⟩ with
      | none =>
        obtain ⟨record, _ | _ | _⟩ := job
        · cases hy
        · cases hy
        · cases ok <;> simp [Shared.callback]
      | some y =>
        obtain ⟨⟨st, k⟩, t, x⟩ := y
        rw [World.callback_settle hy, if_neg]
        rintro ⟨rfl, rfl⟩
        simp [hy] at hx
    · rw [hstakes, Function.update_eq_self_iff, hstake, hx]
  | some y =>
    obtain ⟨t, x⟩ := y
    have hx' := Key.sift_some.mp hx
    obtain rfl : ok = true := hok (Handed.Lawful.key_of_staked hl hx')
    refine .inr ⟨t, x, hstake.trans hx, Page.ext ?_ hrows hstakes hclock⟩
    simp only [Shared.page, Shared.settled_slot, World.callback_settle hx', and_self, ↓reduceIte,
      Page.settle]

theorem settled_outs {j : Nat} {sink : String} {job : Job} {ok : Bool}
    (hl : Handed.Lawful cfg ⟨sink, job, .inFlight⟩) (hok : job.commit.key = key → ok = true)
    (h : s.closeOuts key.home key.cacheKey = []) :
    (s.settled j sink job ok).closeOuts key.home key.cacheKey = [] := by
  rw [Shared.settled_closeOuts, List.eq_nil_iff_forall_not_mem]
  intro r hr
  rcases mem_closeOuts_callback hr with hr | ⟨rfl, key', hc⟩
  · rw [h] at hr
    cases hr
  · obtain ⟨record, commit⟩ := job
    obtain rfl : commit = .closeOut key.home key.cacheKey key' r := hc
    cases hok (hl.2.1.unique ⟨rfl, rfl⟩)

namespace Chore

variable {cfg : Config} {key : Key} {tr : Trace} {p : Chore} {o : Op} {a : o.Ans}

def answer : Chore → Option Answer
  | .gone | .claiming _ _ => some .absent
  | .normed uid hash | .loaded uid hash _ | .shut uid hash _ | .reserved uid hash _ _ =>
    some (.present uid hash)
  | .done a => some a
  | _ => none

theorem shown_of_next {obj : Json} (h : next cfg key p o a = .shown obj) :
    (∃ key', (⟨o, a⟩ : Sigma Op.Ans) = ⟨.listerGet key', some ⟨some obj, true⟩⟩) ∨
      p = .shown obj ∧ ∀ key', o ≠ .listerGet key' := by
  unfold next at h
  split at h
  case h_2 => cases h; exact .inl ⟨_, rfl⟩
  all_goals try unfold orFailed at h
  all_goals try split_ifs at h
  all_goals first
    | (cases h; done)
    | (cases h; exact absurd rfl (‹∀ obj', Chore.shown obj = .shown obj' → False› obj))
    | (cases h; exact .inr ⟨rfl, fun _ => Op.noConfusion⟩)
    | (split at h <;> cases h)

theorem shown_after {obj : Json} (h : (protocol cfg key).after .fresh tr = .shown obj) :
    ∃ key' l, lastLookup tr = some (key', l) ∧ l.obj = some obj := by
  induction tr using List.reverseRecOn with
  | nil => cases h
  | append_singleton tr e ih =>
    obtain ⟨o, a⟩ := e
    rw [Protocol.after_snoc] at h
    rcases shown_of_next h with ⟨key', heq⟩ | ⟨hp, ho⟩
    · cases heq
      exact ⟨key', ⟨some obj, true⟩, by simp [lastLookup], rfl⟩
    · rw [lastLookup_snoc tr o a ho]
      exact ih hp

theorem answer_next {b : Answer} (h : (next cfg key p o a).answer = some b) : p.answer = some b ∨
    (∃ key', (⟨o, a⟩ : Sigma Op.Ans) = ⟨.listerGet key', some ⟨none, true⟩⟩ ∧ b = .absent) ∨
    ∃ obj key' policy norm, p = .shown obj ∧
      (⟨o, a⟩ : Sigma Op.Ans) = ⟨.redactionFor key', some policy⟩ ∧
      normalizeObject cfg.lib obj policy = some norm ∧ b = .present norm.uid norm.hash := by
  unfold next at h
  split at h
  case h_1 =>
    cases h
    exact .inr (.inl ⟨_, rfl, rfl⟩)
  case h_16 =>
    split at h
    · rename_i norm hnorm
      cases h
      exact .inr (.inr ⟨_, _, _, norm, rfl, rfl, hnorm, rfl⟩)
    · cases h
  all_goals try unfold orFailed at h
  all_goals try split_ifs at h
  all_goals first
    | (cases h; done)
    | exact .inl h

end Chore

theorem Chore.Allowed.unanswered {p : Chore} {a : o.Ans} {b : Answer} {tr : Trace}
    (hall : p.Allowed key o) (hb : p.answer = some b) :
    answerOf cfg key ⟨.worker key, tr, ⟨o, a⟩⟩ = none := by
  cases o with
  | listerGet | redactionFor => cases p <;> first | exact False.elim hall | cases hb
  | _ => simp [answerOf]

theorem lastAnswer_snoc (log : Log) (x : LogEntry Op.Ans Tid) :
    lastAnswer cfg key (log ++ [x]) = (answerOf cfg key x).or (lastAnswer cfg key log) := by
  simp [lastAnswer, List.foldl_append]

structure Accounts (cfg : Config) (key : Key) (c : View Op.Ans Tid Shared Hand)
    (v : ChoreView) : Prop where
  shared : v.shared = c.shared
  sound : (viewWorld c).Sound cfg
  gens : v.shared.gens key.sink = 0
  kept : (v.shared.page key).Kept
  outs : v.shared.closeOuts key.home key.cacheKey = []
  working : ∀ p, v.phase (.worker key) = some p →
    (v.shared.page key).Fits p ∧ ∀ a, p.answer = some a → lastAnswer cfg key v.log = some a
  idle : v.phase (.worker key) = none →
    (v.shared.page key).Steady ∧ ∀ a, lastAnswer cfg key v.log = some a → (v.shared.page key).Agrees a

section

variable {cfg : Config} {key : Key} {c c' : View Op.Ans Tid Shared Hand} {v v' : ChoreView} {d : Deed}

theorem Accounts.beside (h : Accounts cfg key c v) (hs : v'.shared = c'.shared)
    (hsound : (viewWorld c').Sound cfg) (hb : Page.Beside key v.shared v'.shared)
    (hp : v'.phase (.worker key) = v.phase (.worker key))
    (hl : lastAnswer cfg key v'.log = lastAnswer cfg key v.log) : Accounts cfg key c' v' := by
  obtain ⟨t, ht, hpage⟩ := hb.page
  refine ⟨hs, hsound, hb.gens.trans h.gens, hpage ▸ h.kept.wait ht, hb.outs.trans h.outs,
    fun p hp' => ?_, fun hn => ?_⟩
  · obtain ⟨hf, ha⟩ := h.working p (hp ▸ hp')
    exact ⟨hpage ▸ hf.wait ht, fun a hpa => hl.trans (ha a hpa)⟩
  · obtain ⟨hf, ha⟩ := h.idle (hp ▸ hn)
    rw [hpage, hl]
    exact ⟨hf.wait t, fun a hla => (ha a hla).wait t⟩

theorem Accounts.settled (h : Accounts cfg key c v) {j : Nat} {t : Ticket} {x : Stake}
    (hs : v'.shared = c'.shared) (hsound : (viewWorld c').Sound cfg)
    (hx : (v.shared.page key).stakes j = some (t, x)) (ht : (v.shared.page key).Timely j)
    (hpage : v'.shared.page key = (v.shared.page key).settle j t x)
    (hg : v'.shared.gens = v.shared.gens) (ho : v'.shared.closeOuts key.home key.cacheKey = [])
    (hp : v'.phase = v.phase) (hl : v'.log = v.log) : Accounts cfg key c' v' := by
  refine ⟨hs, hsound, hg ▸ h.gens, hpage ▸ h.kept.settle hx ht, ho, fun p hp' => ?_, fun hn => ?_⟩
  · obtain ⟨hf, ha⟩ := h.working p (hp ▸ hp')
    exact ⟨hpage ▸ hf.settle h.kept hx ht, hl ▸ ha⟩
  · obtain ⟨hf, ha⟩ := h.idle (hp ▸ hn)
    rw [hpage, hl]
    exact ⟨hf.imp fun _ ha => ha.settle h.kept hx ht, fun a hla => (ha a hla).settle h.kept hx ht⟩

theorem Accounts.own (h : Accounts cfg key c v) (hs : v'.shared = c'.shared)
    (hsound : (viewWorld c').Sound cfg) {o : Op} {i : Input} {a : o.Ans} {tr : Trace}
    (hp : v.phase (.worker key) = some ((Chore.protocol cfg key).after .fresh tr))
    (hall : ((Chore.protocol cfg key).after .fresh tr).Allowed key o)
    (hx : exec v.shared (.worker key) o i = some (v'.shared, a))
    (hd : Served cfg key v (.exec (.worker key) (o, i))) (hh : Heeded key v (.exec (.worker key) (o, i)))
    (hp' : v'.phase (.worker key) = some (((Chore.protocol cfg key).after .fresh tr).next cfg key o a))
    (hl : v'.log = v.log ++ [⟨.worker key, tr, ⟨o, a⟩⟩]) (hg : v'.shared.gens = v.shared.gens) :
    Accounts cfg key c' v' := by
  obtain ⟨hf, ha⟩ := h.working _ hp
  have hfol : Page.Follows key v'.shared
    (((Chore.protocol cfg key).after .fresh tr).next cfg key o a) := by
    refine Page.Follows.exec ⟨h.kept, hf, h.outs⟩ h.gens hall hx (hp ▸ hd.2.1 rfl) (fun ts hts => ?_) ?_
    · subst hts
      exact hd.2.2
    · rintro rfl
      have hh := hh rfl
      rwa [hp] at hh
  refine ⟨hs, hsound, hg ▸ h.gens, hfol.kept, hfol.outs, fun p hq => ?_, fun hn => ?_⟩
  · obtain rfl := Option.some.inj (hp'.symm.trans hq)
    refine ⟨hfol.fits, fun b hb => ?_⟩
    rw [hl, lastAnswer_snoc]
    rcases Chore.answer_next hb with hb | ⟨key', heq, rfl⟩ | ⟨obj, key', policy, norm, hshown, heq,
      hnorm, rfl⟩
    · rw [Chore.Allowed.unanswered hall hb, Option.none_or, ha b hb]
    · cases heq
      simp [answerOf]
    · cases heq
      obtain ⟨key'', l, hlook, hobj⟩ := Chore.shown_after hshown
      simp [answerOf, hlook, hobj, hnorm]
  · rw [hp'] at hn
    cases hn

theorem Accounts.move (h : Accounts cfg key c v) (hun : Undisturbed key d) (hd : Served cfg key v d)
    (hh : Heeded key v d) (hm : (machine cfg).Move (custody cfg) Hand.start Hand.Ended c d c')
    (hm' : (machine cfg).Move (Chore.protocol cfg key) (Chore.start key) (Chore.Ended key) v d v')
    (hshared : v'.shared = c'.shared) : Accounts cfg key c' v' := by
  have hsound := h.sound.turn (move_turn hm)
  cases hm' with
  | start t b s' code hn hs =>
    have hsame : v.shared.Same s' := start_same hs
    by_cases ht : .worker key = t
    · subst ht
      have hfresh : Chore.start key (.worker key) = .fresh := if_pos rfl
      have hpage : s'.page key = v.shared.page key := hsame.page
      refine ⟨hshared, hsound, by rw [hsame.gens,
        h.gens], hpage ▸ h.kept, by rw [hsame.closeOuts, h.outs],
        fun p hp => ?_, fun hn => ?_⟩
      · simp only [Function.update_self, hfresh, Option.some.injEq] at hp
        subst hp
        exact ⟨hpage ▸ (h.idle hn).1, fun _ ha => (by cases ha)⟩
      · simp at hn
    · exact h.beside hshared hsound (.same hsame) (Function.update_of_ne ht ..) rfl
  | exec t i o tr s' a hp hall _ hx =>
    by_cases ht : .worker key = t
    · subst ht
      have hfresh : Chore.start key (.worker key) = .fresh := if_pos rfl
      rw [hfresh] at hp hall
      have hg : s'.gens = v.shared.gens := exec_gens hx
      exact h.own hshared hsound hp hall hx hd hh (by simp [hfresh]; rfl) rfl hg
    · have hnc : ¬ o.Concerns key := by
        intro hc
        cases hm with
        | exec _ _ _ tr' s'' a' hp' hall' =>
          have hown := @after_owner cfg t tr'
          have hlaw := h.sound.phase t
          simp only [viewWorld, hp', Option.map_some, Option.getD_some] at hlaw
          rcases Hand.Allowed.concerns hall' (hown.symm ▸ hlaw) hc with ho | ho
          · exact ht (ho.symm.trans hown)
          · exact hd.1 (hown ▸ ho) hc
      refine h.beside hshared hsound
        (exec_beside hx hnc hun (fun j hj => hsound.jobs j ?_) fun ts hts => ?_)
        (Function.update_of_ne ht ..) ?_
      · obtain rfl : s' = c'.shared := hshared
        exact hj
      · subst hts
        exact hd.2.2
      · rw [lastAnswer_snoc]
        simp [answerOf, Ne.symm ht]
  | finish t a p hp hend =>
    have hsame : v.shared.Same (finish v.shared t a) := finish_same v.shared t a
    by_cases ht : .worker key = t
    · subst ht
      have hpage : (finish v.shared (.worker key) a).page key = v.shared.page key := hsame.page
      obtain ⟨hf, ha⟩ := h.working p hp
      refine ⟨hshared, hsound, by rw [← h.gens, ← hsame.gens]; rfl, hpage ▸ h.kept,
        (hsame.closeOuts _ _).trans h.outs, fun p hp => ?_, fun _ => ?_⟩
      · simp at hp
      · rcases hend rfl with rfl | ⟨b, rfl⟩
        · exact hf.elim
        · refine ⟨⟨b, hpage ▸ hf⟩, fun b' hb' => ?_⟩
          obtain rfl : b = b' := Option.some.inj ((ha b rfl).symm.trans hb')
          exact hpage ▸ hf
    · exact h.beside hshared hsound (.same hsame) (Function.update_of_ne ht ..) rfl
  | env e s' he =>
    cases env_effect he with
    | quiet _ _ hs => exact h.beside hshared hsound (.same hs) rfl rfl
    | removeSink sink =>
      refine h.beside hshared hsound ⟨⟨v.shared.clock, Nat.le_refl _, rfl⟩, rfl, ?_⟩ rfl rfl
      exact Function.update_of_ne (Ne.symm hun) ..
    | insert => exact h.beside hshared hsound ⟨⟨v.shared.clock, Nat.le_refl _, rfl⟩, rfl, rfl⟩ rfl rfl
    | settle j ok sink job hj hok =>
      have hl := h.sound.jobs _ (h.shared ▸ List.mem_of_getElem? hj)
      have hkey := hd _ hj
      have houts := settled_outs (j := j) hl hkey h.outs
      rcases settled_page hj hl hkey with hpage | ⟨t, x, hx, hpage⟩
      · exact h.beside hshared hsound ⟨⟨v.shared.clock, Nat.le_refl _, hpage⟩,
          houts.trans h.outs.symm, by simp⟩ rfl rfl
      · exact h.settled hshared hsound hx hh hpage (by simp) houts rfl rfl
  | crash => exact hun.elim

end

theorem Page.Agrees.tells {pg : Page} {a : Answer} (h : pg.Agrees a) (hk : pg.Kept) :
    Tells pg.rows a := by
  have newest {r : Record} (hr : pg.rows.getLast? = some r) : Newest pg.rows r := by
    obtain ⟨before, hb⟩ := List.getLast?_eq_some_iff.mp hr
    refine ⟨List.mem_of_getLast? hr, fun r' hr' hne => ?_⟩
    have hord := hk.ordered
    rw [hb] at hr' hord
    rcases List.mem_append.mp hr' with hr' | hr'
    · exact (List.pairwise_append.mp hord).2.2 r' hr' r (.head _)
    · exact absurd (List.mem_singleton.mp hr') hne
  cases a with
  | absent =>
    cases hr : pg.rows.getLast? with
    | none => exact .inl (List.getLast?_eq_none_iff.mp hr)
    | some r => exact .inr ⟨r, newest hr, h.1 r hr⟩
  | present uid hash =>
    obtain ⟨-, ⟨r, hr, hrow⟩, -⟩ := h
    exact ⟨r, newest hr, hrow⟩

def System.Settles (cfg : Config) (key : Key) (s : System) (d : Deed) : Prop :=
  Undisturbed key d ∧ Served cfg key (s.view (Chore.protocol cfg key) (Chore.start key)) d ∧
    Heeded key (s.view (Chore.protocol cfg key) (Chore.start key)) d

instance (cfg : Config) (key : Key) (s : System) (d : Deed) :
    Decidable (System.Settles cfg key s d) := by
  unfold System.Settles
  infer_instance

theorem settled_history_agrees {cfg : Config} {key : Key} {as : List Action} {s : System} {a : Answer}
    (h : Runs.Run (machine cfg).step (fun s a => ∀ d ∈ s.deed a, System.Settles cfg key s d)
      { shared := {} } as s)
    (he : key.ephemeral = false) (hidle : s.threads (.worker key) = none)
    (ha : lastAnswer cfg key s.log = some a) :
    Tells (s.shared.rowsOf key) a := by
  have hacc : Accounts cfg key (s.view (custody cfg) Hand.start)
    (s.view (Chore.protocol cfg key) (Chore.start key)) := by
    refine ((machine_safe cfg).invariant_from (Chore.safe cfg he) (I := fun s =>
      Accounts cfg key (s.view (custody cfg) Hand.start)
      (s.view (Chore.protocol cfg key) (Chore.start key))) h
      (fun _ _ ht => (by cases ht)) (fun _ _ ht => (by cases ht)) ?_ ?_).2.2
    · intro s a d s' hi hok hd hm hm'
      obtain ⟨hun, hserved, hheed⟩ := hok d hd
      exact hi.move hun hserved hheed hm hm' rfl
    · refine ⟨rfl, .empty, rfl, ?_, rfl, fun _ hp => (by cases hp),
        fun _ => ⟨⟨.absent, ?_, ?_⟩, fun _ ha => (by cases ha)⟩⟩
      · constructor <;> simp [Shared.page, Shared.rowsOf, System.view]
      · simp [Shared.page, Shared.rowsOf, System.view]
      · intro e he
        cases he
  have hnone : (s.view (Chore.protocol cfg key) (Chore.start key)).phase (.worker key) = none := by
    simp [System.view, hidle]
  exact ((hacc.idle hnone).2 a ha).tells hacc.kept

theorem overtaken_history_agrees :
    ∃ (s : System) (a : Answer), lastAnswer sampleConfig sampleKey s.log = some a ∧
      a ≠ .absent ∧ Tells (s.shared.rowsOf sampleKey) a := by
  obtain ⟨s, hrun, hidle, a, ha, hne⟩ := Runs.Run.exists_of_exec (machine sampleConfig).step
    (fun s a => ∀ d ∈ s.deed a, System.Settles sampleConfig sampleKey s d) { shared := {} }
    (addedSteps "u" 1 1 ++ modifiedSteps "u" 2 2 ++ landSteps 1 ++ landSteps 0 ++ deletedSteps 3 ++
      succeededSteps "v" 1 4 ++ landSteps 3 ++ landSteps 2)
    (fun s => (s.threads (.worker sampleKey)).isNone = true ∧
      ∃ a ∈ lastAnswer sampleConfig sampleKey s.log, a ≠ .absent) (by decide)
  exact ⟨s, a, ha, hne, settled_history_agrees hrun rfl (Option.isNone_iff_eq_none.mp hidle) ha⟩

/--
The object shows up again, unchanged, while its deletion is in flight: the answer counts as already
recorded.
-/
theorem settled_history_disagrees : ∃ (as : List Action) (s : System) (a : Answer),
    Runs.Run (machine sampleConfig).step
        (fun s a => ∀ d ∈ s.deed a, Undisturbed sampleKey d ∧
          Served sampleConfig sampleKey
            (s.view (Chore.protocol sampleConfig sampleKey) (Chore.start sampleKey)) d)
        { shared := {} } as s ∧
      (s.threads (.worker sampleKey)).isNone = true ∧ (∀ h ∈ s.shared.jobs, h.status ≠ .inFlight) ∧
      lastAnswer sampleConfig sampleKey s.log = some a ∧ ¬ Tells (s.shared.rowsOf sampleKey) a := by
  obtain ⟨s, hrun, hidle, hjobs, a, ha, hne, hrows⟩ :=
    Runs.Run.exists_of_exec (machine sampleConfig).step
    (fun s a => ∀ d ∈ s.deed a, Undisturbed sampleKey d ∧ Served sampleConfig sampleKey
      (s.view (Chore.protocol sampleConfig sampleKey) (Chore.start sampleKey)) d) { shared := {} }
    (addedSteps "u" 1 1 ++ landSteps 0 ++ deletedSteps 2 ++
      processSteps (observeInputs (sampleObject "u" 1) ++ [.go]) ++
      landSteps 1)
    (fun s => (s.threads (.worker sampleKey)).isNone = true ∧
      (∀ h ∈ s.shared.jobs, h.status ≠ .inFlight) ∧
      ∃ a ∈ lastAnswer sampleConfig sampleKey s.log, a ≠ .absent ∧
        ∀ r ∈ s.shared.rowsOf sampleKey, Newest (s.shared.rowsOf sampleKey) r →
        r.eventType = .deleted) (by decide)
  refine ⟨_, s, a, hrun, hidle, hjobs, ha, fun ht => ?_⟩
  cases a with
  | absent => exact hne rfl
  | present uid hash =>
    obtain ⟨r, hnew, hlive, -⟩ := ht
    exact hlive (hrows r hnew.1 hnew)

end Kuberecord
