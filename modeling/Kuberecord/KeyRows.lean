import Kuberecord.ProcessSteps
import Kuberecord.Tenure

namespace Kuberecord

@[ext]
structure Page where
  slot : Slot
  rows : List Record
  stakes : Nat → Option (Ticket × Stake)
  clock : Nat

def Stake.Vouches (e : CacheEntry) : Stake → Prop
  | .write c _ => c.uid = e.uid ∧ c.hash = e.hash ∧ c.pendingDelete = false ∧ e.pendingDelete = false
  | .death _ _ => e.pendingDelete = true

namespace Page

variable {pg : Page} {t : Ticket} {x : Stake} {e : CacheEntry} {j : Nat}

structure Kept (pg : Page) : Prop where
  ordered : pg.rows.Pairwise (·.timestamp < ·.timestamp)
  below : ∀ r ∈ pg.rows, r.timestamp ≤ pg.clock
  version : ∀ j t x, pg.stakes j = some (t, x) → t.version ≠ 0
  issued : ∀ j t x, pg.stakes j = some (t, x) → t.issue ≤ pg.slot.installs
  apart : ∀ j j' t t' x x', pg.stakes j = some (t, x) → pg.stakes j' = some (t', x') →
    t.issue = t'.issue → j = j'
  vouched : ∀ j t x, pg.stakes j = some (t, x) → t.issue = pg.slot.installs →
    ∃ e, pg.slot.entry = some e ∧ e.version = t.version ∧ x.Vouches e

def Agrees (pg : Page) : Answer → Prop
  | .absent => (∀ r, pg.rows.getLast? = some r → r.eventType = .deleted) ∧
      ∀ e, pg.slot.entry = some e → e.pendingDelete = true
  | .present uid hash => uid ≠ "" ∧
    (∃ r, pg.rows.getLast? = some r ∧ r.eventType ≠ .deleted ∧ r.uid = uid ∧ r.sha256 = hash) ∧
      ∃ e, pg.slot.entry = some e ∧ e.uid = uid ∧ e.hash = hash ∧ e.pendingDelete = false

def Steady (pg : Page) : Prop := ∃ a, pg.Agrees a

structure Holds (pg : Page) (t : Ticket) (p : CacheEntry → Prop) : Prop where
  version : t.version ≠ 0
  issue : t.issue = pg.slot.installs
  entry : ∃ e, pg.slot.entry = some e ∧ e.version = t.version ∧ p e
  alone : ∀ j t' x, pg.stakes j = some (t', x) → t'.issue ≠ pg.slot.installs

def Dated (pg : Page) (ts : Option Nat) : Prop := ∀ t ∈ ts, t ≤ pg.clock ∧ ∀ r ∈ pg.rows, r.timestamp < t

def Timely (pg : Page) (j : Nat) : Prop :=
  ∀ y ∈ pg.stakes j, pg.slot.Current y.1.version → y.1.issue = pg.slot.installs

instance (pg : Page) (j : Nat) : Decidable (pg.Timely j) :=
  inferInstanceAs (Decidable (∀ y ∈ pg.stakes j, _))

def settle (pg : Page) (j : Nat) (t : Ticket) (x : Stake) : Page :=
  { pg with slot := pg.slot.settle t x true, stakes := Function.update pg.stakes j none }

theorem Kept.settle_cases (h : pg.Kept) (hx : pg.stakes j = some (t, x)) (ht : pg.Timely j) :
    (∃ e, pg.slot.entry = some e ∧ x.Vouches e ∧ t.issue = pg.slot.installs ∧
      pg.slot.settle t x true = { pg.slot with entry := x.left t.version e true }) ∨
      t.issue ≠ pg.slot.installs ∧ pg.slot.settle t x true = pg.slot := by
  by_cases hi : t.issue = pg.slot.installs
  · obtain ⟨e, he, hv, hx'⟩ := h.vouched j t x hx hi
    exact .inl ⟨e, he, hx', hi, Slot.settle_current he hv x true⟩
  · exact .inr ⟨hi, Slot.settle_stale (fun hc => hi (ht (t, x) hx hc)) (h.version j t x hx) x true⟩

theorem Kept.settle (h : pg.Kept) (hx : pg.stakes j = some (t, x)) (ht : pg.Timely j) :
    (pg.settle j t x).Kept := by
  have hin : (pg.settle j t x).slot.installs = pg.slot.installs := by
    rcases h.settle_cases hx ht with ⟨e, -, -, -, hs⟩ | ⟨-, hs⟩ <;> simp only [Page.settle, hs]
  have old {j' : Nat} {y : Ticket × Stake} (hy : (pg.settle j t x).stakes j' = some y) :
      j' ≠ j ∧ pg.stakes j' = some y := by
    by_cases hj : j' = j
    · simp [Page.settle, hj] at hy
    · exact ⟨hj, by simpa [Page.settle, hj] using hy⟩
  refine ⟨h.ordered, h.below, fun j' t' x' hy => h.version j' t' x' (old hy).2, fun j' t' x' hy => ?_,
    fun j₁ j₂ t₁ t₂ x₁ x₂ h₁ h₂ => h.apart j₁ j₂ t₁ t₂ x₁ x₂ (old h₁).2 (old h₂).2,
    fun j' t' x' hy hi => ?_⟩
  · rw [hin]
    exact h.issued j' t' x' (old hy).2
  · obtain ⟨hj, hy⟩ := old hy
    rw [hin] at hi
    rcases h.settle_cases hx ht with ⟨e, -, -, hi', -⟩ | ⟨-, hs⟩
    · exact absurd (h.apart j' j t' t x' x hy hx (hi.trans hi'.symm)) hj
    · obtain ⟨e, he, hv⟩ := h.vouched j' t' x' hy hi
      exact ⟨e, by simp only [Page.settle, hs, he], hv⟩

theorem Agrees.settle {a : Answer} (ha : pg.Agrees a) (h : pg.Kept) (hx : pg.stakes j = some (t, x))
    (ht : pg.Timely j) :
    (pg.settle j t x).Agrees a := by
  rcases h.settle_cases hx ht with ⟨e, he, hvouch, -, hs⟩ | ⟨-, hs⟩
  · cases x with
    | write c f =>
      obtain ⟨hu, hh, hc, hp⟩ := hvouch
      cases a with
      | absent => exact absurd (ha.2 e he) (by simp [hp])
      | present uid hash =>
        obtain ⟨h0, hlast, e', he', rfl, rfl, -⟩ := ha
        cases he.symm.trans he'
        exact ⟨h0, hlast, { c with version := t.version },
          by simp only [Page.settle, hs, Stake.left], hu, hh, hc⟩
    | death u row =>
      cases a with
      | absent => exact ⟨ha.1, fun e' he' => (by simp [Page.settle, hs, Stake.left] at he')⟩
      | present uid hash =>
        obtain ⟨-, -, e', he', -, -, hp⟩ := ha
        cases he.symm.trans he'
        rw [show e.pendingDelete = true from hvouch] at hp
        cases hp
  · cases a with
    | absent => exact ⟨ha.1, by simpa only [Page.settle, hs] using ha.2⟩
    | present uid hash => exact ⟨ha.1, ha.2.1, by simpa only [Page.settle, hs] using ha.2.2⟩

theorem Holds.settle {t₀ : Ticket} {p : CacheEntry → Prop} (hh : pg.Holds t₀ p) (h : pg.Kept)
    (hx : pg.stakes j = some (t, x)) (ht : pg.Timely j) : (pg.settle j t x).Holds t₀ p := by
  rcases h.settle_cases hx ht with ⟨e, -, -, hi, -⟩ | ⟨-, hs⟩
  · exact absurd hi (hh.alone j t x hx)
  · refine ⟨hh.version, by simpa only [Page.settle, hs] using hh.issue, by simpa only [Page.settle,
      hs] using hh.entry,
      fun j' t' x' hy => ?_⟩
    by_cases hj : j' = j
    · simp [Page.settle, hj] at hy
    · simp only [Page.settle, hs]
      exact hh.alone j' t' x' (by simpa [Page.settle, hj] using hy)

theorem Kept.wait {c : Nat} (h : pg.Kept) (hc : pg.clock ≤ c) : { pg with clock := c }.Kept :=
  ⟨h.ordered, fun r hr => (h.below r hr).trans hc, h.version, h.issued, h.apart, h.vouched⟩

theorem Kept.install (h : pg.Kept) : { pg with slot := pg.slot.install e }.Kept ∧
    ∀ j t x, pg.stakes j = some (t, x) → t.issue ≠ (pg.slot.install e).installs := by
  have stale (j : Nat) (t : Ticket) (x : Stake) (hx : pg.stakes j = some (t, x)) :
      t.issue ≠ (pg.slot.install e).installs := by
    have := h.issued j t x hx
    simp only [Slot.install]
    omega
  refine ⟨⟨h.ordered, h.below, h.version, fun j t x hx => ?_, h.apart,
    fun j t x hx hi => absurd hi (stale j t x hx)⟩, stale⟩
  exact (h.issued j t x hx).trans (Nat.le_succ _)

theorem Kept.reserve (h : pg.Kept) (e : CacheEntry) : { pg with slot := (pg.slot.reserve e).1 }.Kept ∧
    { pg with slot := (pg.slot.reserve e).1 }.Holds (pg.slot.reserve e).2
      (fun e' => e'.uid = e.uid ∧ e'.hash = e.hash ∧ e'.pendingDelete = e.pendingDelete) := by
  obtain ⟨hk, hs⟩ := h.install (e := { e with version := pg.slot.version + 1 })
  exact ⟨hk, by simp [Slot.reserve], rfl, ⟨_, rfl, rfl, rfl, rfl, rfl⟩, hs⟩

theorem Kept.claim (h : pg.Kept) {uid : String} {slot : Slot} (hc : pg.slot.Claims uid slot e t) :
    { pg with slot := slot }.Kept ∧ { pg with slot := slot }.Holds t
    (fun e' => e'.pendingDelete = true) := by
  rw [hc.slot, hc.ticket]
  obtain ⟨hk, hs⟩ := h.install (e := { e with version := e.version + 1, pendingDelete := true })
  exact ⟨hk, by simp, rfl, ⟨_, rfl, rfl, rfl⟩, hs⟩

def issue (pg : Page) (r : Record) : Page := { pg with rows := pg.rows ++ [r] }

theorem Kept.issue (h : pg.Kept) {r : Record} (hd : pg.Dated (some r.timestamp)) :
    (pg.issue r).Kept := by
  obtain ⟨hc, hr⟩ := hd r.timestamp rfl
  refine ⟨?_, fun r' hr' => ?_, h.version, h.issued, h.apart, h.vouched⟩
  · refine List.pairwise_append.mpr ⟨h.ordered, List.pairwise_singleton _ _, fun a ha b hb => ?_⟩
    rw [List.mem_singleton.mp hb]
    exact hr a ha
  · rcases List.mem_append.mp hr' with hr' | hr'
    · exact h.below r' hr'
    · rw [List.mem_singleton.mp hr']
      exact hc

theorem Kept.send {p : CacheEntry → Prop} (h : pg.Kept) (hh : pg.Holds t p)
    (hp : ∀ e, p e → x.Vouches e) :
    { pg with stakes := Function.update pg.stakes j (some (t, x)) }.Kept := by
  have cases_stake {j' : Nat} {y : Ticket × Stake}
    (hy : Function.update pg.stakes j (some (t, x)) j' = some y) :
      j' = j ∧ y = (t, x) ∨ j' ≠ j ∧ pg.stakes j' = some y := by
    by_cases hj : j' = j
    · subst hj
      rw [Function.update_self, Option.some.injEq] at hy
      exact .inl ⟨rfl, hy.symm⟩
    · rw [Function.update_of_ne hj] at hy
      exact .inr ⟨hj, hy⟩
  refine ⟨h.ordered, h.below, fun j' t' x' hy => ?_, fun j' t' x' hy => ?_,
    fun j₁ j₂ t₁ t₂ x₁ x₂ h₁ h₂ he => ?_,
    fun j' t' x' hy hi => ?_⟩
  · rcases cases_stake hy with ⟨-, hy⟩ | ⟨-, hy⟩
    · cases hy
      exact hh.version
    · exact h.version j' t' x' hy
  · rcases cases_stake hy with ⟨-, hy⟩ | ⟨-, hy⟩
    · cases hy
      exact hh.issue.le
    · exact h.issued j' t' x' hy
  · rcases cases_stake h₁ with ⟨rfl, hy⟩ | ⟨hj, hy⟩ <;> rcases cases_stake h₂ with ⟨rfl,
      hy'⟩ | ⟨hj', hy'⟩
    · rfl
    · cases hy
      exact absurd (he.symm.trans hh.issue) (hh.alone j₂ t₂ x₂ hy')
    · cases hy'
      exact absurd (he.trans hh.issue) (hh.alone j₁ t₁ x₁ hy)
    · exact h.apart j₁ j₂ t₁ t₂ x₁ x₂ hy hy' he
  · rcases cases_stake hy with ⟨-, hy⟩ | ⟨-, hy⟩
    · cases hy
      obtain ⟨e, he, hv, hpe⟩ := hh.entry
      exact ⟨e, he, hv, hp e hpe⟩
    · exact h.vouched j' t' x' hy hi

def Fits (pg : Page) : Chore → Prop
  | .fresh | .gone => pg.Steady
  | .shown obj => obj.getUID ≠ "" ∧ pg.Steady
  | .normed uid _ => uid ≠ "" ∧ pg.Steady
  | .loaded uid _ base =>
    uid ≠ "" ∧ pg.Steady ∧ ∀ b ∈ base, b.pendingDelete = false → pg.Agrees (.present b.uid b.hash)
  | .shut uid _ ts => uid ≠ "" ∧ pg.Dated ts
  | .reserved uid hash t ts => uid ≠ "" ∧ pg.Dated ts ∧
      pg.Holds t (fun e => e.uid = uid ∧ e.hash = hash ∧ e.pendingDelete = false)
  | .claiming t ts => pg.Dated ts ∧ pg.Holds t (fun e => e.pendingDelete = true)
  | .done a => pg.Agrees a
  | .failed | .other => False

theorem Dated.wait {ts : Option Nat} {c : Nat} (h : pg.Dated ts) (hc : pg.clock ≤ c) :
    { pg with clock := c }.Dated ts :=
  fun t ht => ⟨(h t ht).1.trans hc, (h t ht).2⟩

theorem Agrees.wait {a : Answer} (c : Nat) (h : pg.Agrees a) : { pg with clock := c }.Agrees a := by
  cases a <;> exact h

theorem Steady.wait (c : Nat) (h : pg.Steady) : { pg with clock := c }.Steady :=
  h.imp fun _ => Agrees.wait c

theorem Holds.wait {p : CacheEntry → Prop} (c : Nat) (h : pg.Holds t p) :
    { pg with clock := c }.Holds t p :=
  ⟨h.version, h.issue, h.entry, h.alone⟩

theorem Fits.wait {p : Chore} {c : Nat} (h : pg.Fits p) (hc : pg.clock ≤ c) :
    { pg with clock := c }.Fits p := by
  cases p with
  | fresh | gone => exact Steady.wait c h
  | shown | normed => exact ⟨h.1, h.2.wait c⟩
  | loaded => exact ⟨h.1, h.2.1.wait c, fun b hb hp => (h.2.2 b hb hp).wait c⟩
  | shut => exact ⟨h.1, h.2.wait hc⟩
  | reserved => exact ⟨h.1, h.2.1.wait hc, h.2.2.wait c⟩
  | claiming => exact ⟨h.1.wait hc, h.2.wait c⟩
  | done => exact Agrees.wait c h
  | failed | other => exact h

theorem Fits.settle {p : Chore} (h : pg.Fits p) (hk : pg.Kept) (hx : pg.stakes j = some (t, x))
    (ht : pg.Timely j) :
    (pg.settle j t x).Fits p := by
  have steady (h : pg.Steady) : (pg.settle j t x).Steady := h.imp fun _ ha => ha.settle hk hx ht
  cases p with
  | fresh | gone => exact steady h
  | shown | normed => exact ⟨h.1, steady h.2⟩
  | loaded => exact ⟨h.1, steady h.2.1, fun b hb hp => (h.2.2 b hb hp).settle hk hx ht⟩
  | shut | failed | other => exact h
  | reserved => exact ⟨h.1, h.2.1, h.2.2.settle hk hx ht⟩
  | claiming => exact ⟨h.1, h.2.settle hk hx ht⟩
  | done => exact Agrees.settle h hk hx ht

theorem Steady.absent (h : pg.Steady) (he : ∀ e, pg.slot.entry = some e → e.pendingDelete = true) :
    pg.Agrees .absent := by
  obtain ⟨_ | ⟨uid, hash⟩, ha⟩ := h
  · exact ha
  · obtain ⟨-, -, e, hs, -, -, hp⟩ := ha
    rw [he e hs] at hp
    cases hp

theorem Steady.present (h : pg.Steady) (he : pg.slot.entry = some e) (hp : e.pendingDelete = false) :
    pg.Agrees (.present e.uid e.hash) := by
  obtain ⟨_ | ⟨uid, hash⟩, ha⟩ := h
  · rw [ha.2 e he] at hp
    cases hp
  · obtain ⟨h0, hlast, e', hs, rfl, rfl, hp'⟩ := ha
    cases he.symm.trans hs
    exact ⟨h0, hlast, e, he, rfl, rfl, hp⟩

end Page

end Kuberecord
