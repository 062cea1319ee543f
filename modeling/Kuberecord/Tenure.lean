import Kuberecord.SlotClaimTurns

namespace Kuberecord

def Bench.Timely (b : Bench) (d : Deed) : Prop :=
  ∀ p ∈ d.settling, ∀ y ∈ b.stake p.1, b.slot.Current y.1.version → y.1.issue = b.slot.installs

instance (b : Bench) (d : Deed) : Decidable (b.Timely d) := by
  unfold Bench.Timely
  infer_instance

def Stake.Rests (e : CacheEntry) : Stake → Prop
  | .write c f => e.uid = c.uid ∧ e.pendingDelete = false ∧ c.pendingDelete = false ∧
    ∀ b ∈ f, b.uid = "" ∨ b.uid = c.uid
  | .death u _ => e.uid = u ∧ e.pendingDelete = true

theorem Stake.Sent.rests {x x' : Stake} {e : CacheEntry} (h : x.Sent x') (hx : x.Rests e) :
    x'.Rests e := by
  cases h <;> exact hx

def Stake.left (v : Nat) (e : CacheEntry) : Stake → Bool → Option CacheEntry
  | .write c _, true => some { c with version := v }
  | .write _ f, false => f.map (fun b => { b with version := v })
  | .death _ _, true => none
  | .death _ _, false => some { e with pendingDelete := false }

theorem Slot.settle_current {s : Slot} {t : Ticket} {e : CacheEntry} (he : s.entry = some e)
    (hv : e.version = t.version) (x : Stake) (ok : Bool) :
    s.settle t x ok = { s with entry := x.left t.version e ok } := by
  have hc : s.Current t.version := Slot.current_iff.mpr ⟨e, he, hv⟩
  cases x with
  | write c f =>
    cases ok with
    | true => simp [Slot.settle, Stake.left, Slot.commitIfCurrent_current hc]
    | false =>
      cases f with
      | none => simp [Slot.settle, Slot.fallBack, Stake.left, Slot.deleteIfCurrent_current hc,
          Slot.remove]
      | some b => simp [Slot.settle, Slot.fallBack, Stake.left, Slot.commitIfCurrent_current hc]
  | death u row =>
    cases ok with
    | true => simp [Slot.settle, Stake.left, Slot.deleteIfCurrent_current hc, Slot.remove]
    | false => simp [Slot.settle, Stake.left, Slot.unclaimDelete_current he hv]

theorem Slot.settle_stale {s : Slot} {t : Ticket} (hc : ¬ s.Current t.version) (hv : t.version ≠ 0)
    (x : Stake) (ok : Bool) : s.settle t x ok = s := by
  cases x with
  | write c f =>
    cases ok with
    | true => simp [Slot.settle, Slot.commitIfCurrent_stale hc hv]
    | false =>
      cases f with
      | none => simp [Slot.settle, Slot.fallBack, Slot.deleteIfCurrent_stale hc]
      | some b => simp [Slot.settle, Slot.fallBack, Slot.commitIfCurrent_stale hc hv]
  | death u row =>
    cases ok with
    | true => simp [Slot.settle, Slot.deleteIfCurrent_stale hc]
    | false => simp [Slot.settle, Slot.unclaimDelete_stale hc]

namespace Bench

variable {b b' : Bench} {h : Holder} {t : Ticket} {x : Stake}

structure Tenured (b : Bench) : Prop where
  issued : ∀ h t x, b.stake h = some (t, x) → t.issue ≤ b.slot.installs
  apart : ∀ h h' t t' x x', b.stake h = some (t, x) → b.stake h' = some (t', x') →
    t.issue = t'.issue → h = h'
  rests : ∀ h t x, b.stake h = some (t, x) → t.issue = b.slot.installs →
    ∃ e, b.slot.entry = some e ∧ e.version = t.version ∧ x.Rests e

theorem Tenured.congr (ht : b.Tenured) (hs : b'.slot = b.slot) (hk : b'.stake = b.stake) :
    b'.Tenured := by
  obtain ⟨slot, view, stake, closing⟩ := b
  obtain ⟨slot', view', stake', closing'⟩ := b'
  cases hs
  cases hk
  exact ⟨ht.issued, ht.apart, ht.rests⟩

theorem Tenured.install (ht : b.Tenured) {e : CacheEntry} (hs : b'.slot = b.slot.install e)
    (hk : b'.stake = b.stake) : b'.Tenured where
  issued h t x hx := by
    have := ht.issued h t x (hk ▸ hx)
    rw [hs]
    exact Nat.le_succ_of_le this
  apart := hk ▸ ht.apart
  rests h t x hx hi := by
    have := ht.issued h t x (hk ▸ hx)
    rw [hs] at hi
    simp only [Slot.install] at hi
    omega

theorem Tenured.stake (ht : b.Tenured) {e : CacheEntry} (hs : b'.slot = b.slot.install e)
    (hi : t.issue = b.slot.installs + 1) (hv : e.version = t.version) (hr : x.Rests e)
    (hk : b'.stake = Function.update b.stake h (some (t, x))) : b'.Tenured := by
  have old : ∀ {h' t' x'}, h' ≠ h → b'.stake h' = some (t', x') → t'.issue ≤ b.slot.installs := by
    intro h' t' x' hne hx
    rw [hk, Function.update_of_ne hne] at hx
    exact ht.issued h' t' x' hx
  have new : ∀ {t' x'}, b'.stake h = some (t', x') → t' = t ∧ x' = x := by
    intro t' x' hx
    rw [hk, Function.update_self] at hx
    cases hx
    exact ⟨rfl, rfl⟩
  have hin : b'.slot.installs = b.slot.installs + 1 := by rw [hs]; rfl
  refine ⟨fun h' t' x' hx => ?_, fun h₁ h₂ t₁ t₂ x₁ x₂ hx₁ hx₂ he => ?_, fun h' t' x' hx hi' => ?_⟩
  · by_cases hh : h' = h
    · subst hh
      obtain ⟨rfl, -⟩ := new hx
      omega
    · have := old hh hx
      omega
  · by_cases h1 : h₁ = h
    · subst h1
      by_cases h2 : h₂ = h₁
      · exact h2.symm
      · obtain ⟨rfl, -⟩ := new hx₁
        have := old h2 hx₂
        omega
    · by_cases h2 : h₂ = h
      · subst h2
        obtain ⟨rfl, -⟩ := new hx₂
        have := old h1 hx₁
        omega
      · rw [hk, Function.update_of_ne h1] at hx₁
        rw [hk, Function.update_of_ne h2] at hx₂
        exact ht.apart h₁ h₂ t₁ t₂ x₁ x₂ hx₁ hx₂ he
  · by_cases hh : h' = h
    · subst hh
      obtain ⟨rfl, rfl⟩ := new hx
      exact ⟨e, by rw [hs]; rfl, hv, hr⟩
    · have := old hh hx
      omega

theorem Tenured.send (ht : b.Tenured) {tid : Tid} {j : Nat} {x' : Stake}
    (hx : b.stake (.hand tid) = some (t, x)) (hsent : x.Sent x') (hs : b'.slot = b.slot)
    (hk : b'.stake = Function.update (Function.update b.stake (.hand tid) none) (.job j)
      (some (t, x'))) :
    b'.Tenured := by
  -- every stake was there before, under the same ticket
  have origin : ∀ {h t' y}, b'.stake h = some (t', y) → ∃ h₀ y₀, b.stake h₀ = some (t', y₀) ∧
      (∀ e, y₀.Rests e → y.Rests e) ∧ (h₀ = h ∨ h₀ = .hand tid ∧ h = .job j) := by
    intro h t' y hy
    rw [hk] at hy
    by_cases hj : h = .job j
    · subst hj
      rw [Function.update_self] at hy
      cases hy
      exact ⟨.hand tid, x, hx, fun e => hsent.rests, .inr ⟨rfl, rfl⟩⟩
    · rw [Function.update_of_ne hj] at hy
      by_cases hh : h = .hand tid
      · subst hh
        rw [Function.update_self] at hy
        cases hy
      · rw [Function.update_of_ne hh] at hy
        exact ⟨h, y, hy, fun _ => id, .inl rfl⟩
  have gone : b'.stake (.hand tid) = none := by
    rw [hk, Function.update_of_ne (by simp), Function.update_self]
  refine ⟨fun h t' y hy => ?_, fun h₁ h₂ t₁ t₂ y₁ y₂ hy₁ hy₂ he => ?_, fun h t' y hy hi => ?_⟩
  · obtain ⟨h₀, y₀, hy₀, -⟩ := origin hy
    exact hs ▸ ht.issued h₀ t' y₀ hy₀
  · obtain ⟨g₁, z₁, hz₁, -, ho₁⟩ := origin hy₁
    obtain ⟨g₂, z₂, hz₂, -, ho₂⟩ := origin hy₂
    have hg := ht.apart g₁ g₂ t₁ t₂ z₁ z₂ hz₁ hz₂ he
    rcases ho₁ with rfl | ⟨rfl, rfl⟩ <;> rcases ho₂ with rfl | ⟨rfl, rfl⟩
    · exact hg
    · subst hg
      simp [gone] at hy₁
    · subst hg
      simp [gone] at hy₂
    · rfl
  · obtain ⟨h₀, y₀, hy₀, hr, -⟩ := origin hy
    obtain ⟨e, he, hv, hre⟩ := ht.rests h₀ t' y₀ hy₀ (hi.trans (by rw [hs]))
    exact ⟨e, by rw [hs, he], hv, hr e hre⟩

theorem Tenured.settle_cases (ht : b.Tenured) (hx : b.stake h = some (t, x))
    (hcur : b.slot.Current t.version → t.issue = b.slot.installs) (hv : t.version ≠ 0) (ok : Bool) :
    (t.issue = b.slot.installs ∧ ∃ e, b.slot.entry = some e ∧ x.Rests e ∧
        b.slot.settle t x ok = { b.slot with entry := x.left t.version e ok }) ∨
      t.issue ≠ b.slot.installs ∧ b.slot.settle t x ok = b.slot := by
  by_cases hi : t.issue = b.slot.installs
  · obtain ⟨e, he, hev, hr⟩ := ht.rests h t x hx hi
    exact .inl ⟨hi, e, he, hr, Slot.settle_current he hev x ok⟩
  · exact .inr ⟨hi, Slot.settle_stale (fun hc => hi (hcur hc)) hv x ok⟩

theorem Tenured.settle (ht : b.Tenured) (hx : b.stake h = some (t, x))
    (hcur : b.slot.Current t.version → t.issue = b.slot.installs) (hv : t.version ≠ 0) {ok : Bool}
    (hs : b'.slot = b.slot.settle t x ok) (hk : b'.stake = Function.update b.stake h none) :
    b'.Tenured := by
  have rest : ∀ {h' t' x'}, b'.stake h' = some (t', x') → h' ≠ h ∧ b.stake h' = some (t', x') := by
    intro h' t' x' hx'
    rw [hk] at hx'
    by_cases hh : h' = h
    · subst hh
      rw [Function.update_self] at hx'
      cases hx'
    · rw [Function.update_of_ne hh] at hx'
      exact ⟨hh, hx'⟩
  have hin : b'.slot.installs = b.slot.installs := by
    rcases ht.settle_cases hx hcur hv ok with ⟨-, e, -, -, he⟩ | ⟨-, he⟩ <;> rw [hs, he]
  refine ⟨fun h' t' x' hx' => ?_, fun h₁ h₂ t₁ t₂ x₁ x₂ hx₁ hx₂ => ?_, fun h' t' x' hx' hi' => ?_⟩
  · exact hin ▸ ht.issued h' t' x' (rest hx').2
  · exact ht.apart h₁ h₂ t₁ t₂ x₁ x₂ (rest hx₁).2 (rest hx₂).2
  · obtain ⟨hne, hx'⟩ := rest hx'
    rcases ht.settle_cases hx hcur hv ok with ⟨hi, -⟩ | ⟨-, he⟩
    · exact absurd (ht.apart h' h t' t x' x hx' hx (by rw [hi', hin, hi])) hne
    · rw [hs, he]
      exact ht.rests h' t' x' hx' (by rw [hi', hin])

theorem Timely.at {d : Deed} {ok : Bool} (hd : b.Timely d) (hs : d.settling = some (h, ok))
    (hx : b.stake h = some (t, x)) :
    b.slot.Current t.version → t.issue = b.slot.installs := hd (h, ok) hs (t, x) hx

end Bench

theorem Desk.Step.tenured {st : Inst} {k : String} {s s' : Desk} {d : Deed} (hstep : s.Step st k s' d)
    (hd : s.Timely d) (ht : s.Tenured) : s'.Tenured := by
  cases hstep with
  | rest _ hb | drop _ _ _ hb | load _ _ hb | outrun _ _ _ _ hb | date _ _ _ hb
  | recover _ _ _ _ _ _ hb =>
    exact ht.congr (by rw [hb]) (by rw [hb])
  | reserve tid base e hview hprec hpend hnone hb =>
    exact ht.stake (e := { e with version := s.slot.version + 1 }) (t := (s.slot.reserve e).2)
      (x := .write e base)
      (by rw [hb]; rfl) rfl rfl ⟨rfl, hpend, hpend, hprec⟩ (by rw [hb])
  | claim _ tid uid slot e t hc hnone hb =>
    exact ht.stake (e := { e with version := e.version + 1, pendingDelete := true }) (t := t)
      (x := .death e.uid none)
      (by rw [hb, hc.slot]) (by rw [hc.ticket]) (by rw [hc.ticket]) ⟨rfl, rfl⟩ (by rw [hb])
  | supersede _ b slot e t hview hu hc hclosing hb => exact ht.install (by rw [hb, hc.slot]) (by rw [hb])
  | send _ tid j t x x' hx hj hsent hb => exact ht.send hx hsent (by rw [hb]) (by rw [hb])
  | settle _ h ok t x hset hx hv hb => exact ht.settle hx (hd.at hset hx) hv (by rw [hb]) (by rw [hb])
  | seed tid e hp hb =>
    cases he : s.slot.entry with
    | none =>
      exact ht.install (e := { e with version := 1 }) (by rw [hb]; simp [Slot.storeIfAbsent, he])
        (by rw [hb])
    | some e' => exact ht.congr (by rw [hb]; simp [Slot.storeIfAbsent, he]) (by rw [hb])

end Kuberecord
