import Kuberecord.ClaimedDeaths
import Kuberecord.Events
import Kuberecord.OrderKeys

namespace Kuberecord

open Threads

namespace Desk

variable {st : Inst} {k : String} {s s' : Desk} {d : Deed} {u : String} {born : Option Record}
variable {r : Record} {t : Ticket}

def Closed (s : Desk) (u : String) (r : Record) : Prop := (s.landed r ∨ s.loose r) ∧ r.uid = u

/--
What must not happen while a death is on its way: another observation of the incarnation, a seeding
of it, a close-out from history that differs or comes on top of a claim.
-/
def Sole (st : Inst) (k : String) (s : Desk) : Deed → Prop
  | .exec _ (.reserve st' k' e, _) => st' = st → k' = k → ¬ s.Dead e.uid
  | .exec _ (.storeIfAbsent st' k' e, _) => st' = st → k' = k → s.slot.entry = none → ¬ s.Dead e.uid
  | .exec tid (.enqueue _ ⟨_, .closeOut st' k' _ r⟩, _) => tid.isWorker = false → st' = st → k' = k →
      (∀ r', s.Closed r.uid r' → r' = r) ∧ (∀ h t row, s.stake h ≠ some (t, .death r.uid row)) ∧
        s.closing ≠ some r.uid ∧ ¬ Claimable r.uid s.slot.entry
  | _ => True

def Honest (s : Desk) (d : Deed) : Prop :=
  ∀ h t u r, d.settling = some (h, false) → s.stake h = some (t, .death u (some r)) → ¬ s.landed r

structure Single (s : Desk) (u : String) : Prop where
  row : ∀ r r', s.Closed u r → s.Closed u r' → r = r'
  stake : ∀ h t row, s.stake h = some (t, .death u row) →
    (∀ h' t' row', s.stake h' = some (t', .death u row') → h' = h ∧ row' = row) ∧
      (∀ r, s.loose r → r.uid ≠ u) ∧ (∀ r, s.landed r → r.uid = u → row = some r) ∧ s.closing ≠ some u
  closing : s.closing = some u → ∀ r, ¬ s.Closed u r
  entry : Claimable u s.slot.entry → ¬ s.Dead u

theorem Closed.dead (h : s.Closed u r) : s.Dead u := by
  obtain ⟨hr | hr, hu⟩ := h
  · exact .bound (.landed r hr hu)
  · exact .bound (.loose r hr hu)

theorem Single.of_not_dead (h : ¬ s.Dead u) : s.Single u where
  row _ _ hr := absurd hr.dead h
  stake x t row hx := absurd (.stake x t row hx) h
  closing hc := absurd (.bound (.closing hc)) h
  entry _ := h

theorem Closed.back (h : s'.Closed u r) (hk : s.Keeps s' born) :
    s.Closed u r ∨ born = some r ∨ ∃ j t, s.stake (.job j) = some (t, .death u (some r)) := by
  obtain ⟨hr | hr, hu⟩ := h
  · rcases hk.lands r hr with hr | hr | ⟨j, t, hx⟩
    · exact .inl ⟨.inl hr, hu⟩
    · exact .inl ⟨.inr hr, hu⟩
    · exact .inr (.inr ⟨j, t, hu ▸ hx⟩)
  · rcases hk.fresh r hr with hr | hr
    · exact .inl ⟨.inr hr, hu⟩
    · exact .inr (.inl hr)

theorem Single.row_of_stake (h : s.Single u) {x : Holder} {row : Option Record}
    (hx : s.stake x = some (t, .death u row)) (hr : s.Closed u r) : row = some r := by
  obtain ⟨-, hloose, hland, -⟩ := h.stake x t row hx
  obtain ⟨hr | hr, hu⟩ := hr
  · exact hland r hr hu
  · exact absurd hu (hloose r hr)

theorem Single.keep (h : s.Single u) (hk : s.Keeps s' born) (hborn : ∀ r ∈ born, r.uid ≠ u)
    (hst : ∀ x t row, s'.stake x = some (t, .death u row) ↔ s.stake x = some (t, .death u row))
    (hcl : s'.closing = some u ↔ s.closing = some u) (hent : Claimable u s'.slot.entry → ¬ s.Dead u) :
    s'.Single u := by
  have back {r : Record} (hr : s'.Closed u r) :
      s.Closed u r ∨ ∃ j t, s.stake (.job j) = some (t, .death u (some r)) := by
    rcases hr.back hk with hr' | hb | hx
    · exact .inl hr'
    · exact absurd hr.2 (hborn r hb)
    · exact .inr hx
  refine ⟨fun r r' hr hr' => ?_,
    fun x t row hx => ⟨fun x' t' row' hx' => ?_, fun r hr hu => ?_, fun r hr hu => ?_, ?_⟩,
    fun hc r hr => ?_, fun hc hd => hent hc ?_⟩
  · rcases back hr with hr | ⟨j, t, hx⟩ <;> rcases back hr' with hr' | ⟨j', t', hx'⟩
    · exact h.row r r' hr hr'
    · exact Option.some.inj (h.row_of_stake hx' hr).symm
    · exact Option.some.inj (h.row_of_stake hx hr')
    · exact Option.some.inj ((h.stake _ _ _ hx').1 _ _ _ hx).2
  · exact (h.stake x t row ((hst x t row).mp hx)).1 x' t' row' ((hst x' t' row').mp hx')
  · rcases hk.fresh r hr with hr | hb
    · exact (h.stake x t row ((hst x t row).mp hx)).2.1 r hr hu
    · exact hborn r hb hu
  · rcases back ⟨.inl hr, hu⟩ with hr | ⟨j, t', hx'⟩
    · exact h.row_of_stake ((hst x t row).mp hx) hr
    · exact ((h.stake x t row ((hst x t row).mp hx)).1 _ _ _ hx').2.symm
  · exact fun hc => (h.stake x t row ((hst x t row).mp hx)).2.2.2 (hcl.mp hc)
  · rcases back hr with hr | ⟨j, t, hx⟩
    · exact h.closing (hcl.mp hc) r hr
    · exact (h.stake _ _ _ hx).2.2.2 (hcl.mp hc)
  · rcases hd with (⟨r, hr, hu⟩ | ⟨r, hr, hu⟩ | hc') | ⟨x, t, row, hx⟩
    · rcases back ⟨.inl hr, hu⟩ with hr | ⟨j, t, hx⟩
      · exact hr.dead
      · exact .stake _ _ _ hx
    · rcases back ⟨.inr hr, hu⟩ with hr | ⟨j, t, hx⟩
      · exact hr.dead
      · exact .stake _ _ _ hx
    · exact .bound (.closing (hcl.mp hc'))
    · exact .stake x t row ((hst x t row).mp hx)

theorem not_closed_of_not_dead (hd : ¬ s.Dead u) (hk : s.Keeps s' none) (r : Record) :
    ¬ s'.Closed u r := by
  intro hr
  rcases hr.back hk with hr | hb | ⟨j, t, hx⟩
  · exact hd hr.dead
  · cases hb
  · exact hd (.stake _ _ _ hx)

theorem Single.claim (h : s.Single u) (hk : s.Keeps s' none) {tid : Tid} {uid : String}
    {slot : Slot} {e : CacheEntry} (hc : s.slot.Claims uid slot e t)
    (hn : s.stake (.hand tid) = none)
    (hb : s'.toBench = { s.toBench with
      slot := slot
      stake := Function.update s.stake (.hand tid) (some (t, .death e.uid none)) }) : s'.Single u := by
  have hent : ¬ Claimable u s'.slot.entry := by
    rintro ⟨_, he, -, hp⟩
    rw [hb, hc.slot] at he
    cases he
    cases hp
  by_cases he : e.uid = u
  · have hd : ¬ s.Dead u := h.entry ⟨e, hc.entry, he, hc.unclaimed⟩
    have hclosed := not_closed_of_not_dead hd hk
    have hcl : s'.closing ≠ some u := fun hx => hd (.bound (.closing (by rw [hb] at hx; exact hx)))
    have only : ∀ x t' row, s'.stake x = some (t', .death u row) → x = .hand tid ∧ row = none := by
      intro x t' row hx
      rw [hb] at hx
      by_cases hh : x = .hand tid
      · simp only [hh, Function.update_self, Option.some.injEq, Prod.mk.injEq, Stake.death.injEq] at hx
        exact ⟨hh, hx.2.2.symm⟩
      · exact absurd (.stake x t' row (by simpa [hh] using hx)) hd
    refine ⟨fun r _ hr => absurd hr (hclosed r),
      fun x t' row hx => ⟨fun x' t'' row' hx' => ?_, ?_, ?_, hcl⟩,
      fun hx => absurd hx hcl, fun hx => absurd hx hent⟩
    · obtain ⟨rfl, rfl⟩ := only x t' row hx
      exact only x' t'' row' hx'
    · exact fun r hr hu => hclosed r ⟨.inr hr, hu⟩
    · exact fun r hr hu => absurd ⟨.inl hr, hu⟩ (hclosed r)
  · refine h.keep hk (by simp) (fun x t' row => ?_) (by rw [hb]) (fun hx => absurd hx hent)
    rw [hb]
    by_cases hh : x = .hand tid
    · simp [hh, hn, he]
    · simp [hh]

theorem Single.supersede (h : s.Single u) (hk : s.Keeps s' none) {b : CacheEntry} {slot : Slot}
    {e : CacheEntry} (hc : s.slot.Claims b.uid slot e t) (hn : s.closing = none)
    (hb : s'.toBench =
      { s.toBench with slot := slot, view := .shut b.uid, closing := some e.uid }) :
    s'.Single u := by
  have hent : ¬ Claimable u s'.slot.entry := by
    rintro ⟨_, he, -, hp⟩
    rw [hb, hc.slot] at he
    cases he
    cases hp
  by_cases he : e.uid = u
  · have hd : ¬ s.Dead u := h.entry ⟨e, hc.entry, he, hc.unclaimed⟩
    have hclosed := not_closed_of_not_dead hd hk
    have none : ∀ x t' row, s'.stake x ≠ some (t', .death u row) := fun x t' row hx =>
      hd (.stake x t' row (by rw [hb] at hx; exact hx))
    exact ⟨fun r _ hr => absurd hr (hclosed r), fun x t' row hx => absurd hx (none x t' row),
      fun _ => hclosed,
      fun hx => absurd hx hent⟩
  · refine h.keep hk (by simp) (fun x t' row => by rw [hb]) ?_ (fun hx => absurd hx hent)
    rw [hb, hn]
    simpa using he

theorem Single.date (h : s.Single u) (hk : s.Keeps s' (some r)) (hc : s.closing = some r.uid)
    (hb : s'.toBench = { s.toBench with closing := none }) : s'.Single u := by
  have hslot : s'.slot = s.slot := by rw [hb]
  have hstake : s'.stake = s.stake := by rw [hb]
  have hcl : s'.closing = none := by rw [hb]
  by_cases hu : r.uid = u
  · rw [hu] at hc
    have only : ∀ r', s'.Closed u r' → r' = r := by
      intro r' hr
      rcases hr.back hk with hr | hb | ⟨j, t, hx⟩
      · exact absurd hr (h.closing hc r')
      · exact (Option.some.inj hb).symm
      · exact absurd hc (h.stake _ _ _ hx).2.2.2
    refine ⟨fun r₁ r₂ h₁ h₂ => (only r₁ h₁).trans (only r₂ h₂).symm, fun x t row hx => ?_,
      fun hx => ?_, fun hx => ?_⟩
    · exact absurd hc (h.stake x t row (hstake ▸ hx)).2.2.2
    · rw [hcl] at hx
      cases hx
    · exact absurd (.bound (.closing hc)) (h.entry (hslot ▸ hx))
  · refine h.keep hk (by simpa using hu) (fun x t row => by rw [hstake]) ?_
      (fun hx => h.entry (hslot ▸ hx))
    rw [hcl, hc]
    simpa using hu

theorem Single.recover (h : s.Single u) (hk : s.Keeps s' (some r)) (hb : s'.toBench = s.toBench)
    (hrow : ∀ r', s.Closed r.uid r' → r' = r) (hst : ∀ x t row, s.stake x ≠ some (t, .death r.uid row))
    (hc : s.closing ≠ some r.uid) (hent : ¬ Claimable r.uid s.slot.entry) : s'.Single u := by
  have hslot : s'.slot = s.slot := by rw [hb]
  have hstake : s'.stake = s.stake := by rw [hb]
  have hcl : s'.closing = s.closing := by rw [hb]
  by_cases hu : r.uid = u
  · subst hu
    have only : ∀ r', s'.Closed r.uid r' → r' = r := by
      intro r' hr
      rcases hr.back hk with hr | hb | ⟨j, t, hx⟩
      · exact hrow r' hr
      · exact (Option.some.inj hb).symm
      · exact absurd hx (hst _ _ _)
    refine ⟨fun r₁ r₂ h₁ h₂ => (only r₁ h₁).trans (only r₂ h₂).symm, fun x t row hx => ?_,
      fun hx => ?_, fun hx => ?_⟩
    · exact absurd (hstake ▸ hx) (hst x t row)
    · exact absurd (hcl ▸ hx) hc
    · exact absurd (hslot ▸ hx) hent
  · exact h.keep hk (by simpa using hu) (fun x t row => by rw [hstake]) (by rw [hcl])
      (fun hx => h.entry (hslot ▸ hx))

theorem Single.send (h : s.Single u) (hk : s.Keeps s' none) {tid : Tid} {j : Nat} {x x' : Stake}
    (hx : s.stake (.hand tid) = some (t, x)) (hj : s.stake (.job j) = none) (hsent : x.Sent x')
    (hb : s'.toBench = { s.toBench with
      stake := Function.update (Function.update s.stake (.hand tid) none) (.job j) (some (t, x')) }) :
    s'.Single u := by
  have hslot : s'.slot = s.slot := by rw [hb]
  have hcl : s'.closing = s.closing := by rw [hb]
  have stakes (y : Holder) : s'.stake y =
      if y = .job j then some (t, x') else if y = .hand tid then none else s.stake y := by
    rw [hb]
    simp only [Function.update_apply]
  by_cases hu : x.dying = some u
  · -- the claim gets its row: there was none before
    cases hsent with
    | write => cases hu
    | death r =>
      obtain rfl : r.uid = u := Option.some.inj hu
      obtain ⟨hone, hloose, hland, hclosing⟩ := h.stake _ _ _ hx
      have hclosed : ∀ r', ¬ s'.Closed r.uid r' := by
        intro r' hr
        rcases hr.back hk with hr | hb | ⟨i, t', hx'⟩
        · cases h.row_of_stake hx hr
        · cases hb
        · cases (hone _ _ _ hx').2
      have only : ∀ y t' row, s'.stake y = some (t', .death r.uid row) → y = .job j ∧ row = some r := by
        intro y t' row hy
        rw [stakes] at hy
        split_ifs at hy with h₁ h₂
        · cases hy
          exact ⟨h₁, rfl⟩
        · exact absurd (hone _ _ _ hy).1 h₂
      refine ⟨fun r' _ hr => absurd hr (hclosed r'),
        fun y t' row hy => ⟨fun y' t'' row' hy' => ?_, ?_, ?_, hcl ▸ hclosing⟩,
        fun hx => absurd (hcl ▸ hx) hclosing, fun hc => ?_⟩
      · obtain ⟨rfl, rfl⟩ := only y t' row hy
        exact only y' t'' row' hy'
      · exact fun r' hr hu => hclosed r' ⟨.inr hr, hu⟩
      · exact fun r' hr hu => absurd ⟨.inl hr, hu⟩ (hclosed r')
      · exact absurd (.stake _ _ _ hx) (h.entry (hslot ▸ hc))
  · refine h.keep hk (by simp) (fun y t' row => ?_) (by rw [hcl]) (fun hc => h.entry (hslot ▸ hc))
    rw [stakes]
    split_ifs with h₁ h₂
    · subst h₁
      rw [hj]
      cases hsent with
      | write => simp
      | death r =>
        have hne : r.uid ≠ u := fun he => hu (congrArg some he)
        simp [hne]
    · subst h₂
      rw [hx]
      refine ⟨fun h => (by cases h), fun h => ?_⟩
      cases h
      exact absurd rfl hu
    · exact Iff.rfl

theorem Single.settle (h : s.Single u) (hu : u ≠ "") (ht : s.Tenured) (hk : s.Keeps s' none) {x : Holder}
    {y : Stake} {ok : Bool} (hx : s.stake x = some (t, y)) (hv : t.version ≠ 0)
    (hcur : s.slot.Current t.version → t.issue = s.slot.installs)
    (hnone : ∀ u, y = .death u none → ok = false) (hold : ∀ r, s'.landed r → s.landed r)
    (honest : ok = false → ∀ r, y = .death u (some r) → ¬ s.landed r)
    (hb : s'.toBench = { s.toBench with slot := s.slot.settle t y ok, stake := Function.update s.stake x none }) :
    s'.Single u := by
  have hcl : s'.closing = s.closing := by rw [hb]
  have stakes (z : Holder) : s'.stake z = if z = x then none else s.stake z := by
    rw [hb]
    simp only [Function.update_apply]
  have cases_ := ht.settle_cases hx hcur hv ok
  by_cases hy : ∃ row, y = .death u row
  · obtain ⟨row, rfl⟩ := hy
    obtain ⟨hone, hloose, hland, hclosing⟩ := h.stake _ _ _ hx
    have none : ∀ z t' row', s'.stake z ≠ some (t', .death u row') := by
      intro z t' row' hz
      rw [stakes] at hz
      split_ifs at hz with h₁
      exact h₁ (hone _ _ _ hz).1
    cases ok with
    | false =>
      refine .of_not_dead ?_
      rintro ((⟨r, hr, hru⟩ | ⟨r, hr, hru⟩ | hc) | ⟨z, t', row', hz⟩)
      · have hr := hold r hr
        exact honest rfl r (by rw [hland r hr hru]) hr
      · rcases hk.fresh r hr with hr | hb
        · exact hloose r hr hru
        · cases hb
      · exact hclosing (hcl ▸ hc)
      · exact none z t' row' hz
    | true =>
      have only : ∀ r, s'.Closed u r → row = some r := by
        intro r hr
        rcases hr.back hk with hr | hb | ⟨j, t', hx'⟩
        · exact h.row_of_stake hx hr
        · cases hb
        · exact ((hone _ _ _ hx').2).symm
      refine ⟨fun r r' hr hr' => Option.some.inj ((only r hr).symm.trans (only r' hr')),
        fun z t' row' hz => absurd hz (none z t' row'), fun hc => absurd (hcl ▸ hc) hclosing,
        fun hc => ?_⟩
      rcases cases_ with ⟨-, e, -, -, hs⟩ | ⟨-, hs⟩
      · obtain ⟨e', he', -⟩ := hc
        rw [hb] at he'
        simp only [hs] at he'
        cases he'
      · have hslot : s'.slot = s.slot := by rw [hb]; exact hs
        exact absurd (.stake _ _ _ hx) (h.entry (hslot ▸ hc))
  · refine h.keep hk (by simp) (fun z t' row => ?_) (by rw [hcl]) (fun hc => ?_)
    · rw [stakes]
      split_ifs with h₁
      · subst h₁
        rw [hx]
        refine ⟨fun h => (by cases h), fun h => ?_⟩
        cases h
        exact absurd ⟨row, rfl⟩ hy
      · exact Iff.rfl
    · rcases cases_ with ⟨hi, e, he, hr, hs⟩ | ⟨-, hs⟩
      · obtain ⟨e', he', hu', hp'⟩ := hc
        rw [hb] at he'
        simp only [hs] at he'
        cases y with
        | write c f =>
          -- the entry of the write was there before, unclaimed
          have same : c.uid = u → ¬ s.Dead u := fun hcu => h.entry ⟨e, he, hr.1.trans hcu, hr.2.1⟩
          cases ok with
          | true =>
            cases he'
            exact same hu'
          | false =>
            obtain ⟨b, hbf, rfl⟩ := Option.map_eq_some_iff.mp he'
            rcases hr.2.2.2 b hbf with h0 | hbc
            · exact absurd (hu'.symm.trans h0) hu
            · exact same (hbc.symm.trans hu')
        | death u' row =>
          cases ok with
          | true => cases he'
          | false =>
            cases he'
            exact absurd ⟨row, by rw [← hu', ← hr.1]⟩ hy
      · have hslot : s'.slot = s.slot := by rw [hb]; exact hs
        exact h.entry (hslot ▸ hc)

theorem Single.step (h : s.Single u) (hu : u ≠ "") (ht : s.Tenured) (hstep : s.Step st k s' d)
    (hd : s.Timely d) (hsole : s.Sole st k d) (honest : s.Honest d) : s'.Single u := by
  cases hstep with
  | rest _ hb hk | drop _ _ _ hb hk | load _ _ hb hk | outrun _ _ _ _ hb hk =>
    exact h.keep hk (by simp) (fun x t row => by rw [hb]) (by rw [hb])
      (fun hc => h.entry (by rw [hb] at hc; exact hc))
  | reserve tid base e hview hprec hpend hn hb hk =>
    refine h.keep hk (by simp) (fun x t row => ?_) (by rw [hb]) (fun hc => ?_)
    · rw [hb]
      by_cases hh : x = .hand tid
      · simp [hh, hn]
      · simp [hh]
    · obtain ⟨_, he, hue, -⟩ := hc
      rw [hb] at he
      cases he
      exact hue ▸ hsole rfl rfl
  | claim _ tid uid slot e t hc hn hb hk => exact h.claim hk hc hn hb
  | supersede _ b slot e t hview hub hc hn hb hk => exact h.supersede hk hc hn hb
  | date _ r hc hb hk => exact h.date hk hc hb
  | send _ tid j t x x' hx hj hsent hb hk => exact h.send hk hx hj hsent hb
  | recover tid sink key r b hw hb hk =>
    obtain ⟨hrow, hst, hc, hent⟩ := hsole hw rfl rfl
    exact h.recover hk hb hrow hst hc hent
  | settle _ x ok t y hset hx hv hb hk _ hnone hold =>
    refine h.settle hu ht hk hx hv (hd.at hset hx) hnone hold (fun hok r hy => ?_) hb
    subst hok
    subst hy
    exact honest x t u r hset hx
  | seed tid e hp hb hk =>
    refine h.keep hk (by simp) (fun x t row => by rw [hb]) (by rw [hb]) (fun hc => ?_)
    rw [hb] at hc
    cases he : s.slot.entry with
    | none =>
      simp only [Slot.storeIfAbsent, he, Slot.install] at hc
      obtain ⟨_, ⟨⟩, hue, -⟩ := hc
      exact hue ▸ hsole rfl rfl he
    | some e' =>
      simp only [Slot.storeIfAbsent, he] at hc
      exact h.entry hc

end Desk

namespace World

variable {w w' : World} {cfg : Config} {key : Key} {d : Deed} {r : Record}

structure Solitary (cfg : Config) (key : Key) (w : World) (d : Deed) : Prop where
  undisturbed : Undisturbed key d
  timely : (w.bench key).Timely d
  sole : (w.desk cfg key).Sole key.home key.cacheKey d
  honest : (w.desk cfg key).Honest d

structure Deaths (cfg : Config) (key : Key) (w : World) : Prop where
  sound : w.Sound cfg
  housed : w.Housed key
  tenured : (w.bench key).Tenured
  single : ∀ u, u ≠ "" → (w.desk cfg key).Single u

theorem Deaths.empty : Deaths cfg key {} where
  sound := .empty
  housed := .empty
  tenured := tenured_empty
  single u _ := by
    refine .of_not_dead ?_
    rintro ((⟨r, ⟨hr, -⟩, -⟩ | ⟨r, hr | ⟨tid, hr⟩ | ⟨h, hm, -⟩, -⟩ | hc) | ⟨x, t, row, hx⟩)
    · cases hr
    · cases hr
    · exact hr.elim
    · cases hm
    · cases hc
    · cases x <;> cases hx

theorem Deaths.turn (h : Deaths cfg key w) (he : key.ephemeral = false) (hd : w.Solitary cfg key d)
    (ht : Turn cfg w d w') : Deaths cfg key w' := by
  have hstep := World.desk_turn h.sound h.housed he hd.undisturbed ht
  exact ⟨h.sound.turn ht, h.housed.turn hd.undisturbed ht, hstep.tenured hd.timely h.tenured,
    fun u hu => (h.single u hu).step hu h.tenured hstep hd.timely hd.sole hd.honest⟩

structure Undying (cfg : Config) (key : Key) (w : World) : Prop where
  sound : w.Sound cfg
  fleeting : w.Fleeting key
  table : ∀ r, (key.sink, r) ∈ w.shared.table → r.isOf cfg.clusterID key → r.eventType ≠ .deleted

theorem Undying.turn (h : Undying cfg key w) (he : key.ephemeral = true) (ht : Turn cfg w d w') :
    Undying cfg key w' := by
  refine ⟨h.sound.turn ht, h.fleeting.turn h.sound he ht, fun r hr hof => ?_⟩
  rcases table_turn ht hr with hr | hr
  · exact h.table r hr hof
  · obtain ⟨j, hm, hj⟩ := List.mem_map.mp hr
    obtain ⟨hsink, rfl⟩ := Prod.mk.inj hj
    obtain ⟨seen, base, norm, plan, ts, hdec, hr⟩ := h.fleeting.decided h.sound hm hsink hof
    have hplan := hdec.planned
    rw [he] at hplan
    rw [hr]
    rcases hplan.plain.1 with hp | hp <;> simp [upsertRecord, hp]

end World

theorem one_death_per_incarnation {cfg : Config} {key : Key} {as : List Action} {s : System}
    {r r' : Record}
    (h : Runs.Run (machine cfg).step (fun s a => ∀ d ∈ s.deed a, (worldOf cfg s).Solitary cfg key d)
      { shared := {} } as s)
    (hr : (key.sink, r) ∈ s.shared.table) (hr' : (key.sink, r') ∈ s.shared.table)
    (hof : r.isOf cfg.clusterID key) (hof' : r'.isOf cfg.clusterID key)
    (hdel : r.eventType = .deleted) (hdel' : r'.eventType = .deleted)
    (hu : r.uid = r'.uid) (hne : r.uid ≠ "") : r = r' := by
  cases he : key.ephemeral with
  | true =>
    have hw : (worldOf cfg s).Undying cfg key :=
      World.invariant (fun _ _ => True) (h.mono fun _ _ _ => trivial)
        (fun _ _ _ hw _ ht => hw.turn he ht)
        ⟨.empty, .empty, by simp⟩
    exact absurd hdel (hw.table r hr hof)
  | false =>
    have hw : (worldOf cfg s).Deaths cfg key :=
      World.invariant_deed (World.Solitary cfg key) h (fun _ _ _ hw hok ht => hw.turn he hok ht) .empty
    refine (hw.single r.uid hne).row r r' ⟨.inl ⟨?_, hdel⟩, rfl⟩ ⟨.inl ⟨?_, hdel'⟩, hu.symm⟩
    · exact mem_landedRows.mpr ⟨hr, hof⟩
    · exact mem_landedRows.mpr ⟨hr', hof'⟩

def World.Tranquil (key : Key) (w : World) : Deed → Prop
  | .exec _ (.reserve _ _ e, _) => (∀ h ∈ w.shared.jobs, h.status ≠ .inFlight) ∧
      (∀ x ∈ w.shared.table, x.2.eventType = .deleted → x.2.uid ≠ e.uid) ∧
      w.shared.closeOuts key.home key.cacheKey = [] ∧ (w.phase (.worker key)).view = .read none
  | .exec _ (.storeIfAbsent _ _ _, _) | .exec _ (.enqueue _ ⟨_, .closeOut _ _ _ _⟩, _) => False
  | .env (.settle j ok) => ok = true ∨ ∀ h ∈ w.shared.jobs[j]?, ∀ x ∈ w.shared.table, x.2 ≠ h.job.record
  | d => d.settling = none

instance (key : Key) (w : World) (d : Deed) : Decidable (w.Tranquil key d) := by
  have rest (d : Deed) : Decidable (d.settling = none) := inferInstance
  induction d using Threads.Action.casesOn with
  | exec _ x =>
    induction x using Prod.casesOn with | mk o i
    induction o using Op.casesOn with
    | reserve _ _ e =>
      exact inferInstanceAs (Decidable ((∀ h ∈ w.shared.jobs, h.status ≠ .inFlight) ∧
        (∀ x ∈ w.shared.table, x.2.eventType = .deleted → x.2.uid ≠ e.uid) ∧
        w.shared.closeOuts key.home key.cacheKey = [] ∧ (w.phase (.worker key)).view = .read none))
    | storeIfAbsent _ _ _ => exact instDecidableFalse
    | enqueue _ job =>
      induction job using Job.casesOn with | mk _ commit
      induction commit using Commit.casesOn with
      | closeOut _ _ _ _ => exact instDecidableFalse
      | _ => exact rest _
    | _ => exact rest _
  | env e =>
    induction e using Env.casesOn with
    | settle j ok =>
      exact inferInstanceAs (Decidable (ok = true ∨
        ∀ h ∈ w.shared.jobs[j]?, ∀ x ∈ w.shared.table, x.2 ≠ h.job.record))
    | _ => exact rest _
  | _ => exact rest _

section

variable {cfg : Config} {key : Key} {w : World} (hidle : ∀ tid, tid ≠ .worker key → w.phase tid = .idle)

include hidle

theorem World.loaded_of_view (hv : (w.phase (.worker key)).view = .read none) (tid : Tid)
    (hp : w.phase tid ≠ .idle) : ∃ st k, w.phase tid = .loaded st k none := by
  by_cases ht : tid = .worker key
  · subst ht
    cases hp : w.phase (.worker key) <;> simp [hp, Phase.view] at hv
    exact ⟨_, _, by rw [hv]⟩
  · exact absurd (hidle tid ht) hp

theorem World.not_dead_of_quiet {u : String} (hj : ∀ h ∈ w.shared.jobs, h.status ≠ .inFlight)
    (hrows : ∀ x ∈ w.shared.table, x.2.eventType = .deleted → x.2.uid ≠ u)
    (hq : w.shared.closeOuts key.home key.cacheKey = [])
    (hv : (w.phase (.worker key)).view = .read none) : ¬ (w.desk cfg key).Dead u := by
  rintro ((⟨r, ⟨hr, hdel⟩, hu⟩ | ⟨r, hr | ⟨tid, hr⟩ | ⟨x, hm, hf, -⟩, -⟩ | hc) | ⟨x, t, row, hx⟩)
  · exact hrows _ (mem_landedRows.mp hr).1 hdel hu
  · simp [hq] at hr
  · obtain ⟨st, k, hp⟩ := loaded_of_view hidle hv tid (fun hp => by rw [hp] at hr; exact hr)
    rw [hp] at hr
    exact hr
  · exact hj x hm hf
  · have hc : (w.phase (.worker key)).undated = some _ := hc
    obtain ⟨st, k, hp⟩ := loaded_of_view hidle hv (.worker key) (fun hp => by
      rw [hp] at hc
      cases hc)
    rw [hp] at hc
    cases hc
  · have hx := Key.sift_some.mp hx
    cases x with
    | hand tid =>
      have hx : (w.phase tid).staked = _ := hx
      obtain ⟨st, k, hp⟩ := loaded_of_view hidle hv tid (fun hp => by rw [hp] at hx; cases hx)
      rw [hp] at hx
      cases hx
    | job j =>
      obtain ⟨h, hh, hst⟩ := Option.bind_eq_some_iff.mp hx
      rw [Handed.staked_settled (hj h (List.mem_of_getElem? hh))] at hst
      cases hst

theorem World.Tranquil.solitary {d : Deed} (h : w.Tranquil key d) (hun : Undisturbed key d)
    (ht : (w.bench key).Timely d) : w.Solitary cfg key d := by
  refine ⟨hun, ht, ?_, ?_⟩
  · unfold Desk.Sole
    split
    · obtain ⟨hj, hrows, hq, hv⟩ := h
      exact fun _ _ => World.not_dead_of_quiet hidle hj hrows hq hv
    · exact h.elim
    · exact h.elim
    · trivial
  · intro x t u r hset hstake hlanded
    unfold World.Tranquil at h
    split at h
    · cases hset
    · exact h.elim
    · exact h.elim
    · cases hset
      rcases h with h | h
      · cases h
      · obtain ⟨y, hy, hst⟩ := Option.bind_eq_some_iff.mp (Key.sift_some.mp hstake)
        obtain ⟨sink, ⟨record, _ | _ | _⟩, _ | _ | _ | _⟩ := y <;> cases hst
        exact h _ hy _ (mem_landedRows.mp hlanded.1).1 rfl
    · rw [h] at hset
      cases hset

end

def livesSteps : List Action :=
  addedSteps "u" 1 1 ++ landSteps 0 ++ deletedSteps 2 ++ [.env (.settle 1 false)] ++
    deletedSteps 3 ++ landSteps 2 ++
    addedSteps "v" 1 4 ++ landSteps 3 ++ deletedSteps 5 ++ landSteps 4

/--
The first try to delete "u" is given up, the second lands; then "v" takes its place and is deleted
too.
-/
theorem live_death_single : ∃ s : System,
    ((s.shared.jobs.map fun h => h.job.record).filter fun r => r.eventType = .deleted ∧
      r.uid = "u").length = 2 ∧
    (∃ x ∈ s.shared.table, x.2.eventType = .deleted ∧ x.2.uid = "u") ∧
    (∃ x ∈ s.shared.table, x.2.eventType = .deleted ∧ x.2.uid = "v") ∧
    ∀ x ∈ s.shared.table, ∀ y ∈ s.shared.table, x.2.eventType = .deleted → y.2.eventType = .deleted →
      x.2.uid = y.2.uid → x.2 = y.2 := by
  obtain ⟨s, hrun, htries, hu, hv, hrows⟩ := Runs.Run.exists_of_exec (machine sampleConfig).step
    (fun s a => ∀ d ∈ s.deed a, (worldOf sampleConfig s).Tranquil sampleKey d ∧ Undisturbed sampleKey d ∧
      ((worldOf sampleConfig s).bench sampleKey).Timely d) { shared := {} } livesSteps
    (fun s =>
      ((s.shared.jobs.map fun h => h.job.record).filter fun r => r.eventType = .deleted ∧
      r.uid = "u").length = 2 ∧
      (∃ x ∈ s.shared.table, x.2.eventType = .deleted ∧ x.2.uid = "u") ∧
      (∃ x ∈ s.shared.table, x.2.eventType = .deleted ∧ x.2.uid = "v") ∧
      ∀ x ∈ s.shared.table, x.1 = sampleKey.sink ∧ x.2.isOf "c" sampleKey ∧ x.2.uid ≠ "") (by decide)
  have hsol : Runs.Run (machine sampleConfig).step
      (fun s a => ∀ d ∈ s.deed a, (worldOf sampleConfig s).Solitary sampleConfig sampleKey d)
      { shared := {} }
      livesSteps s := by
    refine hrun.mono_of_run (fun bs t a hp hbs hok d hd => ?_)
    obtain ⟨htr, hun, htime⟩ := hok d hd
    refine htr.solitary (fun tid ht => worldOf_phase_of_none ?_) hun htime
    refine Machine.threads_of_starts hbs (p := (· = .worker sampleKey)) (fun b hb => ?_) ht
    have hall : ∀ a ∈ livesSteps, ∀ t ∈ a.starts, t = .worker sampleKey := by decide
    exact hall b (hp.subset (List.mem_append_left _ hb))
  refine ⟨s, htries, hu, hv, fun x hx y hy hdel hdel' huid => ?_⟩
  obtain ⟨hs, hof, hne⟩ := hrows x hx
  obtain ⟨hs', hof', -⟩ := hrows y hy
  obtain ⟨sink, r⟩ := x
  obtain ⟨sink', r'⟩ := y
  cases hs
  cases hs'
  exact one_death_per_incarnation hsol hx hy hof hof' hdel hdel' huid hne

def World.Exact (cfg : Config) (key : Key) (w : World) : Action → Prop
  | .exec _ (.states ref (some states)) => (∀ x ∈ states, Reported cfg w.shared ref x) ∧
      (ref = ⟨key.sink, key.scope⟩ → ∀ r ∈ landedRows cfg w.shared key,
        (∃ r' ∈ landedRows cfg w.shared key, r'.uid = r.uid ∧ r'.eventType = .deleted) ∨
        ∃ x ∈ states, x.ns = key.ns ∧ x.name = key.name ∧ x.uid = r.uid)
  | _ => True

instance (cfg : Config) (key : Key) (w : World) (a : Action) : Decidable (w.Exact cfg key a) := by
  induction a using Threads.Action.casesOn with
  | exec _ i =>
    induction i using Input.casesOn with
    | states ref l =>
      induction l using Option.casesOn with
      | none => exact instDecidableTrue
      | some states =>
        exact inferInstanceAs (Decidable ((∀ x ∈ states, Reported cfg w.shared ref x) ∧
          (ref = ⟨key.sink, key.scope⟩ → ∀ r ∈ landedRows cfg w.shared key,
            (∃ r' ∈ landedRows cfg w.shared key, r'.uid = r.uid ∧ r'.eventType = .deleted) ∨
            ∃ x ∈ states, x.ns = key.ns ∧ x.name = key.name ∧ x.uid = r.uid)))
    | _ => exact instDecidableTrue
  | _ => exact instDecidableTrue

/--
A close-out is in flight when a warm-up reads history, which still lists the incarnation as open: it
is closed out a second time, dated from history.
-/
theorem closed_out_twice : ∃ (as : List Action) (s : System) (r r' : Record),
    Runs.Run (machine sampleConfig).step (fun s a => (∀ d ∈ s.deed a, Undisturbed sampleKey d) ∧
      (worldOf sampleConfig s).Exact sampleConfig sampleKey a) { shared := {} } as s ∧
    (sampleKey.sink, r) ∈ s.shared.table ∧ (sampleKey.sink, r') ∈ s.shared.table ∧
    r.isOf "c" sampleKey ∧ r'.isOf "c" sampleKey ∧ r.eventType = .deleted ∧ r'.eventType = .deleted ∧
    r.uid = "u" ∧ r'.uid = "u" ∧ r ≠ r' := by
  obtain ⟨s, hrun, x, hx, y, hy, hs, hs', hprop⟩ := Runs.Run.exists_of_exec (machine sampleConfig).step
    (fun s a => (∀ d ∈ s.deed a, Undisturbed sampleKey d) ∧
    (worldOf sampleConfig s).Exact sampleConfig sampleKey a)
    { shared := {} }
    (addedSteps "u" 1 1 ++ landSteps 0 ++ supersededSteps "v" 2 2 ++ landSteps 2 ++
      warmSteps [sampleState "u" "h1" 1, sampleState "v" "h2" 3] ++ landSteps 1 ++ landSteps 3)
    (fun s => ∃ x ∈ s.shared.table, ∃ y ∈ s.shared.table, x.1 = "s" ∧ y.1 = "s" ∧
      x.2.isOf "c" sampleKey ∧
      y.2.isOf "c" sampleKey ∧ x.2.eventType = .deleted ∧ y.2.eventType = .deleted ∧ x.2.uid = "u" ∧
      y.2.uid = "u" ∧
      x.2 ≠ y.2) (by decide)
  obtain ⟨_, r⟩ := x
  obtain ⟨_, r'⟩ := y
  cases hs
  cases hs'
  exact ⟨_, s, r, r', hrun, hx, hy, hprop⟩

end Kuberecord
