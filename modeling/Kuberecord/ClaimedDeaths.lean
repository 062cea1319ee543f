import Kuberecord.Tenure

namespace Kuberecord

open Threads

def Stake.dying : Stake → Option String
  | .death u _ => some u
  | .write _ _ => none

def Claimable (u : String) (o : Option CacheEntry) : Prop := ∃ b ∈ o, b.uid = u ∧ b.pendingDelete = false

instance (u : String) (o : Option CacheEntry) : Decidable (Claimable u o) :=
  inferInstanceAs (Decidable (∃ b ∈ o, _))

theorem Claimable.rewrite {u : String} {b : CacheEntry} {v : Nat} (h : Claimable u (some b)) :
    Claimable u (some { b with version := v }) := by
  obtain ⟨_, ⟨⟩, hu, hp⟩ := h
  exact ⟨_, rfl, hu, hp⟩

/--
A deletion is given up only as the last install of its slot, and only when the worker does not stand
between `Load` and `Reserve` with something else than the unclaimed entry.
-/
def Bench.Undisputed (b : Bench) (d : Deed) : Prop :=
  ∀ p ∈ d.settling, ∀ y ∈ b.stake p.1, p.2 = false → ∀ u ∈ y.2.dying,
    y.1.issue = b.slot.installs ∧ ∀ o ∈ b.view.base, Claimable u o

instance (b : Bench) (d : Deed) : Decidable (b.Undisputed d) := by
  unfold Bench.Undisputed
  infer_instance

namespace Desk

variable {st : Inst} {k : String} {s s' : Desk} {d : Deed} {u : String} {o : Option CacheEntry}

inductive Bound (s : Desk) (u : String) : Prop
  | landed (r : Record) : s.landed r → r.uid = u → Bound s u
  | loose (r : Record) : s.loose r → r.uid = u → Bound s u
  | closing : s.closing = some u → Bound s u

theorem Bound.keep {born : Option Record} (h : s.Bound u) (hk : s.Keeps s' born)
    (hc : s.closing = some u → s'.Bound u) : s'.Bound u := by
  rcases h with ⟨r, hr, hu⟩ | ⟨r, hr, hu⟩ | hx
  · exact .landed r (hk.landed r hr) hu
  · rcases hk.loose r hr with hr | hr
    · exact .loose r hr hu
    · exact .landed r hr hu
  · exact hc hx

theorem Bound.step (h : s.Bound u) (hstep : s.Step st k s' d) : s'.Bound u := by
  cases hstep with
  | rest _ hb hk | drop _ _ _ hb hk | load _ _ hb hk | outrun _ _ _ _ hb hk | recover _ _ _ _ _ _ hb hk
  | seed _ _ _ hb hk | reserve _ _ _ _ _ _ _ hb hk | claim _ _ _ _ _ _ _ _ hb hk | send _ _ _ _ _ _ _ _ _ hb hk
  | settle _ _ _ _ _ _ _ _ hb hk => exact h.keep hk fun hc => .closing (by rw [hb]; exact hc)
  | supersede _ b slot e t _ _ _ hcl hb hk =>
    refine h.keep hk fun hc => ?_
    rw [hcl] at hc
    cases hc
  | date _ r hcl hb hk =>
    exact h.keep hk fun hc => .loose r (hk.birth r rfl) (Option.some.inj (hcl.symm.trans hc))

inductive Dead (s : Desk) (u : String) : Prop
  | bound : s.Bound u → Dead s u
  | stake (h : Holder) (t : Ticket) (row : Option Record) : s.stake h = some (t, .death u row) → Dead s u

theorem Step.dead_of_stake (hstep : s.Step st k s' d)
    (hs : ∀ h t row, s.stake h = some (t, .death u row) → s'.Dead u) (h : s.Dead u) : s'.Dead u := by
  rcases h with hb | ⟨h, t, row, hx⟩
  · exact .bound (hb.step hstep)
  · exact hs h t row hx

theorem Dead.fresh {h h' : Holder} {t : Ticket} {row : Option Record} {y : Ticket × Stake}
    (hn : s.stake h = none) (hs : s'.stake = Function.update s.stake h (some y))
    (hx : s.stake h' = some (t, .death u row)) : s'.Dead u := by
  have hne : h' ≠ h := by
    rintro rfl
    simp [hn] at hx
  exact .stake h' t row (by rwa [hs, Function.update_of_ne hne])

theorem Step.dead (hstep : s.Step st k s' d) : (s.Dead u → s'.Dead u) ∨
    ∃ h t row, d.settling = some (h, false) ∧ s.stake h = some (t, .death u row) ∧ t.version ≠ 0 ∧
      s'.toBench = { s.toBench with
        slot := s.slot.settle t (.death u row) false
        stake := Function.update s.stake h none } := by
  have keeps := hstep.dead_of_stake (u := u)
  cases hstep with
  | rest _ hb | drop _ _ _ hb | load _ _ hb | outrun _ _ _ _ hb | recover _ _ _ _ _ _ hb | seed _ _ _ hb
  | supersede _ _ _ _ _ _ _ _ _ hb | date _ _ _ hb =>
    exact .inl (keeps fun h t row hx => .stake h t row (by rw [hb]; exact hx))
  | reserve _ _ _ _ _ _ hn hb | claim _ _ _ _ _ t _ hn hb =>
    exact .inl (keeps fun h t row hx => .fresh hn (by rw [hb]) hx)
  | send _ tid j t x x' hx hj hsent hb =>
    refine .inl (keeps fun h t' row hx' => ?_)
    by_cases hh : h = .hand tid
    · subst hh
      rw [hx] at hx'
      cases hx'
      cases hsent with
      | death r => exact .stake (.job j) t (some r) (by rw [hb]; simp)
    · have hne : h ≠ .job j := by
        rintro rfl
        simp [hj] at hx'
      refine .stake h t' row ?_
      rw [hb]
      simpa [hne, hh] using hx'
  | settle _ h ok t x hset hx hv hb hk hland hnone hold =>
    by_cases hgive : ok = false ∧ ∃ row, x = .death u row
    · obtain ⟨rfl, row, rfl⟩ := hgive
      exact .inr ⟨h, t, row, hset, hx, hv, hb⟩
    · refine .inl (keeps fun h' t' row hx' => ?_)
      by_cases hh : h' = h
      · subst hh
        rw [hx] at hx'
        cases hx'
        cases ok with
        | false => exact absurd ⟨rfl, row, rfl⟩ hgive
        | true =>
          cases row with
          | none => cases hnone u rfl
          | some r =>
            obtain ⟨hr, hu⟩ := hland rfl u r rfl
            exact .bound (.landed r hr hu)
      · refine .stake h' t' row ?_
        rw [hb]
        simpa [hh] using hx'

def Safe (s : Desk) (u : String) (o : Option CacheEntry) : Prop := s.Dead u ∨ Claimable u o

theorem Safe.lift (h : s.Safe u o) (hd : s.Dead u → s'.Dead u) : s'.Safe u o := h.imp_left hd

structure Guarded (s : Desk) (u : String) : Prop where
  entry : s.Safe u s.slot.entry
  base : ∀ o, s.view.base = some o → s.Safe u o
  falls : ∀ h t e f, s.stake h = some (t, .write e f) → t.issue = s.slot.installs → s.Safe u f

theorem Guarded.of_dead (h : s.Dead u) : s.Guarded u :=
  ⟨.inl h, fun _ _ => .inl h, fun _ _ _ _ _ _ => .inl h⟩

theorem Guarded.give (ht : s.Tenured) {h : Holder} {t : Ticket} {row : Option Record}
    (hx : s.stake h = some (t, .death u row)) (hv : t.version ≠ 0) (hi : t.issue = s.slot.installs)
    (hview : ∀ o ∈ s.view.base, Claimable u o)
    (hb : s'.toBench = { s.toBench with
      slot := s.slot.settle t (.death u row) false
      stake := Function.update s.stake h none }) : s'.Guarded u := by
  obtain ⟨-, e, he, ⟨hu, -⟩, hs⟩ | ⟨hne, -⟩ := ht.settle_cases hx (fun _ => hi) hv false
  · refine ⟨.inr ?_, fun o ho => .inr (hview o (by rw [hb] at ho; exact ho)),
      fun h' t' e' f hx' hi' => ?_⟩
    · rw [hb, hs]
      exact ⟨_, rfl, hu, rfl⟩
    · rw [hb] at hx' hi'
      simp only [hs] at hi'
      by_cases hh : h' = h
      · simp [hh] at hx'
      · simp only [Function.update_of_ne hh] at hx'
        exact absurd (ht.apart h' h t' t _ _ hx' hx (hi'.trans hi.symm)) hh
  · exact absurd hi hne

theorem Guarded.same (h : s.Guarded u) (hd : s.Dead u → s'.Dead u) (hs : s'.slot = s.slot)
    (hv : ∀ o, s'.view.base = some o → s.view.base = some o) (hk : s'.stake = s.stake) :
    s'.Guarded u where
  entry := hs ▸ h.entry.lift hd
  base o ho := (h.base o (hv o ho)).lift hd
  falls h' t e f hx hi := (h.falls h' t e f (hk ▸ hx) (hs ▸ hi)).lift hd

theorem Guarded.settle (hg : s.Guarded u) (hd : s.Dead u → s'.Dead u) (ht : s.Tenured) {h : Holder}
    {t : Ticket} {x : Stake} {ok : Bool} (hx : s.stake h = some (t, x)) (hv : t.version ≠ 0)
    (hcur : s.slot.Current t.version → t.issue = s.slot.installs)
    (hb : s'.toBench = { s.toBench with slot := s.slot.settle t x ok, stake := Function.update s.stake h none }) :
    s'.Guarded u := by
  have hview : s'.view = s.view := by rw [hb]
  have hbase : ∀ o, s'.view.base = some o → s'.Safe u o := fun o ho => (hg.base o (hview ▸ ho)).lift hd
  have others {h' : Holder} {y : Ticket × Stake} (hx' : s'.stake h' = some y) : h' ≠ h ∧
    s.stake h' = some y := by
    rw [hb] at hx'
    by_cases hh : h' = h
    · simp [hh] at hx'
    · exact ⟨hh, by simpa [hh] using hx'⟩
  rcases ht.settle_cases hx hcur hv ok with ⟨hi, e, he, hr, hs⟩ | ⟨-, hs⟩
  · refine ⟨?_, hbase, fun h' t' e' f hx' hi' => ?_⟩
    · have hentry := hg.entry
      rw [he] at hentry
      rw [hb]
      simp only [hs]
      cases x with
      | write c f =>
        cases ok with
        | true =>
          rcases hentry with hdead | ⟨_, ⟨⟩, hu, -⟩
          · exact .inl (hd hdead)
          · exact .inr ⟨_, rfl, hr.1.symm.trans hu, hr.2.2.1⟩
        | false =>
          rcases hg.falls h t c f hx hi with hdead | hf
          · exact .inl (hd hdead)
          · cases f with
            | none => exact .inr hf
            | some b => exact .inr hf.rewrite
      | death u' row =>
        rcases hentry with hdead | ⟨_, ⟨⟩, -, hp⟩
        · exact .inl (hd hdead)
        · rw [hr.2] at hp
          cases hp
    · obtain ⟨hh, hx'⟩ := others hx'
      rw [hb] at hi'
      simp only [hs] at hi'
      exact absurd (ht.apart h' h t' t _ _ hx' hx (hi'.trans hi.symm)) hh
  · have hslot : s'.slot = s.slot := by rw [hb]; exact hs
    exact ⟨hslot ▸ hg.entry.lift hd, hbase, fun h' t' e f hx' hi' =>
      (hg.falls h' t' e f (others hx').2 (hslot ▸ hi')).lift hd⟩

theorem Guarded.step (hg : s.Guarded u) (hu : u ≠ "") (ht : s.Tenured) (hstep : s.Step st k s' d)
    (hd : s.Timely d) (hy : s.Undisputed d) : s'.Guarded u := by
  rcases hstep.dead (u := u) with hdead | ⟨h, t, row, hset, hx, hv, hb⟩
  · cases hstep with
    | rest _ hb | recover _ _ _ _ _ _ hb | date _ _ _ hb =>
      exact hg.same hdead (by rw [hb]) (fun o ho => by rw [hb] at ho; exact ho) (by rw [hb])
    | drop _ _ _ hb =>
      refine hg.same hdead (by rw [hb]) (fun o ho => ?_) (by rw [hb])
      rw [hb] at ho
      cases ho
    | load _ _ hb =>
      have hslot : s'.slot = s.slot := by rw [hb]
      have hstake : s'.stake = s.stake := by rw [hb]
      refine ⟨hslot ▸ hg.entry.lift hdead, fun o ho => ?_, fun h t e f hx hi => ?_⟩
      · rw [hb] at ho
        cases ho
        exact hg.entry.lift hdead
      · exact (hg.falls h t e f (hstake ▸ hx) (hslot ▸ hi)).lift hdead
    | reserve tid base e hview hprec hpend hn hb =>
      have hsafe := (hg.base base hview).lift hdead
      refine ⟨?_, fun o ho => ?_, fun h t e' f hx hi => ?_⟩
      · rcases hsafe with hdead' | ⟨b, hb', hbu, -⟩
        · exact .inl hdead'
        · refine .inr ⟨{ e with version := s.slot.version + 1 }, by rw [hb]; rfl, ?_, hpend⟩
          rcases hprec b hb' with h0 | he
          · exact absurd (hbu.symm.trans h0) hu
          · exact he.symm.trans hbu
      · rw [hb] at ho
        cases ho
      · rw [hb] at hx hi
        by_cases hh : h = .hand tid
        · simp only [hh, Function.update_self, Option.some.injEq, Prod.mk.injEq, Stake.write.injEq] at hx
          exact hx.2.2 ▸ hsafe
        · simp only [Function.update_of_ne hh] at hx
          have := ht.issued h t _ hx
          simp only [Slot.reserve, Slot.install] at hi
          omega
    | claim _ tid uid slot e t hc hn hb =>
      rcases hg.entry with hd' | ⟨b, hb', hbu, -⟩
      · exact .of_dead (hdead hd')
      · rw [hc.entry] at hb'
        cases hb'
        exact .of_dead (.stake (.hand tid) t none (by rw [hb, ← hbu]; simp))
    | supersede _ b slot e t hview hub hc hcl hb =>
      rcases hg.entry with hd' | ⟨b', hb', hbu, -⟩
      · exact .of_dead (hdead hd')
      · rw [hc.entry] at hb'
        cases hb'
        exact .of_dead (.bound (.closing (by rw [hb, ← hbu])))
    | outrun _ b hview hover hb =>
      have hdead' : s.Dead u := by
        rcases hg.base (some b) (by rw [hview]; rfl) with h | ⟨_, ⟨⟩, hbu, -⟩
        · exact h
        · rcases hg.entry with h | ⟨e, he, heu, hp⟩
          · exact h
          · rcases hover e he with hp' | hne
            · rw [hp] at hp'
              cases hp'
            · exact absurd (heu.trans hbu.symm) hne
      exact .of_dead (hdead hdead')
    | send _ tid j t x x' hx hj hsent hb =>
      have hslot : s'.slot = s.slot := by rw [hb]
      have hview : s'.view = s.view := by rw [hb]
      refine ⟨hslot ▸ hg.entry.lift hdead, fun o ho => (hg.base o (hview ▸ ho)).lift hdead,
        fun h t' e f hx' hi => ?_⟩
      rw [hslot] at hi
      rw [hb] at hx'
      by_cases hh : h = .job j
      · simp only [hh, Function.update_self, Option.some.injEq, Prod.mk.injEq] at hx'
        obtain ⟨rfl, rfl⟩ := hx'
        cases hsent
        exact (hg.falls _ _ e f hx hi).lift hdead
      · simp only [Function.update_of_ne hh] at hx'
        by_cases hh' : h = .hand tid
        · simp [hh'] at hx'
        · rw [Function.update_of_ne hh'] at hx'
          exact (hg.falls h t' e f hx' hi).lift hdead
    | settle _ h ok t x hset hx hv hb => exact hg.settle hdead ht hx hv (hd.at hset hx) hb
    | seed tid e hp hb =>
      cases he : s.slot.entry with
      | none =>
        rcases hg.entry with hd' | ⟨b, hb', -⟩
        · exact .of_dead (hdead hd')
        · rw [he] at hb'
          cases hb'
      | some e' =>
        exact hg.same hdead (by rw [hb]; simp [Slot.storeIfAbsent, he])
          (fun o ho => by rw [hb] at ho; exact ho)
          (by rw [hb])
  · obtain ⟨hi, hview⟩ := hy _ hset _ hx rfl u rfl
    exact .give ht hx hv hi hview hb

end Desk

namespace World

variable {w w' : World} {cfg : Config} {key : Key} {d : Deed} {st : Inst} {u : String}

theorem claims_turn {k : String} (h : Turn cfg w d w') (hm : (st, k, u) ∈ w'.claims) :
    (st, k, u) ∈ w.claims ∨
    (∃ tid e t, w'.phase tid = .claimed st k e t none ∧ e.uid = u) ∨
    ∃ key' base e, key'.Owns st k ∧ w'.phase (.worker key') = .superseding st k base e ∧ e.uid = u := by
  cases h with
  | still _ _ _ _ hc => exact .inl (hc ▸ hm)
  | claim tid key' st' k' uid e t slot =>
    rcases List.mem_append.mp hm with hm | hm
    · exact .inl hm
    · cases List.mem_singleton.mp hm
      exact .inr (.inl ⟨tid, e, t, by simp, rfl⟩)
  | supersede key' st' k' base e norm t slot hk =>
    rcases List.mem_append.mp hm with hm | hm
    · exact .inl hm
    · cases List.mem_singleton.mp hm
      exact .inr (.inr ⟨key', base, e, hk, by simp, rfl⟩)
  | _ => exact .inl hm

structure Watched (cfg : Config) (key : Key) (w : World) : Prop where
  sound : w.Sound cfg
  housed : w.Housed key
  tenured : (w.bench key).Tenured
  guarded : ∀ st u, (st, key.cacheKey, u) ∈ w.claims → st.sink = key.sink → u ≠ "" →
    (w.desk cfg key).Guarded u

def Answered (key : Key) (w : World) (d : Deed) : Prop :=
  Undisturbed key d ∧ (w.bench key).Timely d ∧ (w.bench key).Undisputed d

instance (key : Key) (w : World) (d : Deed) : Decidable (w.Answered key d) :=
  inferInstanceAs (Decidable (_ ∧ _))

theorem tenured_empty : (World.bench {} key).Tenured := by
  have none (h : Holder) : (World.bench {} key).stake h = none := by cases h <;> rfl
  constructor <;> simp [none]

theorem Watched.empty : Watched cfg key {} where
  sound := .empty
  housed := .empty
  tenured := tenured_empty
  guarded _ _ hm := by cases hm

theorem Watched.turn (h : Watched cfg key w) (he : key.ephemeral = false) (hd : w.Answered key d)
    (ht : Turn cfg w d w') : Watched cfg key w' := by
  obtain ⟨hun, htime, hdis⟩ := hd
  have hsound := h.sound.turn ht
  have hhoused := h.housed.turn hun ht
  have hstep := World.desk_turn h.sound h.housed he hun ht
  refine ⟨hsound, hhoused, hstep.tenured htime h.tenured, fun st u hm hs hu => ?_⟩
  rcases claims_turn ht hm with hm | ⟨tid, e, t, hp, rfl⟩ | ⟨key', base, e, hk, hp, rfl⟩
  · exact (h.guarded st u hm hs hu).step hu h.tenured hstep htime hdis
  · obtain rfl := hhoused.place hp rfl hs
    refine .of_dead (.stake (.hand tid) t none ?_)
    simp [desk, bench, World.staked, hp, Phase.staked]
  · obtain rfl := hhoused.place hp rfl hs
    obtain rfl := hk.unique ⟨rfl, rfl⟩
    refine .of_dead (.bound (.closing ?_))
    simp [desk, bench, hp, Phase.undated]

end World

def Phase.Answers (st : Inst) (k u : String) : Phase → Prop
  | .claimed st' k' e _ _ | .releasing st' k' e _ | .superseding st' k' _ e =>
    st' = st ∧ k' = k ∧ e.uid = u
  | .outs st' k' rs => st' = st ∧ k' = k ∧ ∃ r ∈ rs, r.uid = u
  | .closing st' k' _ r => st' = st ∧ k' = k ∧ r.uid = u
  | _ => False

theorem Phase.answers_of_carries {st : Inst} {k : String} {p : Phase} {r : Record}
    (h : p.Carries st k r) :
    p.Answers st k r.uid := by
  cases p with
  | outs st' k' rs =>
    obtain ⟨hst, hk, hr⟩ := h
    exact ⟨hst, hk, r, hr, rfl⟩
  | closing st' k' base r' =>
    obtain ⟨hst, hk, rfl⟩ := h
    exact ⟨hst, hk, rfl⟩
  | _ => cases h

def Phase.Claiming (st : Inst) (k u : String) : Phase → Prop
  | .claimed st' k' e _ _ | .releasing st' k' e _ => st' = st ∧ k' = k ∧ e.uid = u
  | _ => False

theorem Phase.claiming_of_staked {x : Inst × String} {p : Phase} {t : Ticket} {u : String}
    {row : Option Record} (h : p.staked = some (x, t, .death u row)) : p.Claiming x.1 x.2 u := by
  cases p <;> cases h
  all_goals exact ⟨rfl, rfl, rfl⟩

theorem Phase.Claiming.answers {st : Inst} {k u : String} {p : Phase} (h : p.Claiming st k u) :
    p.Answers st k u := by
  cases p with
  | claimed | releasing => exact h
  | _ => cases h

def Handed.Deletes (key : Key) (u : String) (h : Handed) : Prop :=
  h.status = .inFlight ∧ h.job.commit.key = key ∧ h.job.record.eventType = .deleted ∧
    h.job.record.uid = u

/-- Where the death of an incarnation of the key is to be found. -/
inductive World.Accounted (cfg : Config) (key : Key) (w : World) (u : String) : Prop
  | landed (r : Record) : (key.sink, r) ∈ w.shared.table → r.isOf cfg.clusterID key →
      r.eventType = .deleted →
      r.uid = u → Accounted cfg key w u
  | inFlight (h : Handed) : h ∈ w.shared.jobs → h.Deletes key u → Accounted cfg key w u
  | queued (r : Record) : r ∈ w.shared.closeOuts key.home key.cacheKey → r.eventType = .deleted →
      r.uid = u →
      Accounted cfg key w u
  | held (tid : Tid) : (w.phase tid).Answers key.home key.cacheKey u → Accounted cfg key w u
  | cached : Claimable u (w.shared.slot key.home key.cacheKey).entry → Accounted cfg key w u

namespace World

variable {w : World} {cfg : Config} {key : Key} {u : String}

theorem Sound.loose_accounted (h : w.Sound cfg) {r : Record} (hr : w.Loose key r) :
    w.Accounted cfg key r.uid := by
  rcases hr with hr | ⟨tid, hr⟩ | ⟨j, hm, hf, hc⟩
  · have hk : key.Owns key.home key.cacheKey := ⟨rfl, rfl⟩
    obtain ⟨ts, v, u, he⟩ := (h.closeOuts _ _ r hr).of_owns hk
    exact .queued r hr (by rw [he]; rfl) rfl
  · exact .held tid (Phase.answers_of_carries hr)
  · have hl := h.jobs j hm
    obtain ⟨sink, ⟨record, commit⟩, status⟩ := j
    simp only at hc
    subst hc
    obtain ⟨-, -, hre, ts, v, u, he⟩ := hl
    obtain rfl : record = r := hre
    exact .inFlight _ hm ⟨hf, rfl, by rw [he]; rfl, rfl⟩

theorem Sound.dying (h : w.Sound cfg) {x : Holder} {t : Ticket} {row : Option Record}
    (hx : (w.bench key).stake x = some (t, .death u row)) :
    (∃ h ∈ w.shared.jobs, h.Deletes key u) ∨ ∃ tid, (w.phase tid).Claiming key.home key.cacheKey u := by
  have hx := Key.sift_some.mp hx
  cases x with
  | hand tid => exact .inr ⟨tid, Phase.claiming_of_staked hx⟩
  | job j =>
    obtain ⟨hd, hj, hst⟩ := Option.bind_eq_some_iff.mp hx
    have hm := List.mem_of_getElem? hj
    have hl := h.jobs hd hm
    refine .inl ⟨hd, hm, ?_⟩
    obtain ⟨sink, ⟨record, commit⟩, status⟩ := hd
    cases commit <;> cases status <;> cases hst
    obtain ⟨-, hk, -, ts, v, u, he⟩ := hl
    exact ⟨rfl, hk.unique ⟨rfl, rfl⟩, by simp only at he; rw [he]; rfl, rfl⟩

theorem Sound.bound_accounted (h : w.Sound cfg) (hh : w.Housed key) (hb : (w.desk cfg key).Bound u) :
    w.Accounted cfg key u := by
  rcases hb with ⟨r, ⟨hr, hdel⟩, hru⟩ | ⟨r, hr, rfl⟩ | hx
  · obtain ⟨ht, hof⟩ := mem_landedRows.mp hr
    exact .landed r ht hof hdel hru
  · exact h.loose_accounted hr
  · refine .held (.worker key) ?_
    simp only [desk, bench] at hx
    cases hp : w.phase (.worker key) <;> simp only [hp, Phase.undated, Option.some.injEq,
      reduceCtorEq] at hx
    obtain ⟨key', hw, hk⟩ := h.lawful hp
    cases hw
    exact ⟨hh.place hp rfl hk.1, hk.2, hx⟩

theorem Watched.accounted (h : Watched cfg key w) {st : Inst} (hm : (st, key.cacheKey, u) ∈ w.claims)
    (hs : st.sink = key.sink) (hu : u ≠ "") : w.Accounted cfg key u := by
  rcases (h.guarded st u hm hs hu).entry with (hb | ⟨x, t, row, hx⟩) | hc
  · exact h.sound.bound_accounted h.housed hb
  · rcases h.sound.dying hx with ⟨j, hm, hj⟩ | ⟨tid, hp⟩
    · exact .inFlight j hm hj
    · exact .held tid hp.answers
  · exact .cached hc

end World

theorem claimed_death_accounted {cfg : Config} {key : Key} {as : List Action} {s : System}
    {st : Inst} {u : String}
    (h : Runs.Run (machine cfg).step (fun s a => ∀ d ∈ s.deed a, (worldOf cfg s).Answered key d)
      { shared := {} } as s)
    (he : key.ephemeral = false) (hm : (st, key.cacheKey, u) ∈ (worldOf cfg s).claims)
    (hs : st.sink = key.sink) (hu : u ≠ "") : (worldOf cfg s).Accounted cfg key u := by
  have hw : (worldOf cfg s).Watched cfg key :=
    World.invariant_deed (World.Answered key) h (fun _ _ _ hw hok ht => hw.turn he hok ht) .empty
  exact hw.accounted hm hs hu

def deletedSteps (ts : Nat) : List Action :=
  processSteps [.lookup sampleKey (some ⟨none, true⟩), .writer (some {}), .go, .go, .go, .time ts,
    .flag true]

def succeededSteps (uid : String) (n : Int) (ts : Nat) : List Action :=
  processSteps (observeInputs (sampleObject uid n) ++ [.go, .go, .time ts, .flag true])

theorem retried_death_accounted :
    ∃ s : System, (sampleKey.home, sampleKey.cacheKey, "u") ∈ (worldOf sampleConfig s).claims ∧
      (worldOf sampleConfig s).Accounted sampleConfig sampleKey "u" := by
  obtain ⟨s, hrun, hm⟩ := Runs.Run.exists_of_exec (machine sampleConfig).step
    (fun s a => ∀ d ∈ s.deed a, (worldOf sampleConfig s).Answered sampleKey d) { shared := {} }
    (addedSteps "u" 1 1 ++ landSteps 0 ++ deletedSteps 2 ++ [.env (.settle 1 false)] ++ deletedSteps 3)
    (fun s => (sampleKey.home, sampleKey.cacheKey, "u") ∈ (worldOf sampleConfig s).claims) (by decide)
  exact ⟨s, hm, claimed_death_accounted hrun (by decide) hm rfl (by decide)⟩

/-- A successor takes the slot over while the deletion is in flight, and then the deletion fails. -/
theorem overtaken_death_lost : ∃ (as : List Action) (s : System),
    Runs.Run (machine sampleConfig).step (fun s a => ∀ d ∈ s.deed a, Undisturbed sampleKey d)
      { shared := {} } as s ∧
      (sampleKey.home, sampleKey.cacheKey, "u") ∈ (worldOf sampleConfig s).claims ∧
      ¬ (worldOf sampleConfig s).Accounted sampleConfig sampleKey "u" := by
  obtain ⟨s, hrun, hm, hland, hjobs, hqueue, hidle, hentry⟩ :=
    Runs.Run.exists_of_exec (machine sampleConfig).step
    (fun s a => ∀ d ∈ s.deed a, Undisturbed sampleKey d) { shared := {} }
    (addedSteps "u" 1 1 ++ landSteps 0 ++ deletedSteps 2 ++ succeededSteps "v" 2 3 ++
      [.env (.settle 1 false)])
    (fun s => (sampleKey.home, sampleKey.cacheKey, "u") ∈ (worldOf sampleConfig s).claims ∧
      (∀ x ∈ s.shared.table, x.2.eventType ≠ .deleted) ∧
      (∀ h ∈ s.shared.jobs, h.status = .inFlight → h.job.record.eventType ≠ .deleted) ∧
      s.shared.closeOuts sampleKey.home sampleKey.cacheKey = [] ∧
      (s.threads (.worker sampleKey)).isNone = true ∧
      ¬ Claimable "u" (s.shared.slot sampleKey.home sampleKey.cacheKey).entry) (by decide)
  have idle (tid : Tid) : (worldOf sampleConfig s).phase tid = .idle := by
    refine worldOf_phase_of_none ?_
    by_cases ht : tid = .worker sampleKey
    · exact ht ▸ Option.isNone_iff_eq_none.mp hidle
    · exact Machine.threads_of_starts hrun (p := (· = .worker sampleKey)) (by decide) ht
  refine ⟨_, s, hrun, hm, ?_⟩
  rintro (⟨r, hr, -, hd, -⟩ | ⟨h, hh, hf, -, hd, -⟩ | ⟨r, hr, -⟩ | ⟨tid, hp⟩ | hc)
  · exact hland _ hr hd
  · exact hjobs h hh hf hd
  · simp [worldOf, viewWorld, System.view, hqueue] at hr
  · rw [idle] at hp
    exact hp
  · exact hentry hc

end Kuberecord
