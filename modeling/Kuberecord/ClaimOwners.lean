import Kuberecord.ClaimedDeaths

namespace Kuberecord

open Threads

def Stake.fallback : Stake → Option CacheEntry
  | .write _ f => f
  | .death _ _ => none

def Bench.Unmarked (b : Bench) (d : Deed) : Prop :=
  ∀ p ∈ d.settling, ∀ y ∈ b.stake p.1, p.2 = false → y.1.issue = b.slot.installs →
    ∀ e ∈ y.2.fallback, e.pendingDelete = false

instance (b : Bench) (d : Deed) : Decidable (b.Unmarked d) := by
  unfold Bench.Unmarked
  infer_instance

namespace Desk

variable {st : Inst} {k : String} {s s' : Desk} {d : Deed} {u : String}

inductive Owner (s : Desk) (u : String) : Prop
  | stake (h : Holder) (t : Ticket) (row : Option Record) : s.stake h = some (t, .death u row) →
      t.issue = s.slot.installs → Owner s u
  | successor : s.view = .shut u → s.Bound u → Owner s u

def Owned (s : Desk) : Prop := ∀ e, s.slot.entry = some e → e.pendingDelete = true → s.Owner e.uid

theorem Owner.keep (h : s.Owner u) (hslot : s'.slot = s.slot) (hstake : s'.stake = s.stake)
    (hview : s.view = .shut u → s'.view = s.view) (hb : s.Bound u → s'.Bound u) : s'.Owner u := by
  rcases h with ⟨h, t, row, hx, hi⟩ | ⟨hv, hbound⟩
  · exact .stake h t row (hstake ▸ hx) (hslot ▸ hi)
  · exact .successor (hview hv ▸ hv) (hb hbound)

theorem Owned.keep (ho : s.Owned) (hbound : ∀ u, s.Bound u → s'.Bound u) (hslot : s'.slot = s.slot)
    (hstake : s'.stake = s.stake) (hview : ∀ u, s.view = .shut u → s'.view = s.view) :
    s'.Owned := fun e he hp =>
  (ho e (hslot ▸ he) hp).keep hslot hstake (hview e.uid) (hbound e.uid)

theorem Owned.settle (ho : s.Owned) (ht : s.Tenured) (hbound : ∀ u, s.Bound u → s'.Bound u)
    {h : Holder} {t : Ticket} {x : Stake} {ok : Bool} (hx : s.stake h = some (t, x))
    (hv : t.version ≠ 0) (hcur : s.slot.Current t.version → t.issue = s.slot.installs)
    (hf : ok = false → t.issue = s.slot.installs → ∀ e ∈ x.fallback, e.pendingDelete = false)
    (hb : s'.toBench = { s.toBench with slot := s.slot.settle t x ok, stake := Function.update s.stake h none }) :
    s'.Owned := by
  intro e he hp
  rcases ht.settle_cases hx hcur hv ok with ⟨hi, e₀, -, hr, hs⟩ | ⟨hne, hs⟩
  · -- what a settlement of the last install leaves is unclaimed
    rw [hb] at he
    simp only [hs] at he
    cases x with
    | write c f =>
      cases ok with
      | true =>
        cases he
        exact absurd (hr.2.2.1.symm.trans hp) (by simp)
      | false =>
        obtain ⟨b, hbf, rfl⟩ := Option.map_eq_some_iff.mp he
        exact absurd ((hf rfl hi b hbf).symm.trans hp) (by simp)
    | death u' row =>
      cases ok with
      | true => cases he
      | false =>
        cases he
        cases hp
  · have hslot : s'.slot = s.slot := by rw [hb]; exact hs
    rcases ho e (hslot ▸ he) hp with ⟨h', t', row, hx', hi'⟩ | ⟨hv', hu⟩
    · have hh : h' ≠ h := by
        rintro rfl
        rw [hx] at hx'
        cases hx'
        exact hne hi'
      refine .stake h' t' row ?_ (hslot ▸ hi')
      rw [hb]
      simpa [hh] using hx'
    · exact .successor (by rw [hb]; exact hv') (hbound _ hu)

theorem Owned.step (ho : s.Owned) (ht : s.Tenured) (hstep : s.Step st k s' d) (hd : s.Timely d)
    (hu : s.Unmarked d) : s'.Owned := by
  have bound : ∀ u, s.Bound u → s'.Bound u := fun u h => h.step hstep
  have keep := ho.keep bound
  cases hstep with
  | rest _ hb | recover _ _ _ _ _ _ hb | date _ _ _ hb =>
    exact keep (by rw [hb]) (by rw [hb]) fun _ _ => by rw [hb]
  | drop _ _ hview hb | load _ hview hb | outrun _ _ hview _ hb =>
    refine keep (by rw [hb]) (by rw [hb]) fun u hshut => ?_
    rw [hview] at hshut
    cases hshut
  | reserve tid base e _ _ hpend _ hb =>
    intro e' he hp
    rw [hb] at he
    cases he
    exact absurd (hpend.symm.trans hp) (by simp)
  | claim _ tid uid slot e t hc _ hb =>
    intro e' he hp
    rw [hb, hc.slot] at he
    cases he
    refine .stake (.hand tid) t none (by rw [hb]; simp) ?_
    rw [hb, hc.slot, hc.ticket]
    rfl
  | supersede _ b slot e t _ hub hc _ hb =>
    intro e' he hp
    rw [hb, hc.slot] at he
    cases he
    have hue : e.uid = b.uid := hc.uid.resolve_left hub
    exact .successor (by rw [hb, hue]) (.closing (by rw [hb]))
  | send _ tid j t x x' hx hj hsent hb =>
    intro e he hp
    rw [hb] at he
    rcases ho e he hp with ⟨h, t', row, hx', hi⟩ | ⟨hv, hb'⟩
    · by_cases hh : h = .hand tid
      · subst hh
        rw [hx] at hx'
        cases hx'
        generalize e.uid = ue at hsent ⊢
        cases hsent with
        | death r => exact .stake (.job j) t (some r) (by rw [hb]; simp) (by rw [hb]; exact hi)
      · have hne : h ≠ .job j := by
          rintro rfl
          simp [hj] at hx'
        refine .stake h t' row ?_ (by rw [hb]; exact hi)
        rw [hb]
        simpa [hne, hh] using hx'
    · exact .successor (by rw [hb]; exact hv) (bound _ hb')
  | settle _ h ok t x hset hx hv hb =>
    exact ho.settle ht bound hx hv (hd.at hset hx) (fun hok hi => hu _ hset _ hx hok hi) hb
  | seed tid e hpend hb =>
    cases he : s.slot.entry with
    | none =>
      intro e' he' hp
      rw [hb] at he'
      simp only [Slot.storeIfAbsent, he, Slot.install] at he'
      cases he'
      exact absurd (hpend.symm.trans hp) (by simp)
    | some e' => exact keep (by rw [hb]; simp [Slot.storeIfAbsent, he]) (by rw [hb]) fun _ _ => by rw [hb]

end Desk

def Phase.Ending (st : Inst) (k u : String) : Phase → Prop
  | .superseding st' k' b _ | .closing st' k' b _ | .superseded st' k' b => st' = st ∧ k' = k ∧ b.uid = u
  | _ => False

namespace World

variable {w w' : World} {cfg : Config} {key : Key} {d : Deed} {u : String}

inductive ClaimOwned (cfg : Config) (key : Key) (w : World) (u : String) : Prop
  | inFlight (h : Handed) : h ∈ w.shared.jobs → h.Deletes key u → ClaimOwned cfg key w u
  | held (tid : Tid) : (w.phase tid).Claiming key.home key.cacheKey u → ClaimOwned cfg key w u
  | ending : (w.phase (.worker key)).Ending key.home key.cacheKey u → w.Accounted cfg key u →
      ClaimOwned cfg key w u

def ClaimKept (key : Key) (w : World) (d : Deed) : Prop :=
  Undisturbed key d ∧ (w.bench key).Timely d ∧ (w.bench key).Unmarked d

instance (key : Key) (w : World) (d : Deed) : Decidable (w.ClaimKept key d) :=
  inferInstanceAs (Decidable (_ ∧ _))

structure Owned (cfg : Config) (key : Key) (w : World) : Prop where
  sound : w.Sound cfg
  housed : w.Housed key
  tenured : (w.bench key).Tenured
  owned : (w.desk cfg key).Owned

theorem Owned.empty : Owned cfg key {} where
  sound := .empty
  housed := .empty
  tenured := tenured_empty
  owned _ he := by cases he

theorem Owned.turn (h : Owned cfg key w) (he : key.ephemeral = false) (hd : w.ClaimKept key d)
    (ht : Turn cfg w d w') : Owned cfg key w' := by
  obtain ⟨hun, htime, hmark⟩ := hd
  have hstep := World.desk_turn h.sound h.housed he hun ht
  exact ⟨h.sound.turn ht, h.housed.turn hun ht, hstep.tenured htime h.tenured,
    h.owned.step h.tenured hstep htime hmark⟩

theorem Owned.claimOwned (h : Owned cfg key w) {e : CacheEntry}
    (he : (w.shared.slot key.home key.cacheKey).entry = some e) (hp : e.pendingDelete = true) :
    w.ClaimOwned cfg key e.uid := by
  rcases h.owned e he hp with ⟨x, t, row, hx, -⟩ | ⟨hv, hb⟩
  · rcases h.sound.dying hx with ⟨j, hm, hj⟩ | ⟨tid, hp⟩
    · exact .inFlight j hm hj
    · exact .held tid hp
  · refine .ending ?_ (h.sound.bound_accounted h.housed hb)
    simp only [desk, bench] at hv
    have ending {st : Inst} {k : String} {p : Phase} (hp : w.phase (.worker key) = p)
      (hpl : p.place = some (st, k)) :
        st = key.home ∧ k = key.cacheKey := by
      obtain ⟨key', hk, ht | ht⟩ := (h.sound.lawful hp).reaches hpl
      · cases ht
        exact ⟨h.housed.place hp hpl hk.1, hk.2⟩
      · cases ht
    cases hp : w.phase (.worker key) <;> simp only [hp, Phase.view, Reading.shut.injEq,
      reduceCtorEq] at hv
    all_goals exact ⟨(ending hp rfl).1, (ending hp rfl).2, hv⟩

end World

theorem pending_claim_owned {cfg : Config} {key : Key} {as : List Action} {s : System} {e : CacheEntry}
    (h : Runs.Run (machine cfg).step (fun s a => ∀ d ∈ s.deed a, (worldOf cfg s).ClaimKept key d)
      { shared := {} } as s)
    (he : key.ephemeral = false)
    (hentry : (s.shared.slot (s.shared.inst key.sink) key.cacheKey).entry = some e)
    (hp : e.pendingDelete = true) : (worldOf cfg s).ClaimOwned cfg key e.uid := by
  have hw : (worldOf cfg s).Owned cfg key :=
    World.invariant_deed (World.ClaimKept key) h (fun _ _ _ hw hok ht => hw.turn he hok ht) .empty
  have hg : s.shared.gens key.sink = 0 := hw.housed.gens
  rw [Shared.inst, hg] at hentry
  exact hw.claimOwned hentry hp

theorem deletion_in_flight_owned : ∃ (s : System) (e : CacheEntry),
    (s.shared.slot (s.shared.inst "s") sampleKey.cacheKey).entry = some e ∧ e.pendingDelete = true ∧
      (worldOf sampleConfig s).ClaimOwned sampleConfig sampleKey e.uid := by
  obtain ⟨s, hrun, e, he, hp⟩ := Runs.Run.exists_of_exec (machine sampleConfig).step
    (fun s a => ∀ d ∈ s.deed a, (worldOf sampleConfig s).ClaimKept sampleKey d) { shared := {} }
    (addedSteps "u" 1 1 ++ landSteps 0 ++ deletedSteps 2 ++ [.env (.settle 1 false)] ++ deletedSteps 3)
    (fun s => ∃ e ∈ (s.shared.slot (s.shared.inst "s") sampleKey.cacheKey).entry,
      e.pendingDelete = true) (by decide)
  exact ⟨s, e, he, hp, pending_claim_owned hrun (by decide) he hp⟩

theorem resurrected_claim_unowned : ∃ (as : List Action) (s : System) (e : CacheEntry),
    Runs.Run (machine sampleConfig).step (fun s a => ∀ d ∈ s.deed a, Undisturbed sampleKey d)
      { shared := {} } as s ∧
      (s.shared.slot (s.shared.inst "s") sampleKey.cacheKey).entry = some e ∧ e.pendingDelete = true ∧
      ¬ (worldOf sampleConfig s).ClaimOwned sampleConfig sampleKey e.uid := by
  obtain ⟨s, hrun, hjobs, hidle, e, he, hp⟩ := Runs.Run.exists_of_exec (machine sampleConfig).step
    (fun s a => ∀ d ∈ s.deed a, Undisturbed sampleKey d) { shared := {} }
    (addedSteps "u" 1 1 ++ landSteps 0 ++ deletedSteps 2 ++ modifiedSteps "u" 2 3 ++ landSteps 1 ++
      [.env (.settle 2 false)])
    (fun s => (∀ h ∈ s.shared.jobs, h.status ≠ .inFlight) ∧
      (s.threads (.worker sampleKey)).isNone = true ∧
      ∃ e ∈ (s.shared.slot (s.shared.inst "s") sampleKey.cacheKey).entry,
      e.pendingDelete = true) (by decide)
  have idle (tid : Tid) : (worldOf sampleConfig s).phase tid = .idle := by
    refine worldOf_phase_of_none ?_
    by_cases ht : tid = .worker sampleKey
    · exact ht ▸ Option.isNone_iff_eq_none.mp hidle
    · exact Machine.threads_of_starts hrun (p := (· = .worker sampleKey)) (by decide) ht
  refine ⟨_, s, e, hrun, he, hp, ?_⟩
  rintro (⟨h, hm, hf, -⟩ | ⟨tid, hp⟩ | ⟨hp, -⟩)
  · exact hjobs h hm hf
  · rw [idle] at hp
    exact hp
  · rw [idle] at hp
    exact hp

end Kuberecord
