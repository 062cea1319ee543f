import Kuberecord.Fallbacks

namespace Kuberecord

open Threads

def Landed (cfg : Config) (s : Shared) (key : Key) (e : CacheEntry) : Prop :=
  ∃ r, (key.sink, r) ∈ s.table ∧ r.isOf cfg.clusterID key ∧ r.sha256 = e.hash ∧ r.uid = e.uid

theorem Landed.mono {cfg : Config} {s s' : Shared} {key : Key} {e e' : CacheEntry}
    (h : Landed cfg s key e) (ht : ∀ x ∈ s.table, x ∈ s'.table) (hh : e.hash = e'.hash)
    (hu : e.uid = e'.uid) :
    Landed cfg s' key e' := by
  obtain ⟨r, hm, hof, hr, hru⟩ := h
  exact ⟨r, ht _ hm, hof, hr.trans hh, hru.trans hu⟩

theorem Turn.table {cfg : Config} {w w' : World} {d : Deed} (h : Turn cfg w d w') :
    ∀ x ∈ w.shared.table, x ∈ w'.shared.table := by
  intro x hx
  cases h with
  | still _ _ _ hs | drop _ _ _ _ _ _ hs | refuse _ _ _ _ _ _ _ _ _ _ _ _ hs
  | emitRefused _ _ _ _ _ _ _ _ hs | outrun _ _ _ _ _ _ _ _ _ _ _ hs
  | recoverRefused _ _ _ _ _ _ _ _ _ _ _ hs => exact hs.table ▸ hx
  | insert => exact List.mem_insert_of_mem hx
  | settle => exact (Shared.settled_table ..).symm ▸ hx
  | _ => exact hx

namespace World

variable {w w' : World} {cfg : Config} {d : Deed} {st : Inst} {key : Key} {e : CacheEntry} {n : Nat}

def Backed (cfg : Config) (w : World) (key : Key) (st : Inst) (e : CacheEntry) (n : Nat) : Prop :=
  e.seeded = true ∨ Landed cfg w.shared key e ∨
    ∃ t c, w.Pending st key.cacheKey t c ∧ t.issue < n ∧ c.hash = e.hash ∧ c.uid = e.uid

structure Backing (cfg : Config) (key : Key) (w : World) : Prop where
  sound : w.Sound cfg
  backed : ∀ st e n, st.sink = key.sink → w.Remembers st key.cacheKey e n → w.Backed cfg key st e n

/--
A write is given up only as the latest install of its slot, and not between the key's `Load` and
`Reserve`.
-/
def Punctual (key : Key) (w : World) (a : Action) : Prop :=
  ∀ x ∈ w.lapsing a, x.1.sink = key.sink → x.2.1 = key.cacheKey →
    (w.shared.slot x.1 x.2.1).installs = x.2.2.issue ∧
      (w.phase (.worker key)).read.map (fun r => (r.1, r.2.1)) ≠ some (x.1, x.2.1)

instance (key : Key) (w : World) (a : Action) : Decidable (w.Punctual key a) :=
  inferInstanceAs (Decidable (∀ x ∈ w.lapsing a, _))

theorem Sound.landed (h : w.Sound cfg) {j : Handed} {t : Ticket} (hm : j ∈ w.shared.jobs)
    (hst : st.sink = key.sink) (hw : j.job.commit.write = some (st, key.cacheKey, t, e))
    {s' : Shared} (ht : (j.sink, j.job.record) ∈ s'.table) :
    Landed cfg s' key e := by
  have hl := h.jobs j hm
  obtain ⟨sink, ⟨record, commit⟩, status⟩ := j
  cases commit <;> cases hw
  obtain ⟨rfl, hk, seen, base, norm, plan, ts, -, rfl, -, rfl⟩ := hl
  obtain rfl := Key.Owns.unique ⟨hst, rfl⟩ hk
  exact ⟨_, ht, ⟨rfl, rfl, rfl, rfl, rfl⟩, rfl, rfl⟩

theorem Sound.reader (h : w.Sound cfg) {tid : Tid} {k : String} (hk : key.Owns st k)
    (hr : (w.phase tid).read = some (st, k, e)) : tid = .worker key := by
  have hl := h.phase tid
  have serves : tid.Serves st k := by
    unfold Phase.read at hr
    split at hr <;> cases hr
    all_goals rename_i hp; rw [hp] at hl
    · exact hl
    · exact hl
    · exact hl.1
    · exact hl
  obtain ⟨key', rfl, hk'⟩ := serves
  rw [hk.unique hk']

theorem Backing.turn (h : Backing cfg key w) (hok : Punctual key w d.plain) (ht : Turn cfg w d w') :
    Backing cfg key w' := by
  refine ⟨h.sound.turn ht, fun st e n hst hr => ?_⟩
  by_cases hl : ∃ t₀, w.Lapse st key.cacheKey t₀ d.plain w'
  · obtain ⟨t₀, hl⟩ := hl
    obtain ⟨hi, hread⟩ := hok _ hl.lapsing hst rfl
    have noreader : ∀ tid e, (w.phase tid).read ≠ some (st, key.cacheKey, e) := by
      intro tid e hr
      obtain rfl := h.sound.reader ⟨hst, rfl⟩ hr
      exact hread (by rw [hr]; rfl)
    obtain ⟨e', hr', ha⟩ := hr.lapse h.sound hl hi noreader
    rcases h.backed st e' _ hst hr' with hs | hl' | ⟨t, c, hp, hlt, hh, hu⟩
    · exact .inl (ha.seeded ▸ hs)
    · exact .inr (.inl (hl'.mono ht.table ha.hash ha.uid))
    · obtain ⟨hn, hne⟩ := Nat.lt_min.mp hlt
      refine .inr (.inr ⟨t, c, hp.lapse hl ?_, hn, hh.trans ha.hash, hu.trans ha.uid⟩)
      rintro rfl
      exact absurd hne (Nat.lt_irrefl _)
  · have hl : ∀ t, ¬ w.Lapse st key.cacheKey t d.plain w' := fun t h => hl ⟨t, h⟩
    have carried {t c} (hp : w.Pending st key.cacheKey t c ∨
      w'.Pending st key.cacheKey t c) (hlt : t.issue < n)
        (hh : c.hash = e.hash) (hu : c.uid = e.uid) : w'.Backed cfg key st e n := by
      rcases hp with hp | hp
      · rcases hp.turn ht with hp | hlap | rfl | ⟨j, hm, hw, hland⟩
        · exact .inr (.inr ⟨t, c, hp, hlt, hh, hu⟩)
        · exact absurd hlap (hl t)
        · exact absurd hr not_remembers_crashed
        · exact .inr (.inl ((h.sound.landed hm hst hw hland).mono (fun _ => id) hh hu))
      · exact .inr (.inr ⟨t, c, hp, hlt, hh, hu⟩)
    rcases hr.turn h.sound ht hl with ⟨e', hr', ha⟩ | hs | ⟨t, c, hp, hlt, hh, hu⟩
    · rcases h.backed st e' _ hst hr' with hs | hl' | ⟨t, c, hp, hlt, hh, hu⟩
      · exact .inl (ha.seeded ▸ hs)
      · exact .inr (.inl (hl'.mono ht.table ha.hash ha.uid))
      · exact carried (.inl hp) hlt (hh.trans ha.hash) (hu.trans ha.uid)
    · exact .inl hs
    · exact carried hp hlt hh hu

theorem Backing.empty : Backing cfg key {} := by
  refine ⟨.empty, ?_⟩
  rintro st e n - (⟨hn, he | ⟨tid, hp⟩⟩ | ⟨t, ht, ⟨tid, hp⟩ | ⟨h, hm, hst, hc⟩⟩)
  · cases he
  · cases hp
  · cases hp
  · cases hm

def Quiescent (w : World) (key : Key) : Prop :=
  (∀ h ∈ w.shared.jobs, h.status = .inFlight → h.job.commit.key ≠ key) ∧
    (w.phase (.worker key)).write = none

instance (w : World) (key : Key) : Decidable (w.Quiescent key) := inferInstanceAs (Decidable (_ ∧ _))

theorem Quiescent.not_pending {t : Ticket} (hq : w.Quiescent key) (h : w.Sound cfg)
    (hst : st.sink = key.sink) :
    ¬ w.Pending st key.cacheKey t e := by
  rintro (⟨tid, hp⟩ | ⟨j, hm, hf, hw⟩)
  · have hl := h.phase tid
    have serves : tid.Serves st key.cacheKey := by
      unfold Phase.write at hp
      split at hp <;> cases hp
      all_goals rename_i hp; rw [hp] at hl; exact hl
    obtain ⟨key', rfl, hk'⟩ := serves
    obtain rfl := Key.Owns.unique ⟨hst, rfl⟩ hk'
    simp [hq.2] at hp
  · have hl := h.jobs j hm
    refine hq.1 j hm hf ?_
    obtain ⟨sink, ⟨record, commit⟩, status⟩ := j
    cases commit <;> cases hw
    exact (Key.Owns.unique ⟨hst, rfl⟩ hl.2.1).symm

end World

theorem cached_write_landed {cfg : Config} {key : Key} {as : List Action} {s : System} {st : Inst}
    {e : CacheEntry}
    (h : Runs.Run (machine cfg).step (fun s a => (worldOf cfg s).Punctual key a) { shared := {} } as s)
    (hq : (worldOf cfg s).Quiescent key) (hst : st.sink = key.sink)
    (he : (s.shared.slot st key.cacheKey).entry = some e) (hs : e.seeded = false) :
    Landed cfg s.shared key e := by
  have hb : (worldOf cfg s).Backing cfg key :=
    World.invariant (World.Punctual key) h (fun _ _ _ hw hok ht => hw.turn hok ht) .empty
  rcases hb.backed st e _ hst (.inl ⟨Nat.lt_succ_self _, .inl he⟩) with hs' | hl | ⟨t, c, hp, -⟩
  · rw [hs] at hs'
    cases hs'
  · exact hl
  · exact absurd hp (hq.not_pending hb.sound hst)

def sampleLib : Lib where
  marshal j := some [match j.get? "spec" with | some (.int n) => UInt8.ofNat n.toNat | _ => 0]
  sha256 b := if b = [1] then "h1" else if b = [2] then "h2" else "h0"
  zstd := ⟨none, none⟩
  compareJSON _ b := match b with
    | [x] => some (.obj [("spec", .int x.toNat)])
    | _ => none

def sampleConfig : Config := ⟨sampleLib, "c"⟩

def sampleKey : Key := ⟨"s", coreGroup, podKind, namespaceA, "x"⟩

def sampleObject (uid : String) (n : Int) : Json :=
  .obj [("metadata", .obj [("uid", .str uid)]), ("spec", .int n)]

def processSteps (inputs : List Input) : List Action :=
  [.env (.add sampleKey), .start (.worker sampleKey) .run] ++ inputs.map (.exec (.worker sampleKey)) ++
    [.finish (.worker sampleKey)]

def observeInputs (obj : Json) : List Input :=
  [.lookup sampleKey (some ⟨some obj, true⟩), .writer (some {}), .go, .go, .policy (some none), .go]

def addedSteps (uid : String) (n : Int) (ts : Nat) : List Action :=
  processSteps (observeInputs (sampleObject uid n) ++ [.go, .go, .time ts, .flag true])

def modifiedSteps (uid : String) (n : Int) (ts : Nat) : List Action :=
  processSteps (observeInputs (sampleObject uid n) ++ [.go, .time ts, .flag true])

def supersededSteps (uid : String) (n : Int) (ts : Nat) : List Action :=
  processSteps (observeInputs (sampleObject uid n) ++
    [.go, .time ts, .flag true, .go, .time (ts + 1), .flag true])

def landSteps (j : Nat) : List Action := [.env (.insert j), .env (.settle j true)]

theorem retried_write_landed : ∃ (s : System) (e : CacheEntry),
    (s.shared.slot ⟨"s", 0⟩ sampleKey.cacheKey).entry = some e ∧
      Landed sampleConfig s.shared sampleKey e := by
  obtain ⟨s, hrun, hq, e, he, hs⟩ := Runs.Run.exists_of_exec (machine sampleConfig).step
    (fun s a => (worldOf sampleConfig s).Punctual sampleKey a) { shared := {} }
    (addedSteps "u" 1 1 ++ [.env (.settle 0 false)] ++ addedSteps "u" 1 2 ++ landSteps 1)
    (fun s => (worldOf sampleConfig s).Quiescent sampleKey ∧
      ∃ e ∈ (s.shared.slot ⟨"s", 0⟩ sampleKey.cacheKey).entry, e.seeded = false) (by decide)
  exact ⟨s, e, he, cached_write_landed hrun hq rfl he hs⟩

/--
Two writes overlap and fail newest first: the older one's row stays cached and was never stored.
-/
theorem cached_write_lost : ∃ (as : List Action) (s : System) (e : CacheEntry),
    Runs.Run (machine sampleConfig).step (fun _ _ => True) { shared := {} } as s ∧
      (worldOf sampleConfig s).Quiescent sampleKey ∧
      (s.shared.slot ⟨"s", 0⟩ sampleKey.cacheKey).entry = some e ∧ e.seeded = false ∧
      ¬ Landed sampleConfig s.shared sampleKey e := by
  obtain ⟨s, hrun, hq, htable, e, he, hs⟩ :=
    Runs.Run.exists_of_exec (machine sampleConfig).step (fun _ _ => True)
    { shared := {} }
    (addedSteps "u" 1 1 ++ modifiedSteps "u" 2 2 ++ [.env (.settle 1 false), .env (.settle 0 false)])
    (fun s => (worldOf sampleConfig s).Quiescent sampleKey ∧ s.shared.table = [] ∧
      ∃ e ∈ (s.shared.slot ⟨"s", 0⟩ sampleKey.cacheKey).entry, e.seeded = false) (by decide)
  refine ⟨_, s, e, hrun, hq, he, hs, ?_⟩
  rintro ⟨r, hm, -⟩
  simp [htable] at hm

end Kuberecord
