import Kuberecord.LostWrites
import Kuberecord.Stamps

namespace Kuberecord

open Threads

namespace World

variable {w w' : World} {cfg : Config} {d : Deed} {x : String × Record}

def Informed (cfg : Config) (w : World) : Action → Prop
  | .exec _ (.states ref (some states)) => ∀ x ∈ states, Reported cfg w.shared ref x
  | _ => True

instance (cfg : Config) (w : World) (a : Action) : Decidable (w.Informed cfg a) := by
  unfold Informed
  split <;> infer_instance

def rows (w : World) : List (String × Record) := w.shared.jobs.map (fun h => (h.sink, h.job.record))

theorem rows_hand {sink : String} {job : Job} (h : w'.shared = w.hand sink job) (hx : x ∈ w.rows) :
    x ∈ w'.rows := by
  rw [rows, h]
  exact List.map_append ▸ List.mem_append_left _ hx

theorem rows_turn (ht : Turn cfg w d w') (hx : x ∈ w.rows) : x ∈ w'.rows := by
  have same (hj : w'.shared.jobs = w.shared.jobs) : x ∈ w'.rows := by rwa [rows, hj]
  cases ht with
  | still _ _ _ hs | drop _ _ _ _ _ _ hs | refuse _ _ _ _ _ _ _ _ _ _ _ _ hs
  | emitRefused _ _ _ _ _ _ _ _ hs | outrun _ _ _ _ _ _ _ _ _ _ _ hs
  | recoverRefused _ _ _ _ _ _ _ _ _ _ _ hs => exact same hs.jobs
  | issue | emit | close | resubmit | recover => exact rows_hand rfl hx
  | settle j ok sink job hj hok =>
    obtain ⟨before, after, he, hset⟩ := exists_split_of_getElem? hj
    rw [rows, Shared.settled_jobs, hset]
    rw [rows, he] at hx
    simpa using hx
  | crash =>
    have hmap : w.crashed.rows = w.rows := by
      rw [rows, crashed, crash, List.map_map, rows]
      refine List.map_congr_left fun h _ => ?_
      simp only [Function.comp_apply]
      split_ifs <;> rfl
    exact hmap ▸ hx
  | _ => exact hx

theorem table_turn (ht : Turn cfg w d w') (hx : x ∈ w'.shared.table) :
    x ∈ w.shared.table ∨ x ∈ w.rows := by
  cases ht with
  | still _ _ _ hs | drop _ _ _ _ _ _ hs | refuse _ _ _ _ _ _ _ _ _ _ _ _ hs
  | emitRefused _ _ _ _ _ _ _ _ hs | outrun _ _ _ _ _ _ _ _ _ _ _ hs
  | recoverRefused _ _ _ _ _ _ _ _ _ _ _ hs => exact .inl (hs.table ▸ hx)
  | insert j sink job hj =>
    rcases List.mem_insert_iff.mp hx with rfl | hx
    · exact .inr (List.mem_map.mpr ⟨_, List.mem_of_getElem? hj, rfl⟩)
    · exact .inl hx
  | settle => exact .inl ((Shared.settled_table ..) ▸ hx)
  | _ => exact .inl hx

theorem history_turn {tid : Tid} {ref : ScopeRef} {states : List KnownState} (ht : Turn cfg w d w')
    (h : (w'.seen tid).history = some (ref, states)) :
    (w.seen tid).history = some (ref, states) ∨ d.plain = .exec tid (.states ref (some states)) := by
  have learned {u : Tid} {seen : Seen} (h : ((w.learn u seen).seen tid).history = some (ref, states)) :
      (w.seen tid).history = some (ref, states) ∨ tid = u ∧ seen.history = some (ref, states) := by
    by_cases hu : tid = u
    · subst hu
      exact .inr ⟨rfl, by simpa [learn] using h⟩
    · exact .inl (by simpa [learn, hu] using h)
  cases ht with
  | still _ w' hp hs hc hr hseen =>
    rcases hseen tid with he | he
    · exact .inl (he ▸ h)
    · rw [he] at h
      cases h
  | attach | look | vouch =>
    rcases learned h with h | ⟨rfl, h⟩
    · exact .inl h
    · exact .inl h
  | consult u ref' states' =>
    rcases learned h with h | ⟨rfl, h⟩
    · exact .inl h
    · obtain ⟨l, rfl, hl⟩ := Option.map_eq_some_iff.mp h
      cases hl
      exact .inr rfl
  | drop u st k base s' hp hs =>
    by_cases hu : tid = u
    · subst hu
      simp [learn] at h
    · simp only [learn, Function.update_of_ne hu] at h
      exact .inl h
  | crash => cases h
  | _ => exact .inl h

theorem mem_recovered_turn (ht : Turn cfg w d w') (hx : x ∈ w'.recovered) :
    x ∈ w.recovered ∨ ∃ tid key ks, (w.seen tid).Outlived key ks ∧
      x = (key.sink, ks.reincarnation.closeOutRecord cfg.clusterID key) := by
  cases ht with
  | still _ _ _ _ _ hr => exact .inl (hr ▸ hx)
  | recover tid key _ _ ks _ _ _ hout | recoverRefused tid key _ _ ks _ _ _ _ hout =>
    rcases List.mem_append.mp hx with hx | hx
    · exact .inl hx
    · exact .inr ⟨tid, key, ks, hout, List.mem_singleton.mp hx⟩
  | _ => exact .inl hx

structure Told (cfg : Config) (w : World) : Prop where
  table : ∀ x ∈ w.shared.table, x ∈ w.rows
  history : ∀ tid ref states, (w.seen tid).history = some (ref, states) → ∀ x ∈ states,
    ∃ r, (ref.sink, r) ∈ w.rows ∧ r.isOf cfg.clusterID (ref.key x.ns x.name) ∧ r.timestamp = x.ts ∧
      r.eventType ≠ .deleted
  -- a close-out built from history shares its order key with the row it closes
  recovered : ∀ sink r, (sink, r) ∈ w.recovered → r.eventType = .deleted ∧
    ∃ r', (sink, r') ∈ w.rows ∧ r'.orderKey = r.orderKey ∧ r'.eventType ≠ .deleted

theorem Told.empty : Told cfg {} := ⟨by simp, by simp, by simp⟩

theorem Told.turn (h : w.Told cfg) (hok : w.Informed cfg d.plain) (ht : Turn cfg w d w') :
    w'.Told cfg := by
  constructor
  · intro x hx
    exact rows_turn ht ((table_turn ht hx).elim (h.table x) id)
  · intro tid ref states hs x hx
    rcases history_turn ht hs with hs | ha
    · obtain ⟨r, hr, hrest⟩ := h.history tid ref states hs x hx
      exact ⟨r, rows_turn ht hr, hrest⟩
    · rw [ha] at hok
      obtain ⟨r, hr, hne, -, hts, -⟩ := hok x hx
      obtain ⟨hm, hof⟩ := mem_landedRows.mp hr
      exact ⟨r, rows_turn ht (h.table _ hm), hof, hts, hne⟩
  · intro sink r hr
    rcases mem_recovered_turn ht hr with hr | ⟨tid, key, ks, ⟨ref, states, hs, -, hrep, rfl⟩, he⟩
    · obtain ⟨hd, r', hr', hrest⟩ := h.recovered sink r hr
      exact ⟨hd, r', rows_turn ht hr', hrest⟩
    · cases he
      obtain ⟨r', hr', ⟨hc, hg, hk, hn, hm⟩, hts, hne⟩ := h.history tid ref states hs ks hrep.1
      refine ⟨rfl, r', rows_turn ht hr', ?_, hne⟩
      simp only [Record.orderKey, hc, hg, hk, hn, hm, hts]
      rfl

end World

/-- Merging the rows of a sink by their `ORDER BY` key loses none of those handed to it. -/
def Shared.Lossless (s : Shared) : Prop :=
  ∀ j ∈ s.jobs, ∀ j' ∈ s.jobs, j.sink = j'.sink → j.job.record ≠ j'.job.record →
    j.job.record.orderKey ≠ j'.job.record.orderKey

instance (s : Shared) : Decidable s.Lossless :=
  inferInstanceAs (Decidable (∀ j ∈ s.jobs, ∀ j' ∈ s.jobs, _))

theorem lossless_iff {cfg : Config} {as : List Action} {s : System}
    (h : Runs.Run (machine cfg).step
      (fun s a => (worldOf cfg s).Ticking a ∧ (worldOf cfg s).Informed cfg a) { shared := {} } as s) :
    s.shared.Lossless ↔ ∀ j ∈ s.shared.jobs, (j.sink, j.job.record) ∉ (worldOf cfg s).recovered := by
  have hst : (worldOf cfg s).Sound cfg ∧ (worldOf cfg s).Stamped :=
    World.invariant (I := fun w => w.Sound cfg ∧ w.Stamped) (fun w a => w.Ticking a ∧ w.Informed cfg a) h
      (fun _ _ _ hw hok ht => ⟨hw.1.turn ht, hw.2.turn hw.1 hok.1 ht⟩) ⟨.empty, .empty⟩
  have htold : (worldOf cfg s).Told cfg :=
    World.invariant (fun w a => w.Ticking a ∧ w.Informed cfg a) h
      (fun _ _ _ hw hok ht => hw.turn hok.2 ht) .empty
  constructor
  · intro hd j hj hr
    obtain ⟨hdel, r', hr', hkey, hne⟩ := htold.recovered _ _ hr
    obtain ⟨j', hj', he⟩ := List.mem_map.mp hr'
    obtain ⟨hs, rfl⟩ := Prod.mk.inj he
    refine hd j' hj' j hj hs ?_ hkey
    intro he
    exact hne (he ▸ hdel)
  · intro hr j hj j' hj' hs hne hkey
    have hts : j.job.record.timestamp = j'.job.record.timestamp := congrArg (fun k => k.2.2.2.2.2) hkey
    exact hne (hst.2.unique j.sink _ j'.sink _ ⟨.job j hj rfl rfl, hr j hj⟩ ⟨.job j' hj' rfl rfl,
      hr j' hj'⟩ hts).2

theorem two_upserts_lossless : ∃ s : System, s.shared.jobs.length = 2 ∧ s.shared.Lossless := by
  obtain ⟨s, hrun, hl, hr⟩ := Runs.Run.exists_of_exec (machine sampleConfig).step
    (fun s a => (worldOf sampleConfig s).Ticking a ∧
    (worldOf sampleConfig s).Informed sampleConfig a) { shared := {} }
    (addedSteps "u" 1 1 ++ modifiedSteps "u" 2 2 ++ landSteps 1 ++ landSteps 0)
    (fun s => s.shared.jobs.length = 2 ∧
      ∀ j ∈ s.shared.jobs, (j.sink, j.job.record) ∉ (worldOf sampleConfig s).recovered) (by decide)
  exact ⟨s, hl, (lossless_iff hrun).mpr hr⟩

def sampleScope : ScopeRef := ⟨"s", sampleKey.scope⟩

def sampleState (uid hash : String) (ts : Nat) : KnownState := ⟨sampleKey.ns, "x", uid, hash, "", ts⟩

def warmSteps (states : List KnownState) : List Action :=
  .start (.warm 0) (.warm sampleScope 0 1) ::
    [.reader .reader, .states sampleScope (some states), .go, .go, .go, .flag true, .reader .reader,
      .active sampleScope (some true), .writer (some {}), .go, .flag false,
      .flag true].map (.exec (.warm 0))

/--
A restart loses the death of an incarnation; the close-out a warm-up writes for it displaces its
last row.
-/
theorem closed_out_row_displaced : ∃ (as : List Action) (s : System),
    Runs.Run (machine sampleConfig).step
      (fun s a => (worldOf sampleConfig s).Ticking a ∧ (worldOf sampleConfig s).Informed sampleConfig a)
      { shared := {} } as s ∧ ¬ s.shared.Lossless := by
  obtain ⟨s, hrun, h⟩ := Runs.Run.exists_of_exec (machine sampleConfig).step
    (fun s a => (worldOf sampleConfig s).Ticking a ∧
    (worldOf sampleConfig s).Informed sampleConfig a) { shared := {} }
    (addedSteps "u" 1 1 ++ landSteps 0 ++ [.crash] ++ addedSteps "v" 2 2 ++ landSteps 1 ++
      warmSteps [sampleState "u" "h1" 1, sampleState "v" "h2" 2])
    (fun s => ¬ s.shared.Lossless) (by decide)
  exact ⟨_, s, hrun, h⟩

end Kuberecord
