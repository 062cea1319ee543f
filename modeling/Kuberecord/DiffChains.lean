import Kuberecord.Rows
import Kuberecord.Solo
import Mathlib.Data.List.Sort

namespace Kuberecord

open Threads

def rowsBefore (cfg : Config) (s : Shared) (key : Key) (ts : Nat) : List Record :=
  ((landedRows cfg s key).filter (·.timestamp < ts)).insertionSort
    (fun r r' => r.timestamp ≤ r'.timestamp)

theorem landedRows_nodup {cfg : Config} {s : Shared} {key : Key} (h : s.table.Nodup) :
    (landedRows cfg s key).Nodup := by
  refine (h.filter _).map_on ?_
  rintro ⟨sink, r⟩ hx ⟨sink', r'⟩ hy rfl
  obtain ⟨rfl, -⟩ := of_decide_eq_true (List.mem_filter.mp hx).2
  obtain ⟨rfl, -⟩ := of_decide_eq_true (List.mem_filter.mp hy).2
  rfl

theorem rowsBefore_eq {cfg : Config} {s : Shared} {key : Key} {ts : Nat} {rows : List Record}
    (h : s.table.Nodup) (hrows : rows.Pairwise (fun r r' => r.timestamp < r'.timestamp))
    (hmem : ∀ r, r ∈ rows ↔ r ∈ landedRows cfg s key ∧ r.timestamp < ts) :
    rowsBefore cfg s key ts = rows := by
  have : Std.Total (fun r r' : Record => r.timestamp ≤ r'.timestamp) := ⟨fun r r' => Nat.le_total _ _⟩
  have : IsTrans Record (fun r r' => r.timestamp ≤ r'.timestamp) := ⟨fun _ _ _ => Nat.le_trans⟩
  have hperm : (rowsBefore cfg s key ts).Perm rows := by
    refine (List.perm_insertionSort _ _).trans ((List.perm_ext_iff_of_nodup ?_ ?_).mpr fun r => ?_)
    · exact (landedRows_nodup h).filter _
    · exact hrows.imp (fun hlt he => absurd (he ▸ hlt) (Nat.lt_irrefl _))
    · rw [hmem, List.mem_filter, decide_eq_true_iff]
  refine hperm.eq_of_pairwise ?_ (List.pairwise_insertionSort _ _) (hrows.imp Nat.le_of_lt)
  intro a b ha hb hab hba
  have hts : (rows.map Record.timestamp).Nodup := List.pairwise_map.mpr (hrows.imp Nat.ne_of_lt)
  exact List.inj_on_of_nodup_map hts (hperm.mem_iff.mp ha) hb (Nat.le_antisymm hab hba)

namespace World

variable {w w' : World} {cfg : Config} {key : Key} {uid : String} {d : Deed}

structure Stored (w : World) : Prop where
  nodup : w.shared.table.Nodup
  handed : ∀ x ∈ w.shared.table, ∃ h ∈ w.shared.jobs, (h.sink, h.job.record) = x ∧
    (h.status = .inFlight ∨ h.status = .written)
  written : ∀ h ∈ w.shared.jobs, h.status = .written → (h.sink, h.job.record) ∈ w.shared.table

theorem Stored.empty : Stored {} := ⟨.nil, by simp, by simp⟩

theorem Stored.keep (h : w.Stored) (hj : w'.shared.jobs = w.shared.jobs)
    (ht : w'.shared.table = w.shared.table) :
    w'.Stored :=
  ⟨ht ▸ h.nodup, by rw [hj, ht]; exact h.handed, by rw [hj, ht]; exact h.written⟩

theorem Stored.hand (h : w.Stored) {sink : String} {job : Job} (hs : w'.shared = w.hand sink job) :
    w'.Stored := by
  constructor
  · rw [hs]
    exact h.nodup
  · intro x hx
    rw [hs] at hx ⊢
    obtain ⟨j, hm, hj⟩ := h.handed x hx
    exact ⟨j, List.mem_append_left _ hm, hj⟩
  · intro j hm hw
    rw [hs] at hm ⊢
    rcases List.mem_append.mp hm with hm | hm
    · exact h.written j hm hw
    · rw [List.mem_singleton.mp hm] at hw
      cases hw

theorem Stored.insert (h : w.Stored) {j : Nat} {sink : String} {job : Job}
    (hj : w.shared.jobs[j]? = some ⟨sink, job, .inFlight⟩) :
    Stored { w with shared := { w.shared with table := w.shared.table.insert (sink, job.record) } } := by
  refine ⟨h.nodup.insert, fun x hx => ?_, fun j hm hw => List.mem_insert_of_mem (h.written j hm hw)⟩
  rcases List.mem_insert_iff.mp hx with rfl | hx
  · exact ⟨_, List.mem_of_getElem? hj, rfl, .inl rfl⟩
  · exact h.handed x hx

theorem Stored.settle (h : w.Stored) {j : Nat} {sink : String} {job : Job} {ok : Bool}
    (hj : w.shared.jobs[j]? = some ⟨sink, job, .inFlight⟩)
    (hok : (sink, job.record) ∈ w.shared.table ↔ ok = true) :
    Stored { w with shared := w.shared.settled j sink job ok } := by
  obtain ⟨before, after, he, hset⟩ := exists_split_of_getElem? hj
  constructor
  · simpa using h.nodup
  · intro x hx
    simp only [Shared.settled_table, Shared.settled_jobs, hset] at hx ⊢
    obtain ⟨j', hm, hx', hst⟩ := h.handed x hx
    by_cases hne : (sink, job.record) = x
    · subst hne
      refine ⟨_, List.mem_append_right _ List.mem_cons_self, rfl, .inr ?_⟩
      simp [hok.mp hx]
    · refine ⟨j', ?_, hx', hst⟩
      rw [he] at hm
      rcases List.mem_append.mp hm with hm | hm
      · exact List.mem_append_left _ hm
      · rcases List.mem_cons.mp hm with rfl | hm
        · exact absurd hx' hne
        · exact List.mem_append_right _ (List.mem_cons_of_mem _ hm)
  · intro j' hm hw
    simp only [Shared.settled_table, Shared.settled_jobs] at hm ⊢
    rcases List.mem_or_eq_of_mem_set hm with hm | rfl
    · exact h.written j' hm hw
    · refine hok.mpr ?_
      cases ok
      · cases hw
      · rfl

theorem Stored.turn (h : w.Stored) (hok : w.Solo key uid d.plain) (ht : Turn cfg w d w') :
    w'.Stored := by
  cases ht with
  | still _ _ _ hs | drop _ _ _ _ _ _ hs | refuse _ _ _ _ _ _ _ _ _ _ _ _ hs
  | emitRefused _ _ _ _ _ _ _ _ hs | outrun _ _ _ _ _ _ _ _ _ _ _ hs
  | recoverRefused _ _ _ _ _ _ _ _ _ _ _ hs => exact h.keep hs.jobs hs.table
  | issue | emit | close | resubmit | recover => exact h.hand rfl
  | insert j sink job hj => exact h.insert hj
  | settle j ok sink job hj hland =>
    refine h.settle hj ⟨fun hm => ?_, hland⟩
    cases ok with
    | true => rfl
    | false => exact absurd hm (hok _ hj)
  | crash => exact hok.elim
  | _ => exact h.keep rfl rfl

theorem Alone.mem_rows {apply : Bytes → Bytes → Option Bytes} (h : w.Alone cfg apply key uid)
    (hst : w.Stored) {r : Record} : r ∈ landedRows cfg w.shared key → r ∈ (w.cell key).rows := by
  intro hr
  obtain ⟨hm, hof⟩ := mem_landedRows.mp hr
  obtain ⟨j, hj, hx, hstatus⟩ := hst.handed _ hm
  obtain ⟨hs, hof'⟩ := (h.sound.jobs j hj).isOf
  have hkey : j.job.commit.key = key := by
    rw [Prod.mk.injEq] at hx
    exact (hx.2 ▸ hof').unique hof (hs.symm.trans hx.1)
  obtain ⟨t, e, rev, hc⟩ := h.jobs j hj hkey
  obtain ⟨sink, ⟨record, commit⟩, status⟩ := j
  subst hc
  cases hx
  exact List.mem_map.mpr ⟨⟨_, t, e, rev⟩,
    List.mem_filterMap.mpr ⟨_, hj, by simp [Handed.write, hstatus]⟩, rfl⟩

theorem Alone.mem_landedRows {apply : Bytes → Bytes → Option Bytes} (h : w.Alone cfg apply key uid)
    (hst : w.Stored) {r : Record} (hr : r ∈ (w.cell key).rows)
    (hf : ∀ j ∈ w.shared.jobs, j.status = .inFlight → j.job.commit.key = key → j.job.record ≠ r) :
    r ∈ landedRows cfg w.shared key := by
  obtain ⟨x, hx, rfl⟩ := List.mem_map.mp hr
  obtain ⟨j, hj, hw⟩ := List.mem_filterMap.mp hx
  obtain ⟨hs, hof⟩ := (h.sound.jobs j hj).isOf
  have hkey := Handed.key_of_write hw
  obtain ⟨hrec, hstatus⟩ : j.job.record = x.record ∧ (j.status = .inFlight ∨ j.status = .written) := by
    obtain ⟨sink, ⟨record, _ | _ | _⟩, status⟩ := j
    · simp only [Handed.write, Option.ite_none_right_eq_some, Option.some.injEq] at hw
      exact ⟨hw.2 ▸ rfl, hw.1.2⟩
    · cases hw
    · cases hw
  rw [hkey] at hs hof
  rw [hrec] at hof
  have hwritten := hstatus.resolve_left fun hi => hf j hj hi hkey hrec
  exact Kuberecord.mem_landedRows.mpr ⟨hs ▸ hrec ▸ hst.written j hj hwritten, hof⟩

end World

/--
Applying the diff of a stored row to what the rows before it add up to gives the document the row
was hashed from, once no earlier write of the key is in flight.
-/
theorem landed_diff_applies {cfg : Config} {apply : Bytes → Bytes → Option Bytes} {key : Key}
    {uid : String} {as : List Action} {s : System} {r : Record} (hl : cfg.lib.Lawful apply)
    (h : Runs.Run (machine cfg).step
      (fun s a => (worldOf cfg s).Solo key uid a ∧ (worldOf cfg s).Punctual key a)
      { shared := {} } as s)
    (hr : r ∈ landedRows cfg s.shared key)
    (hf : ∀ j ∈ s.shared.jobs, j.status = .inFlight → j.job.commit.key = key →
      r.timestamp ≤ j.job.record.timestamp)
    (hd : r.data = []) :
    ∃ d d', replay apply (rowsBefore cfg s.shared key r.timestamp) = some d ∧
      apply r.diff d = some d' ∧ cfg.lib.sha256 d' = r.sha256 := by
  have ha : (worldOf cfg s).Alone cfg apply key uid :=
    World.invariant (fun w a => w.Solo key uid a ∧ w.Punctual key a) h
      (fun _ _ _ hw hok ht => hw.turn hl hok.1 hok.2 ht) .empty
  have hst : (worldOf cfg s).Stored :=
    World.invariant (fun w a => w.Solo key uid a ∧ w.Punctual key a) h
      (fun _ _ _ hw hok ht => hw.turn hok.1 ht) .empty
  obtain ⟨before, after, hrows⟩ := List.append_of_mem (ha.mem_rows hst hr)
  have hord := hrows ▸ ha.chained.ordered
  obtain ⟨hbefore, hafter, hlt⟩ := List.pairwise_append.mp hord
  have hlt : ∀ r' ∈ before, r'.timestamp < r.timestamp := fun r' hr' => hlt r' hr' r List.mem_cons_self
  have heq : rowsBefore cfg s.shared key r.timestamp = before := by
    refine rowsBefore_eq hst.nodup hbefore fun r' => ⟨fun hr' => ⟨?_, hlt r' hr'⟩, fun ⟨hr', hlt'⟩ => ?_⟩
    · refine ha.mem_landedRows hst (hrows ▸ List.mem_append_left _ hr') fun j hj hi hk he => ?_
      exact absurd (hlt r' hr') (Nat.not_lt.mpr (he ▸ hf j hj hi hk))
    · have hm := ha.mem_rows hst hr'
      rw [hrows] at hm
      rcases List.mem_append.mp hm with hm | hm
      · exact hm
      · rcases List.mem_cons.mp hm with rfl | hm
        · exact absurd hlt' (Nat.lt_irrefl _)
        · exact absurd hlt' (Nat.not_lt.mpr (Nat.le_of_lt ((List.pairwise_cons.mp hafter).1 r' hm)))
  rw [heq]
  exact ha.chained.readable before r after hrows hd

def samplePatch (diff _ : Bytes) : Option Bytes := some diff

theorem sampleLib_lawful : sampleLib.Lawful samplePatch where
  patch a b patch diff hc hm := by
    simp only [sampleLib] at hc
    split at hc
    · cases hc
      have hm : some [UInt8.ofNat (Int.toNat _)] = some diff := hm
      simpa [samplePatch] using hm.symm
    · cases hc
  marshal j b h := by
    cases h
    simp
  zstd := ⟨by simp [sampleLib], by simp [sampleLib]⟩

theorem second_diff_applies : ∃ (s : System) (r : Record) (d d' : Bytes),
    r ∈ landedRows sampleConfig s.shared sampleKey ∧ r.data = [] ∧
      replay samplePatch (rowsBefore sampleConfig s.shared sampleKey r.timestamp) = some d ∧
      samplePatch r.diff d = some d' ∧ sampleLib.sha256 d' = r.sha256 := by
  obtain ⟨s, hrun, hf, r, hr, hd⟩ := Runs.Run.exists_of_exec (machine sampleConfig).step
    (fun s a => (worldOf sampleConfig s).Solo sampleKey "u" a ∧
    (worldOf sampleConfig s).Punctual sampleKey a)
    { shared := {} }
    (addedSteps "u" 1 1 ++ landSteps 0 ++ modifiedSteps "u" 2 2 ++ landSteps 1)
    (fun s => (∀ j ∈ s.shared.jobs, j.status ≠ .inFlight) ∧
      ∃ r ∈ landedRows sampleConfig s.shared sampleKey, r.data = []) (by decide)
  obtain ⟨d, d', h⟩ := landed_diff_applies sampleLib_lawful hrun hr
    (fun j hj hi => absurd hi (hf j hj)) hd
  exact ⟨s, r, d, d', hr, hd, h⟩

/-- The first write fails after a diff was taken over it, and the diff alone is stored. -/
theorem first_write_lost : ∃ (as : List Action) (s : System) (r : Record),
    Runs.Run (machine sampleConfig).step (fun s a => (worldOf sampleConfig s).Solo sampleKey "u" a)
      { shared := {} } as s ∧
      (∀ j ∈ s.shared.jobs, j.status ≠ .inFlight) ∧ r ∈ landedRows sampleConfig s.shared sampleKey ∧
      r.data = [] ∧ rowsBefore sampleConfig s.shared sampleKey r.timestamp = [] := by
  obtain ⟨s, hrun, hf, r, hr, hd, hn⟩ := Runs.Run.exists_of_exec (machine sampleConfig).step
    (fun s a => (worldOf sampleConfig s).Solo sampleKey "u" a) { shared := {} }
    (addedSteps "u" 1 1 ++ modifiedSteps "u" 2 2 ++ landSteps 1 ++ [.env (.settle 0 false)])
    (fun s => (∀ j ∈ s.shared.jobs, j.status ≠ .inFlight) ∧
      ∃ r ∈ landedRows sampleConfig s.shared sampleKey,
      r.data = [] ∧ rowsBefore sampleConfig s.shared sampleKey r.timestamp = []) (by decide)
  exact ⟨_, s, r, hrun, hf, hr, hd, hn⟩

end Kuberecord
