import Kuberecord.Library.Keyed
import Kuberecord.Sinks.Manager

namespace Kuberecord

variable {Cfg : Type} {lib : SinkLib Cfg} {m m' : SinkManager Cfg}

namespace SinkManager

section

variable {live : List (String × LiveSink)} {name name' : String}

theorem lookup_swapLocked (inst : Option LiveSink) :
    (swapLocked live name inst).lookup name' = if name' = name then inst else live.lookup name' := by
  rw [swapLocked, List.lookup_append]
  by_cases h : name' = name
  · subst h
    rw [Keyed.lookup_filter_self, if_pos rfl]
    cases inst <;> simp
  · rw [Keyed.lookup_filter_ne h, if_neg h]
    cases inst <;> simp [List.lookup_cons, beq_false_of_ne h]

theorem swapLocked_nodup (h : (live.map Prod.fst).Nodup) (inst : Option LiveSink) :
    ((swapLocked live name inst).map Prod.fst).Nodup := by
  rw [swapLocked, List.map_append, List.nodup_append]
  refine ⟨h.sublist (List.filter_sublist.map _), by cases inst <;> simp, ?_⟩
  intro a ha b hb
  obtain ⟨p, hp, rfl⟩ := List.mem_map.mp ha
  have hne : p.1 ≠ name := by simpa using (List.mem_filter.mp hp).2
  cases inst with
  | none => simp at hb
  | some inst =>
    obtain rfl : b = name := by simpa using hb
    exact hne

theorem filter_eq_self_of_lookup (h : live.lookup name = none) : live.filter (·.1 ≠ name) = live := by
  rw [List.filter_eq_self]
  intro p hp
  have hne : name ≠ p.1 := by simpa using List.lookup_eq_none_iff.mp h p hp
  simpa using Ne.symm hne

theorem swapLocked_perm (name : String) (h : (live.map Prod.fst).Nodup) (inst : Option LiveSink) :
    ((swapLocked live name inst).map Prod.snd ++ (live.lookup name).toList).Perm
      (live.map Prod.snd ++ inst.toList) := by
  have hout : ((live.filter (·.1 ≠ name)).map Prod.snd ++ (live.lookup name).toList).Perm
    (live.map Prod.snd) := by
    induction live with
    | nil => exact .refl _
    | cons p live ih =>
      rw [List.map_cons, List.nodup_cons] at h
      by_cases hp : p.1 = name
      · have hnone : live.lookup name = none := by
          refine List.lookup_eq_none_iff.mpr fun q hq => ?_
          simpa using fun he : name = q.1 => h.1 (hp ▸ he ▸ List.mem_map_of_mem hq)
        rw [List.filter_cons_of_neg (by simpa using hp), filter_eq_self_of_lookup hnone,
          List.lookup_cons, hp]
        simp
      · rw [List.filter_cons_of_pos (by simpa using hp), List.lookup_cons, beq_false_of_ne (Ne.symm hp)]
        exact (ih h.2).cons p.2
  rw [swapLocked, List.map_append, List.append_assoc]
  refine (List.perm_append_comm.append_left _).trans ?_
  rw [← List.append_assoc]
  refine (hout.append_right _).trans ?_
  cases inst <;> exact .refl _

end

end SinkManager

theorem SinkManager.stopped_ensureLocked (m : SinkManager Cfg) (name : String) (cfg : Cfg)
    (factory : Except String Unit) :
    (m.ensureLocked lib name cfg factory).2.stopped = m.stopped := by
  unfold ensureLocked
  simp only
  split_ifs
  · rfl
  · cases factory <;> rfl

structure SinkManager.Consistent (m : SinkManager Cfg) : Prop where
  names : (m.live.map Prod.fst).Nodup
  instances : m.instances.Nodup
  ids : ∀ inst ∈ m.instances, inst.id < m.instances.length
  placed : (m.live.map Prod.snd ++ m.owed ++ m.drains).Perm m.instances
  routed : m.stopped = false → ∀ name, (m.live.lookup name).map LiveSink.fingerprint =
    SinkEvent.declared name m.history
  owed : m.stopped = false → m.owed = []
  running : m.stopped = true → m.started = true

namespace SinkManager.Consistent

theorem empty : ({} : SinkManager Cfg).Consistent :=
  ⟨by simp, by simp, by simp, .refl _, fun _ _ => rfl, fun _ => rfl, fun hs => (by cases hs)⟩

theorem ensureLocked (h : m.Consistent) (hs : m.stopped = false) (name : String) (cfg : Cfg)
    (factory : Except String Unit) : (m.ensureLocked lib name cfg factory).2.Consistent := by
  unfold SinkManager.ensureLocked
  simp only
  split_ifs with hsame
  · refine ⟨h.names, h.instances, h.ids, h.placed, fun _ name' => ?_, h.owed, h.running⟩
    rw [SinkEvent.declared_snoc, SinkEvent.revise]
    split_ifs with hn
    · subst hn
      obtain ⟨inst, hinst, hf⟩ := (Option.any_eq_true _ _).mp hsame
      simp [hinst, of_decide_eq_true hf]
    · exact h.routed hs name'
  · cases factory with
    | error err => exact h
    | ok u =>
      have hfresh : (⟨m.instances.length, name, lib.fingerprint cfg⟩ : LiveSink) ∉ m.instances :=
        fun hmem =>
        Nat.lt_irrefl _ (h.ids _ hmem)
      refine ⟨swapLocked_nodup h.names _, ?_, ?_, ?_, fun _ name' => ?_, h.owed, h.running⟩
      · refine List.nodup_append.mpr ⟨h.instances, by simp, fun inst hi inst' hi' he => ?_⟩
        obtain rfl := List.mem_singleton.mp hi'
        exact hfresh (he ▸ hi)
      · intro inst hi
        rcases List.mem_append.mp hi with hi | hi
        · exact (h.ids inst hi).trans (by simp)
        · obtain rfl := List.mem_singleton.mp hi
          simp
      · refine List.perm_iff_count.mpr fun inst => ?_
        have hswap := (swapLocked_perm name h.names
          (some ⟨m.instances.length, name, lib.fingerprint cfg⟩)).count_eq inst
        have hplaced := h.placed.count_eq inst
        simp only [List.count_append, Option.toList_some] at hswap hplaced ⊢
        omega
      · rw [lookup_swapLocked, SinkEvent.declared_snoc, SinkEvent.revise]
        by_cases hn : name = name'
        · simp [hn]
        · rw [if_neg (Ne.symm hn), if_neg hn]
          exact h.routed hs name'

theorem ensure (h : m.Consistent) (name : String) (cfg : Option Cfg) (factory : Except String Unit) :
    (m.ensure lib name cfg factory).2.Consistent := by
  cases cfg with
  | none =>
    unfold SinkManager.ensure
    split_ifs <;> exact h
  | some cfg =>
    unfold SinkManager.ensure
    split_ifs with hn hstop hstart
    · exact h
    · exact h
    · exact ⟨h.names, h.instances, h.ids, h.placed, h.routed, h.owed, h.running⟩
    · exact h.ensureLocked (by simpa using hstop) name cfg factory

theorem delete (h : m.Consistent) (name : String) : (m.delete name).Consistent := by
  unfold SinkManager.delete
  split_ifs with hstop
  · exact h
  · have hlive : (if (m.live.lookup name).isSome then swapLocked m.live name none else m.live) =
        swapLocked m.live name none := by
      split_ifs with hc
      · rfl
      · rw [swapLocked, filter_eq_self_of_lookup (Option.not_isSome_iff_eq_none.mp hc)]
        simp
    simp only [hlive]
    refine ⟨swapLocked_nodup h.names _, h.instances, h.ids, ?_, fun hs name' => ?_, h.owed, h.running⟩
    · refine List.perm_iff_count.mpr fun inst => ?_
      have hswap := (swapLocked_perm name h.names none).count_eq inst
      have hplaced := h.placed.count_eq inst
      simp only [List.count_append, Option.toList_none, List.count_nil] at hswap hplaced ⊢
      omega
    · rw [lookup_swapLocked, SinkEvent.declared_snoc, SinkEvent.revise]
      by_cases hn : name = name'
      · simp [hn]
      · rw [if_neg (Ne.symm hn), if_neg hn]
        exact h.routed hs name'

theorem start (h : m.Consistent) (hs : m.stopped = false) (factory : String → Except String Unit) :
    (m.start lib factory).Consistent := by
  have hfold (l : List (String × Cfg)) : ∀ m : SinkManager Cfg, m.Consistent → m.stopped = false →
      (l.foldl (fun m p => (m.ensureLocked lib p.1 p.2 (factory p.1)).2) m).Consistent := by
    induction l with
    | nil => exact fun m hm _ => hm
    | cons p l ih =>
      exact fun m hm hms => ih _ (hm.ensureLocked hms p.1 p.2 _) (by rw [stopped_ensureLocked, hms])
  exact hfold _ _ ⟨h.names, h.instances, h.ids, h.placed, h.routed, h.owed, fun _ => rfl⟩ hs

theorem shutdown (h : m.Consistent) (hr : m.started = true) (hs : m.stopped = false) :
    m.shutdown.Consistent := by
  refine ⟨by simp [SinkManager.shutdown], h.instances, h.ids, ?_, fun hc => (by cases hc), fun hc => (by cases hc),
    fun _ => hr⟩
  have hplaced := h.placed
  rw [h.owed hs, List.append_nil] at hplaced
  exact hplaced

theorem step {a : SinkStep Cfg} (h : m.Consistent) (hst : m.step lib a = some m') : m'.Consistent := by
  cases a with
  | ensure name cfg factory =>
    cases hst
    exact h.ensure name cfg factory
  | delete name =>
    cases hst
    exact h.delete name
  | start factory =>
    simp only [SinkManager.step, Option.ite_none_left_eq_some] at hst
    cases hst.2
    refine h.start ?_ factory
    by_contra hs
    exact hst.1 (h.running (by simpa using hs))
  | shutdown =>
    simp only [SinkManager.step, Option.ite_none_right_eq_some] at hst
    cases hst.2
    exact h.shutdown hst.1.1 (by simpa using hst.1.2)
  | drainOwed inst =>
    simp only [SinkManager.step, Option.ite_none_right_eq_some] at hst
    cases hst.2
    refine ⟨h.names, h.instances, h.ids, ?_, h.routed, fun hs => ?_, h.running⟩
    · refine List.perm_iff_count.mpr fun inst' => ?_
      have hplaced := h.placed.count_eq inst'
      have howed := (List.perm_cons_erase hst.1).count_eq inst'
      simp only [List.count_append, List.count_cons, List.count_nil] at hplaced howed ⊢
      omega
    · rw [h.owed hs]
      rfl
  | tail n =>
    simp only [SinkManager.step] at hst
    split at hst
    · split_ifs at hst
      cases hst
      exact ⟨h.names, h.instances, h.ids, h.placed, h.routed, h.owed, h.running⟩
    · cases hst

end SinkManager.Consistent

namespace SinkManager

def SameRouting (m m' : SinkManager Cfg) : Prop := m'.live = m.live ∧ m'.instances = m.instances ∧
    m'.drains = m.drains

end SinkManager

def sampleSinkLib : SinkLib String := ⟨fun cfg => cfg, fun s => s⟩

end Kuberecord
