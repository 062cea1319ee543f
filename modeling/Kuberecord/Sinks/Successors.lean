import Kuberecord.Sinks.Routing

namespace Kuberecord

variable {Cfg : Type} {lib : SinkLib Cfg} {m m' : SinkManager Cfg}

def Tail.Acts (t : Tail) : Prop := t.phase = .removing ∨ t.phase = .forgetting ∨ t.phase = .parking

instance (t : Tail) : Decidable t.Acts := inferInstanceAs (Decidable (_ ∨ _))

def SinkManager.Undeclared (m : SinkManager Cfg) (name : String) : Prop :=
  SinkEvent.declared name m.history = none

instance (m : SinkManager Cfg) (name : String) : Decidable (m.Undeclared name) :=
  inferInstanceAs (Decidable (_ = none))

namespace SinkManager

/--
No sink is brought up while a goroutine that deletes its predecessor is past its check, and none
makes its check during a shutdown that has taken a successor out of the routing table.
-/
def LeavesRoom (m : SinkManager Cfg) : SinkStep Cfg → Prop
  | .ensure name cfg factory => m.started = true → m.stopped = false → name ≠ "" → cfg.isSome = true →
      factory.isOk = true → ∀ t ∈ m.tails, t.Acts → t.name ≠ name
  | .start factory => ∀ t ∈ m.tails, t.Acts → (factory t.name).isOk = true →
      t.name ∉ m.pending.map Prod.fst
  | .tail n => ∀ t ∈ m.tails[n]?, t.phase = .checking → m.stopped = true → m.Undeclared t.name
  | _ => True

instance (m : SinkManager Cfg) (a : SinkStep Cfg) : Decidable (m.LeavesRoom a) := by
  induction a using SinkStep.casesOn with
  | ensure name cfg factory =>
    exact inferInstanceAs (Decidable (m.started = true → _ → name ≠ "" → cfg.isSome = true → _))
  | start factory => exact inferInstanceAs (Decidable (∀ t ∈ m.tails, _))
  | tail n => exact inferInstanceAs (Decidable (∀ t ∈ m.tails[n]?, _))
  | _ => exact instDecidableTrue

theorem Consistent.lookup_of_undeclared (hc : m.Consistent) (hs : m.stopped = false) {name : String}
    (hu : m.Undeclared name) : m.live.lookup name = none :=
  Option.map_eq_none_iff.mp ((hc.routed hs name).trans hu)

theorem ensureLocked_undeclared (hc : m.Consistent) (hs : m.stopped = false) {name name' : String}
    {cfg : Cfg} {factory : Except String Unit} (h : factory.isOk = true → name' ≠ name)
    (hu : m.Undeclared name') :
    (m.ensureLocked lib name cfg factory).2.Undeclared name' := by
  have hsnoc (hne : name' ≠ name) :
      SinkEvent.declared name' (m.history ++ [.ensured name (lib.fingerprint cfg)]) = none := by
    rw [SinkEvent.declared_snoc, SinkEvent.revise, if_neg (Ne.symm hne), hu]
  unfold ensureLocked
  simp only
  split_ifs with hsame
  · refine hsnoc ?_
    rintro rfl
    simp [hc.lookup_of_undeclared hs hu] at hsame
  · cases factory with
    | error err => exact hu
    | ok u => exact hsnoc (h rfl)

theorem tails_ensureLocked (m : SinkManager Cfg) (name : String) (cfg : Cfg)
    (factory : Except String Unit) :
    (m.ensureLocked lib name cfg factory).2.tails = m.tails := by
  unfold ensureLocked
  simp only
  split_ifs
  · rfl
  · cases factory <;> rfl

theorem tails_ensure (m : SinkManager Cfg) (name : String) (cfg : Option Cfg)
    (factory : Except String Unit) :
    (m.ensure lib name cfg factory).2.tails = m.tails := by
  cases cfg with
  | none =>
    unfold ensure
    split_ifs <;> rfl
  | some cfg =>
    unfold ensure
    split_ifs
    · rfl
    · rfl
    · rfl
    · exact tails_ensureLocked ..

theorem ensure_undeclared (hc : m.Consistent) {name name' : String} {cfg : Option Cfg}
    {factory : Except String Unit}
    (h : m.started = true → m.stopped = false → name ≠ "" → cfg.isSome = true →
      factory.isOk = true → name' ≠ name)
    (hu : m.Undeclared name') : (m.ensure lib name cfg factory).2.Undeclared name' := by
  cases cfg with
  | none =>
    unfold ensure
    split_ifs <;> exact hu
  | some cfg =>
    unfold ensure
    split_ifs with hn hstop hstart
    · exact hu
    · exact hu
    · exact hu
    · have hs : m.stopped = false := by simpa using hstop
      exact ensureLocked_undeclared hc hs (h (by simpa using hstart) hs hn rfl) hu

theorem start_spares (hc : m.Consistent) (hs : m.stopped = false)
    {factory : String → Except String Unit} :
    (m.start lib factory).tails = m.tails ∧ ∀ name,
      ((factory name).isOk = true → name ∉ m.pending.map Prod.fst) → m.Undeclared name →
        (m.start lib factory).Undeclared name := by
  have hfold (l : List (String × Cfg)) : ∀ m : SinkManager Cfg, m.Consistent → m.stopped = false →
      let m' := l.foldl (fun m p => (m.ensureLocked lib p.1 p.2 (factory p.1)).2) m
      m'.tails = m.tails ∧ ∀ name, ((factory name).isOk = true → name ∉ l.map Prod.fst) →
        m.Undeclared name →
        m'.Undeclared name := by
    induction l with
    | nil => exact fun m _ _ => ⟨rfl, fun _ _ hu => hu⟩
    | cons p l ih =>
      intro m hc hs
      obtain ⟨ht, hu⟩ := ih (m.ensureLocked lib p.1 p.2 (factory p.1)).2 (hc.ensureLocked hs ..)
        ((stopped_ensureLocked ..).trans hs)
      refine ⟨ht.trans (tails_ensureLocked ..),
        fun name hn hm => hu name ?_ (ensureLocked_undeclared hc hs ?_ hm)⟩
      · exact fun hok hmem => hn hok (List.mem_cons_of_mem _ hmem)
      · rintro hok rfl
        exact hn hok List.mem_cons_self
  obtain ⟨ht, hu⟩ := hfold (m.pending.insertionSort (·.1 ≤ ·.1)) { m with started := true, pending := [] }
    ⟨hc.names, hc.instances, hc.ids, hc.placed, hc.routed, hc.owed, fun _ => rfl⟩ hs
  refine ⟨ht, fun name hn hm => hu name ?_ hm⟩
  rwa [((List.perm_insertionSort _ m.pending).map Prod.fst).mem_iff]

def Spares (m : SinkManager Cfg) : Prop := ∀ t ∈ m.tails, t.Acts → m.Undeclared t.name

theorem Spares.tail {n : Nat} (h : m.Spares) (hc : m.Consistent) (hok : m.LeavesRoom (.tail n))
    (hst : m.step lib (.tail n) = some m') : m'.Spares := by
  simp only [step] at hst
  split at hst
  · rename_i t ht
    split_ifs at hst with hover
    cases hst
    intro t' ht' hacts
    rcases List.mem_or_eq_of_mem_set ht' with ht' | rfl
    · exact h t' ht' hacts
    · have hmem := List.mem_of_getElem? ht
      cases hp : t.phase with
      | draining => simp [Tail.Acts, advance, hp] at hacts
      | checking =>
        have hnone : m.live.lookup t.name = none := by
          by_contra hsome
          simp [Tail.Acts, advance, hp, Option.isSome_iff_ne_none.mpr hsome] at hacts
        cases hs : m.stopped with
        | true => exact hok t ht hp hs
        | false =>
          have hrouted := hc.routed hs t.name
          rw [hnone] at hrouted
          exact hrouted.symm
      | removing => exact h t hmem (.inl hp)
      | forgetting => exact h t hmem (.inr (.inl hp))
      | parking => exact h t hmem (.inr (.inr hp))
      | ended => exact absurd hp hover
  · cases hst

theorem Spares.step {a : SinkStep Cfg} (h : m.Spares) (hc : m.Consistent) (hok : m.LeavesRoom a)
    (hst : m.step lib a = some m') : m'.Spares := by
  cases a with
  | ensure name cfg factory =>
    cases hst
    intro t ht hacts
    rw [tails_ensure] at ht
    exact ensure_undeclared hc (fun hr hs hn hcfg hf => hok hr hs hn hcfg hf t ht hacts) (h t ht hacts)
  | delete name =>
    cases hst
    intro t ht hacts
    unfold SinkManager.delete at ht ⊢
    split_ifs at ht ⊢ with hs
    · exact h t ht hacts
    · rw [Undeclared, SinkEvent.declared_snoc, SinkEvent.revise]
      split_ifs with hn
      · rfl
      · rcases List.mem_append.mp ht with ht | ht
        · exact h t ht hacts
        · obtain rfl := List.mem_singleton.mp ht
          exact absurd rfl hn
  | start factory =>
    simp only [SinkManager.step, Option.ite_none_left_eq_some] at hst
    obtain ⟨hnew, ⟨⟩⟩ := hst
    have hs : m.stopped = false := by
      by_contra hs
      exact hnew (hc.running (by simpa using hs))
    intro t ht hacts
    rw [(start_spares hc hs).1] at ht
    exact (start_spares hc hs).2 t.name (hok t ht hacts) (h t ht hacts)
  | shutdown | drainOwed =>
    simp only [SinkManager.step, Option.ite_none_right_eq_some] at hst
    cases hst.2
    exact h
  | tail n => exact h.tail hc hok hst

end SinkManager

theorem delete_spares_successor (lib : SinkLib Cfg) {steps : List (SinkStep Cfg)}
    {m : SinkManager Cfg} {n : Nat} {t : Tail}
    (h : Runs.Run (SinkManager.step lib) SinkManager.LeavesRoom {} steps m)
    (ht : m.tails[n]? = some t) (ha : t.Acts) : SinkEvent.declared t.name m.history = none := by
  have hinv : m.Consistent ∧ m.Spares := h.invariant (I := fun m => m.Consistent ∧ m.Spares)
    (fun _ _ _ hi hok hst => ⟨hi.1.step hst, hi.2.step hi.1 hok hst⟩) ⟨.empty, fun _ ht => by cases ht⟩
  exact hinv.2 t (List.mem_of_getElem? ht) ha

def checkedSteps : List (SinkStep String) :=
  [.start fun _ => .ok (), .ensure "a" (some "v1") (.ok ()), .delete "a", .tail 0, .tail 0]

theorem recreated_sink_spared :
    ∃ (m : SinkManager String) (n : Nat) (t : Tail), m.tails[n]? = some t ∧ t.Acts ∧
      SinkEvent.declared t.name m.history = none ∧ m.instances.length = 2 := by
  obtain ⟨m, hrun, ht, hlen⟩ := Runs.Run.exists_of_exec
    (SinkManager.step sampleSinkLib) SinkManager.LeavesRoom {}
    [.start fun _ => .ok (), .ensure "a" (some "v1") (.ok ()), .delete "a",
    .ensure "a" (some "v1") (.ok ()), .tail 0,
      .tail 0, .delete "a", .tail 1, .tail 1]
    (fun m => m.tails[1]? = some ⟨"a", .removing⟩ ∧ m.instances.length = 2) (by decide)
  exact ⟨m, 1, _, ht, .inl rfl, delete_spares_successor sampleSinkLib hrun ht (.inl rfl), hlen⟩

/--
A sink that came up after the check loses its state; so does one that a shutdown has just unrouted.
-/
theorem successor_harmed :
    (∃ m : SinkManager String, Runs.Run (SinkManager.step sampleSinkLib) (fun _ _ => True) {}
      (checkedSteps ++ [.ensure "a" (some "v1") (.ok ())]) m ∧
      (m.live.lookup "a").isSome ∧ m.tails[0]? = some ⟨"a", .removing⟩) ∧
    ∃ m : SinkManager String, Runs.Run (SinkManager.step sampleSinkLib) (fun _ _ => True) {}
      [.start fun _ => .ok (), .ensure "a" (some "v1") (.ok ()), .delete "a",
        .ensure "a" (some "v1") (.ok ()), .shutdown, .tail 0, .tail 0] m ∧
      SinkEvent.declared "a" m.history = some "v1" ∧ m.tails[0]? = some ⟨"a", .removing⟩ :=
  ⟨Runs.Run.exists_of_exec _ _ _ _ _ (by decide), Runs.Run.exists_of_exec _ _ _ _ _ (by decide)⟩

end Kuberecord
