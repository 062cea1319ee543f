import Kuberecord.ScopeEpochs
import Kuberecord.Library.Aggregates

namespace Kuberecord

open Aggregates

namespace Tables

def scopeWasActive (table : List ScopeEvent) (scope : ScopeKey) (now : Nat) (asOf : Option Nat) : Bool :=
  ((table.filter fun e => e.scope = scope ∧ e.ts < asOf.getD now).argmax ScopeEvent.ts).map
    ScopeEvent.action
    = some .started

def activeScopes (table : List ScopeEvent) : List ScopeKey :=
  ((latest ScopeEvent.scope ScopeEvent.ts table).filter (·.action = .started)).map ScopeEvent.scope

variable {table edges : List ScopeEvent} {scope : ScopeKey}

theorem mem_activeScopes : scope ∈ activeScopes table ↔
    ((table.filter (·.scope = scope)).argmax ScopeEvent.ts).map ScopeEvent.action = some .started := by
  rw [activeScopes, List.mem_map, Option.map_eq_some_iff]
  constructor
  · rintro ⟨e, he, rfl⟩
    obtain ⟨he, ha⟩ := List.mem_filter.mp he
    exact ⟨e, mem_latest_iff_argmax.mp he, by simpa using ha⟩
  · rintro ⟨e, he, ha⟩
    obtain rfl : e.scope = scope := by simpa using (List.mem_filter.mp (List.argmax_mem he)).2
    exact ⟨e, List.mem_filter.mpr ⟨mem_latest_iff_argmax.mpr he, by simpa using ha⟩, rfl⟩

theorem scopeWasActive_iff (now : Nat) (asOf : Option Nat) : scopeWasActive table scope now asOf = true ↔
    scope ∈ activeScopes (table.filter (·.ts < asOf.getD now)) := by
  rw [mem_activeScopes, scopeWasActive, decide_eq_true_iff, List.filter_filter]
  simp only [Bool.decide_and]

theorem getLast?_epochs (n : Nat) : (epochs n).getLast? = some .started ↔ n % 2 = 1 := by
  cases n with
  | zero => simp [epochs]
  | succ n =>
    rw [epochs_succ, List.getLast?_concat]
    split_ifs <;> simp <;> omega

theorem mem_activeScopes_of_epochs {n : Nat} (hp : (table.filter (·.scope = scope)).Perm edges)
    (hs : edges.Pairwise fun e e' => e.ts < e'.ts) (ha : edges.map ScopeEvent.action = epochs n) :
    scope ∈ activeScopes table ↔ n % 2 = 1 := by
  rw [mem_activeScopes, argmax_of_increasing hp hs, ← List.getLast?_map, ha, getLast?_epochs]

end Tables

variable {T : Type} [DecidableEq T] {queueLimit : Nat}

namespace RecorderSystem

def scopeRows (s : RecorderSystem T) (ref : ScopeRef) : List ScopeEvent :=
  (s.enqueued.filter (·.ref = ref)).map PendingScopeEvent.event

omit [DecidableEq T] in
theorem map_action_scopeRows (s : RecorderSystem T) (ref : ScopeRef) :
    (s.scopeRows ref).map ScopeEvent.action = s.edgesOf ref := by
  rw [scopeRows, List.map_map]
  rfl

theorem enqueued_grows {as : List (RecorderStep T)} {s s' : RecorderSystem T}
    (h : Runs.Run (step queueLimit) (fun _ _ => True) s as s') : s.enqueued <+: s'.enqueued := by
  have hedge : ∀ (u : RecorderSystem T) event r, u.enqueued <+: (u.edge event r).enqueued := by
    intro u event ⟨r, queued⟩
    cases queued with
    | false => exact List.prefix_rfl
    | true => exact List.prefix_append _ _
  refine h.invariant (I := fun u : RecorderSystem T => s.enqueued <+: u.enqueued)
    (fun u u' a hi _ hstep => ?_)
    List.prefix_rfl
  rcases step_cases hstep with ⟨transition, -, rfl⟩ | ⟨transition, -, rfl⟩ | ⟨he, -⟩
  · exact hi.trans (hedge _ _ _)
  · exact hi.trans (hedge _ _ _)
  · rwa [he]

theorem scopeRows_grows {as : List (RecorderStep T)} {s s' : RecorderSystem T}
    (h : Runs.Run (step queueLimit) (fun _ _ => True) s as s') (ref : ScopeRef) :
    s.scopeRows ref <+: s'.scopeRows ref :=
  ((enqueued_grows h).filter _).map _

end RecorderSystem

theorem scope_log_reads_back {bs cs : List (RecorderStep T)} {u s : RecorderSystem T} {ref : ScopeRef}
    (table : List ScopeEvent) (now : Nat) (asOf : Option Nat)
    (hu : Runs.Run (RecorderSystem.step queueLimit) (fun _ _ => True) {} bs u)
    (hs : Runs.Run (RecorderSystem.step queueLimit) (fun _ _ => True) u cs s)
    (hrows : (table.filter (·.scope = ref.scope)).Perm (s.scopeRows ref))
    (htimes : (s.scopeRows ref).Pairwise fun e e' => e.ts < e'.ts)
    (hcut : ∀ e ∈ s.scopeRows ref, e.ts < asOf.getD now ↔ e ∈ u.scopeRows ref) :
    (Tables.scopeWasActive table ref.scope now asOf = true ↔ (u.recorder.active ref).Nonempty) ∧
      (ref.scope ∈ Tables.activeScopes table ↔ (s.recorder.active ref).Nonempty) := by
  have halt : ∀ {as : List (RecorderStep T)} {v : RecorderSystem T},
      Runs.Run (RecorderSystem.step queueLimit) (fun _ _ => True) {} as v → v.Alternates ref := fun h =>
    h.invariant (I := fun v : RecorderSystem T => v.Alternates ref) (fun _ _ _ hi _ => hi.step) ⟨0,
      rfl, by simp⟩
  constructor
  · -- what the cutoff leaves of the rows is what had been queued then
    have hbefore : (s.scopeRows ref).filter (·.ts < asOf.getD now) = u.scopeRows ref := by
      obtain ⟨rest, hrest⟩ := RecorderSystem.scopeRows_grows hs ref
      rw [← hrest] at htimes hcut ⊢
      rw [List.filter_append, List.filter_eq_self.mpr, List.filter_eq_nil_iff.mpr, List.append_nil]
      · intro e he hts
        have hlate := (hcut e (List.mem_append_right _ he)).mp (by simpa using hts)
        exact lt_irrefl _ ((List.pairwise_append.mp htimes).2.2 e hlate e he)
      · intro e he
        simpa using (hcut e (List.mem_append_left _ he)).mpr he
    obtain ⟨n, hn, hodd⟩ := halt hu
    rw [Tables.scopeWasActive_iff, ← hodd]
    have hkept : ((table.filter (·.ts < asOf.getD now)).filter (·.scope = ref.scope)).Perm
      (u.scopeRows ref) := by
      rw [← hbefore, List.filter_comm]
      exact hrows.filter _
    have hsorted : (u.scopeRows ref).Pairwise fun e e' => e.ts < e'.ts := by
      rw [← hbefore]
      exact htimes.filter _
    exact Tables.mem_activeScopes_of_epochs hkept hsorted ((u.map_action_scopeRows ref).trans hn)
  · obtain ⟨n, hn, hodd⟩ := halt (hu.append hs)
    rw [← hodd]
    exact Tables.mem_activeScopes_of_epochs hrows htimes ((s.map_action_scopeRows ref).trans hn)

/--
An epoch from 1 to 3, read backwards: the scope was active at 2, is not at 4, and is open no more.
-/
theorem reader_sees_closed_epoch : ∃ s : RecorderSystem String,
    Tables.scopeWasActive (s.scopeRows (podScope "s")).reverse (podScope "s").scope 4 (some 2) = true ∧
      Tables.scopeWasActive (s.scopeRows (podScope "s")).reverse (podScope "s").scope 4 none = false ∧
      (podScope "s").scope ∉ Tables.activeScopes (s.scopeRows (podScope "s")).reverse := by
  obtain ⟨u, hu, hopen, hrest⟩ := Runs.Run.exists_of_exec (RecorderSystem.step 10) (fun _ _ => True) {}
    [.started (edgeAt "s" "v1" 1), .started (edgeAt "t" "v1" 1), .woken, .peek]
    (fun u : RecorderSystem String => (u.recorder.active (podScope "s")).Nonempty ∧
      (Runs.exec (RecorderSystem.step 10) (fun _ _ => True) u [.stopped (edgeAt "s" "v1" 3)]).any
      (fun s =>
        (s.scopeRows (podScope "s")).Pairwise (fun e e' => e.ts < e'.ts) ∧
        (∀ e ∈ s.scopeRows (podScope "s"), e.scope = (podScope "s").scope ∧ e.ts < 4 ∧
          (e.ts < 2 ↔ e ∈ u.scopeRows (podScope "s"))) ∧
        s.recorder.active (podScope "s") = ∅) = true) (by decide)
  obtain ⟨s, hs, htimes, hrows, hidle⟩ := Runs.Run.exists_of_exec _ _ u _ _ hrest
  have hall : ((s.scopeRows (podScope "s")).reverse.filter (·.scope = (podScope "s").scope)).Perm
      (s.scopeRows (podScope "s")) := by
    rw [List.filter_eq_self.mpr fun e he => by simpa using (hrows e (List.mem_reverse.mp he)).1]
    exact List.reverse_perm _
  have hthen := scope_log_reads_back (s.scopeRows (podScope "s")).reverse 4 (some 2) hu hs hall htimes
    (fun e he => (hrows e he).2.2)
  have hnow := scope_log_reads_back (s.scopeRows (podScope "s")).reverse 4 none
    (hu.append hs) .nil hall htimes
    (fun e he => ⟨fun _ => he, fun _ => (hrows e he).2.1⟩)
  rw [hidle] at hnow
  refine ⟨s, hthen.1.mpr hopen, ?_, fun hm => Finset.not_nonempty_empty (hnow.2.mp hm)⟩
  rw [← Bool.not_eq_true, hnow.1]
  exact Finset.not_nonempty_empty

end Kuberecord
