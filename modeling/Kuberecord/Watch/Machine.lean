import Kuberecord.Machine
import Kuberecord.Watch.Passes

/-!
The watch manager step by step, and the process made of it and the data plane: one goroutine runs
the passes, others flush the recorder, fill the informers and run the pipeline in between.
-/

namespace Kuberecord

open Tallies

variable {Sel : Type}

inductive PassPhase (Sel : Type)
  | idle
  | snapped
  | translated (desired : List (ScopeInterest Sel))
  | stamped (desired : List (ScopeInterest Sel)) (instant : Nat)
  | stopping (desired : List (ScopeInterest Sel)) (instant : Nat) (removed : List (ScopeInterest Sel))
  | evicting (desired : List (ScopeInterest Sel)) (instant : Nat) (i : ScopeInterest Sel)
      (removed : List (ScopeInterest Sel))
  | halting (desired : List (ScopeInterest Sel)) (instant : Nat) (keys : List InformerKey)
  | launching (desired : List (ScopeInterest Sel)) (instant : Nat) (keys : List InformerKey)
  | starting (desired : List (ScopeInterest Sel)) (instant : Nat) (serving : List (ScopeInterest Sel))

structure Watching (Sel : Type) where
  table : InterestTable Sel := {}
  informers : List (InformerKey × Informer) := []
  startedTargets : Finset InterestID := ∅
  recorder : RecorderSystem InformerKey := {}
  phase : PassPhase Sel := .idle
  -- the last snapshot taken, and what its translation had to leave out
  snapshot : List WatchTargetState := []
  skipped : List WatchTargetState := []
  clock : Nat := 0

inductive WatchStep (Sel : Type)
  | snapshot (states : List WatchTargetState)
  | translate (resolve : Resolver)
  | stamp (instant : Nat)
  | replace (order : Shuffle (ScopeInterest Sel))
  | scopeStopped
  | evicted
  | retain
  | halt
  | launch (ok : Bool)
  | serve (order : Shuffle (ScopeInterest Sel))
  | scopeStarted
  | finish
  | receive (key : InformerKey) (informer : Informer)
  | flush (step : RecorderStep InformerKey)

namespace Watching

def pool (w : Watching Sel) : Pool := fun key => w.informers.lookup key

def step (lib : WatchLib Sel) (queueLimit : Nat) (w : Watching Sel) :
    WatchStep Sel → Option (Watching Sel)
  | .snapshot states =>
    match w.phase with
    | .idle => some { w with phase := .snapped, snapshot := states }
    | _ => none
  | .translate resolve =>
    match w.phase with
    | .snapped => some { w with
        phase := .translated (translate lib resolve w.snapshot)
        skipped := w.snapshot.filter fun state => (translateTarget lib resolve state).isNone }
    | _ => none
  | .stamp instant =>
    match w.phase with
    | .translated desired => some { w with phase := .stamped desired instant, clock := instant }
    | _ => none
  | .replace order =>
    match w.phase with
    | .stamped desired instant =>
      let (table, removed) := w.table.replace order desired
      some { w with table := table, phase := .stopping desired instant removed }
    | _ => none
  | .scopeStopped =>
    match w.phase with
    | .stopping desired instant (i :: removed) =>
      (w.recorder.step queueLimit (.stopped (i.transition instant))).map fun recorder =>
        { w with
          startedTargets := w.startedTargets.erase i.id
          recorder := recorder
          phase := .evicting desired instant i removed }
    | _ => none
  | .evicted =>
    match w.phase with
    | .evicting desired instant _ removed => some { w with phase := .stopping desired instant removed }
    | _ => none
  | .retain =>
    match w.phase with
    | .stopping desired instant [] =>
      let keys := (w.informers.map Prod.fst).filter (· ∉ desired.map ScopeInterest.informer)
      some { w with phase := .halting desired instant keys }
    | _ => none
  | .halt =>
    match w.phase with
    | .halting desired instant (key :: keys) =>
      some { w with informers := w.informers.filter (·.1 ≠ key), phase := .halting desired instant keys }
    | .halting desired instant [] =>
      some { w with phase := .launching desired instant (desired.map ScopeInterest.informer).dedup }
    | _ => none
  | .launch ok =>
    match w.phase with
    | .launching desired instant (key :: keys) =>
      let informers := if (w.pool key).isNone ∧ ok then w.informers ++
        [(key, ({} : Informer))] else w.informers
      some { w with informers := informers, phase := .launching desired instant keys }
    | _ => none
  | .serve order =>
    match w.phase with
    | .launching desired instant [] =>
      some { w with phase := .starting desired instant (newlyServing order w.startedTargets w.pool desired) }
    | _ => none
  | .scopeStarted =>
    match w.phase with
    | .starting desired instant (i :: serving) =>
      (w.recorder.step queueLimit (.started (i.transition instant))).map fun recorder =>
        { w with
          startedTargets := insert i.id w.startedTargets
          recorder := recorder
          phase := .starting desired instant serving }
    | _ => none
  | .finish =>
    match w.phase with
    | .starting _ _ [] => some { w with phase := .idle }
    | _ => none
  | .receive key informer =>
    some { w with informers := w.informers.map fun entry => if entry.1 = key then (key,
      informer) else entry }
  | .flush (.started _) | .flush (.stopped _) => none
  | .flush step => (w.recorder.step queueLimit step).map fun recorder => { w with recorder := recorder }

inductive Move (lib : WatchLib Sel) (queueLimit : Nat) (w : Watching Sel) : WatchStep Sel →
    Watching Sel → Prop
  | snapshot (states : List WatchTargetState) : w.phase = .idle →
      Move lib queueLimit w (.snapshot states) { w with phase := .snapped, snapshot := states }
  | translate (resolve : Resolver) : w.phase = .snapped →
      Move lib queueLimit w (.translate resolve) { w with
        phase := .translated (translate lib resolve w.snapshot)
        skipped := w.snapshot.filter fun state => (translateTarget lib resolve state).isNone }
  | stamp (desired : List (ScopeInterest Sel)) (instant : Nat) : w.phase = .translated desired →
      Move lib queueLimit w (.stamp instant) { w with phase := .stamped desired instant, clock := instant }
  | replace (order : Shuffle (ScopeInterest Sel)) (desired : List (ScopeInterest Sel)) (instant : Nat) :
      w.phase = .stamped desired instant →
      Move lib queueLimit w (.replace order) { w with
        table := (w.table.replace order desired).1
        phase := .stopping desired instant (w.table.replace order desired).2 }
  | scopeStopped (desired : List (ScopeInterest Sel)) (instant : Nat) (i : ScopeInterest Sel)
      (removed : List (ScopeInterest Sel)) : w.phase = .stopping desired instant (i :: removed) →
      Move lib queueLimit w .scopeStopped { w with
        startedTargets := w.startedTargets.erase i.id
        recorder := w.recorder.edge ((i.transition instant).pending .stopped)
          (w.recorder.recorder.scopeStopped queueLimit (i.transition instant))
        phase := .evicting desired instant i removed }
  | evicted (desired : List (ScopeInterest Sel)) (instant : Nat) (i : ScopeInterest Sel)
      (removed : List (ScopeInterest Sel)) : w.phase = .evicting desired instant i removed →
      Move lib queueLimit w .evicted { w with phase := .stopping desired instant removed }
  | retain (desired : List (ScopeInterest Sel)) (instant : Nat) (keys : List InformerKey) :
      w.phase = .stopping desired instant [] →
      keys = (w.informers.map Prod.fst).filter (· ∉ desired.map ScopeInterest.informer) →
      Move lib queueLimit w .retain { w with phase := .halting desired instant keys }
  | halt (desired : List (ScopeInterest Sel)) (instant : Nat) (key : InformerKey)
      (keys : List InformerKey) :
      w.phase = .halting desired instant (key :: keys) →
      Move lib queueLimit w .halt { w with
        informers := w.informers.filter (·.1 ≠ key)
        phase := .halting desired instant keys }
  | halted (desired : List (ScopeInterest Sel)) (instant : Nat) : w.phase = .halting desired instant [] →
      Move lib queueLimit w .halt
        { w with phase := .launching desired instant (desired.map ScopeInterest.informer).dedup }
  | launch (ok : Bool) (desired : List (ScopeInterest Sel)) (instant : Nat) (key : InformerKey)
      (keys : List InformerKey) (informers : List (InformerKey × Informer)) :
      w.phase = .launching desired instant (key :: keys) →
      informers = (if (w.pool key).isNone ∧ ok then w.informers ++ [(key, ({} : Informer))] else w.informers) →
      Move lib queueLimit w (.launch ok) { w with informers := informers, phase := .launching desired instant keys }
  | serve (order : Shuffle (ScopeInterest Sel)) (desired : List (ScopeInterest Sel)) (instant : Nat) :
      w.phase = .launching desired instant [] →
      Move lib queueLimit w (.serve order)
        { w with phase := .starting desired instant (newlyServing order w.startedTargets w.pool desired) }
  | scopeStarted (desired : List (ScopeInterest Sel)) (instant : Nat) (i : ScopeInterest Sel)
      (serving : List (ScopeInterest Sel)) : w.phase = .starting desired instant (i :: serving) →
      Move lib queueLimit w .scopeStarted { w with
        startedTargets := insert i.id w.startedTargets
        recorder := w.recorder.edge ((i.transition instant).pending .started)
          (w.recorder.recorder.scopeStarted queueLimit (i.transition instant))
        phase := .starting desired instant serving }
  | finish (desired : List (ScopeInterest Sel)) (instant : Nat) : w.phase =
      .starting desired instant [] →
      Move lib queueLimit w .finish { w with phase := .idle }
  | receive (key : InformerKey) (informer : Informer) :
      Move lib queueLimit w (.receive key informer)
        { w with informers := w.informers.map fun entry => if entry.1 = key then (key,
        informer) else entry }
  | flush (step : RecorderStep InformerKey) (recorder : RecorderSystem InformerKey) :
      (∀ transition, step ≠ .started transition ∧ step ≠ .stopped transition) →
      w.recorder.step queueLimit step = some recorder →
      Move lib queueLimit w (.flush step) { w with recorder := recorder }

variable {lib : WatchLib Sel} {queueLimit : Nat} {w w' : Watching Sel}

theorem step_cases {a : WatchStep Sel} (h : w.step lib queueLimit a = some w') :
    Move lib queueLimit w a w' := by
  cases a with
  | snapshot | translate | stamp | replace | evicted | retain | launch | serve | finish =>
    simp only [step] at h
    split at h
    · cases h
      constructor
      all_goals first | assumption | rfl
    · cases h
  | scopeStopped | scopeStarted =>
    simp only [step] at h
    split at h
    · cases h
      constructor
      assumption
    · cases h
  | halt =>
    simp only [step] at h
    split at h
    · cases h
      exact .halt _ _ _ _ ‹_›
    · cases h
      exact .halted _ _ ‹_›
    · cases h
  | receive key informer =>
    cases h
    exact .receive key informer
  | flush step =>
    cases step with
    | started | stopped => cases h
    | woken | tick | cancel | peek | hand | pop =>
      simp only [Watching.step, Option.map_eq_some_iff] at h
      obtain ⟨recorder, hr, rfl⟩ := h
      exact .flush _ recorder (fun _ => ⟨by simp, by simp⟩) hr

end Watching

def GetAnswer.lookup (answer : GetAnswer) : Option Lookup :=
  match answer.err with
  | some _ => none
  | none => some ⟨answer.obj, answer.scopeActive⟩

def Watching.answer (w : Watching Sel) : Op → Input → Input
  | .listerGet key, _ => .lookup key (w.table.get w.pool key).lookup
  | .redactionFor key, _ => .policy (w.table.redactionFor key)
  | .scopeSynced ref, _ => .flag (w.table.scopeSynced w.pool ref)
  | .scopeDesired ref, _ => .flag (w.table.scopeDesired ref)
  | _, i => i

structure Joint (Sel : Type) where
  plane : System := { shared := {} }
  watch : Watching Sel := {}

inductive JointStep (Sel : Type)
  | plane (a : Action)
  | watch (step : WatchStep Sel)

namespace Joint

def supply (s : Joint Sel) : Action → Action
  | .exec t i =>
    match s.plane.threads t with
    | some { code := .op o _, trace := _ } => .exec t (s.watch.answer o i)
    | _ => .exec t i
  | a => a

def step (cfg : Config) (lib : WatchLib Sel) (queueLimit : Nat) (s : Joint Sel) :
    JointStep Sel → Option (Joint Sel)
  | .plane .crash => ((machine cfg).step s.plane .crash).map fun plane => { plane := plane }
  | .plane a => ((machine cfg).step s.plane (s.supply a)).map fun plane => { s with plane := plane }
  | .watch step => (s.watch.step lib queueLimit step).map fun watch => { s with watch := watch }

variable {cfg : Config} {lib : WatchLib Sel} {queueLimit : Nat} {s s' : Joint Sel} {x : JointStep Sel}

theorem step_cases (h : s.step cfg lib queueLimit x = some s') :
    (∃ a, x = .plane a ∧ a ≠ .crash ∧ (machine cfg).step s.plane (s.supply a) = some s'.plane ∧
      s'.watch = s.watch) ∨
      (x = .plane .crash ∧ (machine cfg).step s.plane .crash = some s'.plane ∧ s'.watch = {}) ∨
      ∃ w, x = .watch w ∧ Watching.Move lib queueLimit s.watch w s'.watch ∧ s'.plane = s.plane := by
  cases x with
  | plane a =>
    by_cases ha : a = .crash
    · subst ha
      simp only [step, Option.map_eq_some_iff] at h
      obtain ⟨plane, hp, rfl⟩ := h
      exact .inr (.inl ⟨rfl, hp, rfl⟩)
    · simp only [step, Option.map_eq_some_iff] at h
      obtain ⟨plane, hp, rfl⟩ := h
      exact .inl ⟨a, rfl, ha, hp, rfl⟩
  | watch w =>
    simp only [step, Option.map_eq_some_iff] at h
    obtain ⟨watch, hw, rfl⟩ := h
    exact .inr (.inr ⟨w, rfl, Watching.step_cases hw, rfl⟩)

theorem supply_exec {a : Action} {t : Tid} {o : Op} {i : Input}
    (h : s.plane.deed (s.supply a) = some (.exec t (o, i))) :
    ∃ j, i = s.watch.answer o j := by
  cases a with
  | exec t j =>
    simp only [supply] at h
    split at h
    · rename_i o k tr ht
      simp only [Threads.System.deed, ht, Option.some.injEq, Threads.Action.exec.injEq,
        Prod.mk.injEq] at h
      obtain ⟨-, rfl, rfl⟩ := h
      exact ⟨j, rfl⟩
    · rename_i hno
      simp only [Threads.System.deed] at h
      cases h
  | start | finish | env | crash => cases h

theorem plane_run {ok : Joint Sel → JointStep Sel → Prop} {steps : List (JointStep Sel)}
    (h : Runs.Run (Joint.step cfg lib queueLimit) ok {} steps s) :
    ∃ as, Runs.Run (machine cfg).step (fun _ _ => True) { shared := {} } as s.plane := by
  induction h with
  | nil => exact ⟨[], .nil⟩
  | snoc _ _ hst ih =>
    obtain ⟨as, ih⟩ := ih
    obtain ⟨a, -, -, hp, -⟩ | ⟨-, hp, -⟩ | ⟨w, -, -, hp⟩ := step_cases hst
    · exact ⟨_, ih.snoc trivial hp⟩
    · exact ⟨_, ih.snoc trivial hp⟩
    · exact ⟨as, hp ▸ ih⟩

end Joint

end Kuberecord
