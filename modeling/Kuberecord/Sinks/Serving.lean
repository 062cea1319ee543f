import Kuberecord.Marks
import Kuberecord.Recorder
import Kuberecord.Seeding
import Kuberecord.Sinks.Manager

/-!
The data plane together with the scope recorder and the sink manager. The recorder asks for a
warm-up when a scope starts and abandons it when the scope stops; the goroutine of a `Delete` tears
down what the plane keeps of a sink.
-/

namespace Kuberecord

open Threads

inductive WarmCall
  | warmScope (ref : ScopeRef) (epochStart : Nat)
  | stopScope (ref : ScopeRef)
deriving DecidableEq

/--
`owed` is the call that the goroutine of the edges has still to make. No operation reads the last
two fields: the scopes held whose warm-up was asked for, and those of them whose sink has been torn
down since.
-/
structure Serving (T Cfg : Type) where
  plane : System
  recorder : Recorder T := {}
  sinks : SinkManager Cfg := {}
  owed : Option WarmCall := none
  served : List ScopeRef := []
  torn : List ScopeRef := []

inductive ServingStep (T Cfg : Type)
  | started (transition : ScopeTransition T)
  | stopped (transition : ScopeTransition T)
  | call (attempts : Nat)
  | sinks (a : SinkStep Cfg)
  | plane (a : Action)

def Tail.teardown (t : Tail) : Option Env :=
  match t.phase with
  | .removing => some (.removeSink t.name)
  | .forgetting => some (.forgetSink t.name)
  | _ => none

def SinkManager.tearing {Cfg : Type} (m : SinkManager Cfg) : SinkStep Cfg → Option Tail
  | .tail n => m.tails[n]?.filter fun t => t.teardown.isSome
  | _ => none

theorem SinkManager.tearing_some {Cfg : Type} {lib : SinkLib Cfg} {m m' : SinkManager Cfg}
    {a : SinkStep Cfg} {t : Tail} (h : m.tearing a = some t) (hst : m.step lib a = some m') :
    (∃ e, t.teardown = some e) ∧ m'.live = m.live := by
  cases a with
  | tail n =>
    have ⟨_, ht⟩ := Option.filter_eq_some_iff.mp h
    refine ⟨Option.isSome_iff_exists.mp ht, ?_⟩
    simp only [step] at hst
    split at hst
    · split_ifs at hst
      cases hst
      rfl
    · cases hst
  | _ => cases h

namespace Serving

/--
The plane acts on its own, in a process that stays up: a wait is cut short only by a cancellation,
and no warm goroutine runs out of attempts.
-/
def Own (p : System) : Deed → Prop
  | .start (.warm _) _ | .env (.removeSink _) | .env (.stopScope _) | .env (.forgetSink _)
  | .crash => False
  | .exec (.warm id) (.backoff, .flag b) => b = false → id ∈ p.shared.cancelled
  | .finish (.warm id) => ∀ th ∈ p.threads (.warm id), Seeding.reached th.trace ≠ .failing
  | _ => True

instance (p : System) (d : Deed) : Decidable (Own p d) := by
  unfold Own
  split <;> infer_instance

variable {T Cfg : Type}

def perform (cfg : Config) (s : Serving T Cfg) (a : Action) : System :=
  ((machine cfg).step s.plane a).getD s.plane

variable [DecidableEq T]

def step (cfg : Config) (lib : SinkLib Cfg) (queueLimit : Nat) (s : Serving T Cfg) :
    ServingStep T Cfg → Option (Serving T Cfg)
  | .started transition =>
    if s.owed = none then
      let (recorder, first) := s.recorder.scopeStarted queueLimit transition
      some { s with
        recorder := recorder
        owed := if first then some (.warmScope transition.ref transition.instant) else none }
    else none
  | .stopped transition =>
    if s.owed = none then
      let (recorder, last) := s.recorder.scopeStopped queueLimit transition
      some { s with
        recorder := recorder
        owed := if last then some (.stopScope transition.ref) else none
        served := if last then s.served.filter (· ≠ transition.ref) else s.served
        torn := if last then s.torn.filter (· ≠ transition.ref) else s.torn }
    else none
  | .call attempts =>
    match s.owed with
    | some (.warmScope ref epochStart) =>
      -- a request that the coordinator drops leaves the plane as it is
      some { s with
        plane := s.perform cfg (.start (.warm s.plane.shared.started) (.warm ref epochStart attempts))
        owed := none
        served := ref :: s.served }
    | some (.stopScope ref) => some { s with plane := s.perform cfg (.env (.stopScope ref)), owed := none }
    | none => none
  | .sinks a =>
    (s.sinks.step lib a).map fun sinks =>
      match s.sinks.tearing a with
      | some t =>
        { s with
          sinks := sinks
          plane := t.teardown.elim s.plane fun e => s.perform cfg (.env e)
          torn := s.torn ++ s.served.filter (·.sink = t.name) }
      | none => { s with sinks := sinks }
  | .plane a =>
    if ∃ d ∈ s.plane.deed a, Own s.plane d then
      ((machine cfg).step s.plane a).map fun plane => { s with plane := plane }
    else none

end Serving

end Kuberecord
