import Kuberecord.Library.Runs
import Kuberecord.Plane
import Mathlib.Data.Finset.Card
import Mathlib.Logic.Function.Basic

namespace Kuberecord

structure ScopeTransition (T : Type) where
  ref : ScopeRef
  target : T
  apiVersion : String := ""
  ruleKeys : List String := []
  instant : Nat

structure PendingScopeEvent where
  sink : String
  event : ScopeEvent
deriving DecidableEq

structure Recorder (T : Type) where
  active : ScopeRef → Finset T := fun _ => ∅
  pending : List PendingScopeEvent := []
  dropped : Nat := 0
  wake : Bool := false

def triggeringRule (ruleKeys : List String) : String := ruleKeys.head?.getD ""

def ScopeTransition.eventFor {T : Type} (transition : ScopeTransition T) (action : ScopeAction) :
    ScopeEvent where
  action := action
  scope := transition.ref.scope
  ts := transition.instant
  apiVersion := transition.apiVersion
  ruleRef := triggeringRule transition.ruleKeys

def ScopeTransition.pending {T : Type} (transition : ScopeTransition T) (action : ScopeAction) :
    PendingScopeEvent :=
  ⟨transition.ref.sink, transition.eventFor action⟩

variable {T : Type}

namespace Recorder

def enqueueLocked (queueLimit : Nat) (r : Recorder T) (event : PendingScopeEvent) : Recorder T :=
  let pending := r.pending ++ [event]
  let overflow := pending.length - queueLimit
  { r with pending := pending.drop overflow, dropped := r.dropped + overflow }

def hold (r : Recorder T) (ref : ScopeRef) (targets : Finset T) : Recorder T :=
  { r with active := Function.update r.active ref targets }

def signal (r : Recorder T) : Recorder T := { r with wake := true }

variable [DecidableEq T]

def scopeStarted (queueLimit : Nat) (r : Recorder T) (transition : ScopeTransition T) :
    Recorder T × Bool :=
  -- the flag asks for the warm-up of a scope that had no interest before
  let held := transition.target ∈ r.active transition.ref
  let targets := insert transition.target (r.active transition.ref)
  let r := r.hold transition.ref targets
  if ¬ held ∧ targets.card = 1 then
    ((r.enqueueLocked queueLimit (transition.pending .started)).signal, true)
  else (r, false)

def scopeStopped (queueLimit : Nat) (r : Recorder T) (transition : ScopeTransition T) :
    Recorder T × Bool :=
  if transition.target ∈ r.active transition.ref then
    let targets := (r.active transition.ref).erase transition.target
    let r := r.hold transition.ref targets
    if targets.card = 0 then ((r.enqueueLocked queueLimit (transition.pending .stopped)).signal, true)
    else (r, false)
  else (r, false)

end Recorder

inductive FlushPhase
  | waiting
  | flushing
  | peeked (next : PendingScopeEvent)
  | accepted (next : PendingScopeEvent)
  | done
deriving DecidableEq

structure RecorderSystem (T : Type) where
  recorder : Recorder T := {}
  phase : FlushPhase := .waiting
  draining : Bool := false
  reported : List Nat := []
  enqueued : List PendingScopeEvent := []
  handed : List PendingScopeEvent := []

inductive Handover | noWriter | refused | taken
deriving DecidableEq

inductive RecorderStep (T : Type)
  | started (transition : ScopeTransition T)
  | stopped (transition : ScopeTransition T)
  | woken
  | tick
  | cancel
  | peek
  | hand (outcome : Handover)
  | pop

namespace RecorderSystem

def beginFlush (s : RecorderSystem T) : RecorderSystem T :=
  { s with
    recorder := { s.recorder with dropped := 0 }
    reported := if s.recorder.dropped > 0 then s.reported ++ [s.recorder.dropped] else s.reported
    phase := .flushing }

def endFlush (s : RecorderSystem T) : RecorderSystem T :=
  { s with phase := if s.draining then .done else .waiting }

def edge (s : RecorderSystem T) (event : PendingScopeEvent) (result : Recorder T × Bool) :
    RecorderSystem T :=
  { s with recorder := result.1, enqueued := if result.2 then s.enqueued ++ [event] else s.enqueued }

def step [DecidableEq T] (queueLimit : Nat) (s : RecorderSystem T) :
    RecorderStep T → Option (RecorderSystem T)
  | .started transition => some (s.edge (transition.pending .started)
      (s.recorder.scopeStarted queueLimit transition))
  | .stopped transition => some (s.edge (transition.pending .stopped)
      (s.recorder.scopeStopped queueLimit transition))
  | .woken =>
    if s.phase = .waiting ∧ s.recorder.wake then
      some { s with recorder := { s.recorder with wake := false } }.beginFlush
    else none
  | .tick => if s.phase = .waiting then some s.beginFlush else none
  | .cancel =>
    if s.phase = .waiting then
      if s.recorder.pending = [] then some { s with phase := .done }
      else some { s with draining := true }.beginFlush
    else none
  | .peek =>
    if s.phase = .flushing then
      match s.recorder.pending with
      | [] => some s.endFlush
      | next :: _ => some { s with phase := .peeked next }
    else none
  | .hand outcome =>
    match s.phase, outcome with
    | .peeked next, .taken => some { s with phase := .accepted next, handed := s.handed ++ [next] }
    | .peeked _, _ => some s.endFlush
    | _, _ => none
  | .pop =>
    match s.phase with
    | .accepted next =>
      let pending := if s.recorder.pending.head? = some next then s.recorder.pending.tail else
        s.recorder.pending
      some { s with recorder := { s.recorder with pending := pending }, phase := .flushing }
    | _ => none

end RecorderSystem

end Kuberecord
