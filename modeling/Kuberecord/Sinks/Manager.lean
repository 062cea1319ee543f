import Kuberecord.Library.Runs
import Mathlib.Data.List.Sort
import Mathlib.Data.String.Basic

namespace Kuberecord

structure LiveSink where
  -- tells the instances of one name apart
  id : Nat
  name : String
  fingerprint : String
deriving DecidableEq

structure SinkLib (Cfg : Type) where
  fingerprint : Cfg → String
  quote : String → String

inductive TailPhase | draining | checking | removing | forgetting | parking | ended
deriving DecidableEq

structure Tail where
  name : String
  phase : TailPhase
deriving DecidableEq

inductive SinkEvent
  | ensured (name fingerprint : String)
  | deleted (name : String)
deriving DecidableEq

/--
`owed` holds the instances that the shutdown has still to drain. No operation reads the last three
fields: every instance that was started, the instances a drain was issued for, and what took effect.
-/
structure SinkManager (Cfg : Type) where
  started : Bool := false
  stopped : Bool := false
  pending : List (String × Cfg) := []
  live : List (String × LiveSink) := []
  tails : List Tail := []
  owed : List LiveSink := []
  instances : List LiveSink := []
  drains : List LiveSink := []
  history : List SinkEvent := []

def errManagerStopped : String := "sink manager is shutting down"

variable {Cfg : Type}

namespace SinkManager

def swapLocked (live : List (String × LiveSink)) (name : String) (inst : Option LiveSink) :
    List (String × LiveSink) :=
  live.filter (·.1 ≠ name) ++ (inst.map (name, ·)).toList

def ensureLocked (lib : SinkLib Cfg) (m : SinkManager Cfg) (name : String) (cfg : Cfg)
    (factory : Except String Unit) :
    Except String Unit × SinkManager Cfg :=
  let fingerprint := lib.fingerprint cfg
  let current := m.live.lookup name
  if current.any (·.fingerprint = fingerprint) then
    (.ok (), { m with history := m.history ++ [.ensured name fingerprint] })
  else
    match factory with
    | .error err => (.error ("build sink " ++ lib.quote name ++ ": " ++ err), m)
    | .ok () =>
      let inst : LiveSink := ⟨m.instances.length, name, fingerprint⟩
      (.ok (), { m with
        live := swapLocked m.live name (some inst)
        instances := m.instances ++ [inst]
        drains := m.drains ++ current.toList
        history := m.history ++ [.ensured name fingerprint] })

def ensure (lib : SinkLib Cfg) (m : SinkManager Cfg) (name : String) (cfg : Option Cfg)
    (factory : Except String Unit) :
    Except String Unit × SinkManager Cfg :=
  if name = "" then (.error "sink: Ensure requires a sink name", m)
  else
    match cfg with
    | none => (.error ("sink: Ensure(" ++ lib.quote name ++ ") requires a configuration"), m)
    | some cfg =>
      if m.stopped then (.error errManagerStopped, m)
      else if !m.started then (.ok (),
        { m with pending := m.pending.filter (·.1 ≠ name) ++ [(name, cfg)] })
      else m.ensureLocked lib name cfg factory

def delete (m : SinkManager Cfg) (name : String) : SinkManager Cfg :=
  if m.stopped then m
  else
    let current := m.live.lookup name
    { m with
      pending := m.pending.filter (·.1 ≠ name)
      live := if current.isSome then swapLocked m.live name none else m.live
      tails := m.tails ++ [⟨name, if current.isSome then .draining else .checking⟩]
      drains := m.drains ++ current.toList
      history := m.history ++ [.deleted name] }

def start (lib : SinkLib Cfg) (m : SinkManager Cfg) (factory : String → Except String Unit) :
    SinkManager Cfg :=
  (m.pending.insertionSort (·.1 ≤ ·.1)).foldl (fun m p => (m.ensureLocked lib p.1 p.2 (factory p.1)).2)
    { m with started := true, pending := [] }

def shutdown (m : SinkManager Cfg) : SinkManager Cfg :=
  { m with stopped := true, live := [], owed := m.live.map Prod.snd }

def advance (m : SinkManager Cfg) (t : Tail) : TailPhase :=
  match t.phase with
  | .draining => .checking
  | .checking => if (m.live.lookup t.name).isSome then .ended else .removing
  | .removing => .forgetting
  | .forgetting => .parking
  | .parking | .ended => .ended

end SinkManager

inductive SinkStep (Cfg : Type)
  | ensure (name : String) (cfg : Option Cfg) (factory : Except String Unit)
  | delete (name : String)
  | start (factory : String → Except String Unit)
  | shutdown
  | drainOwed (inst : LiveSink)
  | tail (n : Nat)

namespace SinkManager

def step (lib : SinkLib Cfg) (m : SinkManager Cfg) : SinkStep Cfg → Option (SinkManager Cfg)
  | .ensure name cfg factory => some (m.ensure lib name cfg factory).2
  | .delete name => some (m.delete name)
  | .start factory => if m.started then none else some (m.start lib factory)
  | .shutdown => if m.started ∧ ¬ m.stopped then some m.shutdown else none
  | .drainOwed inst =>
    if inst ∈ m.owed then some { m with owed := m.owed.erase inst, drains := m.drains ++ [inst] } else none
  | .tail n =>
    match m.tails[n]? with
    | some t =>
      if t.phase = .ended then none else some
        { m with tails := m.tails.set n { t with phase := m.advance t } }
    | none => none

end SinkManager

namespace SinkEvent

def revise (name : String) (declared : Option String) : SinkEvent → Option String
  | .ensured name' fingerprint => if name' = name then some fingerprint else declared
  | .deleted name' => if name' = name then none else declared

def declared (name : String) (history : List SinkEvent) : Option String :=
  history.foldl (revise name) none

theorem declared_snoc (name : String) (history : List SinkEvent) (event : SinkEvent) :
    declared name (history ++ [event]) = event.revise name (declared name history) := by
  simp [declared]

end SinkEvent

end Kuberecord
