import Kuberecord.HashCache

namespace Kuberecord

inductive EventType | added | modified | deleted | snapshot | checkpoint
deriving DecidableEq

structure Record where
  timestamp : Nat
  clusterID : String
  eventType : EventType
  apiGroup : String
  apiVersion : String
  kind : String
  ns : String
  name : String
  uid : String
  resourceVersion : String := ""
  labels : List (String × String) := []
  actors : List String := []
  data : Bytes := []
  diff : Bytes := []
  sha256 : String := ""
deriving DecidableEq

-- the `ORDER BY` tuple of `resource_states`: rows that share it are merged into one
def Record.orderKey (r : Record) : String × String × String × String × String × Nat :=
  (r.clusterID, r.apiGroup, r.kind, r.ns, r.name, r.timestamp)

def Record.closing (clusterID : String) (key : Key) (timestamp : Nat) (apiVersion uid : String) :
    Record where
  timestamp := timestamp
  clusterID := clusterID
  eventType := .deleted
  apiGroup := key.group.1
  apiVersion := apiVersion
  kind := key.kind.1
  ns := key.ns.1
  name := key.name
  uid := uid

def Record.isOf (r : Record) (clusterID : String) (key : Key) : Prop :=
  r.clusterID = clusterID ∧ r.apiGroup = key.group.1 ∧ r.kind = key.kind.1 ∧ r.ns = key.ns.1 ∧
    r.name = key.name

instance (r : Record) (clusterID : String) (key : Key) : Decidable (r.isOf clusterID key) :=
  inferInstanceAs (Decidable (_ ∧ _))

structure KnownState where
  ns : Namespace
  name : String
  uid : String
  sha256 : String
  apiVersion : String
  ts : Nat
deriving DecidableEq

structure Writer where
  checkpointEvery : Option Int := none
deriving DecidableEq

inductive ScopeAction | started | stopped
deriving DecidableEq

structure ScopeEvent where
  action : ScopeAction
  scope : ScopeKey
  ts : Nat
  apiVersion : String := ""
  ruleRef : String := ""
deriving DecidableEq

end Kuberecord
