import Kuberecord.Library.Views
import Kuberecord.Incarnations
import Kuberecord.Machine

/-!
What a goroutine of the data plane holds in its hands between two calls: the entry it read,
a version it reserved, a deletion it claimed, close-outs it still has to hand over.
-/

namespace Kuberecord

inductive Phase
  | idle
  | outs (st : Inst) (k : String) (records : List Record)
  | claimed (st : Inst) (k : String) (entry : CacheEntry) (t : Ticket) (ts : Option Nat)
  | releasing (st : Inst) (k : String) (entry : CacheEntry) (t : Ticket)
  | loaded (st : Inst) (k : String) (base : Option CacheEntry)
  | superseding (st : Inst) (k : String) (base entry : CacheEntry)
  | closing (st : Inst) (k : String) (base : CacheEntry) (record : Record)
  | superseded (st : Inst) (k : String) (base : CacheEntry)
  | reserved (st : Inst) (k : String) (base : Option CacheEntry) (entry : CacheEntry) (t : Ticket)
      (ts : Option Nat)
  | reverting (st : Inst) (k : String) (entry : CacheEntry) (t : Ticket)
      (revertEntry : Option CacheEntry)

structure Seen where
  inst : Option Inst := none
  lookup : Option (Key × Lookup) := none
  history : Option (ScopeRef × List KnownState) := none
  active : Option ScopeRef := none

structure Hand where
  owner : Tid
  seen : Seen := {}
  phase : Phase := .idle

def Phase.outsOf (st : Inst) (k : String) : List Record → Phase
  | [] => .idle
  | records => .outs st k records

def Phase.done : Phase → Prop
  | .idle | .loaded _ _ _ => True
  | _ => False

def Key.Owns (key : Key) (st : Inst) (k : String) : Prop := st.sink = key.sink ∧ k = key.cacheKey

def Supersedes (norm : NormalizedObject) (cachedEntry : CacheEntry) : Prop :=
  cachedEntry.uid ≠ "" ∧ cachedEntry.uid ≠ norm.uid

inductive Planned (lib : Lib) (ephemeral : Bool) (norm : NormalizedObject) : Option CacheEntry →
    Plan → Prop
  | miss (eventType : EventType) : eventType ≠ .deleted → (ephemeral = true → eventType = .added) →
      Planned lib ephemeral norm none { eventType := eventType }
  | superseding (e : CacheEntry) : Supersedes norm e → Planned lib ephemeral norm (some e) {}
  | modified (e : CacheEntry) (every : Int) : ¬ Supersedes norm e → e.hash ≠ norm.hash →
      Planned lib ephemeral norm (some e) (modifiedPlan lib ephemeral every e norm)

namespace Seen

variable (seen : Seen) (key : Key)

def Shows (obj : Json) : Prop := ∃ l, seen.lookup = some (key, l) ∧ l.scopeActive = true ∧
    l.obj = some obj

def Refutes (uid : String) : Prop :=
  ∃ l, seen.lookup = some (key, l) ∧ l.scopeActive = true ∧ l.obj.map Json.getUID ≠ some uid

def Misses : Prop := ∃ l, seen.lookup = some (key, l) ∧ l.scopeActive = true ∧ l.obj = none

def Lists (x : KnownState) : Prop :=
  ∃ ref states, seen.history = some (ref, states) ∧ x ∈ states ∧ ref.key x.ns x.name = key

def Outlived (x : KnownState) : Prop :=
  ∃ ref states, seen.history = some (ref, states) ∧ seen.active = some ref ∧ Replaced states x ∧
    ref.key x.ns x.name = key

end Seen

def Observed (cfg : Config) (key : Key) (seen : Seen) (norm : NormalizedObject) : Prop :=
  ∃ obj policy, seen.Shows key obj ∧ normalizeObject cfg.lib obj policy = some norm

structure Decided (cfg : Config) (key : Key) (seen : Seen) (base : Option CacheEntry)
    (norm : NormalizedObject) (plan : Plan) : Prop where
  observed : Observed cfg key seen norm
  planned : Planned cfg.lib key.ephemeral norm base plan

namespace Hand

variable (cfg : Config) (h : Hand)

def MayReserve (st : Inst) (k : String) (entry : CacheEntry) : Prop :=
  ∃ key base norm plan, h.owner = .worker key ∧ key.Owns st k ∧ Decided cfg key h.seen base norm plan ∧
    entry = confirmedEntry cfg.lib key.ephemeral norm plan ∧
    (h.phase = .loaded st k base ∧ (∀ e ∈ base, Supersedes norm e → key.ephemeral = true) ∨
      ∃ e, base = some e ∧ Supersedes norm e ∧ h.phase = .superseded st k e)

def MayClaim (st : Inst) (k : String) (expectedUID : String) : Prop :=
  h.seen.inst = some st ∧ ∃ key : Key, key.Owns st k ∧
    (h.owner = .worker key ∧ h.seen.Misses key ∨
      h.owner.isWorker = false ∧ h.seen.Refutes key expectedUID ∧
      (∃ x, h.seen.Lists key x ∧ x.uid = expectedUID) ∧
        key.ephemeral = false)

def MayEnqueue (sink : String) (job : Job) : Prop :=
  match job.commit with
  | .upsert st k key t confirmed revertEntry =>
    ∃ base norm plan ts, h.owner = .worker key ∧ key.Owns st k ∧ sink = key.sink ∧
      Decided cfg key h.seen base norm plan ∧
      confirmed = confirmedEntry cfg.lib key.ephemeral norm plan ∧
      revertEntry = plan.revertEntry ∧ job.record = upsertRecord cfg.clusterID key norm plan ts ∧
      h.phase = .reserved st k base confirmed t (some ts)
  | .delete st k key t =>
    ∃ e ts, key.Owns st k ∧ sink = key.sink ∧ key.ephemeral = false ∧
      h.phase = .claimed st k e t (some ts) ∧
      job.record = Record.closing cfg.clusterID key ts e.apiVersion e.uid
  | .closeOut st k key record =>
    job.record = record ∧ key.Owns st k ∧ sink = key.sink ∧
      (h.owner = .worker key ∧ (∃ records, h.phase = .outs st k (record :: records)) ∨
        h.owner = .worker key ∧ (∃ base, h.phase = .closing st k base record) ∨
        h.owner.isWorker = false ∧ h.phase = .idle ∧ h.seen.inst = some st ∧ key.ephemeral = false ∧
          ∃ x, h.seen.Outlived key x ∧ record = x.reincarnation.closeOutRecord cfg.clusterID key)

def Allowed : Op → Prop
  | .load st k => h.phase = .idle ∧ h.seen.inst = some st ∧ ∃ key, h.owner = .worker key ∧ key.Owns st k
  | .reserve st k entry => h.MayReserve cfg st k entry
  | .reserveDelete st k expectedUID =>
    h.phase = .idle ∧ h.MayClaim st k expectedUID ∨
      ∃ key e norm, h.owner = .worker key ∧ key.Owns st k ∧ key.ephemeral = false ∧ e.uid = expectedUID ∧
        Observed cfg key h.seen norm ∧ Supersedes norm e ∧ h.phase = .loaded st k (some e)
  | .commitIfCurrent st k t entry => ∃ confirmed, h.phase = .reverting st k confirmed t (some entry)
  | .deleteIfCurrent st k t =>
    (∃ confirmed, h.phase = .reverting st k confirmed t none) ∨
      ∃ key e, h.owner = .worker key ∧ key.Owns st k ∧ key.ephemeral = true ∧
      h.phase = .claimed st k e t none
  | .unclaimDelete st k t => ∃ e, h.phase = .releasing st k e t
  | .storeIfAbsent st k entry =>
    h.owner.isWorker = false ∧ h.phase = .idle ∧ h.seen.inst = some st ∧
      ∃ (key : Key) (current : KnownState), key.Owns st k ∧ h.seen.Lists key current ∧
        entry = seededEntry current
  | .closeOutsAdd st k record =>
    (∃ records, h.phase = .outs st k (record :: records)) ∨ ∃ base, h.phase = .closing st k base record
  | .closeOutsTakeAll st k => h.phase = .idle ∧ h.seen.inst = some st ∧
      ∃ key, h.owner = .worker key ∧ key.Owns st k
  | .deletePrefix st pre => ∃ ref, h.owner = .evict ref ∧ st.sink = ref.sink ∧
      pre = ref.scope.scopeKeyPrefix
  | .enqueue sink job => h.MayEnqueue cfg sink job
  | _ => True

def nextSeen : (o : Op) → o.Ans → Seen
  | .sinkState _, st => { h.seen with inst := some st }
  | .listerGet key, l => { h.seen with lookup := l.map (key, ·) }
  | .lastKnownStates ref, states => { h.seen with history := states.map (ref, ·) }
  | .scopeWasActive ref _, a => { h.seen with active := if a = some true then some ref else none }
  | _, _ => h.seen

def nextPhase : (o : Op) → o.Ans → Phase
  | .load st k, e => .loaded st k e
  | .reserve st k entry, t =>
    match h.phase with
    | .loaded _ _ base => .reserved st k base entry t none
    | .superseded _ _ e => .reserved st k (some e) entry t none
    | _ => h.phase
  | .reserveDelete st k _, claim =>
    match h.phase, claim with
    | .loaded _ _ (some e), .claimed entry _ => .superseding st k e entry
    | .loaded _ _ (some e), _ => .superseded st k e
    | _, .claimed entry t => .claimed st k entry t none
    | _, _ => h.phase
  | .now, ts =>
    match h.phase, h.owner with
    | .claimed st k e t none, _ => .claimed st k e t (some ts)
    | .superseding st k base e, .worker key =>
      .closing st k base (Record.closing cfg.clusterID key ts e.apiVersion e.uid)
    | .reserved st k base entry t none, _ => .reserved st k base entry t (some ts)
    | _, _ => h.phase
  | .enqueue _ job, accepted =>
    match h.phase, accepted, job.commit with
    | .outs st k records, true, _ => .outsOf st k records.tail
    | .claimed _ _ _ _ _, true, _ | .reserved _ _ _ _ _ _, true, _ => .idle
    | .closing st k base _, true, _ => .superseded st k base
    | .claimed st k e t _, false, _ => .releasing st k e t
    | .reserved st k _ entry t _, false, .upsert _ _ _ _ _ revertEntry =>
      .reverting st k entry t revertEntry
    | .idle, false, .closeOut st k _ record => .outs st k [record]
    | _, _, _ => h.phase
  | .closeOutsAdd _ _ _, _ =>
    match h.phase with
    | .outs st k records => .outsOf st k records.tail
    | .closing st k base _ => .superseded st k base
    | _ => h.phase
  | .closeOutsTakeAll st k, records => .outsOf st k records
  | .commitIfCurrent _ _ _ _, _ | .deleteIfCurrent _ _ _, _ | .unclaimDelete _ _ _, _ => .idle
  | _, _ => h.phase

def next (o : Op) (a : o.Ans) : Hand := { h with seen := h.nextSeen o a, phase := h.nextPhase cfg o a }

def start (tid : Tid) : Hand := { owner := tid }

end Hand

def Op.Answers : (o : Op) → o.Ans → Prop
  | .sinkState sink, st => st.sink = sink
  | .reserveDelete _ _ expectedUID, .claimed entry _ => expectedUID = "" ∨ entry.uid = expectedUID
  | _, _ => True

def custody (cfg : Config) : Threads.Protocol Op Op.Ans Hand where
  allowed := Hand.Allowed cfg
  answers := Op.Answers
  next := Hand.next cfg

end Kuberecord
