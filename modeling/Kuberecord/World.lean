import Kuberecord.Custody.Warm
import Kuberecord.Effects

namespace Kuberecord

open Threads

/--
The data plane as its proofs see it: what every goroutine holds and has last seen, the shared state,
the deletions claimed so far, and the close-outs that warm goroutines built from history.
-/
structure World where
  phase : Tid → Phase := fun _ => .idle
  seen : Tid → Seen := fun _ => {}
  shared : Shared := {}
  claims : List (Inst × String × String) := []
  recovered : List (String × Record) := []

def claimOf (e : LogEntry Op.Ans Tid) : Option (Inst × String × String) :=
  match e.event with
  | ⟨.reserveDelete st k _, .claimed entry _⟩ => some (st, k, entry.uid)
  | _ => none

def recoveredOf (e : LogEntry Op.Ans Tid) : Option (String × Record) :=
  match e.event with
  | ⟨.enqueue sink ⟨record, .closeOut _ _ _ _⟩, _⟩ =>
    if e.tid.isWorker then none else some (sink, record)
  | _ => none

def viewWorld (v : View Op.Ans Tid Shared Hand) : World where
  phase t := ((v.phase t).map Hand.phase).getD .idle
  seen t := ((v.phase t).map Hand.seen).getD {}
  shared := v.shared
  claims := v.log.filterMap claimOf
  recovered := v.log.filterMap recoveredOf

def worldOf (cfg : Config) (s : System) : World := viewWorld (s.view (custody cfg) Hand.start)

theorem worldOf_phase_of_none {cfg : Config} {s : System} {t : Tid} (h : s.threads t = none) :
    (worldOf cfg s).phase t = .idle := by
  simp [worldOf, viewWorld, System.view, h]

namespace World

def set (w : World) (t : Tid) (p : Phase) (s : Shared) : World :=
  { w with phase := Function.update w.phase t p, shared := s }

@[simp]
theorem set_phase_self (w : World) (t : Tid) (p : Phase) (s : Shared) : (w.set t p s).phase t = p :=
  by simp [set]

theorem set_phase_of_ne {t u : Tid} (h : u ≠ t) (w : World) (p : Phase) (s : Shared) :
    (w.set t p s).phase u = w.phase u := by
  simp [set, h]

def hand (w : World) (sink : String) (job : Job) : Shared :=
  { w.shared with jobs := w.shared.jobs ++ [{ sink := sink, job := job }] }

def learn (w : World) (t : Tid) (seen : Seen) : World := { w with seen := Function.update w.seen t seen }

def MayClaim (w : World) (t : Tid) (key : Key) (uid : String) : Prop :=
  t = .worker key ∧ (w.seen t).Misses key ∨
    t.isWorker = false ∧ (w.seen t).Refutes key uid ∧ (∃ x, (w.seen t).Lists key x ∧ x.uid = uid) ∧
      key.ephemeral = false

def crashed (w : World) : World :=
  { w with phase := fun _ => .idle, seen := fun _ => {}, shared := crash w.shared }

end World

inductive Turn (cfg : Config) (w : World) : Deed → World → Prop
  | still (d : Deed) (w' : World) : w'.phase = w.phase → w.shared.Same w'.shared → w'.claims = w.claims →
      w'.recovered = w.recovered → (∀ t, w'.seen t = w.seen t ∨ w'.seen t = {}) → Turn cfg w d w'
  | attach (t : Tid) (sink : String) :
      Turn cfg w (.exec t (.sinkState sink, .go))
      (w.learn t { w.seen t with inst := some (w.shared.inst sink) })
  | look (t : Tid) (key : Key) (l : Option Lookup) :
      Turn cfg w (.exec t (.listerGet key, .lookup key l))
      (w.learn t { w.seen t with lookup := l.map (key, ·) })
  | consult (t : Tid) (ref : ScopeRef) (states : Option (List KnownState)) :
      Turn cfg w (.exec t (.lastKnownStates ref, .states ref states))
      (w.learn t { w.seen t with history := states.map (ref, ·) })
  | vouch (t : Tid) (ref : ScopeRef) (a : Option Bool) (epochStart : Nat) :
      Turn cfg w (.exec t (.scopeWasActive ref epochStart, .active ref a))
        (w.learn t { w.seen t with active := if a = some true then some ref else none })
  | tick (t : Tid) (ts : Nat) : Turn cfg w (.exec t (.now, .time ts))
      { w with shared := { w.shared with clock := ts } }
  | drop (t : Tid) (st : Inst) (k : String) (base : Option CacheEntry) (s' : Shared) :
      w.phase t = .loaded st k base → w.shared.Same s' →
      Turn cfg w (.finish t) ((w.set t .idle s').learn t {})
  | load (key : Key) (st : Inst) (k : String) : key.Owns st k →
      (w.seen (.worker key)).inst = some st → w.phase (.worker key) = .idle →
      Turn cfg w (.exec (.worker key) (.load st k, .go))
        (w.set (.worker key) (.loaded st k (w.shared.slot st k).entry) w.shared)
  | reserve (key : Key) (st : Inst) (k : String) (base : Option CacheEntry)
      (norm : NormalizedObject) (plan : Plan) :
      key.Owns st k → Decided cfg key (w.seen (.worker key)) base norm plan →
      (w.phase (.worker key) = .loaded st k base ∧
      (∀ e ∈ base, Supersedes norm e → key.ephemeral = true) ∨
        ∃ e, base = some e ∧ Supersedes norm e ∧ w.phase (.worker key) = .superseded st k e) →
      Turn cfg w (.exec (.worker key)
      (.reserve st k (confirmedEntry cfg.lib key.ephemeral norm plan), .go))
        (w.set (.worker key)
          (.reserved st k base (confirmedEntry cfg.lib key.ephemeral norm plan)
            ((w.shared.slot st k).reserve (confirmedEntry cfg.lib key.ephemeral norm plan)).2 none)
          (w.shared.setSlot st k
            ((w.shared.slot st k).reserve (confirmedEntry cfg.lib key.ephemeral norm plan)).1))
  | date (t : Tid) (st : Inst) (k : String) (base : Option CacheEntry) (entry : CacheEntry)
      (tk : Ticket) (ts : Nat) :
      w.phase t = .reserved st k base entry tk none →
      Turn cfg w (.exec t (.now, .time ts))
        (w.set t (.reserved st k base entry tk (some ts)) { w.shared with clock := ts })
  | issue (key : Key) (st : Inst) (k : String) (base : Option CacheEntry) (norm : NormalizedObject)
      (plan : Plan) (tk : Ticket) (ts : Nat) :
      key.Owns st k → Decided cfg key (w.seen (.worker key)) base norm plan →
      w.phase (.worker key) =
        .reserved st k base (confirmedEntry cfg.lib key.ephemeral norm plan) tk (some ts) →
      Turn cfg w (.exec (.worker key) (.enqueue key.sink ⟨upsertRecord cfg.clusterID key norm plan ts,
          .upsert st k key tk (confirmedEntry cfg.lib key.ephemeral norm plan) plan.revertEntry⟩,
          .flag true))
        (w.set (.worker key) .idle
          (w.hand key.sink ⟨upsertRecord cfg.clusterID key norm plan ts,
            .upsert st k key tk (confirmedEntry cfg.lib key.ephemeral norm plan) plan.revertEntry⟩))
  | refuse (key : Key) (st : Inst) (k : String) (base : Option CacheEntry) (norm : NormalizedObject)
      (plan : Plan) (tk : Ticket) (ts : Nat) (s' : Shared) : key.Owns st k →
      Decided cfg key (w.seen (.worker key)) base norm plan →
      w.phase (.worker key) =
        .reserved st k base (confirmedEntry cfg.lib key.ephemeral norm plan) tk (some ts) →
      w.shared.Same s' →
      Turn cfg w (.exec (.worker key) (.enqueue key.sink ⟨upsertRecord cfg.clusterID key norm plan ts,
          .upsert st k key tk (confirmedEntry cfg.lib key.ephemeral norm plan) plan.revertEntry⟩,
          .flag false))
        (w.set (.worker key)
          (.reverting st k (confirmedEntry cfg.lib key.ephemeral norm plan) tk plan.revertEntry) s')
  | revert (t : Tid) (st : Inst) (k : String) (confirmed entry : CacheEntry) (tk : Ticket) :
      w.phase t = .reverting st k confirmed tk (some entry) →
      Turn cfg w (.exec t (.commitIfCurrent st k tk entry, .go))
        (w.set t .idle (w.shared.setSlot st k ((w.shared.slot st k).commitIfCurrent tk.version entry).1))
  | retract (t : Tid) (st : Inst) (k : String) (confirmed : CacheEntry) (tk : Ticket) :
      w.phase t = .reverting st k confirmed tk none →
      Turn cfg w (.exec t (.deleteIfCurrent st k tk, .go))
        (w.set t .idle (w.shared.setSlot st k ((w.shared.slot st k).deleteIfCurrent tk.version).1))
  | claim (t : Tid) (key : Key) (st : Inst) (k uid : String) (e : CacheEntry) (tk : Ticket)
      (slot : Slot) :
      key.Owns st k → w.MayClaim t key uid → w.phase t = .idle →
      (w.shared.slot st k).Claims uid slot e tk →
      (w.seen t).inst = some st →
      Turn cfg w (.exec t (.reserveDelete st k uid, .go))
        { w.set t (.claimed st k e tk none) (w.shared.setSlot st k slot) with
          claims := w.claims ++ [(st, k, e.uid)] }
  | dateClaim (t : Tid) (st : Inst) (k : String) (e : CacheEntry) (tk : Ticket) (ts : Nat) :
      w.phase t = .claimed st k e tk none →
      Turn cfg w (.exec t (.now, .time ts))
      (w.set t (.claimed st k e tk (some ts)) { w.shared with clock := ts })
  | forget (key : Key) (st : Inst) (k : String) (e : CacheEntry) (tk : Ticket) : key.Owns st k →
      key.ephemeral = true → w.phase (.worker key) = .claimed st k e tk none →
      Turn cfg w (.exec (.worker key) (.deleteIfCurrent st k tk, .go))
        (w.set (.worker key) .idle (w.shared.setSlot st k
        ((w.shared.slot st k).deleteIfCurrent tk.version).1))
  | emit (t : Tid) (key : Key) (st : Inst) (k : String) (e : CacheEntry) (tk : Ticket)
      (ts : Nat) : key.Owns st k →
      key.ephemeral = false → w.phase t = .claimed st k e tk (some ts) →
      Turn cfg w (.exec t (.enqueue key.sink
          ⟨Record.closing cfg.clusterID key ts e.apiVersion e.uid, .delete st k key tk⟩, .flag true))
        (w.set t .idle
          (w.hand key.sink ⟨Record.closing cfg.clusterID key ts e.apiVersion e.uid,
          .delete st k key tk⟩))
  | emitRefused (t : Tid) (st : Inst) (k : String) (e : CacheEntry) (tk : Ticket) (ts : Nat)
      (s' : Shared) :
      w.phase t = .claimed st k e tk (some ts) → w.shared.Same s' → (o : Op) →
      Turn cfg w (.exec t (o, .flag false)) (w.set t (.releasing st k e tk) s')
  | release (t : Tid) (st : Inst) (k : String) (e : CacheEntry) (tk : Ticket) :
      w.phase t = .releasing st k e tk →
      Turn cfg w (.exec t (.unclaimDelete st k tk, .go))
        (w.set t .idle (w.shared.setSlot st k ((w.shared.slot st k).unclaimDelete tk.version)))
  | supersede (key : Key) (st : Inst) (k : String) (base e : CacheEntry) (norm : NormalizedObject)
      (tk : Ticket) (slot : Slot) : key.Owns st k → key.ephemeral = false →
      Observed cfg key (w.seen (.worker key)) norm → Supersedes norm base →
      w.phase (.worker key) = .loaded st k (some base) →
      (w.shared.slot st k).Claims base.uid slot e tk →
      Turn cfg w (.exec (.worker key) (.reserveDelete st k base.uid, .go))
        { w.set (.worker key) (.superseding st k base e) (w.shared.setSlot st k slot) with
          claims := w.claims ++ [(st, k, e.uid)] }
  | outrun (key : Key) (st : Inst) (k : String) (base : CacheEntry) (norm : NormalizedObject)
      (s' : Shared) :
      key.Owns st k → Observed cfg key (w.seen (.worker key)) norm → Supersedes norm base →
      w.phase (.worker key) = .loaded st k (some base) →
      (∀ e, (w.shared.slot st k).entry = some e → e.pendingDelete = true ∨ e.uid ≠ base.uid) →
      w.shared.Same s' → key.ephemeral = false →
      Turn cfg w (.exec (.worker key) (.reserveDelete st k base.uid, .go))
      (w.set (.worker key) (.superseded st k base) s')
  | dateClose (key : Key) (st : Inst) (k : String) (base e : CacheEntry) (ts : Nat) :
      w.phase (.worker key) = .superseding st k base e →
      Turn cfg w (.exec (.worker key) (.now, .time ts))
        (w.set (.worker key) (.closing st k base
        (Record.closing cfg.clusterID key ts e.apiVersion e.uid))
          { w.shared with clock := ts })
  | close (key : Key) (st : Inst) (k : String) (base : CacheEntry) (r : Record) : key.Owns st k →
      w.phase (.worker key) = .closing st k base r →
      Turn cfg w (.exec (.worker key) (.enqueue key.sink ⟨r, .closeOut st k key r⟩, .flag true))
        (w.set (.worker key) (.superseded st k base) (w.hand key.sink ⟨r, .closeOut st k key r⟩))
  | shelve (t : Tid) (st : Inst) (k : String) (base : CacheEntry) (r : Record) : w.phase t =
      .closing st k base r →
      Turn cfg w (.exec t (.closeOutsAdd st k r, .go))
        (w.set t (.superseded st k base) (w.shared.setCloseOuts st k (w.shared.closeOuts st k ++ [r])))
  | takeAll (key : Key) (st : Inst) (k : String) : key.Owns st k → w.phase (.worker key) = .idle →
      (w.seen (.worker key)).inst = some st →
      Turn cfg w (.exec (.worker key) (.closeOutsTakeAll st k, .go))
        (w.set (.worker key) (.outsOf st k (w.shared.closeOuts st k)) (w.shared.setCloseOuts st k []))
  | resubmit (key : Key) (st : Inst) (k : String) (r : Record) (rs : List Record) : key.Owns st k →
      w.phase (.worker key) = .outs st k (r :: rs) →
      Turn cfg w (.exec (.worker key) (.enqueue key.sink ⟨r, .closeOut st k key r⟩, .flag true))
        (w.set (.worker key) (.outsOf st k rs) (w.hand key.sink ⟨r, .closeOut st k key r⟩))
  | reshelve (t : Tid) (st : Inst) (k : String) (r : Record) (rs : List Record) : w.phase t =
      .outs st k (r :: rs) →
      Turn cfg w (.exec t (.closeOutsAdd st k r, .go))
        (w.set t (.outsOf st k rs) (w.shared.setCloseOuts st k (w.shared.closeOuts st k ++ [r])))
  | recover (t : Tid) (key : Key) (st : Inst) (k : String) (x : KnownState) : key.Owns st k →
      t.isWorker = false → key.ephemeral = false → (w.seen t).Outlived key x → w.phase t = .idle →
      (w.seen t).inst = some st →
      Turn cfg w (.exec t (.enqueue key.sink ⟨x.reincarnation.closeOutRecord cfg.clusterID key,
          .closeOut st k key (x.reincarnation.closeOutRecord cfg.clusterID key)⟩, .flag true))
        { w with
          shared := w.hand key.sink ⟨x.reincarnation.closeOutRecord cfg.clusterID key,
            .closeOut st k key (x.reincarnation.closeOutRecord cfg.clusterID key)⟩
          recovered := w.recovered ++ [(key.sink, x.reincarnation.closeOutRecord cfg.clusterID key)] }
  | recoverRefused (t : Tid) (key : Key) (st : Inst) (k : String) (x : KnownState) (s' : Shared) :
      key.Owns st k → t.isWorker = false → key.ephemeral = false → (w.seen t).Outlived key x →
      w.phase t = .idle → w.shared.Same s' → (w.seen t).inst = some st →
      Turn cfg w (.exec t (.enqueue key.sink ⟨x.reincarnation.closeOutRecord cfg.clusterID key,
          .closeOut st k key (x.reincarnation.closeOutRecord cfg.clusterID key)⟩, .flag false))
        { w.set t (.outs st k [x.reincarnation.closeOutRecord cfg.clusterID key]) s' with
          recovered := w.recovered ++ [(key.sink, x.reincarnation.closeOutRecord cfg.clusterID key)] }
  | seed (t : Tid) (key : Key) (st : Inst) (k : String) (current : KnownState) : key.Owns st k →
      t.isWorker = false → (w.seen t).inst = some st → (w.seen t).Lists key current → w.phase t = .idle →
      Turn cfg w (.exec t (.storeIfAbsent st k (seededEntry current), .go))
        { w with shared := w.shared.setSlot st k ((w.shared.slot st k).storeIfAbsent (seededEntry current)) }
  | evict (ref : ScopeRef) (st : Inst) : st.sink = ref.sink →
      Turn cfg w (.exec (.evict ref) (.deletePrefix st ref.scope.scopeKeyPrefix, .go))
        { w with
          shared := w.shared.modify st (fun ss =>
            { ss with cache := ss.cache.deletePrefix ref.scope.scopeKeyPrefix }) }
  | insert (j : Nat) (sink : String) (job : Job) : w.shared.jobs[j]? = some ⟨sink, job, .inFlight⟩ →
      Turn cfg w (.env (.insert j))
        { w with shared := { w.shared with table := w.shared.table.insert (sink, job.record) } }
  | settle (j : Nat) (ok : Bool) (sink : String) (job : Job) : w.shared.jobs[j]? =
      some ⟨sink, job, .inFlight⟩ →
      (ok = true → (sink, job.record) ∈ w.shared.table) →
      Turn cfg w (.env (.settle j ok))
        { w with shared := w.shared.settled j sink job ok }
  | removeSink (sink : String) : Turn cfg w (.env (.removeSink sink))
      { w with shared := { w.shared with gens := Function.update w.shared.gens sink (w.shared.gens sink + 1) } }
  | crash : Turn cfg w .crash w.crashed

end Kuberecord
