import Kuberecord.Writes

namespace Kuberecord

inductive Stake
  | write (entry : CacheEntry) (fallback : Option CacheEntry)
  | death (uid : String) (row : Option Record)
deriving DecidableEq

inductive Holder
  | hand (tid : Tid)
  | job (j : Nat)
deriving DecidableEq

def Slot.settle (s : Slot) (t : Ticket) : Stake → Bool → Slot
  | .write e _, true => (s.commitIfCurrent t.version e).1
  | .write _ f, false => s.fallBack t f
  | .death _ _, true => (s.deleteIfCurrent t.version).1
  | .death _ _, false => s.unclaimDelete t.version

def Deed.settling : Deed → Option (Holder × Bool)
  | .env (.settle j ok) => some (.job j, ok)
  | .exec tid (.commitIfCurrent _ _ _ _, _) | .exec tid (.deleteIfCurrent _ _ _, _)
  | .exec tid (.unclaimDelete _ _ _, _) => some (.hand tid, false)
  | _ => none

inductive Stake.Sent : Stake → Stake → Prop
  | write (e : CacheEntry) (f : Option CacheEntry) : Sent (.write e f) (.write e f)
  | death (r : Record) : Sent (.death r.uid none) (.death r.uid (some r))

inductive Reading
  | away
  | read (entry : Option CacheEntry)
  | shut (uid : String)
deriving DecidableEq

def Reading.base : Reading → Option (Option CacheEntry)
  | .away => none
  | .read entry => some entry
  | .shut _ => some none

/--
The slot, what the worker read there, the unsettled reservations and claims, and the incarnation
the worker has claimed for a successor and not dated yet.
-/
@[ext]
structure Bench where
  slot : Slot
  view : Reading
  stake : Holder → Option (Ticket × Stake)
  closing : Option String

structure Desk extends Bench where
  loose : Record → Prop
  landed : Record → Prop

namespace Desk

variable {st : Inst} {k : String} {s s' : Desk} {d : Deed}

structure Keeps (s s' : Desk) (born : Option Record) : Prop where
  landed : ∀ r, s.landed r → s'.landed r
  lands : ∀ r, s'.landed r → s.landed r ∨ s.loose r ∨
    ∃ j t, s.stake (.job j) = some (t, .death r.uid (some r))
  loose : ∀ r, s.loose r → s'.loose r ∨ s'.landed r
  fresh : ∀ r, s'.loose r → s.loose r ∨ born = some r
  birth : ∀ r ∈ born, s'.loose r

inductive Step (st : Inst) (k : String) (s s' : Desk) : Deed → Prop
  | rest (d : Deed) : s'.toBench = s.toBench → s.Keeps s' none → Step st k s s' d
  | drop (d : Deed) (base : Option CacheEntry) : s.view = .read base →
      s'.toBench = { s.toBench with view := .away } → s.Keeps s' none → Step st k s s' d
  | load (d : Deed) : s.view = .away → s'.toBench = { s.toBench with view := .read s.slot.entry } →
      s.Keeps s' none → Step st k s s' d
  | reserve (tid : Tid) (base : Option CacheEntry) (e : CacheEntry) :
      s.view.base = some base → (∀ b ∈ base, b.uid = "" ∨ b.uid = e.uid) → e.pendingDelete = false →
      s.stake (.hand tid) = none →
      s'.toBench = { s.toBench with
        slot := (s.slot.reserve e).1
        view := .away
        stake := Function.update s.stake (.hand tid) (some ((s.slot.reserve e).2, .write e base)) } →
      s.Keeps s' none → Step st k s s' (.exec tid (.reserve st k e, .go))
  | claim (d : Deed) (tid : Tid) (uid : String) (slot : Slot) (e : CacheEntry) (t : Ticket) :
      s.slot.Claims uid slot e t → s.stake (.hand tid) = none →
      s'.toBench = { s.toBench with
        slot := slot
        stake := Function.update s.stake (.hand tid) (some (t, .death e.uid none)) } →
      s.Keeps s' none → Step st k s s' d
  | supersede (d : Deed) (b : CacheEntry) (slot : Slot) (e : CacheEntry) (t : Ticket) :
      s.view = .read (some b) → b.uid ≠ "" → s.slot.Claims b.uid slot e t → s.closing = none →
      s'.toBench = { s.toBench with slot := slot, view := .shut b.uid, closing := some e.uid } →
      s.Keeps s' none → Step st k s s' d
  | outrun (d : Deed) (b : CacheEntry) : s.view = .read (some b) →
      (∀ e, s.slot.entry = some e → e.pendingDelete = true ∨ e.uid ≠ b.uid) →
      s'.toBench = { s.toBench with view := .shut b.uid } → s.Keeps s' none → Step st k s s' d
  | date (d : Deed) (r : Record) : s.closing = some r.uid →
      s'.toBench = { s.toBench with closing := none } →
      s.Keeps s' (some r) → Step st k s s' d
  | send (d : Deed) (tid : Tid) (j : Nat) (t : Ticket) (x x' : Stake) : s.stake (.hand tid) =
      some (t, x) →
      s.stake (.job j) = none → x.Sent x' →
      s'.toBench = { s.toBench with
        stake := Function.update (Function.update s.stake (.hand tid) none) (.job j) (some (t, x')) } →
      s.Keeps s' none → Step st k s s' d
  | recover (tid : Tid) (sink : String) (key : Key) (r : Record) (b : Bool) : tid.isWorker = false →
      s'.toBench = s.toBench → s.Keeps s' (some r) →
      Step st k s s' (.exec tid (.enqueue sink ⟨r, .closeOut st k key r⟩, .flag b))
  | settle (d : Deed) (h : Holder) (ok : Bool) (t : Ticket) (x : Stake) : d.settling = some (h, ok) →
      s.stake h = some (t, x) → t.version ≠ 0 →
      s'.toBench = { s.toBench with slot := s.slot.settle t x ok, stake := Function.update s.stake h none } →
      s.Keeps s' none → (ok = true → ∀ u r, x = .death u (some r) → s'.landed r ∧ r.uid = u) →
      (∀ u, x = .death u none → ok = false) → (∀ r, s'.landed r → s.landed r) → Step st k s s' d
  | seed (tid : Tid) (e : CacheEntry) : e.pendingDelete = false →
      s'.toBench = { s.toBench with slot := s.slot.storeIfAbsent e } → s.Keeps s' none →
      Step st k s s' (.exec tid (.storeIfAbsent st k e, .go))

end Desk

end Kuberecord
