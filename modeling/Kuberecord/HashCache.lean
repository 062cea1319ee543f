import Mathlib.Logic.Function.Basic
import Kuberecord.Identity

namespace Kuberecord

abbrev Bytes := List UInt8

inductive EntryEncoding | raw | zstd
deriving DecidableEq

/-- `seeded` marks a baseline that came from the sink's history; no operation reads it. -/
structure CacheEntry where
  hash : String := ""
  json : Option Bytes := none
  encoding : EntryEncoding := .raw
  uid : String := ""
  apiVersion : String := ""
  modifiedSinceCheckpoint : Nat := 0
  version : Nat := 0
  pendingDelete : Bool := false
  seeded : Bool := false
deriving DecidableEq

/--
The map slot of one key. Only `entry` is the program's; `installs` counts the calls that
installed an entry and `base` is the one that ended the last absence. No operation reads them.
-/
structure Slot where
  entry : Option CacheEntry := none
  installs : Nat := 0
  base : Nat := 0
deriving DecidableEq

/-- What a reservation hands its caller: the version, and which install it was. -/
structure Ticket where
  version : Nat
  issue : Nat
deriving DecidableEq

inductive DeleteClaim
  | claimed (entry : CacheEntry) (t : Ticket)
  | absent
  | inFlight
  | uidMismatch
deriving DecidableEq

namespace Slot

def version (s : Slot) : Nat := (s.entry.map CacheEntry.version).getD 0

def install (s : Slot) (e : CacheEntry) : Slot where
  entry := some e
  installs := s.installs + 1
  base := if s.entry.isSome then s.base else s.installs + 1

def reserve (s : Slot) (entry : CacheEntry) : Slot × Ticket :=
  (s.install { entry with version := s.version + 1 }, ⟨s.version + 1, s.installs + 1⟩)

def commitIfCurrent (s : Slot) (expectedVersion : Nat) (entry : CacheEntry) : Slot × Bool :=
  match s.entry with
  | some cur =>
    if cur.version ≠ expectedVersion then (s, false)
    else ({ s with entry := some { entry with version := expectedVersion } }, true)
  | none =>
    if expectedVersion ≠ 0 then (s, false)
    else ({ s with entry := some { entry with version := expectedVersion } }, true)

def deleteIfCurrent (s : Slot) (expectedVersion : Nat) : Slot × Bool :=
  match s.entry with
  | some cur => if cur.version ≠ expectedVersion then (s, false) else ({ s with entry := none }, true)
  | none => (s, false)

def reserveDelete (s : Slot) (expectedUID : String) : Slot × DeleteClaim :=
  match s.entry with
  | none => (s, .absent)
  | some cur =>
    if cur.pendingDelete then (s, .inFlight)
    else if expectedUID ≠ "" ∧ cur.uid ≠ expectedUID then (s, .uidMismatch)
    else (s.install { cur with version := cur.version + 1, pendingDelete := true },
      .claimed cur ⟨cur.version + 1, s.installs + 1⟩)

def unclaimDelete (s : Slot) (expectedVersion : Nat) : Slot :=
  match s.entry with
  | some cur =>
    if cur.version ≠ expectedVersion then s else
      { s with entry := some { cur with pendingDelete := false } }
  | none => s

def storeIfAbsent (s : Slot) (entry : CacheEntry) : Slot :=
  if s.entry.isSome then s else s.install { entry with version := 1 }

def remove (s : Slot) : Slot := { s with entry := none }

end Slot

abbrev HashCache := String → Slot

namespace HashCache

def empty : HashCache := fun _ => {}

def deletePrefix (c : HashCache) (pre : String) : HashCache :=
  fun key => if pre.toList <+: key.toList then (c key).remove else c key

end HashCache

theorem identity_strings_exact (c : HashCache) (s : ScopeKey) (k l : Key) :
    (k.cacheKey = l.cacheKey ↔ k.group = l.group ∧ k.kind = l.kind ∧ k.ns = l.ns ∧ k.name = l.name) ∧
    (s.scopeKeyPrefix.toList <+: k.cacheKey.toList ↔
      k.group = s.group ∧ k.kind = s.kind ∧ (s.ns.1 = "" ∨ s.ns = k.ns)) ∧
    c.deletePrefix s.scopeKeyPrefix k.cacheKey =
      if k.group = s.group ∧ k.kind = s.kind ∧ (s.ns.1 = "" ∨ s.ns = k.ns) then
        { c k.cacheKey with entry := none }
      else c k.cacheKey := by
  refine ⟨⟨Key.cacheKey_inj, ?_⟩, ScopeKey.begins_iff_spans, ?_⟩
  · rintro ⟨hgroup, hkind, hns, hname⟩
    rw [Key.cacheKey, hgroup, hkind, hns, hname, ← Key.cacheKey]
  · exact if_congr ScopeKey.begins_iff_spans rfl rfl

structure Zstd where
  encode : Option (Bytes → Bytes)
  decode : Option (Bytes → Option Bytes)

def zstdMagic : Bytes := [0x28, 0xB5, 0x2F, 0xFD]

def compressBaseline (z : Zstd) (raw : Bytes) : Bytes × EntryEncoding × Bool :=
  match z.encode with
  | some encode => if raw.length = 0 then (raw, .raw, false) else (encode raw, .zstd, true)
  | none => (raw, .raw, false)

def CacheEntry.decodeBaseline (z : Zstd) (e : CacheEntry) : Option (Option Bytes) :=
  match e.json with
  -- the outer `none` is an error; there may be no baseline to decode
  | none => some none
  | some json =>
    match e.encoding with
    | .raw => some (some json)
    | .zstd =>
      if ¬ zstdMagic <+: json then none
      else match z.decode with
        | none => none
        | some decode => (decode json).map some

structure Zstd.Lossless (z : Zstd) : Prop where
  magic : ∀ encode, z.encode = some encode → ∀ raw, zstdMagic <+: encode raw
  inverse : ∀ encode, z.encode = some encode →
    ∃ decode, z.decode = some decode ∧ ∀ raw, decode (encode raw) = some raw

theorem Zstd.Lossless.decode_compress {z : Zstd} (hz : z.Lossless) (raw : Bytes) (e : CacheEntry)
    (hj : e.json = some (compressBaseline z raw).1) (he : e.encoding = (compressBaseline z raw).2.1) :
    e.decodeBaseline z = some (some raw) := by
  cases hc : z.encode with
  | none => simp [CacheEntry.decodeBaseline, hj, he, compressBaseline, hc]
  | some encode =>
    by_cases hr : raw.length = 0
    · simp [CacheEntry.decodeBaseline, hj, he, compressBaseline, hc, hr]
    · obtain ⟨decode, hd, hinv⟩ := hz.inverse encode hc
      simp [CacheEntry.decodeBaseline, hj, he, compressBaseline, hc, hr, hd, hinv, hz.magic encode hc]

end Kuberecord
