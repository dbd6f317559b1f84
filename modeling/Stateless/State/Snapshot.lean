import Stateless.State.Error

/-!
# Flat snapshots

The values of the state tries in two flat maps, by hashed address and by hashed address and hashed
slot. While a snapshot is being generated, in the order of the keys, a marker holds the last key
that has been generated; what lies beyond it cannot be answered. A stale snapshot answers nothing.
-/

namespace Stateless

/-- A flat view of the state. -/
structure Snapshot where
  /-- Encoded accounts by hashed address. -/
  accounts : Table Word Bytes
  /-- Encoded words by hashed address followed by hashed slot. -/
  storage : Table Bytes Bytes
  /-- The last generated key; none if all are generated. -/
  generatedUpTo : Option Bytes
  /-- Whether the snapshot no longer matches the state. -/
  stale : Bool
  deriving DecidableEq

namespace Snapshot

/-- The complete snapshot of nothing. -/
def empty : Snapshot := ⟨.empty, .empty, none, false⟩

instance : Inhabited Snapshot := ⟨empty⟩

/-- The key of a storage word. -/
def storageKey (hashedAddress hashedSlot : Word) : Bytes :=
  hashedAddress.toBytes ++ hashedSlot.toBytes

/-- Whether a key can be answered. -/
def checkReadable (s : Snapshot) (key : Bytes) : Except SnapshotError Unit :=
  if s.stale then .error .stale
  else
    match s.generatedUpTo with
    | none => .ok ()
    | some marker =>
      if compare key marker = .gt then .error (.notGenerated key) else .ok ()

/-- The encoded account of a hashed address. -/
def account (s : Snapshot) (hashedAddress : Word) : Except SnapshotError (Option Bytes) := do
  s.checkReadable hashedAddress.toBytes
  return s.accounts.find? hashedAddress

/-- The encoded word of a hashed slot of a hashed address. -/
def word (s : Snapshot) (hashedAddress hashedSlot : Word) :
    Except SnapshotError (Option Bytes) := do
  s.checkReadable (storageKey hashedAddress hashedSlot)
  return s.storage.find? (storageKey hashedAddress hashedSlot)

/-- The snapshot with the generation at a key, or complete. -/
def setMarker (s : Snapshot) (key : Option Bytes) : Snapshot := { s with generatedUpTo := key }

/-- The snapshot after the state has moved on. -/
def markStale (s : Snapshot) : Snapshot := { s with stale := true }

variable [Hasher]

/-- The snapshot with an account. -/
def insertAccount (s : Snapshot) (a : Address) (account : Account) : Snapshot :=
  { s with accounts := s.accounts.insert (hashedAddress a) account.encode }

/-- The snapshot with a storage word; the zero word takes the slot out. -/
def insertStorage (s : Snapshot) (a : Address) (slot value : Word) : Snapshot :=
  let key := storageKey (hashedAddress a) (hashedSlot slot)
  if value.isZero then { s with storage := s.storage.erase key }
  else { s with storage := s.storage.insert key (encodeStorage value) }

/-- Reads an account. -/
def readAccount (s : Snapshot) (a : Address) : Except StateError (Option Account) :=
  match s.account (hashedAddress a) with
  | .error e => .error (.snapshot e)
  | .ok none => .ok none
  | .ok (some b) => ((Account.decode b).map some).mapError .decode

/-- Reads a storage word; zero if there is none. -/
def readStorage (s : Snapshot) (a : Address) (slot : Word) : Except StateError Word :=
  match s.word (hashedAddress a) (hashedSlot slot) with
  | .error e => .error (.snapshot e)
  | .ok none => .ok .zero
  | .ok (some b) => (decodeStorage b).mapError .decode

end Snapshot

end Stateless
