import Stateless.Reader.Tries
import Stateless.Remote.Node
import Stateless.State.AccessList
import Stateless.State.Snapshot

/-!
# Readers of the state

A reader answers for the accounts and storage words of one state, from tries, from a flat snapshot
or from a remote node. Readers can be lined up, so that the first one that does not fail answers,
and they can record what is read through them. There may be readers of other kinds
(`ForeignReaders`); there are none unless some are given.

A reader can be copied (`Reader.copy`). What copies have in common, the snapshots under generation
and the records, lives in `Shared` and is passed along with every read.
-/

namespace Stateless

/-- What readers share, by number. -/
structure Shared where
  /-- Snapshots that change while they are read. -/
  snapshots : Table Nat Snapshot
  /-- What has been read through recording readers. -/
  records : Table Nat AccessList

namespace Shared

/-- Nothing is shared yet. -/
def empty : Shared := ⟨.empty, .empty⟩

instance : Inhabited Shared := ⟨empty⟩

/-- A shared snapshot. -/
def snapshot (s : Shared) (i : Nat) : Snapshot := (s.snapshots.find? i).getD .empty

/-- A shared record. -/
def record (s : Shared) (i : Nat) : AccessList := (s.records.find? i).getD .empty

/-- The shared things with a record changed. -/
def updateRecord (s : Shared) (i : Nat) (f : AccessList → AccessList) : Shared :=
  { s with records := s.records.insert i (f (s.record i)) }

/-- The shared things with a snapshot changed. -/
def updateSnapshot (s : Shared) (i : Nat) (f : Snapshot → Snapshot) : Shared :=
  { s with snapshots := s.snapshots.insert i (f (s.snapshot i)) }

end Shared

/-- Readers of other kinds than those that are known here. An answer may depend on what a reader has
become by the slots that were read from it, and on the shared snapshots at the time. How such a
reader is copied is its own affair. -/
class ForeignReaders where
  /-- What such a reader is at a time. -/
  State : Type
  /-- Reads an account, which leaves the reader as it is. -/
  account : State → Table Nat Snapshot → Address → Except StateError (Option Account)
  /-- Reads a storage word. -/
  storage : State → Table Nat Snapshot → Address → Word → Except StateError Word × State
  /-- Another reader of the same state. -/
  copy : State → Table Nat Snapshot → State

/-- There are no other kinds of readers. -/
instance ForeignReaders.none : ForeignReaders where
  State := Empty
  account := nofun
  storage := nofun
  copy := nofun

/-- A source of accounts and storage words. -/
inductive Reader [ForeignReaders] where
  /-- Reads tries. -/
  | tries (r : TrieReader)
  /-- Reads a snapshot that nobody changes. -/
  | snapshot (s : Snapshot)
  /-- Reads a shared snapshot as it is at the time. -/
  | sharedSnapshot (i : Nat)
  /-- Asks a remote node about the state after a block, which has the given root. -/
  | remote (node : RemoteNode) (block : UInt64) (root : Word)
  /-- Reads in another way. -/
  | foreign (r : ForeignReaders.State)
  /-- Asks several readers in order until one does not fail. -/
  | firstOf (readers : List Reader)
  /-- Asks a reader and records what it is asked for. -/
  | recording (record : Nat) (reader : Reader)

namespace Reader

section

variable [ForeignReaders]

mutual

/-- An independent reader of the same state. Copies of a shared snapshot, of a remote node or of a
record refer to the same one. -/
def copy : Reader → Table Nat Snapshot → Reader
  | tries r, _ => tries r.copy
  | snapshot v, _ => snapshot v
  | sharedSnapshot i, _ => sharedSnapshot i
  | remote n block root, _ => remote n block root
  | foreign r, snapshots => foreign (ForeignReaders.copy r snapshots)
  | firstOf rs, snapshots => firstOf (copyAll rs snapshots)
  | recording i r, snapshots => recording i (copy r snapshots)

/-- Copies of several readers. -/
def copyAll : List Reader → Table Nat Snapshot → List Reader
  | [], _ => []
  | r :: rs, snapshots => copy r snapshots :: copyAll rs snapshots

end

end

variable [Hasher] [ForeignReaders]

mutual

/-- Reads an account; none if it does not exist. -/
def account : Reader → Address → Shared → Except StateError (Option Account) × Shared
  | tries r, a, s => (r.readAccount a, s)
  | snapshot v, a, s => (v.readAccount a, s)
  | sharedSnapshot i, a, s => ((s.snapshot i).readAccount a, s)
  | remote n block _, a, s => (n.readAccount block a, s)
  | foreign r, a, s => (ForeignReaders.account r s.snapshots a, s)
  | recording i r, a, s => account r a (s.updateRecord i (·.addAccount a))
  | firstOf rs, a, s =>
    match accountOfAny rs a s with
    | (.ok r, s) => (.ok r, s)
    | (.error es, s) => (.error (.allReadersFailed es), s)

/-- The first account that one of several readers answers, or the errors of all. -/
def accountOfAny :
    List Reader → Address → Shared → Except (List StateError) (Option Account) × Shared
  | [], _, s => (.error [], s)
  | r :: rs, a, s =>
    match account r a s with
    | (.ok v, s) => (.ok v, s)
    | (.error e, s) =>
      match accountOfAny rs a s with
      | (.ok v, s) => (.ok v, s)
      | (.error es, s) => (.error (e :: es), s)

end

mutual

/-- Reads a storage word; zero if the slot or the account does not exist. The reader may remember
a trie for the next time. -/
def storage : Reader → Address → Word → Shared → Except StateError Word × Reader × Shared
  | tries r, a, slot, s =>
    let (v, r) := r.readStorage a slot
    (v, tries r, s)
  | snapshot v, a, slot, s => (v.readStorage a slot, snapshot v, s)
  | sharedSnapshot i, a, slot, s => ((s.snapshot i).readStorage a slot, sharedSnapshot i, s)
  | remote n block root, a, slot, s => (n.readStorage block a slot, remote n block root, s)
  | foreign r, a, slot, s =>
    let (v, r) := ForeignReaders.storage r s.snapshots a slot
    (v, foreign r, s)
  | recording i r, a, slot, s =>
    let (v, r, s) := storage r a slot (s.updateRecord i (·.addSlot a slot))
    (v, recording i r, s)
  | firstOf rs, a, slot, s =>
    match storageOfAny rs a slot s with
    | (.ok v, rs, s) => (.ok v, firstOf rs, s)
    | (.error es, rs, s) => (.error (.allReadersFailed es), firstOf rs, s)

/-- The first storage word that one of several readers answers, or the errors of all. -/
def storageOfAny : List Reader → Address → Word → Shared →
    Except (List StateError) Word × List Reader × Shared
  | [], _, _, s => (.error [], [], s)
  | r :: rs, a, slot, s =>
    match storage r a slot s with
    | (.ok v, r, s) => (.ok v, r :: rs, s)
    | (.error e, r, s) =>
      match storageOfAny rs a slot s with
      | (.ok v, rs, s) => (.ok v, r :: rs, s)
      | (.error es, rs, s) => (.error (e :: es), r :: rs, s)

end

end Reader

end Stateless
