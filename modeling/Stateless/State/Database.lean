import Stateless.Reader.Basic
import Stateless.State.StateTrie

/-!
# The database of a running block

While a block runs against a live node, state is read from the node at the block that a state root
has been marked for, tries are opened from local nodes, and code is checked against its hash.
-/

namespace Stateless

/-- A remote node with local nodes and the blocks marked so far. -/
structure Database where
  /-- The remote node. -/
  remote : RemoteNode
  /-- The local nodes. -/
  nodes : NodeTable
  /-- The numbers of the marked blocks by their state roots. -/
  blocks : Table Word UInt64
  /-- The block marked last. -/
  current : Option BlockHeader

namespace Database

/-- A database without marked blocks. -/
def make (remote : RemoteNode) (nodes : NodeTable) : Database := ⟨remote, nodes, .empty, none⟩

/-- Maps a block's state root to its number and makes it the block at which code is read. -/
def markBlock (d : Database) (h : BlockHeader) : Database :=
  { d with blocks := d.blocks.insert h.stateRoot h.number, current := some h }

/-- The block marked for a state root. -/
def blockOf (d : Database) (root : Word) : Except StateError UInt64 :=
  match d.blocks.find? root with
  | some block => .ok block
  | none => .error (.blockNotMapped root)

/-- A reader of the state with a marked root. -/
def reader (d : Database) (root : Word) : Except StateError Reader :=
  (d.blockOf root).map fun block => .remote d.remote block root

variable [Hasher]

/-- Opens the account trie. -/
def openAccounts (d : Database) (root : Word) : StateTrie :=
  .make .account root d.nodes.source

/-- Opens the storage trie of an account. -/
def openStorage (d : Database) (a : Address) (root : Word) : StateTrie :=
  .make (.storage (hashedAddress a)) root d.nodes.source

/-- The code of an account at the current block, which must have the given hash. The zero hash
stands for no code. -/
def code (d : Database) (a : Address) (codeHash : Word) : Except StateError Bytes :=
  match d.current with
  | none => .error .noBlockMarked
  | some h =>
    match d.remote.codeAt a h.number with
    | .error t => .error (.remote t)
    | .ok code =>
      let actual := digest code
      let expected := if codeHash.isZero then emptyCodeHash else codeHash
      if actual = expected then .ok code else .error (.codeMismatch a expected actual)

/-- The length of the code of an account at the current block. -/
def codeSize (d : Database) (a : Address) (codeHash : Word) : Except StateError Nat :=
  (d.code a codeHash).map List.length

end Database

end Stateless
