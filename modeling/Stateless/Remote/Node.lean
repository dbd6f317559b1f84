import Stateless.State.Proof

/-!
# Remote nodes

What the library asks of an execution node. Every block is named by its number and taken to be
final, so the same question always has the same answer.
-/

namespace Stateless

/-- The fields of a block header that state access needs. -/
structure BlockHeader where
  /-- The number of the block. -/
  number : UInt64
  /-- The hash of the block. -/
  hash : Word
  /-- The hash of the block before. -/
  parentHash : Word
  /-- The root of the account trie after the block. -/
  stateRoot : Word
  deriving DecidableEq

/-- The answers of a remote node. -/
structure RemoteNode where
  /-- The number of the chain. -/
  chainId : Except Trouble UInt64
  /-- The header of a block, if there is one. -/
  blockByNumber : UInt64 → Except Trouble (Option BlockHeader)
  /-- The proof of an account and some of its slots after a block. -/
  proofOf : Address → List Word → UInt64 → Except Trouble AccountProof
  /-- The code of an account after a block. -/
  codeAt : Address → UInt64 → Except Trouble Bytes
  /-- A storage word after a block. -/
  storageAt : Address → Word → UInt64 → Except Trouble Word

namespace RemoteNode

/-- Reads an account after a block. An empty one does not exist. -/
def readAccount [Hasher] (n : RemoteNode) (block : UInt64) (a : Address) :
    Except StateError (Option Account) :=
  match n.proofOf a [] block with
  | .error t => .error (.remote t)
  | .ok p => p.account.map fun account => if account.isEmpty then none else some account

/-- Reads a storage word after a block. -/
def readStorage (n : RemoteNode) (block : UInt64) (a : Address) (slot : Word) :
    Except StateError Word :=
  (n.storageAt a slot block).mapError .remote

end RemoteNode

end Stateless
