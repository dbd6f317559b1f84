import Stateless.Remote.Node
import Stateless.State.AccessList

/-!
# Prepared blocks

Everything that carrying out one block offline takes: its header and its parent's, and the proofs of
all accounts and slots of an access list before and after it. The proofs are kept as they came, so
they can be checked again and turned into nodes at any time.
-/

namespace Stateless

/-- A block with the proofs of what it touches. -/
structure PreparedBlock where
  /-- The number of the chain. -/
  chainId : UInt64
  /-- The header of the block. -/
  block : BlockHeader
  /-- The header of the block before. -/
  parent : BlockHeader
  /-- The proofs before the block. -/
  preProofs : List AccountProof
  /-- The proofs after the block. -/
  postProofs : List AccountProof
  deriving DecidableEq

namespace Trouble

/-- A trouble in a further context. -/
def within (context : String) (t : Trouble) : Trouble := context :: t

end Trouble

namespace RemoteNode

/-- Asks for the header of a block that has to exist. -/
def header (n : RemoteNode) (number : UInt64) : Except Trouble BlockHeader :=
  match n.blockByNumber number with
  | .error t => .error (t.within ("fetching header " ++ toString number.toNat))
  | .ok none => .error ["block " ++ toString number.toNat ++ " does not exist"]
  | .ok (some h) => .ok h

/-- Asks for the proofs of everything in an access list after a block. -/
def proofs (n : RemoteNode) (list : AccessList) (block : UInt64) :
    Except Trouble (List AccountProof) :=
  list.toList.mapM fun (a, slots) =>
    (n.proofOf a slots block).mapError fun t => t.within
      ("fetching the proof of " ++ a.hex ++ " at block " ++ toString block.toNat)

end RemoteNode

namespace PreparedBlock

/-- Prepares a block with the headers and proofs of a node. The block must build on the one before,
and any trouble ends the preparation. -/
def prepare (n : RemoteNode) (block : UInt64) (list : AccessList) :
    Except Trouble PreparedBlock := do
  if block = 0 then throw ["the genesis block has no parent state to prove"]
  let chainId ← n.chainId.mapError (Trouble.within "fetching the chain id")
  let header ← n.header block
  let parent ← n.header (block - 1)
  if header.parentHash ≠ parent.hash then
    throw ["block " ++ toString block.toNat ++ " does not build on block "
      ++ toString parent.number.toNat ++ " (" ++ header.parentHash.hex ++ " != "
      ++ parent.hash.hex ++ ")"]
  let preProofs ← n.proofs list parent.number
  let postProofs ← n.proofs list header.number
  return { chainId, block := header, parent, preProofs, postProofs }

/-- The state root before the block. -/
def preRoot (p : PreparedBlock) : Word := p.parent.stateRoot

/-- The state root after the block. -/
def postRoot (p : PreparedBlock) : Word := p.block.stateRoot

variable [Hasher]

/-- Checks all proofs and collects the nodes before the block and the orphans of the change. -/
def nodeSet (p : PreparedBlock) : Attempt StateError MergedNodeSet :=
  MergedNodeSet.ofTransition p.preRoot p.postRoot p.preProofs p.postProofs

/-- Writes all nodes in one batch. Answers how many there are and what the writer gives; nothing is
written if a proof does not hold. -/
def writeNodes {σ : Type} (p : PreparedBlock) (write : Batch → Except StoreError σ) :
    Attempt Trouble (Nat × σ) := do
  let set ← p.nodeSet.mapError fun e =>
    ("building the node set of block " ++ toString p.block.number.toNat)
      :: e.message :: e.causes
  Attempt.ofExcept ((set.flush write).mapError fun e =>
    ["flushing the snapshot node set", e.message])

end PreparedBlock

end Stateless
