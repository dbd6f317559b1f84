import Stateless.Remote.Node
import Stateless.State.World

/-!
# A node that knows its chain

A remote node that answers from the whole states of a chain of blocks. A block's hash is that of its
parent's hash and its state root. Single answers can be replaced, and methods can be made to fail.
-/

namespace Stateless

/-- The methods of a remote node. -/
inductive RemoteMethod where
  | chainId
  | blockByNumber
  | proofOf
  | codeAt
  | storageAt
  deriving DecidableEq

/-- A chain of states with answers that replace its own. -/
structure Chain where
  /-- The number of the chain. -/
  chainId : UInt64
  /-- The states after blocks 0, 1, and so on. -/
  states : List CommittedWorld
  /-- Headers that are answered instead; none for a block that is said not to exist. -/
  headers : List (UInt64 × Option BlockHeader)
  /-- Proofs that are answered instead. -/
  proofs : List (Address × UInt64 × AccountProof)
  /-- Code that is answered instead. -/
  codes : List (Address × Bytes)
  /-- Methods that fail. -/
  failing : List (RemoteMethod × Trouble)

namespace Chain

variable [Hasher]

/-- The headers of blocks with the given state roots, of which the first has number `number`. -/
def headersFrom : UInt64 → Word → List CommittedWorld → List BlockHeader
  | _, _, [] => []
  | number, parentHash, c :: rest =>
    let hash := digest (parentHash.toBytes ++ c.root.toBytes)
    ⟨number, hash, parentHash, c.root⟩ :: headersFrom (number + 1) hash rest

/-- The headers of the chain's own blocks. -/
def ownHeaders (c : Chain) : List BlockHeader := headersFrom 0 .zero c.states

/-- The state after a block. -/
def stateAt (c : Chain) (block : UInt64) : Except Trouble CommittedWorld :=
  match c.states[block.toNat]? with
  | some s => .ok s
  | none => .error ["unknown block " ++ toString block.toNat]

/-- Fails if a method is made to fail. -/
def check (c : Chain) (m : RemoteMethod) : Except Trouble Unit :=
  match c.failing.find? fun f => f.1 = m with
  | some f => .error f.2
  | none => .ok ()

/-- The header of a block, if it exists. -/
def blockByNumber (c : Chain) (number : UInt64) : Except Trouble (Option BlockHeader) := do
  c.check .blockByNumber
  match c.headers.find? fun h => h.1 = number with
  | some h => return h.2
  | none => return c.ownHeaders[number.toNat]?

/-- The proof of an account and some of its slots. -/
def proofOf (c : Chain) (a : Address) (slots : List Word) (block : UInt64) :
    Except Trouble AccountProof := do
  c.check .proofOf
  match c.proofs.find? fun p => p.1 = a ∧ p.2.1 = block with
  | some p => return p.2.2
  | none =>
    let s ← c.stateAt block
    (s.proof a slots).mapError fun e => [e.message]

/-- The code of an account. -/
def codeAt (c : Chain) (a : Address) (block : UInt64) : Except Trouble Bytes := do
  c.check .codeAt
  match c.codes.find? fun p => p.1 = a with
  | some p => return p.2
  | none =>
    let s ← c.stateAt block
    return ((s.world.find? a).map (·.code)).getD []

/-- A storage word. -/
def storageAt (c : Chain) (a : Address) (slot : Word) (block : UInt64) : Except Trouble Word := do
  c.check .storageAt
  let s ← c.stateAt block
  return s.word a slot

/-- The chain as a remote node. -/
def node (c : Chain) : RemoteNode where
  chainId := do
    c.check .chainId
    return c.chainId
  blockByNumber := c.blockByNumber
  proofOf := c.proofOf
  codeAt := c.codeAt
  storageAt := c.storageAt

end Chain

end Stateless
