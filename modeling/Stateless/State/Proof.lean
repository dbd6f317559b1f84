import Stateless.NodeSet.Merged
import Stateless.Quantity
import Stateless.State.Error

/-!
# Proofs of accounts and slots

What a remote node answers when it is asked to prove an account and some of its slots, and the node
sets that such proofs make up. Numbers stay quantities until they are used, so a number that is too
large is noticed only then.
-/

namespace Stateless

/-- The proof of one storage slot. -/
structure StorageProof where
  /-- The slot. -/
  key : Word
  /-- The word in the slot. -/
  value : Quantity
  /-- The encodings of the nodes on the way. -/
  proof : List Bytes
  deriving DecidableEq

/-- An account with its proof and the proofs of some of its slots. -/
structure AccountProof where
  /-- The address. -/
  address : Address
  /-- The encodings of the nodes on the way to the account. -/
  accountProof : List Bytes
  /-- The claimed balance. -/
  balance : Quantity
  /-- The claimed hash of the code. -/
  codeHash : Word
  /-- The claimed nonce. -/
  nonce : Quantity
  /-- The claimed root of the storage trie. -/
  storageHash : Word
  /-- The proofs of slots. -/
  storageProof : List StorageProof
  deriving DecidableEq

/-- The claimed word, if it fits in a word. -/
def StorageProof.word? (p : StorageProof) : Option Word := p.value.toWord?

namespace AccountProof

/-- The claimed account. The nonce is looked at before the balance. -/
def account (p : AccountProof) : Except StateError Account :=
  match p.nonce.toUInt64?, p.balance.toAmount? with
  | none, _ => .error (.tooLarge p.address .nonce)
  | some _, none => .error (.tooLarge p.address .balance)
  | some nonce, some balance => .ok ⟨nonce, balance, p.storageHash, p.codeHash⟩

/-- The slots that are proven. -/
def slots (p : AccountProof) : List Word := p.storageProof.map (·.key)

/-- The nodes of the account proofs of a list. -/
def accountNodes [Hasher] (ps : List AccountProof) : NodeTable :=
  .ofProof (ps.flatMap (·.accountProof))

/-- The nodes of all slot proofs. -/
def storageNodes [Hasher] (p : AccountProof) : NodeTable :=
  .ofProof (p.storageProof.flatMap (·.proof))

end AccountProof

namespace NodeSet

variable [Hasher]

/-- The nodes that prove the accounts of a list. -/
def ofAccountProofs (root : Word) (ps : List AccountProof) : Attempt NodeSetError NodeSet :=
  (NodeSet.empty .account).addAccounts root (AccountProof.accountNodes ps).source
    (ps.map (·.address))

/-- The nodes that prove the slots of every account with storage. Several proofs of one account go
into one set. -/
def ofStorageProofs (ps : List AccountProof) : Attempt NodeSetError (Table Address NodeSet) :=
  ps.foldlM (fun sets p =>
    if isEmptyRoot p.storageHash then .ok sets
    else do
      let s := (sets.find? p.address).getD (.empty (.storage (hashedAddress p.address)))
      let s ← s.addSlots p.storageHash p.storageNodes.source p.slots
      return sets.insert p.address s) .empty

/-- Adds the orphans of the slots of an account, if it has a node set. -/
def addStorageOrphans (sets : Table Address NodeSet) (p : AccountProof) :
    Attempt NodeSetError (Table Address NodeSet) :=
  match sets.find? p.address with
  | none => .ok sets
  | some s => do
    let (s, _) ← s.addSlotOrphans p.storageHash p.storageNodes.source p.slots
    return sets.insert p.address s

end NodeSet

namespace MergedNodeSet

variable [Hasher]

/-- The set of the account trie and those of storage tries in one. -/
def ofSets (accounts : NodeSet) (storage : Table Address NodeSet) :
    Attempt NodeSetError MergedNodeSet :=
  Attempt.ofExcept (empty.addAll (accounts :: storage.values))

/-- The nodes that prove every account and slot of a list against a state root. -/
def ofStateProofs (root : Word) (ps : List AccountProof) : Attempt StateError MergedNodeSet :=
  Attempt.mapError .nodeSet do
    ofSets (← NodeSet.ofAccountProofs root ps) (← NodeSet.ofStorageProofs ps)

/-- The nodes for carrying out a change of the state: those that the proofs before it show, and the
orphans that the proofs of the same accounts and slots after it reveal. -/
def ofTransition (preRoot postRoot : Word) (pre post : List AccountProof) :
    Attempt StateError MergedNodeSet :=
  Attempt.mapError .nodeSet do
    let accounts ← NodeSet.ofAccountProofs preRoot pre
    let storage ← NodeSet.ofStorageProofs pre
    let (accounts, _) ← accounts.addAccountOrphans postRoot
      (AccountProof.accountNodes post).source (post.map (·.address))
    let storage ← post.foldlM NodeSet.addStorageOrphans storage
    ofSets accounts storage

end MergedNodeSet

end Stateless
