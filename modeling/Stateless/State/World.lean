import Stateless.State.Proof

/-!
# Whole states

A state that is known completely: every account with its code and its storage. Committing it builds
its tries, from which the proofs of accounts and slots can be taken.
-/

namespace Stateless

/-- A plain account. -/
structure Holding where
  /-- The number of transactions sent. -/
  nonce : UInt64
  /-- The balance in wei. -/
  balance : Amount
  /-- The code. -/
  code : Bytes
  /-- The words in the slots; none is zero. -/
  storage : Table Word Word
  deriving DecidableEq

namespace Holding

/-- An account that has nothing. -/
def empty : Holding := ⟨0, 0, [], .empty⟩

/-- The account with a storage word; the zero word takes the slot out. -/
def store (h : Holding) (slot value : Word) : Holding :=
  if value.isZero then { h with storage := h.storage.erase slot }
  else { h with storage := h.storage.insert slot value }

variable [Hasher]

/-- The trie of the storage. -/
def storageTrie (h : Holding) : Trie :=
  (Trie.ofValues (h.storage.entries.map fun e =>
    (.ofWord (hashedSlot e.1), encodeStorage e.2))).memoize

/-- The record of the account, given the root of its storage trie. -/
def account (h : Holding) (storageRoot : Word) : Account :=
  { (Account.new h.nonce h.balance).withCode h.code with storageRoot }

end Holding

/-- All accounts of a state. -/
abbrev World := Table Address Holding

/-- A state with its tries. -/
structure CommittedWorld where
  /-- The accounts. -/
  world : World
  /-- The storage trie of every account. -/
  storage : Table Address Trie
  /-- The account trie. -/
  accounts : Trie

namespace World

variable [Hasher]

/-- Builds the tries of a state. Every account is put into the account trie, also an empty one. -/
def commit (w : World) : CommittedWorld :=
  let storage := w.map fun _ h => h.storageTrie
  { world := w
    storage
    accounts := (Trie.ofValues (w.entries.map fun (a, h) =>
      let root := ((storage.find? a).getD .empty).rootHash
      (.ofWord (hashedAddress a), (h.account root).encode))).memoize }

end World

namespace CommittedWorld

variable [Hasher]

/-- The state of nothing. -/
def empty : CommittedWorld := ⟨.empty, .empty, .empty⟩

instance : Inhabited CommittedWorld := ⟨⟨.empty, .empty, .empty⟩⟩

/-- The state root. -/
def root (c : CommittedWorld) : Word := c.accounts.rootHash

/-- The storage trie of an address; the empty one if there is no such account. -/
def storageTrie (c : CommittedWorld) (a : Address) : Trie := (c.storage.find? a).getD .empty

/-- The record of an account. -/
def account? (c : CommittedWorld) (a : Address) : Option Account :=
  (c.world.find? a).map fun h => h.account (c.storageTrie a).rootHash

/-- The word in a slot; zero if there is none. -/
def word (c : CommittedWorld) (a : Address) (slot : Word) : Word :=
  ((c.world.find? a).bind fun h => h.storage.find? slot).getD .zero

/-- The proof of an account of which the record is known. -/
def presentProof (c : CommittedWorld) (a : Address) (slots : List Word) (r : Account) :
    Except TrieError AccountProof := do
  let accountProof ← c.accounts.prove (.ofWord (hashedAddress a))
  let storageProof ← slots.mapM fun slot => do
    let proof ← (c.storageTrie a).prove (.ofWord (hashedSlot slot))
    return (⟨slot, .ofNat (c.word a slot).toNat, proof⟩ : StorageProof)
  return { address := a, accountProof, balance := .ofNat r.balance.toNat, codeHash := r.codeHash,
           nonce := .ofNat r.nonce.toNat, storageHash := r.storageRoot, storageProof }

/-- The proof of an account that does not exist: all its fields are zero, and the proofs of its
slots are empty. -/
def absentProof (c : CommittedWorld) (a : Address) (slots : List Word) :
    Except TrieError AccountProof := do
  let accountProof ← c.accounts.prove (.ofWord (hashedAddress a))
  return { address := a, accountProof, balance := .zero, codeHash := .zero, nonce := .zero,
           storageHash := .zero, storageProof := slots.map fun slot => ⟨slot, .zero, []⟩ }

/-- The proof of an account and some of its slots. -/
def proof (c : CommittedWorld) (a : Address) (slots : List Word) :
    Except TrieError AccountProof :=
  match c.account? a with
  | some r => c.presentProof a slots r
  | none => c.absentProof a slots

end CommittedWorld

end Stateless
