import Stateless.State.Error

/-!
# Reading from tries

Reads the tries that a table of nodes holds. The account trie is rebuilt when the reader is made,
a storage trie when one of its slots is read for the first time; from then on it is kept.
-/

namespace Stateless

/-- A reader of the tries in a table of nodes. -/
structure TrieReader where
  /-- The nodes. -/
  nodes : NodeTable
  /-- The root of the account trie. -/
  root : Word
  /-- The account trie. -/
  accounts : Trie
  /-- The storage tries that have been rebuilt so far. -/
  storageTries : Table Address Trie

namespace TrieReader

variable [Hasher]

/-- A reader of the account trie with the given root. -/
def make (nodes : NodeTable) (root : Word) : Except StateError TrieReader :=
  match Trie.rebuild root nodes.source with
  | .error e => .error (.rebuild e)
  | .ok accounts => .ok ⟨nodes, root, accounts, .empty⟩

/-- Reads an account. -/
def readAccount (r : TrieReader) (a : Address) : Except StateError (Option Account) :=
  match r.accounts.getProven (.ofWord (hashedAddress a)) with
  | .error e => .error (.ofTrie .account e)
  | .ok none => .ok none
  | .ok (some b) => ((Account.decode b).map some).mapError .decode

/-- The storage trie of an address, rebuilt at a root unless it has been before. -/
def storageTrie (r : TrieReader) (a : Address) (root : Word) :
    Except StateError (Trie × TrieReader) :=
  match r.storageTries.find? a with
  | some t => .ok (t, r)
  | none =>
    match Trie.rebuild root r.nodes.source with
    | .error e => .error (.rebuild e)
    | .ok t => .ok (t, { r with storageTries := r.storageTries.insert a t })

/-- Reads a storage word; zero if the slot or the account does not exist. -/
def readStorage (r : TrieReader) (a : Address) (slot : Word) :
    Except StateError Word × TrieReader :=
  match r.readAccount a with
  | .error e => (.error e, r)
  | .ok none => (.ok .zero, r)
  | .ok (some account) =>
    if isEmptyRoot account.storageRoot then (.ok .zero, r)
    else
      match r.storageTrie a account.storageRoot with
      | .error e => (.error e, r)
      | .ok (t, r) =>
        match t.getProven (.ofWord (hashedSlot slot)) with
        | .error e => (.error (.ofTrie (.storage (hashedAddress a)) e), r)
        | .ok none => (.ok .zero, r)
        | .ok (some b) => ((decodeStorage b).mapError .decode, r)

/-- An independent reader of the same nodes. It starts with the storage tries that have been rebuilt
so far; what it rebuilds from then on is its own. -/
def copy (r : TrieReader) : TrieReader where
  nodes := r.nodes
  root := r.root
  accounts := r.accounts
  storageTries := r.storageTries

end TrieReader

end Stateless
