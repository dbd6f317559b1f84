import Stateless.State.Error

/-!
# State tries that can be written

The account trie or a storage trie, opened from local nodes for reading and writing. Where the
nodes are not there, a blind trie takes its place: it reads as empty and discards what is written.
-/

namespace Stateless

/-- A trie of the state that was rebuilt from local nodes. -/
structure LocalTrie where
  /-- Which trie it is. -/
  owner : TrieOwner
  /-- What is known of it. -/
  trie : Trie

namespace LocalTrie

variable [Hasher]

/-- Rebuilds a trie from the nodes of a source. -/
def make (owner : TrieOwner) (root : Word) (source : NodeSource) :
    Except StateError LocalTrie :=
  match Trie.rebuild root source with
  | .error e => .error (.rebuild e)
  | .ok t => .ok ⟨owner, t⟩

/-- Reads an account; none if it does not exist. -/
def getAccount (l : LocalTrie) (a : Address) : Except StateError (Option Account) :=
  match l.trie.getProven (.ofWord (hashedAddress a)) with
  | .error e => .error (.ofTrie l.owner e)
  | .ok none => .ok none
  | .ok (some b) => ((Account.decode b).map some).mapError .decode

/-- Reads a storage word; zero if there is none. -/
def getStorage (l : LocalTrie) (slot : Word) : Except StateError Word :=
  match l.trie.getProven (.ofWord (hashedSlot slot)) with
  | .error e => .error (.ofTrie l.owner e)
  | .ok none => .ok .zero
  | .ok (some b) => (decodeStorage b).mapError .decode

/-- Writes a value under a key. -/
def write (l : LocalTrie) (key : Word) (value : Bytes) : Attempt StateError Unit × LocalTrie :=
  let (r, t) := l.trie.put (.ofWord key) (.value value)
  (Attempt.ofExcept (r.mapError (.ofTrie l.owner)), { l with trie := t })

/-- Removes a key. -/
def delete (l : LocalTrie) (key : Word) : Attempt StateError Unit × LocalTrie :=
  let (r, t) := l.trie.remove (.ofWord key)
  (Attempt.mapError (.ofTrie l.owner) (r.map fun _ => ()), { l with trie := t })

/-- Writes an account. -/
def updateAccount (l : LocalTrie) (a : Address) (account : Account) :
    Attempt StateError Unit × LocalTrie :=
  l.write (hashedAddress a) account.encode

/-- Removes an account. -/
def deleteAccount (l : LocalTrie) (a : Address) : Attempt StateError Unit × LocalTrie :=
  l.delete (hashedAddress a)

/-- Writes a storage word; the zero word removes the slot. -/
def updateStorage (l : LocalTrie) (slot value : Word) : Attempt StateError Unit × LocalTrie :=
  if value.isZero then l.delete (hashedSlot slot)
  else l.write (hashedSlot slot) (encodeStorage value)

/-- The root hash, which the trie then remembers. -/
def hash (l : LocalTrie) : Word × LocalTrie :=
  let (h, t) := l.trie.hash
  (h, { l with trie := t })

end LocalTrie

/-- A trie of the state, opened or stood in for. -/
inductive StateTrie where
  /-- A trie that was opened. -/
  | opened (l : LocalTrie)
  /-- A trie of which only the root is known. -/
  | blind (root : Word)

namespace StateTrie

variable [Hasher]

/-- A trie from the nodes of a source, or a blind one if it cannot be rebuilt. -/
def make (owner : TrieOwner) (root : Word) (source : NodeSource) : StateTrie :=
  match LocalTrie.make owner root source with
  | .ok l => opened l
  | .error _ => blind root

/-- Reads an account; none if it does not exist. -/
def getAccount : StateTrie → Address → Except StateError (Option Account)
  | opened l, a => l.getAccount a
  | blind _, _ => .ok none

/-- Reads a storage word; zero if there is none. -/
def getStorage : StateTrie → Word → Except StateError Word
  | opened l, slot => l.getStorage slot
  | blind _, _ => .ok .zero

/-- Changes a trie that was opened; a blind one stays as it is. -/
def change (f : LocalTrie → Attempt StateError Unit × LocalTrie) :
    StateTrie → Attempt StateError Unit × StateTrie
  | opened l =>
    let (r, l) := f l
    (r, opened l)
  | blind root => (.ok (), blind root)

/-- Writes an account. -/
def updateAccount (t : StateTrie) (a : Address) (account : Account) :
    Attempt StateError Unit × StateTrie :=
  t.change (·.updateAccount a account)

/-- Removes an account. -/
def deleteAccount (t : StateTrie) (a : Address) : Attempt StateError Unit × StateTrie :=
  t.change (·.deleteAccount a)

/-- Writes a storage word; the zero word removes the slot. -/
def updateStorage (t : StateTrie) (slot value : Word) : Attempt StateError Unit × StateTrie :=
  t.change (·.updateStorage slot value)

/-- The root hash; a blind trie keeps the root that it was opened at. -/
def hash : StateTrie → Word × StateTrie
  | opened l =>
    let (h, l) := l.hash
    (h, opened l)
  | blind root => (root, blind root)

end StateTrie

end Stateless
