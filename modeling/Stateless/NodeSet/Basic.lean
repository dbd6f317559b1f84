import Stateless.Account.Key
import Stateless.Trie.Proof

/-!
# Node sets

The nodes of one trie that proofs have shown, by their place in the trie, with the proven values by
their keys. A set takes the nodes of a list of keys as a whole or not at all, and two proofs that
disagree about a place are a conflict.
-/

namespace Stateless

/-- The trie that a node belongs to. -/
inductive TrieOwner where
  /-- The trie of all accounts. -/
  | account
  /-- The storage trie of the account with this hashed address. -/
  | storage (hashedAddress : Word)
  deriving DecidableEq

namespace TrieOwner

/-- The text of an owner. -/
def text : TrieOwner → String
  | account => "account trie"
  | storage h => "storage trie " ++ h.hex

/-- The bytes by which owners are ordered; the account trie comes first. -/
def rank : TrieOwner → Bytes
  | account => []
  | storage h => h.toBytes

theorem rank_injective {a b : TrieOwner} (h : a.rank = b.rank) : a = b := by
  match a, b with
  | account, account => rfl
  | storage _, storage _ => exact congrArg storage (FixedBytes.ext h)
  | account, storage w => exact absurd (congrArg List.length h) (by simp [rank, w.length_eq])
  | storage w, account => exact absurd (congrArg List.length h) (by simp [rank, w.length_eq])

instance : Ord TrieOwner := ⟨compareOn rank⟩

instance : Std.TransOrd TrieOwner := inferInstanceAs (Std.TransCmp (compareOn rank))

instance : Std.LawfulEqOrd TrieOwner where
  compare_self {o} := Std.ReflCmp.compare_self (a := o.rank)
  eq_of_compare {a b} h := rank_injective (Std.LawfulEqCmp.eq_of_compare
    (show compare a.rank b.rank = .eq from h))

end TrieOwner

/-- The encoding of a node with the hash under which it is stored. -/
structure ProvedNode where
  /-- The hash. -/
  hash : Word
  /-- The encoding. -/
  blob : Bytes
  deriving DecidableEq

/-- Why a node set refuses a change. -/
inductive NodeSetError where
  /-- The proof of a key does not hold. -/
  | proof (key root : Word) (cause : ProofError)
  /-- Two sources disagree about the node at a place. -/
  | nodeConflict (owner : TrieOwner) (path : Path) (existing incoming : Word)
  /-- Two sources disagree about the value of a key. -/
  | leafConflict (owner : TrieOwner) (path : Path)
  deriving DecidableEq

/-- The text of a refusal. -/
def NodeSetError.message : NodeSetError → String
  | proof key root e => "proof of key " ++ key.hex ++ " does not verify against root " ++ root.hex
      ++ ": " ++ e.message
  | nodeConflict owner path existing incoming => "conflicting nodes in the " ++ owner.text
      ++ " at path " ++ path.toText ++ ": " ++ existing.hex ++ " and " ++ incoming.hex
  | leafConflict owner path =>
    "conflicting values in the " ++ owner.text ++ " for key " ++ path.toText

/-- The proven nodes and values of one trie. -/
structure NodeSet where
  /-- The trie. -/
  owner : TrieOwner
  /-- The nodes by their places. -/
  nodes : Table Path ProvedNode
  /-- The values by their keys. -/
  leaves : Table Path Bytes
  deriving DecidableEq

namespace NodeSet

/-- The set of a trie of which nothing is proven yet. -/
def empty (owner : TrieOwner) : NodeSet := ⟨owner, .empty, .empty⟩

/-- The set with a node added, unless it holds another one at that place. -/
def addNode (s : NodeSet) (path : Path) (node : ProvedNode) : Except NodeSetError NodeSet :=
  match s.nodes.find? path with
  | none => .ok { s with nodes := s.nodes.insert path node }
  | some existing =>
    if existing.hash = node.hash then .ok s
    else .error (.nodeConflict s.owner path existing.hash node.hash)

/-- The set with a value added, unless it holds another one under that key. -/
def addLeaf (s : NodeSet) (path : Path) (value : Bytes) : Except NodeSetError NodeSet :=
  match s.leaves.find? path with
  | none => .ok { s with leaves := s.leaves.insert path value }
  | some existing => if existing = value then .ok s else .error (.leafConflict s.owner path)

/-- The first place where two sets hold different nodes. -/
def nodeConflict? (s t : NodeSet) : Option NodeSetError :=
  t.nodes.entries.findSome? fun (path, node) =>
    match s.nodes.find? path with
    | some existing =>
      if existing.hash = node.hash then none
      else some (.nodeConflict s.owner path existing.hash node.hash)
    | none => none

/-- The first key under which two sets hold different values. -/
def leafConflict? (s t : NodeSet) : Option NodeSetError :=
  t.leaves.entries.findSome? fun (path, value) =>
    match s.leaves.find? path with
    | some existing => if existing = value then none else some (.leafConflict s.owner path)
    | none => none

/-- The set with everything that another one holds, unless they conflict. -/
def merge (s t : NodeSet) : Except NodeSetError NodeSet :=
  match s.nodeConflict? t with
  | some e => .error e
  | none =>
    match s.leafConflict? t with
    | some e => .error e
    | none => .ok { s with nodes := s.nodes.union t.nodes, leaves := s.leaves.union t.leaves }

/-- The set with the nodes that a verification visited and the value that it found. -/
def addVerification (s : NodeSet) (v : Verification) : Except NodeSetError NodeSet := do
  let s ← v.visited.foldlM (fun s visit => s.addNode visit.path ⟨visit.digest, visit.blob⟩) s
  match v.leaf with
  | none => return s
  | some (key, value) => s.addLeaf key value

variable [Hasher]

/-- The nodes and values that the proofs of some keys show, added to a set. -/
def collect (root : Word) (source : NodeSource) :
    List Word → NodeSet → Attempt NodeSetError NodeSet
  | [], s => .ok s
  | key :: rest, s => do
    let v := verify root (.ofWord key) source
    let _ ← v.outcome.mapError (.proof key root)
    let s ← Attempt.ofExcept (s.addVerification v)
    collect root source rest s

/-- The set with the nodes and values that the proofs of some keys show. -/
def addKeys (s : NodeSet) (root : Word) (source : NodeSource) (keys : List Word) :
    Attempt NodeSetError NodeSet := do
  let staged ← collect root source keys (.empty s.owner)
  Attempt.ofExcept (s.merge staged)

/-- `addKeys` for accounts. -/
def addAccounts (s : NodeSet) (root : Word) (source : NodeSource) (addresses : List Address) :
    Attempt NodeSetError NodeSet :=
  s.addKeys root source (addresses.map hashedAddress)

/-- `addKeys` for storage slots. -/
def addSlots (s : NodeSet) (root : Word) (source : NodeSource) (slots : List Word) :
    Attempt NodeSetError NodeSet :=
  s.addKeys root source (slots.map hashedSlot)

end NodeSet

end Stateless
