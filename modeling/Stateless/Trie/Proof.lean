import Stateless.NodeStore
import Stateless.Path.Text
import Stateless.Trie.Decoding
import Stateless.Trie.Edit
import Stateless.Trie.Encoding

/-!
# Proofs of presence and absence

A proof of a key is the list of the encodings of the hashed nodes on the way from the root towards
the key. `Trie.prove` collects it from a trie, and `verify` walks it again: from the root hash it
either reaches the value of the key or the node where the way provably parts from the key.
-/

namespace Stateless

/-- Why a proof does not hold. -/
inductive ProofError where
  /-- A node on the way is missing. -/
  | missing (digest : Word) (path : Path)
  /-- A node on the way cannot be decoded. -/
  | malformed (digest : Word) (path : Path) (cause : DecodeError)
  /-- The nodes refer to each other in a circle, so the way never ends. -/
  | endless
  deriving DecidableEq

/-- The text of a refusal. -/
def ProofError.message : ProofError → String
  | missing h p => "proof is missing trie node " ++ h.hex ++ " at path " ++ p.toText
  | malformed h p e =>
    "trie node " ++ h.hex ++ " at path " ++ p.toText ++ " is malformed: " ++ e.message
  | endless => "proof never ends"

/-- Where a verified way ends. -/
structure VerifiedPath where
  /-- The value of the key; none if the key is proven to be absent. -/
  value : Option Bytes
  /-- The part of the key before the last node. -/
  matched : Path
  /-- The last node, with hashed children hidden. -/
  last : Trie

/-- Whether the key is proven to be present. -/
def VerifiedPath.isInclusion (p : VerifiedPath) : Bool := p.value.isSome

/-- A node that was looked up by its hash. -/
structure Visit where
  /-- Where the node stands. -/
  path : Path
  /-- The hash under which it was looked up. -/
  digest : Word
  /-- Its encoding. -/
  blob : Bytes

/-- What a verification reports. -/
structure Verification where
  /-- The nodes that were looked up, in order. -/
  visited : List Visit
  /-- The key and its value, if the walk reached them. -/
  leaf : Option (Path × Bytes)
  /-- Where the walk ended, or why it failed. -/
  outcome : Attempt ProofError VerifiedPath

/-- Where the walk through one decoded node leads. -/
inductive Descent where
  /-- To a hidden part, which has to be looked up. -/
  | lookUp (digest : Word) (matched remaining : Path)
  /-- To the key's value. -/
  | found (key : Path) (value : Bytes) (matched : Path) (last : Trie)
  /-- To a node where the key is not. -/
  | absent (matched : Path) (last : Trie)
  /-- To a fragment that reaches beyond the longest key. -/
  | tooLong (matched : Path) (length : Nat)

/-- Walks from a node towards the remaining nibbles of a key, as far as no lookup is needed. -/
def Trie.descend : Trie → Path → Path → Except Fault Descent
  | .empty, matched, _ => .ok (.absent matched .empty)
  | .hidden h, matched, remaining => .ok (.lookUp h matched remaining)
  | .leaf f v m, matched, remaining =>
    if maxNibbles < matched.length + f.length then
      .ok (.tooLong matched (matched.length + f.length))
    else if f = remaining then do
      let key ← matched.append f
      return .found key v matched (.leaf f v m)
    else .ok (.absent matched (.leaf f v m))
  | .extension f c m, matched, remaining =>
    if maxNibbles < matched.length + f.length then
      .ok (.tooLong matched (matched.length + f.length))
    else if remaining.startsWith f then do
      let matched ← matched.append f
      descend c matched (remaining.drop f.length)
    else .ok (.absent matched (.extension f c m))
  | .branch cs v m, matched, remaining =>
    match remaining.uncons with
    | none =>
      if v.isEmpty then .ok (.absent matched (.branch cs v m))
      else .ok (.found matched v matched (.branch cs v m))
    | some (d, rest) =>
      if (cs d).isEmpty then .ok (.absent matched (.branch cs v m))
      else do
        let matched ← matched.push d.val
        descend (cs d) matched rest

/-- Walks from a hash towards the remaining nibbles of a key with at most `fuel` lookups. -/
def walk (source : NodeSource) : (fuel : Nat) → Word → Path → Path → Verification
  | 0, _, _, _ => ⟨[], none, .error (.error .endless)⟩
  | fuel + 1, h, matched, remaining =>
    match source h with
    | none => ⟨[], none, .error (.error (.missing h matched))⟩
    | some blob =>
      let visit : Visit := ⟨matched, h, blob⟩
      match Trie.decode blob with
      | .error e => ⟨[visit], none, .error (.error (.malformed h matched e))⟩
      | .ok node =>
        match node.descend matched remaining with
        | .error b => ⟨[visit], none, .error (.fault b)⟩
        | .ok (.tooLong m n) =>
          ⟨[visit], none, .error (.error (.malformed h m (.pathTooLong n)))⟩
        | .ok (.absent m last) => ⟨[visit], none, .ok ⟨none, m, last⟩⟩
        | .ok (.found key v m last) => ⟨[visit], some (key, v), .ok ⟨some v, m, last⟩⟩
        | .ok (.lookUp next m rest) =>
          let further := walk source fuel next m rest
          { further with visited := visit :: further.visited }

/-- A bound on the lookups of a walk that ends. A walk is determined by the hash that it looks up and
by how much of the key remains, so one with more lookups than there are such pairs repeats itself. -/
def lookupBound : Nat := (maxNibbles + 1) * twoPow 256 + 1

variable [Hasher]

/-- Verifies the proof of a key against a root with the nodes that a source has. -/
def verify (root : Word) (key : Path) (source : NodeSource) : Verification :=
  if isEmptyRoot root then ⟨[], none, .ok ⟨none, .empty, .empty⟩⟩
  else walk source lookupBound root .empty key

namespace Trie

/-- The encodings of the hashed nodes from a node on towards a key; the encoding of the first node
is included even if it is short when `isRoot` is set. -/
def proveFrom : (isRoot : Bool) → Trie → Path → Except TrieError (List Bytes)
  | isRoot, t, k =>
    let here : List Bytes :=
      match t.content with
      | .error _ => []
      | .ok e => if isRoot || hashLength ≤ e.length then [e] else []
    match t with
    | .hidden h => .error (.readHidden h)
    | .empty | .leaf .. => .ok here
    | .extension f c _ =>
      if k.startsWith f then do
        return here ++ (← proveFrom false c (k.drop f.length))
      else .ok here
    | .branch cs _ _ =>
      match k.uncons with
      | none => .ok here
      | some (d, rest) => do
        return here ++ (← proveFrom false (cs d) rest)

/-- The proof of a key, whether it is present or absent. It is refused if the way runs into a hidden
part. -/
def prove (t : Trie) (k : Path) : Except TrieError (List Bytes) := proveFrom true t k

end Trie

end Stateless
