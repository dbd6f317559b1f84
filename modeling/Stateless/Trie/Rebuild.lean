import Stateless.Trie.Proof

/-!
# Rebuilding tries

From a root hash and a source of nodes a trie is rebuilt: every node that the source has is put in
place, and every node that it lacks stays hidden. The rebuilt trie therefore has the root hash that
it was built from.
-/

namespace Stateless

/-- Why a trie cannot be rebuilt. -/
inductive RebuildError where
  /-- The root itself is missing. -/
  | missingRoot (root : Word)
  /-- A node cannot be decoded. -/
  | malformed (digest : Word) (cause : DecodeError)
  /-- The nodes refer to each other in a circle. -/
  | endless
  deriving DecidableEq

/-- The text of a refusal. -/
def RebuildError.message : RebuildError → String
  | missingRoot h => "root node " ++ h.hex ++ " is not in the node source"
  | malformed h e => "failed to decode trie node " ++ h.hex ++ ": " ++ e.message
  | endless => "trie never ends"

namespace Trie

/-- The trie with its hidden parts replaced by what `reveal` gives for their hashes. -/
def substitute {ε : Type} (reveal : Word → Except ε Trie) : Trie → Except ε Trie
  | .empty => .ok .empty
  | .hidden h => reveal h
  | .leaf f v m => .ok (.leaf f v m)
  | .extension f c _ => do return .extension f (← substitute reveal c) none
  | .branch cs v _ => do
    let children ← Children.gather fun i => substitute reveal (cs i)
    return .branch children.get v none

/-- Reads the node stored under a hash. -/
def decodeStored (h : Word) (blob : Bytes) : Except RebuildError Trie :=
  (decode blob).mapError (.malformed h)

/-- What a source knows about a hash, down to a depth of `fuel` hashed nodes. -/
def reveal (source : NodeSource) : (fuel : Nat) → Word → Except RebuildError Trie
  | 0, _ => .error .endless
  | fuel + 1, h =>
    match source h with
    | none => .ok (.hidden h)
    | some blob => do substitute (reveal source fuel) (← decodeStored h blob)

/-- A bound on the depth of a trie that ends: below a node, its own hash does not occur again. -/
def depthBound : Nat := twoPow 256 + 1

variable [Hasher]

/-- Rebuilds the trie of a root from the nodes that a source has. An empty root needs no nodes. -/
def rebuild (root : Word) (source : NodeSource) : Except RebuildError Trie :=
  if isEmptyRoot root then .ok .empty
  else
    match source root with
    | none => .error (.missingRoot root)
    | some blob => do substitute (reveal source depthBound) (← decodeStored root blob)

end Trie

end Stateless
