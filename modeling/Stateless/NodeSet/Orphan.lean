import Stateless.NodeSet.Basic

/-!
# Orphans

A removal can leave a branch with a single child; if that is a leaf or an extension, its fragment is
joined with the one above. When the child is hidden the join cannot be done. But the proof of the
removed key after the change ends in the joined node, so the child is that node with a shorter
fragment. All shorter fragments are candidates; the wrong ones are never referred to.
-/

namespace Stateless

namespace Trie

/-- The ways to take one or more, but not all, nibbles off the front of a fragment. -/
def shortenings (f : Path) : List (Path × Path) :=
  (List.range' 1 (f.length - 1)).map fun i => (f.dropLast (f.length - i), f.drop i)

/-- A leaf or an extension with every shorter fragment, and what was taken off its front. -/
def shortened : Trie → List (Path × Trie)
  | .leaf f v _ => (shortenings f).map fun (off, rest) => (off, .leaf rest v none)
  | .extension f c _ => (shortenings f).map fun (off, rest) => (off, .extension rest c none)
  | _ => []

end Trie

variable [Hasher]

/-- A node with its hash, however short its encoding is. -/
def ProvedNode.ofTrie (t : Trie) : ProvedNode :=
  let blob := t.encoding?.getD []
  ⟨digest blob, blob⟩

/-- The candidates for the child that was joined into a leaf or an extension, each with what was
taken off the front of the fragment. -/
def orphans (t : Trie) : List (Path × ProvedNode) :=
  t.shortened.map fun (off, variant) => (off, .ofTrie variant)

namespace NodeSet

/-- The orphans at the end of an exclusion proof, by their places. -/
def orphansAt (p : VerifiedPath) : Except Fault (List (Path × ProvedNode)) :=
  if p.isInclusion || !p.last.isShort then .ok []
  else (orphans p.last).mapM fun (off, node) => do return (← p.matched.append off, node)

/-- The orphans that the proofs of some keys reveal. -/
def orphanCandidates (root : Word) (source : NodeSource) :
    List Word → Attempt NodeSetError (List (Path × ProvedNode))
  | [] => .ok []
  | key :: rest => do
    let p ← (verify root (.ofWord key) source).outcome.mapError (.proof key root)
    let here ← Attempt.ofFault (orphansAt p)
    return here ++ (← orphanCandidates root source rest)

/-- Adds nodes at places where nothing is held yet and counts them. -/
def fill (s : NodeSet) (candidates : List (Path × ProvedNode)) : NodeSet × Nat :=
  candidates.foldl (fun (s, n) (path, node) =>
    if s.nodes.contains path then (s, n)
    else ({ s with nodes := s.nodes.insert path node }, n + 1)) (s, 0)

/-- The set with the orphans that the proofs of some keys after a change reveal, and how many there
are. A node that is already held is never replaced. -/
def addOrphans (s : NodeSet) (root : Word) (source : NodeSource) (keys : List Word) :
    Attempt NodeSetError (NodeSet × Nat) := do
  return s.fill (← orphanCandidates root source keys)

/-- `addOrphans` for accounts. -/
def addAccountOrphans (s : NodeSet) (root : Word) (source : NodeSource)
    (addresses : List Address) : Attempt NodeSetError (NodeSet × Nat) :=
  s.addOrphans root source (addresses.map hashedAddress)

/-- `addOrphans` for storage slots. -/
def addSlotOrphans (s : NodeSet) (root : Word) (source : NodeSource) (slots : List Word) :
    Attempt NodeSetError (NodeSet × Nat) :=
  s.addOrphans root source (slots.map hashedSlot)

end NodeSet

end Stateless
