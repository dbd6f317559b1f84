import Stateless.NodeSet.Orphan

/-!
# Node sets of several tries

The node sets of several tries, one per trie, and the batch that writes all their nodes at once.
-/

namespace Stateless

/-- Node sets by the tries they belong to. -/
structure MergedNodeSet where
  /-- The sets. -/
  sets : Table TrieOwner NodeSet
  deriving DecidableEq

namespace MergedNodeSet

/-- No sets. -/
def empty : MergedNodeSet := ⟨.empty⟩

/-- The sets with another one added, merged into the set of the same trie if there is one. -/
def add (m : MergedNodeSet) (s : NodeSet) : Except NodeSetError MergedNodeSet :=
  match m.sets.find? s.owner with
  | none => .ok ⟨m.sets.insert s.owner s⟩
  | some existing => (existing.merge s).map fun merged => ⟨m.sets.insert s.owner merged⟩

/-- The sets of a list, merged in order. -/
def addAll (m : MergedNodeSet) (sets : List NodeSet) : Except NodeSetError MergedNodeSet :=
  sets.foldlM add m

/-- The number of nodes in all sets. -/
def nodeCount (m : MergedNodeSet) : Nat := m.sets.values.foldr (fun s n => s.nodes.size + n) 0

/-- All nodes, each hash once; of several nodes with one hash the last counts. -/
def batch (m : MergedNodeSet) : Batch :=
  (Table.ofList (m.sets.values.flatMap fun s =>
    s.nodes.values.map fun n => (n.hash, n.blob))).entries

/-- Writes all nodes in one batch. Answers how many there are and what the writer gives. -/
def flush {σ : Type} (m : MergedNodeSet) (write : Batch → Except StoreError σ) :
    Except StoreError (Nat × σ) :=
  (write m.batch).map fun s => (m.batch.length, s)

end MergedNodeSet

end Stateless
