import Stateless.Keccak
import Stateless.Table

/-!
# Nodes by hash

Encodings of nodes are found by their hash, whether they come from a proof or from a store. A store
takes a batch of writes as a whole or not at all, and only under the hashes that the encodings have.
-/

namespace Stateless

/-- Finds the encoding of a node by its hash. -/
abbrev NodeSource := Word → Option Bytes

/-- Encodings under hashes. -/
abbrev NodeTable := Table Word Bytes

/-- The source that looks nodes up in a table. -/
def NodeTable.source (t : NodeTable) : NodeSource := t.find?

/-- Writes in the order in which they were queued. -/
abbrev Batch := List (Word × Bytes)

/-- Why a store does not take a batch. -/
inductive StoreError where
  /-- An encoding was offered under a hash that it does not have. -/
  | hashMismatch (claimed actual : Word)
  /-- The storage behind the store failed. -/
  | backend (text : String)
  deriving DecidableEq

/-- The text of a refusal. -/
def StoreError.message : StoreError → String
  | hashMismatch claimed actual => "node stored under " ++ claimed.hex ++ " hashes to " ++ actual.hex
  | backend text => "node store backend failure: " ++ text

variable [Hasher]

/-- The nodes of proofs under their hashes, added to others. -/
def NodeTable.addProof (t : NodeTable) (blobs : List Bytes) : NodeTable :=
  blobs.foldl (fun t b => t.insert (digest b) b) t

/-- The nodes of proofs under their hashes. -/
def NodeTable.ofProof (blobs : List Bytes) : NodeTable := NodeTable.addProof .empty blobs

/-- The first write of a batch that is not under the hash of its encoding. -/
def Batch.mismatch? (batch : Batch) : Option StoreError :=
  batch.findSome? fun (claimed, blob) =>
    let actual := digest blob
    if actual = claimed then none else some (.hashMismatch claimed actual)

/-- Writes a whole batch, unless a write in it is not under the hash of its encoding. -/
def NodeTable.write (t : NodeTable) (batch : Batch) : Except StoreError NodeTable :=
  match Batch.mismatch? batch with
  | some e => .error e
  | none => .ok (batch.foldl (fun t e => t.insert e.1 e.2) t)

end Stateless
