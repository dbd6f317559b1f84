import Stateless.Json.Form
import Stateless.NodeSet.Basic

/-!
# The JSON form of node sets

A node set is a record of its owner, its nodes by their places and its values by their keys.
-/

namespace Stateless.Json

/-- The owner of a trie. -/
def owner : TrieOwner → Json
  | .account => string "Account"
  | .storage h => object [("Storage", fixed h)]

/-- Reads the owner of a trie. -/
def owner? : Json → Option TrieOwner
  | string "Account" => some .account
  | object [("Account", null)] => some .account
  | object [("Storage", h)] => (word? h).map .storage
  | _ => none

/-- A node with its hash. -/
def provedNode (n : ProvedNode) : Json :=
  object [("hash", fixed n.hash), ("blob", hexBytes n.blob)]

/-- Reads a node with its hash, which may be any. -/
def provedNode? (j : Json) : Option ProvedNode := do
  let [some hash, some blob] ← fields? ["hash", "blob"] j | none
  return ⟨← word? hash, ← hexBytes? blob⟩

/-- Entries by their paths. -/
def byPath {α : Type} (write : α → Json) (t : Table Path α) : Json :=
  object (t.entries.map fun e => (e.1.toText, write e.2))

/-- Reads entries by their paths. -/
def byPath? {α : Type} (read : Json → Option α) (j : Json) : Option (Table Path α) :=
  (entriesOf readPath? read j).map Table.ofList

/-- Reads values by their keys. Of several values under one key only the last has to be bytes. -/
def leaves? (j : Json) : Option (Table Path Bytes) := do
  let texts ← byPath? text? j
  let entries ← texts.entries.mapM fun e => do return (e.1, ← Hex.unmarked? e.2)
  return Table.ofList entries

/-- A node set. -/
def nodeSet (s : NodeSet) : Json :=
  object [("owner", owner s.owner), ("nodes", byPath provedNode s.nodes),
    ("leaves", byPath hexBytes s.leaves)]

/-- Reads a node set. -/
def nodeSet? (j : Json) : Option NodeSet := do
  let [some owner, some nodes, some leaves] ← fields? ["owner", "nodes", "leaves"] j | none
  return ⟨← owner? owner, ← byPath? provedNode? nodes, ← leaves? leaves⟩

end Stateless.Json
