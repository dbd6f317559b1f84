import Stateless.Json.Form
import Stateless.Trie.Basic

/-!
# The JSON form of tries

A trie is a record with its root node, a node a variant with its parts. Memos are left out. Values
that are nested in more than 127 arrays and objects are not read.
-/

namespace Stateless.Json

/-- A trie as a record. -/
def trieRecord (node : Json) : Json := object [("node", node)]

/-- A node. -/
def node : Trie → Json
  | .empty => string "Empty"
  | .hidden h => object [("Hash", fixed h)]
  | .leaf f v _ => object [("Leaf", object [("nibbles", path f), ("value", numbers v)])]
  | .extension f c _ =>
    object [("Extension", object [("nibbles", path f), ("child", trieRecord (node c))])]
  | .branch cs v _ =>
    object [("Branch", object [
      ("children", array (Children.toList fun i => trieRecord (node (cs i)))),
      ("value", numbers v)])]

/-- A trie. -/
def trie (t : Trie) : Json := trieRecord (node t)

/-- One more than the number of arrays and objects that may lie around a value. -/
def maxDepth : Nat := 128

/-- Sixteen children from a list of them. -/
def childrenOf (ts : List Trie) : Option (Row Trie) :=
  if h : ts.length = 16 then some (Children.tabulate fun i => ts[i.val]) else none

mutual

/-- Reads a trie at which `depth` levels remain. -/
def trieAt : (depth : Nat) → Json → Option Trie
  | depth + 2, j => do
    let [some n] ← fields? ["node"] j | none
    nodeAt (depth + 1) n
  | _, _ => none

/-- Reads a node at which `depth` levels remain. -/
def nodeAt : (depth : Nat) → Json → Option Trie
  | _, string "Empty" => some .empty
  | depth + 2, object [(variant, parts)] => variantAt (depth + 1) variant parts
  | _, _ => none

/-- Reads the parts of a variant at which `depth` levels remain. -/
def variantAt : (depth : Nat) → String → Json → Option Trie
  | _, "Empty", null => some .empty
  | _, "Hash", j => (word? j).map .hidden
  | _ + 3, "Leaf", j => do
    let [some f, some v] ← fields? ["nibbles", "value"] j | none
    return .leaf (← path? f) (← numbers? v) none
  | depth + 2, "Extension", j => do
    let [some f, some c] ← fields? ["nibbles", "child"] j | none
    return .extension (← path? f) (← trieAt (depth + 1) c) none
  | depth + 3, "Branch", j => do
    let [some cs, some v] ← fields? ["children", "value"] j | none
    let children ← listOf (trieAt (depth + 1)) cs
    return .branch (← childrenOf children).get (← numbers? v) none
  | _, _, _ => none

end

/-- Reads a trie. -/
def trie? (j : Json) : Option Trie := trieAt maxDepth j

/-- Reads a node. -/
def node? (j : Json) : Option Trie := nodeAt maxDepth j

end Stateless.Json
