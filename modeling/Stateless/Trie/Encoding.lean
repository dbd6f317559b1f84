import Stateless.Keccak
import Stateless.Path.Compact
import Stateless.Rlp.Writer
import Stateless.Trie.Basic

/-!
# Encodings and hashes of tries

Every node is written as an RLP list. A node refers to a child by the child's encoding if that is
shorter than a hash, and by its hash otherwise. A remembered hash is used without looking at the
encoding. `Trie.memoize` remembers the hash of every node that is referred to by hash.
-/

namespace Stateless

variable [Hasher]

/-- How a node refers to a child. -/
inductive Reference where
  /-- By the child's whole encoding, which is shorter than a hash. -/
  | inline (encoding : Bytes)
  /-- By the hash of the child's encoding. -/
  | byHash (digest : Word)
  deriving DecidableEq

/-- The length of a hash; encodings of at least this length are referred to by hash. -/
def hashLength : Nat := 32

/-- The item that stands for a child in its parent. -/
def Reference.item : Reference → Bytes
  | inline e => e
  | byHash h => Rlp.data h.toBytes

/-- The hash that a reference stands for. -/
def Reference.hash : Reference → Word
  | inline e => digest e
  | byHash h => h

/-- The reference to a node of which the encoding, or else the hash, is known. -/
def Reference.ofContent : Except Word Bytes → Reference
  | .error h => byHash h
  | .ok e => if e.length < hashLength then inline e else byHash (digest e)

/-- The hash of the empty trie. -/
def emptyRoot : Word := digest Rlp.emptyData

/-- Whether a root stands for the empty trie; some nodes report the zero hash for it. -/
def isEmptyRoot (root : Word) : Bool := root.isZero || root = emptyRoot

namespace Trie

/-- The encoding of a leaf. -/
def leafEncoding (f : Path) (v : Bytes) : Bytes :=
  Rlp.list [Rlp.data (f.compact true), Rlp.data v]

/-- The encoding of an extension whose child is referred to by an item. -/
def extensionEncoding (f : Path) (item : Bytes) : Bytes :=
  Rlp.list [Rlp.data (f.compact false), item]

/-- The encoding of a branch whose children are referred to by items. -/
def branchEncoding (items : Nibble → Bytes) (v : Bytes) : Bytes :=
  Rlp.list (Children.toList items ++ [Rlp.data v])

/-- The encoding of the root node, or its hash if that is all there is. -/
def content : Trie → Except Word Bytes
  | .empty => .ok Rlp.emptyData
  | .hidden h => .error h
  | .leaf f v _ => .ok (leafEncoding f v)
  | .extension f c _ => .ok <| extensionEncoding f <|
      match c.memo with
      | some h => (Reference.byHash h).item
      | none => (Reference.ofContent (content c)).item
  | .branch cs v _ => .ok <| branchEncoding (fun i =>
      match (cs i).memo with
      | some h => (Reference.byHash h).item
      | none => (Reference.ofContent (content (cs i))).item) v

/-- How a parent refers to the trie. -/
def reference (t : Trie) : Reference :=
  match t.memo with
  | some h => .byHash h
  | none => .ofContent t.content

/-- The encoding of the root node, which a hidden root does not have. -/
def encoding? (t : Trie) : Option Bytes :=
  match t.content with
  | .ok e => some e
  | .error _ => none

/-- The root hash. -/
def rootHash (t : Trie) : Word := t.reference.hash

/-- The trie with the hash of its root remembered, if its encoding is not shorter than a hash. -/
def remember (t : Trie) : Trie :=
  match t.memo, t.content with
  | none, .ok e => if e.length < hashLength then t else t.withMemo (some (digest e))
  | _, _ => t

/-- The trie with all hashes remembered that its root hash depends on. What lies below a remembered
hash is left alone. -/
def memoize : Trie → Trie
  | .empty => .empty
  | .hidden h => .hidden h
  | .leaf f v m => remember (.leaf f v m)
  | .extension f c (some h) => .extension f c (some h)
  | .extension f c none => remember (.extension f (memoize c) none)
  | .branch cs v (some h) => .branch cs v (some h)
  | .branch cs v none =>
    let known := Children.tabulate fun i => memoize (cs i)
    remember (.branch known.get v none)

/-- The root hash, and the trie that remembers it. -/
def hash (t : Trie) : Word × Trie :=
  let known := t.memoize
  (known.rootHash, known)

end Trie

end Stateless
