import Stateless.Path.Basic
import Stateless.Trie.Children

/-!
# Partial tries

A Merkle-Patricia trie of which some parts may be known by their hash only. A trie remembers hashes
that were computed for its nodes; these memos are no part of what the trie holds, so `Trie.same`
compares tries without them.
-/

namespace Stateless

/-- A trie of values under paths. Leaves, extensions and branches carry a memo of their hash. -/
inductive Trie where
  /-- Nothing is stored here. -/
  | empty
  /-- A part that is known by its hash only. -/
  | hidden (digest : Word)
  /-- The rest of a key and its value. -/
  | leaf (fragment : Path) (value : Bytes) (memo : Option Word)
  /-- A run of nibbles that all keys below share. -/
  | extension (fragment : Path) (child : Trie) (memo : Option Word)
  /-- One child for each next nibble, and the value of the key that ends here, empty if none. -/
  | branch (children : Nibble → Trie) (value : Bytes) (memo : Option Word)

namespace Trie

instance : Inhabited Trie := ⟨empty⟩

/-- The five kinds of tries. -/
inductive Kind where
  | empty
  | hidden
  | branch
  | extension
  | leaf
  deriving DecidableEq, Repr

/-- The name of a kind. -/
def Kind.text : Kind → String
  | empty => "Empty"
  | hidden => "Hash"
  | branch => "Branch"
  | extension => "Extension"
  | leaf => "Leaf"

/-- The kind of the root. -/
def kind : Trie → Kind
  | .empty => .empty
  | .hidden _ => .hidden
  | .leaf .. => .leaf
  | .extension .. => .extension
  | .branch .. => .branch

/-- Whether the root is a leaf or an extension. -/
def isShort (t : Trie) : Bool := t.kind = .leaf || t.kind = .extension

/-- Whether nothing is stored. -/
def isEmpty (t : Trie) : Bool := t.kind = .empty

/-- The remembered hash of the root. -/
def memo : Trie → Option Word
  | .empty | .hidden _ => none
  | .leaf _ _ m | .extension _ _ m | .branch _ _ m => m

/-- The trie with another memo at its root. -/
def withMemo (m : Option Word) : Trie → Trie
  | .empty => .empty
  | .hidden h => .hidden h
  | .leaf f v _ => .leaf f v m
  | .extension f c _ => .extension f c m
  | .branch cs v _ => .branch cs v m

/-- The trie without the memo of its root. -/
def forgetRoot (t : Trie) : Trie := t.withMemo none

/-- The trie without any memo. -/
def forget : Trie → Trie
  | .empty => .empty
  | .hidden h => .hidden h
  | .leaf f v _ => .leaf f v none
  | .extension f c _ => .extension f (forget c) none
  | .branch cs v _ => .branch (Children.tabulate fun i => forget (cs i)).get v none

/-- Whether two tries have the same nodes, whatever their memos. -/
def same : Trie → Trie → Bool
  | .empty, .empty => true
  | .hidden h, .hidden h' => h = h'
  | .leaf f v _, .leaf f' v' _ => f = f' && v = v'
  | .extension f c _, .extension f' c' _ => f = f' && same c c'
  | .branch cs v _, .branch cs' v' _ =>
    v = v' && (List.finRange 16).all fun i => same (cs i) (cs' i)
  | _, _ => false

/-- A branch without memo. -/
def fork (children : Row Trie) (value : Bytes) : Trie := .branch children.get value none

/-- Children of which none holds anything. -/
def noChildren : Nibble → Trie := fun _ => .empty

/-- The trie with one child of its root branch replaced; at any other root only the memo is lost. -/
def setChild (t : Trie) (i : Nibble) (child : Trie) : Trie :=
  match t with
  | .branch cs v _ => fork (Children.set cs i child) v
  | t => t.forgetRoot

/-- The trie with another fragment at its root leaf or extension; at any other root only the memo is
lost. -/
def setFragment (t : Trie) (f : Path) : Trie :=
  match t with
  | .leaf _ v _ => .leaf f v none
  | .extension _ c _ => .extension f c none
  | t => t.forgetRoot

/-- Changes the root in place: the child of that number is replaced at a branch, and at a leaf or an
extension the number becomes the only nibble of the fragment. Tells whether there was something to
change. The memo of the root is lost even if the number is no nibble, which is a fault. -/
def alterRoot (t : Trie) (i : Nat) (child : Trie) : Except Fault Bool × Trie :=
  match t.kind with
  | .branch =>
    if h : i < 16 then (.ok true, t.setChild ⟨i, h⟩ child) else (.error (.noChild i), t.forgetRoot)
  | .leaf | .extension =>
    match Path.empty.push i with
    | .ok f => (.ok true, t.setFragment f)
    | .error e => (.error e, t.forgetRoot)
  | .empty | .hidden => (.ok false, t)

end Trie

end Stateless
