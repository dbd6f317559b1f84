import Stateless.Json.Form
import Stateless.NodeSet.Basic
import Stateless.Quantity
import Stateless.Trie.Edit

/-!
# Shorthand

Forms in which values are written by hand. Words and addresses may leave out their leading zeroes,
keys may be given by what is hashed, entries by what they encode, and of a branch's children only
those that hold something are listed.
-/

namespace Stateless.Json

/-- A natural number. -/
def nat? : Json → Option Nat
  | int (.ofNat n) => some n
  | _ => none

/-- A truth value. -/
def bool? : Json → Option Bool
  | bool b => some b
  | _ => none

/-- A number of 256 bits in decimal digits. -/
def decimal? (j : Json) : Option Amount := do
  let n ← (← text? j).toNat?
  if n < twoPow 256 then some (.ofNat 256 n) else none

/-- A value in decimal digits. -/
def decimalText (n : Nat) : Json := string (toString n)

/-- Bytes of fixed length without leading zeroes. -/
def padded? (n : Nat) (j : Json) : Option (FixedBytes n) :=
  ((text? j).bind Quantity.readBytes?).map (FixedBytes.padLeft n)

/-- A word without leading zeroes. -/
def paddedWord? : Json → Option Word := padded? 32

/-- An address without leading zeroes. -/
def paddedAddress? : Json → Option Address := padded? 20

/-- A field that has to be there. -/
def required {α : Type} (read : Json → Option α) (j : Json) (name : String) : Option α :=
  (j.get? name).bind read

/-- A field that may be left out. -/
def optional {α : Type} (read : Json → Option α) (j : Json) (name : String) :
    Option (Option α) :=
  match j.get? name with
  | none => some none
  | some v => (read v).map some

/-- Pairs, each as an array of two items. -/
def pairsOf {α β : Type} (first : Json → Option α) (second : Json → Option β) :
    Json → Option (List (α × β)) :=
  listOf fun
    | array [a, b] => do return (← first a, ← second b)
    | _ => none

/-! ## Tries -/

/-- A trie with its occupied children only. -/
def outline : Trie → Json
  | .empty => string "empty"
  | .hidden h => object [("hash", fixed h)]
  | .leaf f v _ => object [("leaf", path f), ("value", hexBytes v)]
  | .extension f c _ => object [("ext", path f), ("child", outline c)]
  | .branch cs v _ =>
    let occupied := (List.finRange 16).filterMap fun i =>
      if (cs i).isEmpty then none else some (String.ofList [Hex.digit i], outline (cs i))
    object [("branch", object occupied), ("value", hexBytes v)]

/-- Reads an outline of at most `depth` nodes in depth. -/
def outlineAt : (depth : Nat) → Json → Option Trie
  | 0, _ => none
  | _, string "empty" => some .empty
  | depth + 1, j =>
    match j.get? "hash", j.get? "leaf", j.get? "ext", j.get? "branch" with
    | some h, _, _, _ => (paddedWord? h).map .hidden
    | _, some f, _, _ => do return .leaf (← path? f) (← required hexBytes? j "value") none
    | _, _, some f, _ => do
      return .extension (← path? f) (← required (outlineAt depth) j "child") none
    | _, _, _, some cs => do
      let child (i : Nibble) : Except Unit Trie :=
        match cs.get? (String.ofList [Hex.digit i]) with
        | none => .ok .empty
        | some c => (outlineAt depth c).elim (.error ()) .ok
      let children ← (Children.gather child).toOption
      return .branch children.get (← required hexBytes? j "value") none
    | _, _, _, _ => none

/-- Reads an outline. -/
def outline? (j : Json) : Option Trie := outlineAt 128 j

variable [Hasher]

/-- Reads a key of full length: a word without leading zeroes, or an address or a slot that is
hashed, or a hash. -/
def wordKey? : Json → Option Word
  | object [("addr", a)] => (paddedAddress? a).map hashedAddress
  | object [("slot", s)] => (paddedWord? s).map hashedSlot
  | object [("h256", h)] => paddedWord? h
  | j => paddedWord? j

/-- Reads a key: nibbles, or what a key of full length is made of. -/
def key? : Json → Option Path
  | string s => readPath? s
  | j => (wordKey? j).map .ofWord

/-- Reads an account of which all fields may be left out. -/
def partialAccount? (j : Json) : Option Account := do
  let nonce := (← optional uint64? j "nonce").getD 0
  let balance := (← optional decimal? j "balance").getD 0
  let a := Account.new nonce balance
  let codeHash := match ← optional hexBytes? j "code" with
    | some code => (a.withCode code).codeHash
    | none => a.codeHash
  return { a with
    storageRoot := (← optional paddedWord? j "storageRoot").getD a.storageRoot
    codeHash := (← optional paddedWord? j "codeHash").getD codeHash }

/-- Reads what is to be put into a trie. -/
def entry? : Json → Option Entry
  | string s => (Hex.unmarked? s).map .value
  | object [("hash", h)] => (paddedWord? h).map .hidden
  | object [("u256", n)] => (decimal? n).map fun n => .value (Rlp.number n.toNat)
  | object [("account", a)] => (partialAccount? a).map fun a => .value a.encode
  | object [("word", w)] => (paddedWord? w).map fun w => .value (encodeStorage w)
  | _ => none

/-- Reads a trie's owner, a storage trie by its account's address or by the hash of that. -/
def ownerOf? : Json → Option TrieOwner
  | string "account" => some .account
  | object [("storage", a)] => (paddedAddress? a).map fun a => .storage (hashedAddress a)
  | object [("hash", h)] => (paddedWord? h).map .storage
  | _ => none

end Stateless.Json
