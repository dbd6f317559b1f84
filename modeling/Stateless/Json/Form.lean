import Stateless.Account.Basic
import Stateless.Json.Value
import Stateless.Path.Text

/-!
# The JSON forms of simple values

Records are read from objects, where unknown fields are ignored and a repeated field is refused, or
from arrays with the fields in their order. Of a map's entries with one key the last counts.
-/

namespace Stateless.Json

/-! ## Records and lists -/

/-- The values of a record's fields; a field that is not there has none. -/
def fields? (names : List String) : Json → Option (List (Option Json))
  | object entries =>
    let known := entries.filter fun e => names.contains e.1
    if (known.map (·.1)).Nodup then
      some (names.map fun n => (known.find? fun e => e.1 = n).map (·.2))
    else none
  | array items =>
    if items.length ≤ names.length then
      some (items.map some ++ List.replicate (names.length - items.length) none)
    else none
  | _ => none

/-- The items of an array, each read in the same way. -/
def listOf {α : Type} (read : Json → Option α) : Json → Option (List α)
  | array items => items.mapM read
  | _ => none

/-- The entries of an object, each read in the same way. -/
def entriesOf {κ α : Type} (readKey : String → Option κ) (read : Json → Option α) :
    Json → Option (List (κ × α))
  | object entries => entries.mapM fun e => do return (← readKey e.1, ← read e.2)
  | _ => none

/-- The text of a value, if it is one. -/
def text? : Json → Option String
  | string s => some s
  | _ => none

/-- A natural number below a bound. -/
def natBelow? (bound : Nat) : Json → Option Nat
  | int (.ofNat n) => if n < bound then some n else none
  | _ => none

/-! ## Simple values -/

/-- A number of 64 bits. -/
def uint64? (j : Json) : Option UInt64 := (natBelow? (twoPow 64) j).map UInt64.ofNat

/-- Bytes as a list of numbers. -/
def numbers (b : Bytes) : Json := array (b.map fun d => nat d.toNat)

/-- Reads bytes from a list of numbers. -/
def numbers? (j : Json) : Option Bytes :=
  (listOf (natBelow? 256) j).map fun ns => ns.map UInt8.ofNat

/-- Bytes as digits after a `0x`. -/
def hexBytes (b : Bytes) : Json := string (Hex.marked b)

/-- Reads bytes from digits, with or without a `0x`. -/
def hexBytes? (j : Json) : Option Bytes := (text? j).bind Hex.unmarked?

/-- Reads a byte string of fixed length from a text that has the length of its digits, with or
without a `0x`. Blanks may stand among the digits; what they take the place of is zero at the end. -/
def readFixed? (n : Nat) (s : String) : Option (FixedBytes n) :=
  let cs := Hex.afterMark s.toList
  if cs.length = 2 * n then (Hex.decodeSpaced cs).map (FixedBytes.padRight n) else none

theorem readFixed?_marked {n : Nat} (a : FixedBytes n) : readFixed? n a.marked = some a := by
  have h : Hex.afterMark a.marked.toList = Hex.encode a.toBytes := by
    simp [FixedBytes.marked, Hex.marked, Hex.afterMark]
  simp [readFixed?, h, Hex.length_encode, a.length_eq, Hex.decodeSpaced_encode]

/-- A word, an address or any byte string of fixed length. -/
def fixed {n : Nat} (a : FixedBytes n) : Json := string a.marked

/-- Reads a byte string of fixed length. -/
def fixed? (n : Nat) (j : Json) : Option (FixedBytes n) := (text? j).bind (readFixed? n)

/-- Reads a word. -/
def word? : Json → Option Word := fixed? 32

/-- Reads an address. -/
def address? : Json → Option Address := fixed? 20

/-- A number of 256 bits, in its shortest digits. -/
def amount (n : Amount) : Json := string (Hex.quantity n.toNat)

/-- Reads a number of 256 bits from 1 to 64 digits and blanks, with or without a `0x`. -/
def amount? (j : Json) : Option Amount := do
  let cs := Hex.afterMark (← text? j).toList
  if cs.isEmpty || 64 < cs.length then none
  else return .ofNat 256 (Bytes.toNat (← Hex.decodeSpaced cs))

/-- A path. -/
def path (p : Path) : Json := string p.toText

/-- Reads a path from a text. -/
def readPath? (s : String) : Option Path := (Path.parse s).toOption

/-- Reads a path. -/
def path? (j : Json) : Option Path := (text? j).bind readPath?

end Stateless.Json
