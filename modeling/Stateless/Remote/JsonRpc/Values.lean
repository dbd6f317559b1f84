import Stateless.Json.Form
import Stateless.Quantity

/-!
# Values in the replies of a node

Nodes differ in how they write numbers and bytes, so both are read in several forms: numbers in any
of the common bases, bytes as digits or as lists of numbers.
-/

namespace Stateless.JsonRpc

/-! ## Numbers -/

/-- The value of a digit in a base. -/
def digitIn (base : Nat) (c : Char) : Option Nat :=
  (Hex.digit? c).bind fun d => if d.val < base then some d.val else none

/-- The base that a text of digits is written in, and the digits. -/
def baseOf : List Char → Nat × List Char
  | '0' :: c :: rest =>
    if c = 'x' ∨ c = 'X' then (16, rest)
    else if c = 'o' ∨ c = 'O' then (8, rest)
    else if c = 'b' ∨ c = 'B' then (2, rest)
    else (10, '0' :: c :: rest)
  | cs => (10, cs)

/-- A number below a bound, as a number of 64 bits or as digits after the mark of their base.
Underscores among the digits count for nothing. -/
def number? (bound : Nat) : Json → Option Nat
  | .int (.ofNat n) => if n < bound ∧ n < twoPow 64 then some n else none
  | .string s => do
    let (base, cs) := baseOf s.toList
    let ds ← (cs.filter (· ≠ '_')).mapM (digitIn base)
    let n := ds.foldl (fun n d => base * n + d) 0
    if n < bound then some n else none
  | _ => none

/-- A number of 64 bits. -/
def uint64? (j : Json) : Option UInt64 := (number? (twoPow 64) j).map UInt64.ofNat

/-- A number of 256 bits as a quantity. -/
def quantity? (j : Json) : Option Quantity := (number? (twoPow 256) j).map Quantity.ofNat

/-- A slot, which is written as a number. -/
def slot? (j : Json) : Option Word := (number? (twoPow 256) j).map (FixedBytes.ofNat 32)

/-! ## Bytes -/

/-- The digits after a `0x` or a `0X` in front, or the whole text if there is neither. -/
def afterEitherMark : List Char → List Char
  | '0' :: 'X' :: rest => rest
  | cs => Hex.afterMark cs

/-- Bytes as digits. -/
def hexBytes? (j : Json) : Option Bytes :=
  (Json.text? j).bind fun s => Hex.decode (afterEitherMark s.toList)

/-- Bytes, as digits or as a list of numbers. -/
def bytes? (j : Json) : Option Bytes := (hexBytes? j).orElse fun _ => Json.numbers? j

/-- Where bytes of fixed length stand. It decides what may follow them in a list of numbers. -/
inductive Place where
  /-- In a record that is read as a whole before its fields are. -/
  | whole
  /-- In a record that is read field by field. -/
  | stepwise

/-- Whether a value has items of its own. -/
def hasItems : Json → Bool
  | .array _ | .object _ => true
  | _ => false

/-- Whether a list may go on like this after its bytes. It ends there, or with one more item that
is no byte; in a record that is read field by field this one has no items. -/
def mayFollow (place : Place) : List Json → Bool
  | [] => true
  | [j] => (Json.natBelow? 256 j).isNone &&
    match place with
    | .whole => true
    | .stepwise => !hasItems j
  | _ => false

/-- Bytes of fixed length, as digits or as a list of numbers. -/
def fixed? (place : Place) (n : Nat) : Json → Option (FixedBytes n)
  | .array items =>
    if mayFollow place (items.drop n) then
      (Json.numbers? (.array (items.take n))).bind (FixedBytes.ofBytes? n)
    else none
  | j => (hexBytes? j).bind (FixedBytes.ofBytes? n)

/-- Bytes of fixed length that are written as digits are read back, wherever they stand. -/
theorem fixed?_fixed (place : Place) {n : Nat} (a : FixedBytes n) :
    fixed? place n (Json.fixed a) = some a := by
  have h : afterEitherMark (Hex.marked a.toBytes).toList = Hex.encode a.toBytes := by
    simp [Hex.marked, afterEitherMark, Hex.afterMark]
  simp [fixed?, Json.fixed, FixedBytes.marked, hexBytes?, Json.text?, h, Hex.decode_encode]

end Stateless.JsonRpc
