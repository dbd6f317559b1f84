import Stateless.Account.Basic

/-!
# Quantities

A natural number of any width as remote nodes write it: hexadecimal digits after a `0x`, read with
any number of leading zeroes and with or without the mark. A number that does not fit in the type
where it is used is noticed only there.
-/

namespace Stateless

/-- A natural number, by its base-256 digits without leading zeroes. -/
structure Quantity where
  /-- The digits, most significant first. -/
  digits : Bytes
  /-- The first digit is not zero. -/
  head_ne_zero : digits.head? ≠ some 0
  deriving DecidableEq

namespace Quantity

/-- The number that some base-256 digits stand for. -/
def ofBytes (b : Bytes) : Quantity where
  digits := Bytes.trim b
  head_ne_zero := by
    intro h
    have := List.head?_dropWhile_not (fun d : UInt8 => d == 0) b
    rw [Bytes.trim] at h
    simp [h] at this

/-- The quantity of a number. -/
def ofNat (n : Nat) : Quantity := ofBytes (Bytes.ofNat n)

instance : Inhabited Quantity := ⟨ofBytes []⟩

/-- Zero. -/
def zero : Quantity := ofBytes []

/-- The number. -/
def toNat (q : Quantity) : Nat := Bytes.toNat q.digits

/-- The number in 64 bits, if it fits. -/
def toUInt64? (q : Quantity) : Option UInt64 :=
  if q.digits.length ≤ 8 then some (UInt64.ofNat q.toNat) else none

/-- The number in 256 bits, if it fits. -/
def toAmount? (q : Quantity) : Option Amount :=
  if q.digits.length ≤ 32 then some (.ofNat 256 q.toNat) else none

/-- The number as a word, if it fits. -/
def toWord? (q : Quantity) : Option Word :=
  if q.digits.length ≤ 32 then some (FixedBytes.padLeft 32 q.digits) else none

/-- The digits without leading zeroes after a `0x`; zero is `0x0`. -/
def text (q : Quantity) : String :=
  match (Hex.encode q.digits).dropWhile (· == '0') with
  | [] => "0x0"
  | digits => String.ofList ('0' :: 'x' :: digits)

/-- The bytes of any number of digits, with or without a `0x`. -/
def readBytes? (s : String) : Option Bytes :=
  let digits := Hex.afterMark s.toList
  Hex.decode (if digits.length % 2 = 1 then '0' :: digits else digits)

/-- Reads a quantity. -/
def parse? (s : String) : Option Quantity := (readBytes? s).map ofBytes

/-- Reads a word that may be written without its leading zeroes. -/
def parseWord? (s : String) : Option Word := (parse? s).bind toWord?

end Quantity

end Stateless
