import Stateless.Hex

/-!
# Byte strings of one length

Words of 32 bytes serve as hashes, storage slots and storage values; addresses have 20 bytes.
They are ordered byte by byte.
-/

namespace Stateless

/-- A byte string of exactly `n` bytes. -/
structure FixedBytes (n : Nat) where
  /-- The bytes. -/
  toBytes : Bytes
  /-- There are as many as promised. -/
  length_eq : toBytes.length = n
  deriving DecidableEq

/-- A word of 32 bytes: a hash, a storage slot or a storage value. -/
abbrev Word := FixedBytes 32

/-- An account's address. -/
abbrev Address := FixedBytes 20

namespace FixedBytes

variable {n : Nat}

@[ext] theorem ext {a b : FixedBytes n} (h : a.toBytes = b.toBytes) : a = b := by
  cases a; cases b; simp_all

/-- The byte string as one of fixed length, if it has that length. -/
def ofBytes? (n : Nat) (b : Bytes) : Option (FixedBytes n) :=
  if h : b.length = n then some ⟨b, h⟩ else none

@[simp] theorem ofBytes?_toBytes (a : FixedBytes n) : ofBytes? n a.toBytes = some a := by
  simp [ofBytes?, a.length_eq]

/-- The last `n` base-256 digits of a number. -/
def ofNat (n m : Nat) : FixedBytes n := ⟨Bytes.ofNatWidth n m, Bytes.length_ofNatWidth n m⟩

/-- The number whose base-256 digits are the bytes. -/
def toNat (a : FixedBytes n) : Nat := Bytes.toNat a.toBytes

/-- All bytes zero. -/
def zero : FixedBytes n := ⟨List.replicate n 0, List.length_replicate⟩

/-- The byte string with zeroes in front, or its last `n` bytes if it is longer. -/
def padLeft (n : Nat) (b : Bytes) : FixedBytes n :=
  ⟨List.replicate (n - b.length) 0 ++ b.drop (b.length - n), by simp; omega⟩

/-- The byte string with zeroes after it, or its first `n` bytes if it is longer. -/
def padRight (n : Nat) (b : Bytes) : FixedBytes n :=
  ⟨b.take n ++ List.replicate (n - b.length) 0, by simp; omega⟩

@[simp] theorem padRight_toBytes (a : FixedBytes n) : padRight n a.toBytes = a := by
  apply ext
  simp [padRight, a.length_eq, List.take_of_length_le]

/-- Whether all bytes are zero. -/
def isZero (a : FixedBytes n) : Bool := a.toBytes.all (· == 0)

instance : Inhabited (FixedBytes n) := ⟨zero⟩

instance : Ord (FixedBytes n) := ⟨compareOn toBytes⟩

theorem compare_eq (a b : FixedBytes n) : compare a b = compare a.toBytes b.toBytes := rfl

instance : Std.TransOrd (FixedBytes n) := inferInstanceAs (Std.TransCmp (compareOn toBytes))

instance : Std.LawfulEqOrd (FixedBytes n) where
  compare_self {a} := Std.ReflCmp.compare_self (a := a.toBytes)
  eq_of_compare {a b} h := ext (Std.LawfulEqCmp.eq_of_compare
    (show compare a.toBytes b.toBytes = .eq from h))

/-- Words are ordered by their bytes. -/
instance wordTransOrd : Std.TransOrd Word := inferInstanceAs (Std.TransOrd (FixedBytes 32))

/-- Words that compare as equal are equal. -/
instance wordLawfulEqOrd : Std.LawfulEqOrd Word :=
  inferInstanceAs (Std.LawfulEqOrd (FixedBytes 32))

/-- Addresses are ordered by their bytes. -/
instance addressTransOrd : Std.TransOrd Address := inferInstanceAs (Std.TransOrd (FixedBytes 20))

/-- Addresses that compare as equal are equal. -/
instance addressLawfulEqOrd : Std.LawfulEqOrd Address :=
  inferInstanceAs (Std.LawfulEqOrd (FixedBytes 20))

/-- All digits, without a mark. -/
def hex (a : FixedBytes n) : String := Hex.text a.toBytes

/-- All digits after a `0x`. -/
def marked (a : FixedBytes n) : String := Hex.marked a.toBytes

end FixedBytes

end Stateless
