/-!
# Byte strings

Byte strings are lists of bytes. This module reads them as big-endian numbers and cuts them into
nibbles. The main statements are `toNat_ofNatWidth`, that the fixed-width digits of a number read
back as the number, and `ofNibbles_nibbles`, that cutting into nibbles loses nothing.
-/

namespace Stateless

/-- A byte string. -/
abbrev Bytes := List UInt8

/-- Half a byte, one hexadecimal digit. -/
abbrev Nibble := Fin 16

/-- Byte strings are ordered byte by byte. -/
instance Bytes.transOrd : Std.TransOrd Bytes := inferInstanceAs (Std.TransOrd (List UInt8))

/-- Byte strings that compare as equal are equal. -/
instance Bytes.lawfulEqOrd : Std.LawfulEqOrd Bytes :=
  inferInstanceAs (Std.LawfulEqOrd (List UInt8))

/-- How many numbers have at most `n` binary digits. -/
def twoPow (n : Nat) : Nat := Nat.pow 2 n

namespace Nibble

/-- There are nibbles, so numerals stand for them. -/
instance neZero : @NeZero Nat Zero.ofOfNat0 16 := ⟨Nat.succ_ne_zero 15⟩

/-- The byte with the given upper and lower half. -/
def pack (upper lower : Nibble) : UInt8 := UInt8.ofNat (16 * upper.val + lower.val)

/-- The upper half of a byte. -/
def upper (b : UInt8) : Nibble := ⟨b.toNat / 16, by have := b.toNat_lt; omega⟩

/-- The lower half of a byte. -/
def lower (b : UInt8) : Nibble := ⟨b.toNat % 16, by omega⟩

theorem pack_upper_lower (b : UInt8) : pack (upper b) (lower b) = b := by
  have h : 16 * (b.toNat / 16) + b.toNat % 16 = b.toNat := by omega
  simp [pack, upper, lower, h]

theorem upper_pack (u l : Nibble) : upper (pack u l) = u := by
  apply Fin.ext
  simp only [upper, pack, UInt8.toNat_ofNat']
  omega

theorem lower_pack (u l : Nibble) : lower (pack u l) = l := by
  apply Fin.ext
  simp only [lower, pack, UInt8.toNat_ofNat']
  omega

end Nibble

namespace Bytes

/-- The number whose base-256 digits, most significant first, are the bytes. -/
def toNat (b : Bytes) : Nat := b.foldl (fun n d => 256 * n + d.toNat) 0

/-- The last `width` base-256 digits of a number, most significant first. -/
def ofNatWidth : Nat → Nat → Bytes
  | 0, _ => []
  | width + 1, n => ofNatWidth width (n / 256) ++ [UInt8.ofNat n]

/-- How many base-256 digits a number has; zero has none. -/
def digitCount (n : Nat) : Nat := if n = 0 then 0 else Nat.log2 n / 8 + 1

/-- The base-256 digits of a number, most significant first, without leading zeroes. -/
def ofNat (n : Nat) : Bytes := ofNatWidth (digitCount n) n

/-- The bytes after the leading zeroes. -/
def trim (b : Bytes) : Bytes := b.dropWhile (· == 0)

/-- The two nibbles of every byte, upper half first. -/
def nibbles : Bytes → List Nibble
  | [] => []
  | b :: bs => Nibble.upper b :: Nibble.lower b :: nibbles bs

/-- The bytes made of consecutive pairs of nibbles; a last unpaired nibble is dropped. -/
def ofNibbles : List Nibble → Bytes
  | u :: l :: rest => Nibble.pack u l :: ofNibbles rest
  | _ => []

@[simp] theorem length_ofNatWidth (w n : Nat) : (ofNatWidth w n).length = w := by
  induction w generalizing n with
  | zero => rfl
  | succ w ih => simp [ofNatWidth, ih]

@[simp] theorem toNat_append_singleton (b : Bytes) (d : UInt8) :
    toNat (b ++ [d]) = 256 * toNat b + d.toNat := by
  simp [toNat]

theorem toNat_ofNatWidth (w n : Nat) : toNat (ofNatWidth w n) = n % Nat.pow 256 w := by
  induction w generalizing n with
  | zero => simp [ofNatWidth, toNat, Nat.mod_one]
  | succ w ih =>
    have h : n % Nat.pow 256 (w + 1) = n % 256 + 256 * (n / 256 % Nat.pow 256 w) := by
      rw [Nat.pow_eq, Nat.pow_eq, Nat.pow_succ', Nat.mod_mul]
    simp only [ofNatWidth, toNat_append_singleton, ih, UInt8.toNat_ofNat', h]
    omega

@[simp] theorem length_nibbles (b : Bytes) : (nibbles b).length = 2 * b.length := by
  induction b with
  | nil => rfl
  | cons d r ih => simp only [nibbles, List.length_cons, ih]; omega

@[simp] theorem ofNibbles_nibbles (b : Bytes) : ofNibbles (nibbles b) = b := by
  induction b with
  | nil => rfl
  | cons d r ih => simp [nibbles, ofNibbles, ih, Nibble.pack_upper_lower]

theorem length_ofNibbles (l : List Nibble) : (ofNibbles l).length = l.length / 2 := by
  fun_induction ofNibbles l with
  | case1 u l rest ih => simp only [List.length_cons, ih]; omega
  | case2 l h =>
    match l, h with
    | [], _ => simp
    | [_], _ => simp
    | u :: v :: r, h => exact absurd rfl (h u v r)

end Bytes

end Stateless
