import Stateless.Path.Basic

/-!
# Compact paths

The fragment of a leaf or an extension is stored compactly: a first nibble tells leaves from
extensions and odd from even lengths, and the nibbles follow, two in a byte. An even fragment is
preceded by a zero nibble.
-/

namespace Stateless.Path

/-- The first nibble of a compact path. -/
def flag (isLeaf isOdd : Bool) : Nibble :=
  (if isLeaf then 2 else 0) + (if isOdd then 1 else 0)

/-- The compact form of a fragment. -/
def compact (p : Path) (isLeaf : Bool) : Bytes :=
  if p.length % 2 = 1 then Bytes.ofNibbles (flag isLeaf true :: p.toList)
  else Bytes.ofNibbles (flag isLeaf false :: 0 :: p.toList)

/-- Why bytes are no compact path. -/
inductive CompactError where
  /-- There is no first byte. -/
  | empty
  /-- The first nibble is above three, or the nibble after an even flag is not zero. -/
  | invalidFlags (flags : Nibble)
  /-- There are more than 64 nibbles after the flags. -/
  | tooLong (bytes : Bytes)
  deriving DecidableEq, Repr

/-- A number in binary, with at least two digits. -/
def binary (n : Nat) : String :=
  let digits := Nat.toDigits 2 n
  String.ofList ('0' :: 'b' :: (List.replicate (2 - digits.length) '0' ++ digits))

/-- The text of a refusal. -/
def CompactError.message : CompactError → String
  | empty => "Tried to convert an empty hex prefix byte string into `Nibbles`"
  | invalidFlags f =>
    "Tried to convert a hex prefix byte string into `Nibbles` with invalid flags at the start: "
      ++ binary f.val
  | tooLong b =>
    "Tried to convert a hex prefix byte string into `Nibbles` that was longer than 33 bytes: "
      ++ "(length: " ++ toString b.length ++ ", bytes: " ++ Hex.text b ++ ")"

theorem length_even_le {head : UInt8} {rest : Bytes} (h : ¬ 33 < (head :: rest).length) :
    (Bytes.nibbles rest).length ≤ maxNibbles := by
  simp only [List.length_cons] at h
  simp only [Bytes.length_nibbles, maxNibbles]
  omega

theorem length_odd_le {head : UInt8} {rest : Bytes} (d : Nibble)
    (h : ¬ 33 < (head :: rest).length) (hodd : ¬ rest.length = 32) :
    (d :: Bytes.nibbles rest).length ≤ maxNibbles := by
  simp only [List.length_cons] at h
  simp only [List.length_cons, Bytes.length_nibbles, maxNibbles]
  omega

/-- Reads a compact path and whether it is a leaf's. The length is checked first, then the flags,
then whether an odd path has room for its nibble. -/
def ofCompact (b : Bytes) : Except CompactError (Path × Bool) :=
  match b with
  | [] => .error .empty
  | head :: rest =>
    if hlong : 33 < (head :: rest).length then .error (.tooLong b)
    else
      let flags := Nibble.upper head
      if 3 < flags.val then .error (.invalidFlags flags)
      else
        let isLeaf := decide (2 ≤ flags.val)
        if flags.val % 2 = 0 then
          if Nibble.lower head ≠ 0 then .error (.invalidFlags flags)
          else .ok (⟨Bytes.nibbles rest, length_even_le hlong⟩, isLeaf)
        else if hodd : rest.length = 32 then .error (.tooLong b)
        else .ok (⟨Nibble.lower head :: Bytes.nibbles rest,
          length_odd_le (Nibble.lower head) hlong hodd⟩, isLeaf)

end Stateless.Path
