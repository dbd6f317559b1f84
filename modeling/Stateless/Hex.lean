import Stateless.Bytes

/-!
# Hexadecimal text

Lower-case digits are written, either case is read. The main statements are `decode_encode` and
`decodeSpaced_encode`: the digits of a byte string read back as the byte string, by the reader that
refuses everything else and by the one that lets blanks stand among them.
-/

namespace Stateless.Hex

/-- The lower-case digit of a nibble. -/
def digit (d : Nibble) : Char :=
  Char.ofNat (if d.val < 10 then '0'.toNat + d.val else 'a'.toNat + (d.val - 10))

/-- The nibble that a digit of either case stands for. -/
def digit? (c : Char) : Option Nibble :=
  if '0' ≤ c ∧ c ≤ '9' then some (Fin.ofNat 16 (c.toNat - '0'.toNat))
  else if 'a' ≤ c ∧ c ≤ 'f' then some (Fin.ofNat 16 (c.toNat - 'a'.toNat + 10))
  else if 'A' ≤ c ∧ c ≤ 'F' then some (Fin.ofNat 16 (c.toNat - 'A'.toNat + 10))
  else none

theorem digit?_digit (d : Nibble) : digit? (digit d) = some d := by
  revert d; decide

/-- The nibbles that a text of digits stands for; `none` if a character is no digit. -/
def digits? (cs : List Char) : Option (List Nibble) := cs.mapM digit?

theorem digits?_map_digit (ds : List Nibble) : digits? (ds.map digit) = some ds := by
  induction ds with
  | nil => rfl
  | cons d ds ih =>
    have h : (ds.map digit).mapM digit? = some ds := ih
    simp [digits?, digit?_digit, h]

/-- The two digits of every byte. -/
def encode (b : Bytes) : List Char := (Bytes.nibbles b).map digit

/-- The bytes that a text of digits stands for; `none` if a character is no digit or the number of
digits is odd. -/
def decode (cs : List Char) : Option Bytes :=
  if cs.length % 2 = 0 then (digits? cs).map Bytes.ofNibbles else none

theorem decode_encode (b : Bytes) : decode (encode b) = some b := by
  simp [decode, encode, digits?_map_digit]

/-- Whether a character may stand among digits without counting as one. -/
def isBlank (c : Char) : Bool := c = ' ' || c = '\t' || c = '\n' || c = '\r'

/-- The bytes of digits among which blanks may stand. The digits are taken in pairs. If the text has
an odd length, blanks included, the first digit makes a byte of its own; a digit that is left over
at the end is dropped. -/
def decodeSpaced (cs : List Char) : Option Bytes :=
  (digits? (cs.filter fun c => !isBlank c)).map fun ds =>
    Bytes.ofNibbles (if cs.length % 2 = 0 then ds else 0 :: ds)

theorem isBlank_digit (d : Nibble) : isBlank (digit d) = false := by
  revert d; decide

theorem decodeSpaced_encode (b : Bytes) : decodeSpaced (encode b) = some b := by
  have h : (encode b).filter (fun c => !isBlank c) = encode b := by
    rw [List.filter_eq_self]
    intro c hc
    obtain ⟨d, -, rfl⟩ := List.mem_map.1 hc
    simp [isBlank_digit]
  rw [decodeSpaced, h, encode, digits?_map_digit]
  simp

theorem length_encode (b : Bytes) : (encode b).length = 2 * b.length := by
  simp [encode]

/-- The text after a `0x` in front, or the whole text if there is none. -/
def afterMark : List Char → List Char
  | '0' :: 'x' :: rest => rest
  | cs => cs

/-- The digits of a byte string as text. -/
def text (b : Bytes) : String := String.ofList (encode b)

/-- The digits of a byte string after a `0x`. -/
def marked (b : Bytes) : String := String.ofList ('0' :: 'x' :: encode b)

/-- The bytes of a marked or unmarked text of digits. -/
def unmarked? (s : String) : Option Bytes := decode (afterMark s.toList)

theorem unmarked?_marked (b : Bytes) : unmarked? (marked b) = some b := by
  simp [unmarked?, marked, afterMark, decode_encode]

/-- The shortest digits of a number after a `0x`; zero is `0x0`. -/
def quantity (n : Nat) : String := "0x" ++ String.ofList (Nat.toDigits 16 n)

end Stateless.Hex
