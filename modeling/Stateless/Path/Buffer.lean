import Stateless.Path.Cells
import Stateless.Path.Compact
import Stateless.Path.Text

/-!
# Paths in cells

How a path is kept: a count, and cells that hold the nibbles in front and zeroes behind them. Every
operation on paths is carried out on the cells, which are read and written in place, and its checks
are made in its own order. Two buffers are equal if all their cells are, so nothing may be left
behind the nibbles.
-/

namespace Stateless

/-- A nibble as a byte. -/
def Nibble.byte (d : Nibble) : UInt8 := UInt8.ofNat d.val

namespace Path

/-- A path in cells. -/
structure Buffer where
  /-- How many cells hold nibbles of the path. -/
  count : Nat
  /-- The nibbles, and what is behind them. -/
  cells : Cells
  deriving DecidableEq

namespace Buffer

/-! ## Looking at buffers -/

/-- The nibbles of the path. -/
def nibbles (p : Buffer) : Except Fault (List UInt8) := p.cells.read 0 p.count

/-- The number of nibbles. -/
def length (p : Buffer) : Nat := p.count

/-- Whether there are no nibbles. -/
def isEmpty (p : Buffer) : Bool := p.count == 0

/-- The nibble at a position. -/
def get (p : Buffer) (i : Nat) : Except Fault UInt8 :=
  if i < p.count then p.cells.get i else .error (.noNibble i p.count)

/-- How two paths compare, nibble by nibble. -/
def order (p q : Buffer) : Except Fault Ordering := do
  return compare (← p.nibbles) (← q.nibbles)

/-- Whether another path is a front part of this one. -/
def startsWith (p front : Buffer) : Except Fault Bool :=
  if front.count ≤ p.count then do
    return (← p.cells.read 0 front.count) == (← front.cells.read 0 front.count)
  else .ok false

/-- The position at which two paths first differ, or the length of the shorter one. -/
def difference (p q : Buffer) : Except Fault Nat := do
  let pairs := (← p.nibbles).zip (← q.nibbles)
  return (pairs.findIdx? fun (a, b) => a != b).getD (min p.count q.count)

/-! ## Growing and shrinking -/

/-- The path without nibbles. -/
def empty : Buffer := ⟨0, .zero⟩

/-- Adds a last nibble. -/
def push (p : Buffer) (n : UInt8) : Except Fault Buffer :=
  if p.count < maxNibbles then
    if n < 16 then do return ⟨p.count + 1, ← p.cells.set p.count n⟩
    else .error .nibbleTooLarge
  else .error .pathTooLong

/-- Adds the two nibbles of a byte, upper half first. -/
def pushHalves (p : Buffer) (b : UInt8) : Except Fault Buffer := do
  (← p.push (b >>> 4)).push (b &&& 15)

/-- The path of a list of numbers. -/
def ofNumbers (ns : List UInt8) : Except Fault Buffer := ns.foldlM push empty

/-- The path of a single nibble. -/
def single (n : UInt8) : Except Fault Buffer := empty.push n

/-- Takes the first nibbles off: the others move to the front, and the cells that they leave are
made zero. -/
def drop (p : Buffer) (n : Nat) : Except Fault Buffer := do
  let n := min n p.count
  let cells ← p.cells.move n p.count 0
  return ⟨p.count - n, ← cells.clear (p.count - n) p.count⟩

/-- Takes the last nibbles off. -/
def dropLast (p : Buffer) (n : Nat) : Except Fault Buffer := do
  let n := min n p.count
  return ⟨p.count - n, ← p.cells.clear (p.count - n) p.count⟩

/-- Takes the first nibble off. -/
def pop (p : Buffer) : Except Fault (UInt8 × Buffer) := do
  let n ← p.get 0
  return (n, ← p.drop 1)

/-- The nibbles from one position up to another. -/
def range (p : Buffer) (start stop : Nat) : Except Fault Buffer := do
  ofNumbers (← slice (← p.nibbles) start stop)

/-- The nibbles before a position. -/
def before (p : Buffer) (i : Nat) : Except Fault Buffer := p.range 0 i

/-- The nibbles from a position on. -/
def after (p : Buffer) (i : Nat) : Except Fault Buffer := p.range i p.count

/-- The nibbles before a position and those from it on. -/
def split (p : Buffer) (i : Nat) : Except Fault (Buffer × Buffer) := do
  return (← p.before i, ← p.after i)

/-- One path followed by another. -/
def append (p q : Buffer) : Except Fault Buffer :=
  if p.count + q.count ≤ maxNibbles then do
    return ⟨p.count + q.count, ← p.cells.copy p.count (p.count + q.count) (← q.nibbles)⟩
  else .error .pathTooLong

/-! ## Bytes and words -/

/-- Writes the two nibbles of a byte behind the nibbles, upper half first. -/
def writeHalves (p : Buffer) (b : UInt8) : Except Fault Buffer := do
  let cells ← p.cells.set p.count (b >>> 4)
  return ⟨p.count + 2, ← cells.set (p.count + 1) (b &&& 15)⟩

/-- The nibbles of bytes, which must not be too many. -/
def ofHalves (b : Bytes) : Except Fault Buffer := b.foldlM writeHalves empty

/-- The 64 nibbles of a word. -/
def ofWord (w : Word) : Except Fault Buffer := ofHalves w.toBytes

/-- The nibbles of 1 to 32 bytes. -/
def ofBytes (b : Bytes) : Attempt BytesError Buffer :=
  if b.length = 0 then .error (.error .noBytes)
  else if maxNibbles / 2 < b.length then .error (.error (.tooManyBytes b.length))
  else .ofFault (ofHalves b)

/-- Bytes of consecutive pairs of nibbles; the last nibble must not be alone. -/
def joinHalves : List UInt8 → Except Fault Bytes
  | [] => .ok []
  | [_] => .error .sliceOutOfRange
  | u :: l :: rest => do return (u <<< 4 ||| l) :: (← joinHalves rest)

/-- The number of bytes that the nibbles take. -/
def byteLength (p : Buffer) : Nat := (p.count + 1) / 2

/-- The nibbles as bytes, with a zero nibble in front if their number is odd. -/
def toBytes (p : Buffer) : Except Fault Bytes := do
  joinHalves ((if p.count % 2 = 1 then [0] else []) ++ (← p.nibbles))

/-- The word of a path of 64 nibbles. -/
def toWord? (p : Buffer) : Except Fault (Option Word) :=
  if p.count = maxNibbles then do
    match FixedBytes.ofBytes? 32 (← p.toBytes) with
    | some w => .ok (some w)
    | none => .error .sliceOutOfRange
  else .ok none

/-! ## Texts -/

/-- Adds the nibble of a digit. -/
def pushDigit (p : Buffer) (c : Char) : Attempt TextError Buffer :=
  match Hex.digit? c with
  | some d => .ofFault (p.push d.byte)
  | none => .error (.error (.badCharacter c))

/-- Reads a path. The length is checked before the characters. -/
def parse (s : String) : Attempt TextError Buffer :=
  let digits := Hex.afterMark s.toList
  if maxNibbles < utf8Length digits then .error (.error (.tooLong (utf8Length digits)))
  else digits.foldlM pushDigit empty

/-- The text of a path. -/
def toText (p : Buffer) : Except Fault String := do
  return String.ofList ('0' :: 'x' :: (← p.nibbles).flatMap fun n => Nat.toDigits 16 n.toNat)

/-- The text of a path with its length beside it. -/
def describe (p : Buffer) : Except Fault String := do
  return "Nibbles \x7b count: " ++ toString p.count ++ ", nibbles: \"" ++ (← p.toText) ++ "\" \x7d"

/-! ## Compact paths -/

/-- The upper half of the first byte of a compact path. -/
def flags (isLeaf isOdd : Bool) : UInt8 := (isOdd.toUInt8 ||| isLeaf.toUInt8 <<< 1) <<< 4

/-- The compact form of a fragment. The first nibble of an odd one shares a byte with the flags. -/
def compact (p : Buffer) (isLeaf : Bool) : Except Fault Bytes :=
  if p.count % 2 = 1 then do
    let first ← p.cells.get 0
    let rest ← slice (← p.nibbles) 1 p.count
    return (flags isLeaf true ||| first) :: (← joinHalves rest)
  else do return flags isLeaf false :: (← joinHalves (← p.nibbles))

/-- The nibbles of a compact path behind its flags. That of an odd one which shares a byte with the
flags comes first. -/
def behindFlags (isOdd : Bool) (head : UInt8) (rest : Bytes) : Except Fault Buffer := do
  let start ← if isOdd then empty.push (head &&& 15) else .ok empty
  rest.foldlM pushHalves start

/-- Reads a compact path and whether it is a leaf's. The length is checked first, then the flags,
then whether an odd path has room for its nibble. -/
def ofCompact : Bytes → Attempt CompactError (Buffer × Bool)
  | [] => .error (.error .empty)
  | head :: rest =>
    if maxNibbles / 2 + 1 < (head :: rest).length then .error (.error (.tooLong (head :: rest)))
    else
      let flags := Nibble.upper head
      let isLeaf := decide (2 ≤ flags.val)
      let isOdd := decide (flags.val % 2 = 1)
      if 3 < flags.val ∨ ¬ isOdd ∧ head &&& 15 ≠ 0 then .error (.error (.invalidFlags flags))
      else if isOdd ∧ rest.length = maxNibbles / 2 then .error (.error (.tooLong (head :: rest)))
      else .ofFault ((behindFlags isOdd head rest).map (·, isLeaf))

end Buffer

end Path

end Stateless
