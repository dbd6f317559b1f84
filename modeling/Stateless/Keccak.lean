import Stateless.Fixed

/-!
# Keccak-256

The sponge over the permutation Keccak-f[1600] with rate 1088 and the padding `0x01 … 0x80`, as
used for every hash of the state. The tries and everything above them speak of a hash function
through the class `Hasher`; Keccak-256 is its standard instance.
-/

namespace Stateless

/-- A hash function on byte strings. -/
class Hasher where
  /-- The hash of a byte string. -/
  digest : Bytes → Word

export Hasher (digest)

namespace Keccak

/-- The state of the permutation: 25 lanes, row after row. -/
abbrev Lanes := Vector UInt64 25

/-- A lane rotated to the left. -/
@[inline] def rotate (x : UInt64) (n : UInt64) : UInt64 :=
  if n = 0 then x else (x <<< n) ||| (x >>> (64 - n))

/-- How far each lane is rotated. -/
def offsets : Vector UInt64 25 :=
  #v[0, 1, 62, 28, 27, 36, 44, 6, 55, 20, 3, 10, 43, 25, 39, 41, 45, 15, 21, 8, 18, 2, 61, 56, 14]

/-- The constants added to the first lane, one per round. -/
def roundConstants : List UInt64 :=
  [0x0000000000000001, 0x0000000000008082, 0x800000000000808a, 0x8000000080008000,
   0x000000000000808b, 0x0000000080000001, 0x8000000080008081, 0x8000000000008009,
   0x000000000000008a, 0x0000000000000088, 0x0000000080008009, 0x000000008000000a,
   0x000000008000808b, 0x800000000000008b, 0x8000000000008089, 0x8000000000008003,
   0x8000000000008002, 0x8000000000000080, 0x000000000000800a, 0x800000008000000a,
   0x8000000080008081, 0x8000000000008080, 0x0000000080000001, 0x8000000080008008]

/-- The lane in column `x` and row `y`, both taken modulo five. -/
@[inline] def lane (s : Lanes) (x y : Nat) : UInt64 :=
  s[x % 5 + 5 * (y % 5)]

/-- The sum of every column. -/
def columns (s : Lanes) : Vector UInt64 5 :=
  Vector.ofFn fun x =>
    lane s x 0 ^^^ lane s x 1 ^^^ lane s x 2 ^^^ lane s x 3 ^^^ lane s x 4

/-- What is added to every lane of a column: its left neighbour's sum and its right neighbour's,
rotated by one. -/
def spread (sums : Vector UInt64 5) : Vector UInt64 5 :=
  Vector.ofFn fun x => sums[(x.val + 4) % 5] ^^^ rotate (sums[(x.val + 1) % 5]) 1

/-- Column sums are added to the neighbouring columns. -/
def theta (s : Lanes) : Lanes :=
  let d := spread (columns s)
  Vector.ofFn fun i => s[i] ^^^ d[i.val % 5]

/-- Lanes are rotated, and lane `(x, y)` moves to `(y, 2x + 3y)`. -/
def rhoPi (s : Lanes) : Lanes :=
  Vector.ofFn fun i =>
    let source := (i.val % 5 + 3 * (i.val / 5)) % 5 + 5 * (i.val % 5)
    rotate (s[source]) (offsets[source])

/-- Every lane is combined with its two right neighbours. -/
def chi (s : Lanes) : Lanes :=
  Vector.ofFn fun i =>
    let row := i.val / 5
    s[i] ^^^ ((~~~ lane s (i.val + 1) row) &&& lane s (i.val + 2) row)

/-- One round of the permutation. -/
def round (s : Lanes) (constant : UInt64) : Lanes :=
  let t := chi (rhoPi (theta s))
  t.set 0 (t[0] ^^^ constant)

/-- The permutation Keccak-f[1600]. -/
def permute (s : Lanes) : Lanes := roundConstants.foldl round s

/-- The number of bytes absorbed at a time. -/
def rate : Nat := 136

/-- The padding after a message: a one in the first byte and a top bit in the last one. -/
def padding (length : Nat) : Bytes :=
  let room := rate - length % rate
  if room = 1 then [0x81] else 0x01 :: List.replicate (room - 2) 0 ++ [0x80]

/-- The lane whose bytes, least significant first, are given. -/
def laneOfBytes (b : Bytes) : UInt64 := b.foldr (fun d n => (n <<< 8) ||| d.toUInt64) 0

/-- The bytes of a lane, least significant first. -/
def bytesOfLane (x : UInt64) : Bytes :=
  (List.range 8).map fun i => (x >>> (8 * i).toUInt64).toUInt8

/-- A list cut into pieces of `n` elements, at most `count` of them. -/
def pieces {α : Type} (n : Nat) : Nat → List α → List (List α)
  | 0, _ => []
  | count + 1, l => l.take n :: pieces n count (l.drop n)

/-- A block of the message added to the state, which is then permuted. -/
def absorb (s : Lanes) (block : Bytes) : Lanes :=
  let lanes := (pieces 8 17 block).map laneOfBytes
  permute (s.zipWith (· ^^^ ·) (Vector.ofFn fun i => lanes[i.val]?.getD 0))

/-- The first four lanes of a state as a word. -/
def squeeze (s : Lanes) : Word :=
  ⟨bytesOfLane s[0] ++ bytesOfLane s[1] ++ bytesOfLane s[2] ++ bytesOfLane s[3],
    by simp [bytesOfLane]⟩

/-- Keccak-256. -/
def hash (message : Bytes) : Word :=
  let padded := message ++ padding message.length
  squeeze ((pieces rate (message.length / rate + 1) padded).foldl absorb (Vector.replicate 25 0))

end Keccak

/-- Keccak-256 is the hash function of the state. -/
instance keccak256 : Hasher := ⟨Keccak.hash⟩

end Stateless
