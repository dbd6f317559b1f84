import Stateless.Bytes

/-!
# Writing RLP

An item is a byte string or a list of items. Each starts with a header that gives its kind and
length, except that a single byte below `0x80` stands for itself.
-/

namespace Stateless.Rlp

/-- The header of an item with a payload of `n` bytes; `base` is `0x80` for data and `0xc0` for
lists. -/
def header (base n : Nat) : Bytes :=
  if n ≤ 55 then [UInt8.ofNat (base + n)]
  else
    let digits := Bytes.ofNat n
    UInt8.ofNat (base + 55 + digits.length) :: digits

/-- A byte string as an item. -/
def data (b : Bytes) : Bytes :=
  match b with
  | [x] => if x < 0x80 then [x] else [0x81, x]
  | _ => header 0x80 b.length ++ b

/-- A list of items, each given in its written form, as an item. -/
def list (items : List Bytes) : Bytes :=
  let payload := items.flatten
  header 0xc0 payload.length ++ payload

/-- A number as an item: its base-256 digits without leading zeroes. -/
def number (n : Nat) : Bytes := data (Bytes.ofNat n)

/-- The item of the empty byte string. -/
def emptyData : Bytes := [0x80]

end Stateless.Rlp
