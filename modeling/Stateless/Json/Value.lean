/-!
# JSON values

The values that a JSON text stands for. Whole numbers are kept as such; other numbers are kept as
they are written. A value that holds an unpaired surrogate is no text, so nothing can be read from
it, but it may stand where it is ignored.
-/

namespace Stateless

/-- A JSON value. -/
inductive Json where
  /-- `null`. -/
  | null
  /-- `true` or `false`. -/
  | bool (b : Bool)
  /-- A number without fraction and exponent. -/
  | int (n : Int)
  /-- Any other number, as written. -/
  | decimal (text : String)
  /-- A text. -/
  | string (s : String)
  /-- Values in order. -/
  | array (items : List Json)
  /-- Values under keys, in the order of the text, with repetitions. -/
  | object (entries : List (String × Json))
  /-- A text with an unpaired surrogate, or an object with such a key. -/
  | unreadable

namespace Json

instance : Inhabited Json := ⟨null⟩

/-- A natural number. -/
def nat (n : Nat) : Json := int n

/-- The value under a key of an object; the first one counts. -/
def get? (key : String) : Json → Option Json
  | object entries => (entries.find? fun e => e.1 = key).map (·.2)
  | _ => none

end Json

end Stateless
