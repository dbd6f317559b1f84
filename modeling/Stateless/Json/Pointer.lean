import Stateless.Json.Value

/-!
# Places in JSON values

A pointer is a text of keys and positions, each after a slash; `~1` stands for a slash in a key and
`~0` for a tilde. What a pointer leads to can be set or removed.
-/

namespace Stateless.Json

/-- The keys and positions of a pointer. -/
def pointerSteps (pointer : String) : List String :=
  (pointer.splitOn "/").tail.map fun step => (step.replace "~1" "/").replace "~0" "~"

/-- Entries with one key's value set. -/
def setEntry (key : String) (value : Json) (entries : List (String × Json)) :
    List (String × Json) :=
  if entries.any fun e => e.1 == key then
    entries.map fun e => if e.1 == key then (key, value) else e
  else entries ++ [(key, value)]

/-- Items with one set; one past the last is added. -/
def setItem (i : Nat) (value : Json) (items : List Json) : List Json :=
  if i = items.length then items ++ [value] else items.set i value

/-- The value with the place at the end of some steps set to another value, or removed. A way that
leads nowhere changes nothing, and the whole value cannot be removed. -/
def setAt (new : Option Json) : List String → Json → Json
  | [], j => new.getD j
  | [key], object entries =>
    match new with
    | none => object (entries.filter fun e => e.1 != key)
    | some v => object (setEntry key v entries)
  | [key], array items =>
    match key.toNat?, new with
    | some i, none => array (items.eraseIdx i)
    | some i, some v => array (setItem i v items)
    | none, _ => array items
  | key :: rest, object entries =>
    object (entries.map fun e => if e.1 == key then (key, setAt new rest e.2) else e)
  | key :: rest, array items =>
    match key.toNat? with
    | some i => array (items.modify i (setAt new rest))
    | none => array items
  | _, j => j

/-- The value with the place that a pointer leads to set to another value, or removed. -/
def edit (j : Json) (pointer : String) (new : Option Json) : Json :=
  setAt new (pointerSteps pointer) j

end Stateless.Json
