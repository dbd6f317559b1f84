import Stateless.Path.Basic

/-!
# Cells

The 64 bytes in which a path is kept. They are read and changed in place, and an access that reaches
outside them stops with a fault. What is moved within them is read before anything is written, so
the place it comes from and the place it goes to may overlap.
-/

namespace Stateless

/-- The items of a list from one position up to another. -/
def slice {α : Type} (l : List α) (start stop : Nat) : Except Fault (List α) :=
  if start ≤ stop ∧ stop ≤ l.length then .ok ((l.take stop).drop start)
  else .error .sliceOutOfRange

/-- As many bytes as a path can have nibbles. -/
abbrev Cells := Vector UInt8 maxNibbles

namespace Cells

/-- All cells zero. -/
def zero : Cells := .replicate maxNibbles 0

/-- The values of the cells from one position up to another. -/
def read (c : Cells) (start stop : Nat) : Except Fault (List UInt8) := slice c.toList start stop

/-- The value of one cell. -/
def get (cells : Cells) (i : Nat) : Except Fault UInt8 :=
  match cells[i]? with
  | some n => .ok n
  | none => .error .sliceOutOfRange

/-- Puts values into the cells from a position on. -/
def write (c : Cells) (start : Nat) (values : List UInt8) : Except Fault Cells :=
  if h : start + values.length ≤ maxNibbles then
    .ok ⟨(c.toList.take start ++ values ++ c.toList.drop (start + values.length)).toArray, by
      simp only [List.size_toArray, List.length_append, List.length_take, List.length_drop,
        Vector.length_toList]
      omega⟩
  else .error .sliceOutOfRange

/-- Puts a value into one cell. -/
def set (c : Cells) (i : Nat) (n : UInt8) : Except Fault Cells := c.write i [n]

/-- Puts values into the cells from one position up to another, which must be as many. -/
def copy (c : Cells) (start stop : Nat) (values : List UInt8) : Except Fault Cells :=
  if start ≤ stop ∧ values.length = stop - start then c.write start values
  else .error .sliceOutOfRange

/-- Makes the cells from one position up to another zero. -/
def clear (c : Cells) (start stop : Nat) : Except Fault Cells :=
  c.copy start stop (List.replicate (stop - start) 0)

/-- Puts the values of the cells from one position up to another into those from a third one on. -/
def move (c : Cells) (start stop target : Nat) : Except Fault Cells := do
  c.write target (← c.read start stop)

end Cells

end Stateless
