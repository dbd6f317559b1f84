import Stateless.Bytes

/-!
# Sixteen children

The children of a branch are a function of the nibble that leads to them. A `Row` holds the sixteen
values of such a function; `tabulate` computes them once, and `gather` does so for computations that
may fail, where the first failure in the order of the nibbles counts. The main statements are
`get_tabulate` and `gather_eq_ok`.
-/

namespace Stateless

/-- One value for each nibble. -/
abbrev Row (α : Type) := Vector α 16

namespace Children

variable {ε α : Type}

theorem get_eq_getElem (row : Row α) (i : Nibble) : row.get i = row[i.val] := rfl

/-- The values of a function. -/
def tabulate (f : Nibble → α) : Row α := Vector.ofFn f

@[simp] theorem get_tabulate (f : Nibble → α) (i : Nibble) : (tabulate f).get i = f i := by
  simp [tabulate, get_eq_getElem]

theorem get_tabulate_eq (f : Nibble → α) : (tabulate f).get = f := funext (get_tabulate f)

/-- The values of a function but for one nibble. -/
def set (f : Nibble → α) (i : Nibble) (a : α) : Row α :=
  tabulate fun j => if j = i then a else f j

@[simp] theorem get_set (f : Nibble → α) (i j : Nibble) (a : α) :
    (set f i a).get j = if j = i then a else f j := by
  simp [set]

/-- The children in the order of their nibbles. -/
def toList (f : Nibble → α) : List α := (List.finRange 16).map f

/-- The nibbles whose child has a property. -/
def positions (p : Nibble → Bool) : List Nibble := (List.finRange 16).filter p

/-- The error of a computation, if it fails. -/
def failure? : Except ε α → Option ε
  | .error e => some e
  | .ok _ => none

/-- The value of a computation that does not fail. -/
def success : (r : Except ε α) → failure? r = none → α
  | .ok a, _ => a

theorem eq_ok_success : ∀ (r : Except ε α) (h : failure? r = none), r = .ok (success r h)
  | .ok _, _ => rfl
  | .error _, h => nomatch h

/-- The values of sixteen computations, or the first failure. -/
def gather (f : Nibble → Except ε α) : Except ε (Row α) :=
  let results := tabulate f
  match h : (List.finRange 16).findSome? fun i => failure? (results.get i) with
  | some e => .error e
  | none => .ok <| tabulate fun i =>
      success (results.get i) (List.findSome?_eq_none_iff.1 h i (List.mem_finRange i))

theorem gather_eq_ok {f : Nibble → Except ε α} {row : Row α} :
    gather f = .ok row ↔ ∀ i, f i = .ok (row.get i) := by
  constructor
  · intro h i
    simp only [gather] at h
    split at h
    · simp at h
    · next hn =>
      simp only [Except.ok.injEq] at h
      subst h
      rw [get_tabulate]
      have := eq_ok_success _ (List.findSome?_eq_none_iff.1 hn i (List.mem_finRange i))
      simpa using this
  · intro h
    simp only [gather]
    split
    · next e he =>
      obtain ⟨i, _, hi⟩ := List.exists_of_findSome?_eq_some he
      simp [h i, failure?] at hi
    · next hn =>
      have hget : ∀ i, success _ (List.findSome?_eq_none_iff.1 hn i (List.mem_finRange i))
          = row.get i := fun i => by
        have hs := eq_ok_success _ (List.findSome?_eq_none_iff.1 hn i (List.mem_finRange i))
        have hv : (tabulate f).get i = .ok (row.get i) := by rw [get_tabulate, h i]
        exact Except.ok.inj (hs.symm.trans hv)
      congr 1
      apply Vector.ext
      intro i hi
      have := hget ⟨i, hi⟩
      simpa [tabulate, get_eq_getElem] using this

end Children

end Stateless
