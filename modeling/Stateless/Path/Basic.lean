import Stateless.Fault
import Stateless.Fixed

/-!
# Paths

A path is a sequence of at most 64 nibbles: a key, a part of one, or the place of a node in a trie.
Paths are ordered nibble by nibble, a path before its continuations. Operations that would leave
the domain stop with a `Fault`. The main statements are `Path.left_meet` and `Path.right_meet`:
meeting two paths takes their common part off both.
-/

namespace Stateless

/-- The number of nibbles of a word, the longest key there is. -/
def maxNibbles : Nat := 64

/-- A sequence of at most 64 nibbles. -/
structure Path where
  /-- The nibbles. -/
  toList : List Nibble
  /-- There are at most 64 of them. -/
  length_le : toList.length ≤ maxNibbles
  deriving DecidableEq

namespace Path

@[ext] theorem ext {p q : Path} (h : p.toList = q.toList) : p = q := by
  cases p; cases q; simp_all

instance : Ord Path := ⟨compareOn toList⟩

theorem compare_eq (p q : Path) : compare p q = compare p.toList q.toList := rfl

instance : Std.TransOrd Path := inferInstanceAs (Std.TransCmp (compareOn toList))

instance : Std.LawfulEqOrd Path where
  compare_self {p} := Std.ReflCmp.compare_self (a := p.toList)
  eq_of_compare {p q} h := ext (Std.LawfulEqCmp.eq_of_compare
    (show compare p.toList q.toList = .eq from h))

/-! ## Making paths -/

/-- The path without nibbles. -/
def empty : Path := ⟨[], by simp⟩

instance : Inhabited Path := ⟨empty⟩

/-- The path of a single nibble. -/
def single (d : Nibble) : Path := ⟨[d], by simp [maxNibbles]⟩

/-- The 64 nibbles of a word. -/
def ofWord (w : Word) : Path :=
  ⟨Bytes.nibbles w.toBytes, by simp [w.length_eq, maxNibbles]⟩

/-- Why bytes are no key. -/
inductive BytesError where
  /-- There are no bytes. -/
  | noBytes
  /-- There are more than 32 bytes. -/
  | tooManyBytes (length : Nat)
  deriving DecidableEq, Repr

/-- The text of a refusal. -/
def BytesError.message : BytesError → String
  | noBytes => "Tried constructing `Nibbles` from a zero byte slice"
  | tooManyBytes n =>
    s!"Tried constructing `Nibbles` from a byte slice with more than 32 bytes (len: {n})"

/-- The nibbles of 1 to 32 bytes. -/
def ofBytes (b : Bytes) : Except BytesError Path :=
  if b.length = 0 then .error .noBytes
  else if h : b.length ≤ 32 then .ok ⟨Bytes.nibbles b, by simp [maxNibbles]; omega⟩
  else .error (.tooManyBytes b.length)

/-! ## Looking at paths -/

/-- The number of nibbles. -/
def length (p : Path) : Nat := p.toList.length

/-- Whether there are no nibbles. -/
def isEmpty (p : Path) : Bool := p.toList.isEmpty

/-- The nibble at a position. -/
def get (p : Path) (i : Nat) : Except Fault Nibble :=
  match p.toList[i]? with
  | some d => .ok d
  | none => .error (.noNibble i p.length)

/-- Whether another path is a front part of this one. -/
def startsWith (p front : Path) : Bool := front.toList.isPrefixOf p.toList

/-! ## Growing and shrinking -/

theorem length_concat_le {p : Path} (d : Nibble) (h : p.toList.length < maxNibbles) :
    (p.toList ++ [d]).length ≤ maxNibbles := by
  simp only [List.length_append, List.length_singleton]
  omega

/-- The path with a number added as its last nibble. -/
def push (p : Path) (n : Nat) : Except Fault Path :=
  if h : p.toList.length < maxNibbles then
    if hn : n < 16 then .ok ⟨p.toList ++ [⟨n, hn⟩], length_concat_le ⟨n, hn⟩ h⟩
    else .error .nibbleTooLarge
  else .error .pathTooLong

/-- The path of a list of numbers. -/
def ofNumbers (ns : List Nat) : Except Fault Path := ns.foldlM push empty

/-- The first nibble and the rest, if there is a first nibble. -/
def uncons (p : Path) : Option (Nibble × Path) :=
  match h : p.toList with
  | [] => none
  | d :: rest => some (d, ⟨rest, by have := p.length_le; rw [h] at this; simp at this; omega⟩)

/-- The first nibble and the rest. -/
def pop (p : Path) : Except Fault (Nibble × Path) :=
  match p.uncons with
  | some r => .ok r
  | none => .error (.noNibble 0 0)

/-- The path without its first `n` nibbles. -/
def drop (p : Path) (n : Nat) : Path :=
  ⟨p.toList.drop n, by have := p.length_le; simp; omega⟩

/-- The path without its last `n` nibbles. -/
def dropLast (p : Path) (n : Nat) : Path :=
  ⟨p.toList.take (p.toList.length - n), by have := p.length_le; simp; omega⟩

/-- The nibbles from one position up to another. -/
def range (p : Path) (start stop : Nat) : Except Fault Path :=
  if start ≤ stop ∧ stop ≤ p.length then
    .ok ⟨(p.toList.take stop).drop start, by have := p.length_le; simp; omega⟩
  else .error .sliceOutOfRange

/-- The nibbles before a position. -/
def before (p : Path) (i : Nat) : Except Fault Path := p.range 0 i

/-- The nibbles from a position on. -/
def after (p : Path) (i : Nat) : Except Fault Path := p.range i p.length

/-- The nibbles before a position and those from it on. -/
def split (p : Path) (i : Nat) : Except Fault (Path × Path) := do
  return (← p.before i, ← p.after i)

/-- One path followed by another. -/
def append (p q : Path) : Except Fault Path :=
  if h : p.toList.length + q.toList.length ≤ maxNibbles then
    .ok ⟨p.toList ++ q.toList, by simpa using h⟩
  else .error .pathTooLong

/-! ## Meeting -/

/-- The longest common front part of two lists, and what follows it in each. -/
def parting {α : Type} [DecidableEq α] : List α → List α → List α × List α × List α
  | a :: as, b :: bs =>
    if a = b then
      let (common, left, right) := parting as bs
      (a :: common, left, right)
    else ([], a :: as, b :: bs)
  | as, bs => ([], as, bs)

theorem parting_left {α : Type} [DecidableEq α] (as bs : List α) :
    (parting as bs).1 ++ (parting as bs).2.1 = as := by
  fun_induction parting as bs with
  | case1 a as bs common left right h ih => simp_all
  | case2 => simp
  | case3 => simp

theorem parting_right {α : Type} [DecidableEq α] (as bs : List α) :
    (parting as bs).1 ++ (parting as bs).2.2 = bs := by
  fun_induction parting as bs with
  | case1 a as bs common left right h ih => simp_all
  | case2 => simp
  | case3 => simp

/-- Two paths taken apart where they part. -/
structure Meeting where
  /-- The longest common front part. -/
  common : Path
  /-- What follows it in the first path. -/
  left : Path
  /-- What follows it in the second path. -/
  right : Path

/-- Takes two paths apart where they part. -/
def meet (p q : Path) : Meeting :=
  let r := parting p.toList q.toList
  have hl : r.1 ++ r.2.1 = p.toList := parting_left _ _
  have hr : r.1 ++ r.2.2 = q.toList := parting_right _ _
  have hp := p.length_le
  have hq := q.length_le
  { common := ⟨r.1, by rw [← hl] at hp; simp at hp; omega⟩
    left := ⟨r.2.1, by rw [← hl] at hp; simp at hp; omega⟩
    right := ⟨r.2.2, by rw [← hr] at hq; simp at hq; omega⟩ }

theorem left_meet (p q : Path) : (p.meet q).common.toList ++ (p.meet q).left.toList = p.toList :=
  parting_left _ _

theorem right_meet (p q : Path) : (p.meet q).common.toList ++ (p.meet q).right.toList = q.toList :=
  parting_right _ _

/-- The position at which two paths first differ, or the length of the shorter one. -/
def difference (p q : Path) : Nat := (p.meet q).common.length

/-! ## Bytes and words -/

/-- The number of bytes that the nibbles take. -/
def byteLength (p : Path) : Nat := (p.length + 1) / 2

/-- The nibbles as bytes, with a zero nibble in front if their number is odd. -/
def toBytes (p : Path) : Bytes :=
  Bytes.ofNibbles (if p.length % 2 = 1 then 0 :: p.toList else p.toList)

/-- The word of a path of 64 nibbles. -/
def toWord? (p : Path) : Option Word :=
  if p.length = maxNibbles then FixedBytes.ofBytes? 32 p.toBytes else none

end Path

end Stateless
