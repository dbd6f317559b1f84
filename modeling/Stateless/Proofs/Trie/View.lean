import Mathlib.Logic.Function.Basic
import Stateless.Proofs.Path.Lists
import Stateless.Trie.Edit

/-!
# What a trie answers

The view of a trie is the function from lists of nibbles, of any length, to what a lookup answers:
a value, none, or the hidden hash that the way runs into. Lists instead of paths make the views of
the parts of a trie compose: a leaf or an extension answers `under` its fragment.

The main statement is `lookup_eq_view`. The others say what the helpers of insertion do to views.
-/

namespace Stateless

namespace Trie

/-- The answer to a lookup of a list of nibbles: the value, or the hidden hash on the way to it. -/
abbrev Answer := Except Word (Option Bytes)

/-- The answers of a part that is reached by a run of nibbles; off the run there is nothing. -/
def under : List Nibble → (List Nibble → Answer) → List Nibble → Answer
  | [], answers, l => answers l
  | _ :: _, _, [] => .ok none
  | d :: f, answers, e :: l => if e = d then under f answers l else .ok none

/-- The answers of a part that holds a value for the empty list only. -/
def onlyHere (v : Bytes) : List Nibble → Answer := fun l => .ok (if l = [] then some v else none)

/-- The answers of sixteen parts side by side, and of a value at their root if it is not empty. -/
def beside (v : Bytes) (answers : Nibble → List Nibble → Answer) : List Nibble → Answer
  | [] => .ok (if v.isEmpty then none else some v)
  | d :: l => answers d l

/-- The answers of a trie. -/
def view : Trie → List Nibble → Answer
  | .empty => fun _ => .ok none
  | .hidden h => fun _ => .error h
  | .leaf f v _ => under f.toList (onlyHere v)
  | .extension f c _ => under f.toList (view c)
  | .branch cs v _ => beside v fun i => view (cs i)

/-! ## Answers under a run of nibbles -/

@[simp] theorem under_nil (answers : List Nibble → Answer) : under [] answers = answers := rfl

theorem under_append (f g : List Nibble) (answers : List Nibble → Answer) :
    under (f ++ g) answers = under f (under g answers) := by
  induction f with
  | nil => rfl
  | cons d f ih =>
    funext l
    cases l with
    | nil => rfl
    | cons e l => simp only [List.cons_append, under, ih]

/-- Changing an answer of the part changes one answer of the whole. -/
theorem under_update (f k : List Nibble) (answers : List Nibble → Answer) (a : Answer) :
    under f (Function.update answers k a) = Function.update (under f answers) (f ++ k) a := by
  induction f with
  | nil => rfl
  | cons d f ih =>
    funext l
    cases l with
    | nil => simp [under]
    | cons e l =>
      by_cases he : e = d
      · subst he
        simp [under, ih, Function.update_apply]
      · simp [under, he]

theorem under_none (f : List Nibble) : under f (fun _ => .ok none) = fun _ => .ok none := by
  induction f with
  | nil => rfl
  | cons d f ih =>
    funext l
    cases l with
    | nil => rfl
    | cons e l => simp [under, ih]

theorem under_front (f l : List Nibble) (answers : List Nibble → Answer) :
    under f answers (f ++ l) = answers l := by
  induction f with
  | nil => rfl
  | cons d f ih => simp [under, ih]

theorem under_off {f l : List Nibble} (answers : List Nibble → Answer)
    (h : ¬ f <+: l) : under f answers l = .ok none := by
  induction f generalizing l with
  | nil => exact absurd (List.nil_prefix) h
  | cons d f ih =>
    cases l with
    | nil => rfl
    | cons e l =>
      by_cases he : e = d
      · subst he
        simpa [under] using ih (fun hp => h (List.cons_prefix_cons.2 ⟨rfl, hp⟩))
      · simp [under, he]

/-- A trie without value for a list answers as before when that list is given no value. -/
theorem update_none_of_eq {answers : List Nibble → Answer} {k : List Nibble}
    (h : answers k = .ok none) : Function.update answers k (.ok none) = answers := by
  rw [← h, Function.update_eq_self]

/-! ## Lookups -/

@[simp] theorem view_empty (l : List Nibble) : view .empty l = .ok none := rfl

@[simp] theorem view_hidden (h : Word) (l : List Nibble) : view (.hidden h) l = .error h := rfl

theorem view_leaf (f : Path) (v : Bytes) (m : Option Word) :
    view (.leaf f v m) = under f.toList (onlyHere v) := rfl

theorem view_extension (f : Path) (c : Trie) (m : Option Word) :
    view (.extension f c m) = under f.toList (view c) := rfl

@[simp] theorem view_branch_nil (cs : Nibble → Trie) (v : Bytes) (m : Option Word) :
    view (.branch cs v m) [] = .ok (if v.isEmpty then none else some v) := rfl

@[simp] theorem view_branch_cons (cs : Nibble → Trie) (v : Bytes) (m : Option Word) (d : Nibble)
    (l : List Nibble) : view (.branch cs v m) (d :: l) = view (cs d) l := rfl

theorem view_leaf_apply (f : Path) (v : Bytes) (m : Option Word) (l : List Nibble) :
    view (.leaf f v m) l = .ok (if l = f.toList then some v else none) := by
  rw [view_leaf]
  by_cases h : f.toList <+: l
  · obtain ⟨r, rfl⟩ := h
    rw [under_front]
    simp [onlyHere]
  · rw [under_off _ h, if_neg]
    rintro rfl
    exact h (List.prefix_refl _)

/-- Looking a path up is asking the view for its nibbles. -/
theorem lookup_eq_view (t : Trie) (k : Path) : t.lookup k = t.view k.toList := by
  induction t generalizing k with
  | empty => rfl
  | hidden h => rfl
  | leaf f v m =>
    rw [view_leaf_apply, lookup]
    by_cases hf : f = k
    · simp [hf]
    · have : k.toList ≠ f.toList := fun h => hf (Path.ext h.symm)
      simp [hf, this]
  | extension f c m ih =>
    rw [lookup, view_extension]
    by_cases hs : k.startsWith f = true
    · rw [if_pos hs, ih, ← Path.append_drop_of_startsWith hs, under_front]
    · rw [if_neg hs, under_off _ (fun h => hs (Path.startsWith_iff.2 h))]
  | branch cs v m ih =>
    rw [lookup]
    cases hu : k.uncons with
    | none => rw [Path.uncons_eq_none_iff.1 hu]; rfl
    | some r =>
      obtain ⟨d, rest⟩ := r
      rw [Path.uncons_eq_some_iff.1 hu]
      exact ih d rest

/-! ## Building blocks of insertion -/

@[simp] theorem withMemo_view (t : Trie) (m : Option Word) : (t.withMemo m).view = t.view := by
  cases t <;> rfl

theorem view_behind (f : Path) (t : Trie) : (behind f t).view = under f.toList t.view := by
  unfold behind
  split
  · next h => rw [Path.isEmpty_iff.1 h]; rfl
  · rfl

theorem view_plant_value (k : Path) (v : Bytes) :
    (plant k (.value v)).view = under k.toList (onlyHere v) := rfl

@[simp] theorem fork_eq (cs : Row Trie) (v : Bytes) : fork cs v = .branch cs.get v none := rfl

theorem only_get (d i : Nibble) (t : Trie) : (only d t).get i = if i = d then t else .empty := by
  simp [only, noChildren]

/-- A branch of which one child answers one list differently. -/
theorem view_fork_set {cs : Nibble → Trie} {d : Nibble} {c : Trie} {w : Bytes} {m : Option Word}
    {l : List Nibble} {a : Answer} (hc : c.view = Function.update (cs d).view l a) :
    (fork (Children.set cs d c) w).view = Function.update (branch cs w m).view (d :: l) a := by
  funext l'
  cases l' with
  | nil => simp
  | cons i l' =>
    rw [fork_eq, view_branch_cons, Children.get_set]
    by_cases hi : i = d
    · subst hi
      by_cases hl : l' = l <;> simp [hc, hl]
    · rw [if_neg hi, Function.update_of_ne (by simp [hi]), view_branch_cons]

/-- A part that holds one value only, seen as a part without values that was given one. -/
theorem onlyHere_eq_update (v : Bytes) :
    onlyHere v = Function.update (fun _ => .ok none) [] (.ok (some v)) := by
  funext l
  by_cases h : l = [] <;> simp [onlyHere, h]

end Trie

end Stateless
