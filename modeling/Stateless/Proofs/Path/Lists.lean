import Stateless.Path.Basic

/-!
# Paths as lists of nibbles

Every operation on paths that the tries use, said about the lists of their nibbles. The main
statement is `meet_heads`: what follows the common part of two paths starts with different nibbles.
-/

namespace Stateless.Path

/-- The path of a list of nibbles, which is cut off where it is too long. -/
def ofList (l : List Nibble) : Path := ⟨l.take maxNibbles, List.length_take_le _ _⟩

@[simp] theorem length_toList (p : Path) : p.toList.length = p.length := rfl

@[simp] theorem toList_empty : empty.toList = [] := rfl

@[simp] theorem toList_single (d : Nibble) : (single d).toList = [d] := rfl

@[simp] theorem toList_drop (p : Path) (n : Nat) : (p.drop n).toList = p.toList.drop n := rfl

@[simp] theorem length_single (d : Nibble) : (single d).length = 1 := rfl

theorem length_le_max (p : Path) : p.length ≤ maxNibbles := p.length_le

theorem isEmpty_iff {p : Path} : p.isEmpty = true ↔ p.toList = [] := by
  simp [isEmpty]

theorem startsWith_iff {p f : Path} : p.startsWith f = true ↔ f.toList <+: p.toList := by
  simp [startsWith]

theorem length_ofWord (w : Word) : (ofWord w).length = maxNibbles := by
  simp [length, ofWord, w.length_eq, maxNibbles]

theorem ofWord_inj {a b : Word} (h : ofWord a = ofWord b) : a = b := by
  have hnibbles : Bytes.nibbles a.toBytes = Bytes.nibbles b.toBytes := congrArg toList h
  ext1
  rw [← Bytes.ofNibbles_nibbles a.toBytes, hnibbles, Bytes.ofNibbles_nibbles]

/-- A path that starts with a front part is that part followed by what is left. -/
theorem append_drop_of_startsWith {p f : Path} (h : p.startsWith f = true) :
    f.toList ++ (p.drop f.length).toList = p.toList := by
  obtain ⟨rest, hr⟩ := startsWith_iff.1 h
  rw [toList_drop, ← hr, ← length_toList, List.drop_left]

theorem uncons_eq_none_iff {p : Path} : p.uncons = none ↔ p.toList = [] := by
  unfold uncons
  split
  · next h => simp [h]
  · next h => simp [h]

theorem uncons_eq_some_iff {p r : Path} {d : Nibble} :
    p.uncons = some (d, r) ↔ p.toList = d :: r.toList := by
  unfold uncons
  split
  · next h => simp [h]
  · next e rest h =>
    constructor
    · intro he
      obtain ⟨rfl, rfl⟩ := Prod.mk.inj (Option.some.inj he)
      exact h
    · intro he
      obtain ⟨rfl, rfl⟩ := List.cons.inj (h.symm.trans he)
      rfl

/-- Two paths that are short enough together can be put after each other. -/
theorem append_eq_ok {p q : Path} (h : p.length + q.length ≤ maxNibbles) :
    ∃ r, p.append q = .ok r ∧ r.toList = p.toList ++ q.toList := by
  have hle : p.toList.length + q.toList.length ≤ maxNibbles := h
  exact ⟨⟨p.toList ++ q.toList, by simpa using hle⟩, dif_pos hle, rfl⟩

/-- Putting two paths after each other, if it works, puts their nibbles after each other. -/
theorem toList_append {p q r : Path} (h : p.append q = .ok r) :
    r.toList = p.toList ++ q.toList := by
  unfold append at h
  split at h
  · rw [← Except.ok.inj h]
  · cases h

theorem drop_drop (p : Path) (i j : Nat) : (p.drop i).drop j = p.drop (i + j) :=
  ext (List.drop_drop ..)

/-- The path of which all but the first `i` nibbles are taken off. -/
theorem dropLast_sub {p : Path} {i : Nat} (h : i ≤ p.length) :
    (p.dropLast (p.length - i)).toList = p.toList.take i := by
  rw [dropLast]
  dsimp only
  rw [length_toList, Nat.sub_sub_self h]

/-- A path with room for another nibble can be given one. -/
theorem push_eq_ok {p : Path} (d : Nibble) (h : p.length < maxNibbles) :
    ∃ r, p.push d.val = .ok r ∧ r.toList = p.toList ++ [d] := by
  have hlt : p.toList.length < maxNibbles := h
  exact ⟨_, by rw [push, dif_pos hlt, dif_pos d.isLt], rfl⟩

/-- Giving a path another nibble, if it works, puts it at the end. -/
theorem toList_push {p r : Path} {d : Nibble} (h : p.push d.val = .ok r) :
    r.toList = p.toList ++ [d] := by
  unfold push at h
  split at h
  · rw [dif_pos d.isLt] at h
    rw [← Except.ok.inj h]
  · cases h

/-! ## Meeting -/

/-- What follows the longest common front part of two lists starts differently. -/
theorem parting_heads {α : Type} [DecidableEq α] (as bs : List α) {a b : α} {left right : List α}
    (hl : (parting as bs).2.1 = a :: left) (hr : (parting as bs).2.2 = b :: right) : a ≠ b := by
  fun_induction parting as bs with
  | case1 x as bs common l r hparts ih =>
    rw [hparts] at ih
    exact ih hl hr
  | case2 x as y bs hxy =>
    obtain ⟨rfl, -⟩ := List.cons.inj hl
    obtain ⟨rfl, -⟩ := List.cons.inj hr
    exact hxy
  | case3 as bs hne =>
    obtain rfl : as = a :: left := hl
    obtain rfl : bs = b :: right := hr
    exact absurd rfl (hne a left b right rfl)

/-- What follows the common part of two paths starts with different nibbles. -/
theorem meet_heads {p q l r : Path} {a b : Nibble} (hl : (p.meet q).left.uncons = some (a, l))
    (hr : (p.meet q).right.uncons = some (b, r)) : a ≠ b :=
  parting_heads p.toList q.toList (uncons_eq_some_iff.1 hl) (uncons_eq_some_iff.1 hr)

/-- Two paths either go on together to the end of the first, or to the end of the second while the
first goes on, or they part at different nibbles. -/
theorem meet_cases (f k : Path) :
    ((f.meet k).left.uncons = none ∧ (f.meet k).common = f ∧
      k.toList = f.toList ++ (f.meet k).right.toList) ∨
    (∃ d below, (f.meet k).left.uncons = some (d, below) ∧ (f.meet k).right.uncons = none ∧
      (f.meet k).common = k ∧ f.toList = k.toList ++ d :: below.toList) ∨
    ∃ d below d' rest, (f.meet k).left.uncons = some (d, below) ∧
      (f.meet k).right.uncons = some (d', rest) ∧ d ≠ d' ∧
      f.toList = (f.meet k).common.toList ++ d :: below.toList ∧
      k.toList = (f.meet k).common.toList ++ d' :: rest.toList := by
  have hl := left_meet f k
  have hr := right_meet f k
  cases hlu : (f.meet k).left.uncons with
  | none =>
    have hf : (f.meet k).common.toList = f.toList := by
      rw [← hl, uncons_eq_none_iff.1 hlu, List.append_nil]
    exact Or.inl ⟨rfl, ext hf, by rw [← hf, hr]⟩
  | some a =>
    obtain ⟨d, below⟩ := a
    have hfl : f.toList = (f.meet k).common.toList ++ d :: below.toList := by
      rw [← uncons_eq_some_iff.1 hlu, hl]
    cases hru : (f.meet k).right.uncons with
    | none =>
      have hk : (f.meet k).common.toList = k.toList := by
        rw [← hr, uncons_eq_none_iff.1 hru, List.append_nil]
      exact Or.inr (Or.inl ⟨d, below, rfl, rfl, ext hk, by rw [hfl, hk]⟩)
    | some b =>
      obtain ⟨d', rest⟩ := b
      have hkl : k.toList = (f.meet k).common.toList ++ d' :: rest.toList := by
        rw [← uncons_eq_some_iff.1 hru, hr]
      exact Or.inr (Or.inr ⟨d, below, d', rest, rfl, rfl, meet_heads hlu hru, hfl, hkl⟩)

/-- Lists with a common front part are taken apart behind it. -/
theorem parting_append {α : Type} [DecidableEq α] (front as bs : List α) :
    parting (front ++ as) (front ++ bs) =
      (front ++ (parting as bs).1, (parting as bs).2.1, (parting as bs).2.2) := by
  induction front with
  | nil => rfl
  | cons a front ih => rw [List.cons_append, List.cons_append, parting, if_pos rfl, ih]; rfl

/-- Paths that part after a front part. -/
theorem meet_part {f k front below rest : Path} {d d' : Nibble} (hd : d ≠ d')
    (hf : f.toList = front.toList ++ d :: below.toList)
    (hk : k.toList = front.toList ++ d' :: rest.toList) :
    (f.meet k).common = front ∧ (f.meet k).left.uncons = some (d, below) ∧
      (f.meet k).right.uncons = some (d', rest) := by
  have hparts : parting f.toList k.toList =
      (front.toList, d :: below.toList, d' :: rest.toList) := by
    rw [hf, hk, parting_append, parting, if_neg hd, List.append_nil]
  refine ⟨ext ?_, uncons_eq_some_iff.2 ?_, uncons_eq_some_iff.2 ?_⟩ <;>
    simp only [meet, hparts]

/-- A path that ends while the other one goes on. -/
theorem meet_stop {f k below : Path} {d : Nibble}
    (hf : f.toList = k.toList ++ d :: below.toList) :
    (f.meet k).common = k ∧ (f.meet k).left.uncons = some (d, below) ∧
      (f.meet k).right.uncons = none := by
  have hparts : parting f.toList k.toList = (k.toList, d :: below.toList, []) := by
    have happ := parting_append k.toList (d :: below.toList) []
    rw [List.append_nil] at happ
    rw [hf, happ, parting, List.append_nil]
    simp
  refine ⟨ext ?_, uncons_eq_some_iff.2 ?_, uncons_eq_none_iff.2 ?_⟩ <;>
    simp only [meet, hparts]

/-- A path that goes on where the other one ends. -/
theorem meet_pass {f k rest : Path} (hk : k.toList = f.toList ++ rest.toList) :
    (f.meet k).left.uncons = none ∧ (f.meet k).right = rest := by
  have hparts : parting f.toList k.toList = (f.toList, [], rest.toList) := by
    have happ := parting_append f.toList [] rest.toList
    rw [List.append_nil] at happ
    rw [hk, happ, parting, List.append_nil]
    simp
  refine ⟨uncons_eq_none_iff.2 ?_, ext ?_⟩ <;> simp only [meet, hparts]

end Stateless.Path
