import Stateless.Path.Cells

/-!
# What cells hold

Every access to cells that hold a list in front and zeroes behind it, said about the list. The main
statements are `copy_ofList`, `clear_ofList` and `clear_move_ofList`: what is left again is a list in
front and zeroes behind it.
-/

namespace Stateless

theorem slice_eq_ok {α : Type} {l : List α} {start stop : Nat} (h : start ≤ stop)
    (hstop : stop ≤ l.length) : slice l start stop = .ok ((l.take stop).drop start) :=
  if_pos ⟨h, hstop⟩

theorem slice_eq_error {α : Type} {l : List α} {start stop : Nat}
    (h : ¬ (start ≤ stop ∧ stop ≤ l.length)) :
    slice l start stop = .error .sliceOutOfRange :=
  if_neg h

namespace Cells

/-- The cells of a list, zero behind it; what finds no room in them is cut off. -/
def ofList (l : List UInt8) : Cells :=
  ⟨((l ++ List.replicate maxNibbles 0).take maxNibbles).toArray, by simp⟩

variable {c : Cells} {l : List UInt8}

theorem toList_ofList (h : l.length ≤ maxNibbles) :
    (ofList l).toList = l ++ List.replicate (maxNibbles - l.length) 0 := by
  have hmin : min (maxNibbles - l.length) maxNibbles = maxNibbles - l.length := by omega
  have htake : (l ++ List.replicate maxNibbles (0 : UInt8)).take maxNibbles =
      l.take maxNibbles ++ (List.replicate maxNibbles 0).take (maxNibbles - l.length) :=
    List.take_append
  rw [List.take_of_length_le h, List.take_replicate, hmin] at htake
  exact htake

/-- Cells are those of a list if they hold it and zeroes behind it. -/
theorem eq_ofList (h : l.length ≤ maxNibbles)
    (hc : c.toList = l ++ List.replicate (maxNibbles - l.length) 0) : c = ofList l :=
  Vector.toList_inj.1 (hc.trans (toList_ofList h).symm)

theorem ofList_inj {m : List UInt8} (hl : l.length ≤ maxNibbles) (hm : m.length ≤ maxNibbles)
    (hlen : l.length = m.length) (h : ofList l = ofList m) : l = m := by
  have hlist : (ofList l).toList = (ofList m).toList := congrArg Vector.toList h
  rw [toList_ofList hl, toList_ofList hm] at hlist
  exact List.append_inj_left hlist hlen

theorem zero_eq_ofList : zero = ofList [] := eq_ofList (Nat.zero_le _) (by simp [zero])

theorem write_eq_ok {start : Nat} {values : List UInt8} (h : start + values.length ≤ maxNibbles) :
    ∃ c', c.write start values = .ok c' ∧
      c'.toList = c.toList.take start ++ values ++ c.toList.drop (start + values.length) :=
  ⟨_, dif_pos h, rfl⟩

/-! ## Reading -/

/-- A front part of the list is read. -/
theorem read_ofList (h : l.length ≤ maxNibbles) {n : Nat} (hn : n ≤ l.length) :
    (ofList l).read 0 n = .ok (l.take n) := by
  have hlen : n ≤ (ofList l).toList.length := by
    rw [Vector.length_toList]
    omega
  rw [read, slice_eq_ok (Nat.zero_le n) hlen, toList_ofList h,
    List.take_append_of_le_length hn, List.drop_zero]

theorem get_ofList (h : l.length ≤ maxNibbles) {i : Nat} (hi : i < l.length) :
    (ofList l).get i = .ok l[i] := by
  have hget : (ofList l)[i]? = some l[i] := by
    rw [← Vector.getElem?_toList, toList_ofList h, List.getElem?_append_left hi,
      List.getElem?_eq_getElem hi]
  rw [Cells.get, hget]

/-! ## Writing -/

/-- What is copied behind the list follows it. -/
theorem copy_ofList {m : List UInt8} (h : l.length + m.length ≤ maxNibbles) :
    (ofList l).copy l.length (l.length + m.length) m = .ok (ofList (l ++ m)) := by
  have hsize : l.length ≤ l.length + m.length ∧ m.length = l.length + m.length - l.length := by
    omega
  obtain ⟨c', hwrite, hc'⟩ := write_eq_ok (c := ofList l) h
  rw [copy, if_pos hsize, hwrite, eq_ofList (c := c') (l := l ++ m)]
  · rw [List.length_append]
    exact h
  · rw [hc', toList_ofList (by omega), List.take_append_of_le_length (Nat.le_refl _),
      List.take_length, List.drop_length_add_append, List.drop_replicate, List.length_append,
      Nat.sub_sub]

/-- A value that is put behind the list becomes its last one. -/
theorem set_ofList {n : UInt8} (h : l.length < maxNibbles) :
    (ofList l).set l.length n = .ok (ofList (l ++ [n])) := by
  have hcopy := copy_ofList (l := l) (m := [n]) h
  rwa [copy, if_pos ⟨by omega, by simp⟩] at hcopy

/-- Making everything that is left behind a list zero leaves the list. -/
theorem clear_behind {rest : List UInt8} (h : l.length + rest.length ≤ maxNibbles)
    (hc : c.toList = l ++ rest ++ List.replicate (maxNibbles - (l.length + rest.length)) 0) :
    c.clear l.length (l.length + rest.length) = .ok (ofList l) := by
  have hlen : l.length + rest.length - l.length = rest.length := Nat.add_sub_cancel_left ..
  have hzeroes : rest.length + (maxNibbles - (l.length + rest.length)) = maxNibbles - l.length := by
    omega
  have hfit : l.length + (List.replicate rest.length (0 : UInt8)).length ≤ maxNibbles := by
    rwa [List.length_replicate]
  have hfront : c.toList.take l.length = l := by rw [hc, List.append_assoc, List.take_left]
  have hback : c.toList.drop (l.length + rest.length) =
      List.replicate (maxNibbles - (l.length + rest.length)) 0 := by
    rw [hc, ← List.length_append, List.drop_left]
  obtain ⟨c', hwrite, hc'⟩ := write_eq_ok (c := c) hfit
  rw [List.length_replicate, hfront, hback, List.append_assoc, List.replicate_append_replicate,
    hzeroes] at hc'
  rw [clear, hlen, copy, if_pos ⟨Nat.le_add_right .., by rw [List.length_replicate, hlen]⟩, hwrite,
    eq_ofList (by omega) hc']

/-- Zeroes that are put in the place of the list's end take it off. -/
theorem clear_ofList (h : l.length ≤ maxNibbles) {k : Nat} (hk : k ≤ l.length) :
    (ofList l).clear k l.length = .ok (ofList (l.take k)) := by
  have hlen : (l.take k).length + (l.drop k).length = l.length := by
    rw [← List.length_append, List.take_append_drop]
  have hclear : (ofList l).clear (l.take k).length ((l.take k).length + (l.drop k).length) =
      .ok (ofList (l.take k)) :=
    clear_behind (by rwa [hlen]) (by rw [hlen, List.take_append_drop, toList_ofList h])
  rwa [hlen, List.length_take_of_le hk] at hclear

/-- Moving the list to the front over its first values and making the cells that it leaves zero takes
those values off. -/
theorem clear_move_ofList (h : l.length ≤ maxNibbles) {n : Nat} (hn : n ≤ l.length) :
    ∃ c', (ofList l).move n l.length 0 = .ok c' ∧
      c'.clear (l.length - n) l.length = .ok (ofList (l.drop n)) := by
  have hread : (ofList l).read n l.length = .ok (l.drop n) := by
    rw [read, slice_eq_ok hn (by rw [Vector.length_toList]; exact h), toList_ofList h,
      List.take_left]
  have hfront : (l.drop n).length = l.length - n := List.length_drop
  have hfit : 0 + (l.drop n).length ≤ maxNibbles := by omega
  obtain ⟨c', hmove, hc'⟩ := write_eq_ok (c := ofList l) hfit
  -- The move leaves the last values of the list where they were.
  have hrest : (l.drop (l.length - n)).length = n := by
    rw [List.length_drop]
    omega
  have hlen : (l.drop n).length + (l.drop (l.length - n)).length = l.length := by omega
  have hcells : c'.toList = l.drop n ++ l.drop (l.length - n) ++
      List.replicate (maxNibbles - ((l.drop n).length + (l.drop (l.length - n)).length)) 0 := by
    rw [hc', hlen, toList_ofList h, List.take_zero, List.nil_append, Nat.zero_add, hfront,
      List.drop_append_of_le_length (Nat.sub_le ..), List.append_assoc]
  have hclear := clear_behind (by omega) hcells
  rw [hlen, hfront] at hclear
  exact ⟨c', by rw [move, hread]; exact hmove, hclear⟩

end Cells

end Stateless
