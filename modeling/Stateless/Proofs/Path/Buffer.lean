import Stateless.Path.Buffer
import Stateless.Proofs.Fault
import Stateless.Proofs.Path.Cells
import Stateless.Proofs.Path.Lists

/-!
# Operations on cells are operations on paths

`Path.toBuffer` puts a path into cells. Every operation on buffers does to the cells of a path what
the operation of the same name does to the path, also where it stops with a fault, and answers the
same. The main statements are `push_toBuffer`, `drop_toBuffer`, `range_toBuffer` and
`append_toBuffer`.
-/

namespace Stateless

namespace Nibble

@[simp] theorem toNat_byte (d : Nibble) : d.byte.toNat = d.val := by
  simp only [byte, UInt8.toNat_ofNat']
  omega

theorem byte_lt (d : Nibble) : d.byte < 16 := by
  rw [UInt8.lt_iff_toNat_lt, toNat_byte]
  exact d.isLt

@[simp] theorem byte_inj {d e : Nibble} : d.byte = e.byte ↔ d = e := by
  rw [← UInt8.toNat_inj, toNat_byte, toNat_byte, Fin.val_inj]

theorem byte_mk {n : UInt8} (h : n.toNat < 16) : byte ⟨n.toNat, h⟩ = n := by
  rw [← UInt8.toNat_inj, toNat_byte]

theorem byte_upper (b : UInt8) : (upper b).byte = b >>> 4 := by
  rw [← UInt8.toNat_inj, toNat_byte, UInt8.toNat_shiftRight]
  exact (Nat.shiftRight_eq_div_pow b.toNat 4).symm

theorem byte_lower (b : UInt8) : (lower b).byte = b &&& 15 := by
  rw [← UInt8.toNat_inj, toNat_byte, UInt8.toNat_and]
  exact (Nat.and_two_pow_sub_one_eq_mod b.toNat 4).symm

theorem byte_lower_of_lt {n : UInt8} (h : n < 16) : (lower n).byte = n := by
  rw [← UInt8.toNat_inj, toNat_byte]
  exact Nat.mod_eq_of_lt (UInt8.lt_iff_toNat_lt.1 h)

/-- Two halves are put together by shifting the upper one. -/
theorem byte_or_byte (u l : Nibble) : u.byte <<< 4 ||| l.byte = pack u l := by
  rw [← UInt8.toNat_inj, UInt8.toNat_or, UInt8.toNat_shiftLeft, toNat_byte, toNat_byte, pack,
    UInt8.toNat_ofNat']
  have hshift : u.val <<< 4 % 2 ^ 8 = u.val <<< 4 := by
    rw [Nat.shiftLeft_eq]
    omega
  have hor : u.val <<< 4 + l.val = u.val <<< 4 ||| l.val :=
    Nat.shiftLeft_add_eq_or_of_lt l.isLt u.val
  change u.val <<< 4 % 2 ^ 8 ||| l.val = (16 * u.val + l.val) % 2 ^ 8
  rw [hshift, ← hor, Nat.shiftLeft_eq]
  omega

theorem compare_byte (d e : Nibble) : compare d.byte e.byte = compare d e := by
  have hlt : d.byte < e.byte ↔ d.val < e.val := by
    rw [UInt8.lt_iff_toNat_lt, toNat_byte, toNat_byte]
  have heq : d.byte = e.byte ↔ d.val = e.val := by
    rw [byte_inj, Fin.val_inj]
  simp only [compare, compareOfLessAndEq, hlt, heq]

end Nibble

namespace Path

/-- The nibbles as bytes. -/
def bytes (p : Path) : List UInt8 := p.toList.map Nibble.byte

/-- A path in cells. -/
def toBuffer (p : Path) : Buffer := ⟨p.length, .ofList p.bytes⟩

@[simp] theorem length_bytes (p : Path) : p.bytes.length = p.length := by
  rw [bytes, List.length_map, length_toList]

theorem length_bytes_le (p : Path) : p.bytes.length ≤ maxNibbles := p.length_bytes ▸ p.length_le_max

theorem bytes_lt (p : Path) : ∀ n ∈ p.bytes, n < 16 := by
  intro n hn
  obtain ⟨d, -, rfl⟩ := List.mem_map.1 hn
  exact d.byte_lt

theorem bytes_inj {p q : Path} : p.bytes = q.bytes ↔ p = q := by
  constructor
  · intro h
    exact ext (List.map_inj_right (fun _ _ => Nibble.byte_inj.1) |>.1 h)
  · rintro rfl
    rfl

theorem bytes_prefix_iff {f p : Path} : f.bytes <+: p.bytes ↔ f.toList <+: p.toList := by
  rw [List.prefix_iff_eq_take, List.prefix_iff_eq_take, length_bytes, length_toList, bytes, bytes,
    ← List.map_take, List.map_inj_right fun _ _ => Nibble.byte_inj.1]

theorem bytes_drop (p : Path) (n : Nat) : (p.drop n).bytes = p.bytes.drop n := List.map_drop

theorem bytes_dropLast (p : Path) (n : Nat) :
    (p.dropLast n).bytes = p.bytes.take (p.bytes.length - n) := by
  rw [length_bytes]
  exact List.map_take

theorem toBuffer_inj {p q : Path} : p.toBuffer = q.toBuffer ↔ p = q := by
  constructor
  · intro h
    obtain ⟨hcount, hcells⟩ := Buffer.mk.inj h
    have hlen : p.bytes.length = q.bytes.length := by rwa [length_bytes, length_bytes]
    exact bytes_inj.1 (Cells.ofList_inj p.length_bytes_le q.length_bytes_le hlen hcells)
  · rintro rfl
    rfl

/-- What a path has in front is a path. -/
theorem exists_front {r : Path} {l m : List Nibble} (h : r.toList = l ++ m) :
    ∃ q : Path, q.toList = l := by
  have hle := r.length_le
  rw [h, List.length_append] at hle
  exact ⟨⟨l, by omega⟩, rfl⟩

@[simp] theorem count_toBuffer (p : Path) : p.toBuffer.count = p.length := rfl

@[simp] theorem cells_toBuffer (p : Path) : p.toBuffer.cells = .ofList p.bytes := rfl

/-- A path is put into cells by putting its bytes there. -/
theorem toBuffer_eq {p : Path} {n : Nat} {l : List UInt8} (h : p.bytes = l) (hn : l.length = n) :
    p.toBuffer = ⟨n, .ofList l⟩ := by
  rw [toBuffer, ← length_bytes, h, hn]

/-! ## Well-formed buffers -/

/-- The cells that hold nibbles of the path. -/
def Buffer.toList (b : Buffer) : List UInt8 := b.cells.toList.take b.count

/-- What is true of the cells of every path. -/
structure Buffer.WellFormed (b : Buffer) : Prop where
  /-- There are at most 64 nibbles. -/
  count_le : b.count ≤ maxNibbles
  /-- Every cell holds a nibble. -/
  lt_sixteen : ∀ i (hi : i < maxNibbles), b.cells[i] < 16
  /-- The cells behind the nibbles of the path are zero. -/
  zero_behind : ∀ i (hi : i < maxNibbles), b.count ≤ i → b.cells[i] = 0

@[simp] theorem toList_toBuffer (p : Path) : p.toBuffer.toList = p.bytes := by
  rw [Buffer.toList, cells_toBuffer, count_toBuffer, Cells.toList_ofList p.length_bytes_le,
    ← length_bytes, List.take_left]

theorem wellFormed_toBuffer (p : Path) : p.toBuffer.WellFormed := by
  have hcells : ∀ i (hi : i < maxNibbles), p.toBuffer.cells[i] =
      if h : i < p.bytes.length then p.bytes[i] else 0 := by
    intro i hi
    rw [← Vector.getElem_toList (by rwa [Vector.length_toList])]
    simp only [cells_toBuffer, Cells.toList_ofList p.length_bytes_le, List.getElem_append,
      List.getElem_replicate]
  refine ⟨p.length_le_max, fun i hi => ?_, fun i hi hbehind => ?_⟩
  · rw [hcells i hi]
    split
    · simp only [bytes, List.getElem_map, Nibble.byte_lt]
    · decide
  · rw [hcells i hi, dif_neg (by rw [length_bytes]; exact Nat.not_lt.2 hbehind)]

/-- Bytes that are nibbles and not too many are those of a path. -/
theorem exists_bytes_eq {l : List UInt8} (hlen : l.length ≤ maxNibbles) (h : ∀ n ∈ l, n < 16) :
    ∃ p : Path, p.bytes = l := by
  have hback : ∀ n ∈ l, (Nibble.lower n).byte = n := fun n hn => Nibble.byte_lower_of_lt (h n hn)
  refine ⟨⟨l.map Nibble.lower, by rwa [List.length_map]⟩, ?_⟩
  rw [bytes, List.map_map]
  exact (List.map_congr_left hback).trans (List.map_id l)

/-- Well-formed buffers are those of paths. -/
theorem wellFormed_iff {b : Buffer} : b.WellFormed ↔ ∃ p : Path, p.toBuffer = b := by
  constructor
  · intro h
    have hlen : b.toList.length = b.count := List.length_take_of_le (by
      rw [Vector.length_toList]
      exact h.count_le)
    have hbehind : b.cells.toList.drop b.count = List.replicate (maxNibbles - b.count) 0 := by
      rw [List.eq_replicate_iff, List.length_drop, Vector.length_toList]
      refine ⟨rfl, fun n hn => ?_⟩
      obtain ⟨i, hi, rfl⟩ := List.mem_iff_getElem.1 hn
      rw [List.length_drop, Vector.length_toList] at hi
      rw [List.getElem_drop, Vector.getElem_toList]
      exact h.zero_behind _ (by omega) (by omega)
    have hcells : b.cells = .ofList b.toList := by
      refine Cells.eq_ofList (hlen ▸ h.count_le) ?_
      rw [hlen, ← hbehind]
      exact (List.take_append_drop ..).symm
    obtain ⟨p, hp⟩ := exists_bytes_eq (l := b.toList) (hlen ▸ h.count_le) fun n hn => by
      obtain ⟨i, hi, rfl⟩ := List.mem_iff_getElem.1 (List.mem_of_mem_take hn)
      rw [Vector.getElem_toList]
      exact h.lt_sixteen i _
    refine ⟨p, ?_⟩
    rw [toBuffer_eq hp hlen, ← hcells]
  · rintro ⟨p, rfl⟩
    exact p.wellFormed_toBuffer

/-! ## Looking at buffers -/

theorem nibbles_toBuffer (p : Path) : p.toBuffer.nibbles = .ok p.bytes := by
  have hread := Cells.read_ofList p.length_bytes_le (Nat.le_refl _)
  rwa [List.take_length, length_bytes] at hread

theorem length_toBuffer (p : Path) : p.toBuffer.length = p.length := rfl

theorem isEmpty_toBuffer (p : Path) : p.toBuffer.isEmpty = p.isEmpty := by
  rw [Buffer.isEmpty, isEmpty, count_toBuffer, length]
  cases p.toList <;> rfl

theorem get_toBuffer (p : Path) (i : Nat) : p.toBuffer.get i = (p.get i).map Nibble.byte := by
  rw [Buffer.get, get, count_toBuffer, cells_toBuffer]
  by_cases hi : i < p.length
  · have hlt : i < p.toList.length := hi
    have hcell := Cells.get_ofList p.length_bytes_le (i := i) (by rwa [length_bytes])
    rw [if_pos hi, hcell, List.getElem?_eq_getElem hlt]
    simp only [bytes, List.getElem_map]
    rfl
  · rw [if_neg hi, List.getElem?_eq_none (Nat.le_of_not_lt hi)]
    rfl

theorem startsWith_toBuffer (p f : Path) :
    p.toBuffer.startsWith f.toBuffer = .ok (p.startsWith f) := by
  rw [Buffer.startsWith, count_toBuffer, count_toBuffer, cells_toBuffer, cells_toBuffer]
  by_cases hle : f.length ≤ p.length
  · have hread := Cells.read_ofList p.length_bytes_le (n := f.length) (by rwa [length_bytes])
    have hfront : f.toBuffer.nibbles = .ok f.bytes := nibbles_toBuffer f
    have hsame : (p.bytes.take f.length == f.bytes) = p.startsWith f := by
      rw [Bool.eq_iff_iff, beq_iff_eq, startsWith_iff, ← bytes_prefix_iff, List.prefix_iff_eq_take,
        length_bytes, eq_comm]
    rw [if_pos hle, hread]
    change (do return p.bytes.take f.length == (← f.toBuffer.nibbles)) = _
    rw [hfront, ← hsame]
    rfl
  · have hnot : ¬ p.startsWith f = true := fun h => hle (startsWith_iff.1 h).length_le
    rw [if_neg hle, Bool.eq_false_iff.2 hnot]

/-- Bytes are ordered as the nibbles that they are. -/
theorem compare_map_byte (l m : List Nibble) :
    compare (l.map Nibble.byte) (m.map Nibble.byte) = compare l m := by
  induction l generalizing m with
  | nil => cases m <;> rfl
  | cons d l ih =>
    cases m with
    | nil => rfl
    | cons e m =>
      rw [List.map_cons, List.map_cons, List.compare_cons_cons, List.compare_cons_cons, ih,
        Nibble.compare_byte]

theorem order_toBuffer (p q : Path) : p.toBuffer.order q.toBuffer = .ok (compare p q) := by
  rw [Buffer.order, nibbles_toBuffer, nibbles_toBuffer, compare_eq, ← compare_map_byte]
  rfl

/-- The first pair of different values stands where two lists part. -/
theorem findIdx?_zip {α β : Type} [DecidableEq α] [DecidableEq β] {f : α → β}
    (hf : Function.Injective f) (l m : List α) :
    (((l.map f).zip (m.map f)).findIdx? fun (a, b) => a != b).getD (min l.length m.length) =
      (parting l m).1.length := by
  fun_induction parting l m with
  | case1 as a bs common left right hparts ih =>
    have hmin : min (as.length + 1) (bs.length + 1) = min as.length bs.length + 1 := by omega
    rw [hparts] at ih
    simpa [List.findIdx?_cons, hmin] using ih
  | case2 a as b bs hne =>
    have hdiffers : f a ≠ f b := fun he => hne (hf he)
    simp [List.findIdx?_cons, hdiffers]
  | case3 as bs hends =>
    cases as with
    | nil => simp
    | cons a as =>
      cases bs with
      | nil => simp
      | cons b bs => exact absurd rfl (hends a as b bs rfl)

theorem difference_toBuffer (p q : Path) :
    p.toBuffer.difference q.toBuffer = .ok (p.difference q) := by
  have hindex := findIdx?_zip (fun _ _ => Nibble.byte_inj.1) p.toList q.toList
  rw [Buffer.difference, nibbles_toBuffer, nibbles_toBuffer]
  exact congrArg Except.ok hindex

/-! ## Growing and shrinking -/

theorem empty_toBuffer : empty.toBuffer = .empty := by
  rw [Buffer.empty, Cells.zero_eq_ofList]
  exact toBuffer_eq rfl rfl

theorem push_toBuffer (p : Path) (n : UInt8) :
    p.toBuffer.push n = (p.push n.toNat).map toBuffer := by
  rw [Buffer.push, push, count_toBuffer, cells_toBuffer]
  by_cases hroom : p.toList.length < maxNibbles
  · have hlt : p.length < maxNibbles := hroom
    rw [if_pos hlt, dif_pos hroom]
    by_cases hn : n.toNat < 16
    · have hset := Cells.set_ofList (l := p.bytes) (n := n) (by rwa [length_bytes])
      rw [if_pos (UInt8.lt_iff_toNat_lt.2 hn), dif_pos hn, ← length_bytes, hset]
      refine congrArg Except.ok (toBuffer_eq ?_ ?_).symm
      · simp only [bytes, List.map_append, List.map_cons, List.map_nil, Nibble.byte_mk]
      · rw [List.length_append, List.length_singleton]
    · rw [if_neg (mt UInt8.lt_iff_toNat_lt.1 hn), dif_neg hn]
      rfl
  · have hfull : ¬ p.length < maxNibbles := hroom
    rw [if_neg hfull, dif_neg hroom]
    rfl

/-- A number can be added to a path if some path has it behind the nibbles of that one. -/
theorem push_toNat_eq_ok_iff {p r : Path} {n : UInt8} :
    p.push n.toNat = .ok r ↔ r.bytes = p.bytes ++ [n] := by
  constructor
  · intro h
    unfold push at h
    split at h
    · split at h
      · next hn =>
        rw [← Except.ok.inj h]
        simp only [bytes, List.map_append, List.map_cons, List.map_nil, Nibble.byte_mk]
      · cases h
    · cases h
  · intro h
    obtain ⟨d, -, rfl⟩ : ∃ d ∈ r.toList, Nibble.byte d = n := by
      have hmem : n ∈ r.bytes := by simp [h]
      exact List.mem_map.1 hmem
    have hroom : p.length < maxNibbles := by
      have hlen := congrArg List.length h
      have hmax := r.length_le_max
      rw [List.length_append, length_bytes, length_bytes, List.length_singleton] at hlen
      omega
    obtain ⟨r', hpush, hr'⟩ := push_eq_ok d hroom
    have hsame : r'.bytes = r.bytes := by
      rw [h, bytes, hr', List.map_append]
      rfl
    rw [Nibble.toNat_byte, hpush, bytes_inj.1 hsame]

/-- Numbers can be added to a path one by one if some path has them behind the nibbles of that
one. -/
theorem foldlM_push_eq_ok_iff {p : Path} {ns : List UInt8} {b : Buffer} :
    ns.foldlM Buffer.push p.toBuffer = .ok b ↔
      ∃ r : Path, r.bytes = p.bytes ++ ns ∧ r.toBuffer = b := by
  induction ns generalizing p with
  | nil =>
    constructor
    · intro h
      exact ⟨p, by rw [List.append_nil], Except.ok.inj h⟩
    · rintro ⟨r, hr, rfl⟩
      rw [List.append_nil, bytes_inj] at hr
      rw [hr]
      rfl
  | cons n ns ih =>
    rw [List.foldlM_cons, push_toBuffer]
    constructor
    · intro h
      obtain ⟨b', hpush, hrest⟩ := exists_of_bind_eq_ok h
      obtain ⟨q, hq, rfl⟩ := map_eq_ok_iff.1 hpush
      obtain ⟨r, hr, hb⟩ := ih.1 hrest
      rw [push_toNat_eq_ok_iff.1 hq, List.append_assoc] at hr
      exact ⟨r, hr, hb⟩
    · rintro ⟨r, hr, rfl⟩
      have hq : (r.dropLast ns.length).bytes = p.bytes ++ [n] := by
        rw [bytes_dropLast, hr, List.append_cons, List.length_append, Nat.add_sub_cancel,
          List.take_left]
      rw [push_toNat_eq_ok_iff.2 hq]
      exact ih.2 ⟨r, by rw [hr, hq, List.append_cons], rfl⟩

/-- The path of a list of numbers is the one that has them as its nibbles, if there is one. -/
theorem ofNumbers_eq_ok_iff {ns : List UInt8} {b : Buffer} :
    Buffer.ofNumbers ns = .ok b ↔ ∃ r : Path, r.bytes = ns ∧ r.toBuffer = b := by
  rw [Buffer.ofNumbers, ← empty_toBuffer, foldlM_push_eq_ok_iff]
  rfl

theorem ofNumbers_eq (ns : List UInt8) :
    Buffer.ofNumbers ns = (ofNumbers (ns.map UInt8.toNat)).map toBuffer := by
  have hfold : ∀ p : Path, ns.foldlM Buffer.push p.toBuffer =
      ((ns.map UInt8.toNat).foldlM push p).map toBuffer := by
    induction ns with
    | nil => exact fun _ => rfl
    | cons n ns ih =>
      intro p
      rw [List.map_cons, List.foldlM_cons, List.foldlM_cons, push_toBuffer]
      cases p.push n.toNat with
      | ok q => exact ih q
      | error f => rfl
  rw [Buffer.ofNumbers, ofNumbers, ← empty_toBuffer, hfold]

theorem drop_toBuffer (p : Path) (n : Nat) : p.toBuffer.drop n = .ok (p.drop n).toBuffer := by
  have hn : min n p.length ≤ p.bytes.length := by
    rw [length_bytes]
    exact Nat.min_le_right ..
  obtain ⟨c, hmove, hclear⟩ := Cells.clear_move_ofList p.length_bytes_le hn
  have hbytes : (p.drop n).bytes = p.bytes.drop (min n p.length) := by
    rw [bytes_drop, ← length_bytes]
    rcases Nat.le_total n p.bytes.length with hle | hle
    · rw [Nat.min_eq_left hle]
    · rw [Nat.min_eq_right hle, List.drop_eq_nil_of_le hle, List.drop_length]
  have hlen : (p.bytes.drop (min n p.length)).length = p.length - min n p.length := by
    rw [List.length_drop, length_bytes]
  rw [length_bytes] at hmove hclear
  rw [toBuffer_eq hbytes hlen]
  exact (bind_eq_of_eq_ok hmove).trans (bind_eq_of_eq_ok hclear)

theorem dropLast_toBuffer (p : Path) (n : Nat) :
    p.toBuffer.dropLast n = .ok (p.dropLast n).toBuffer := by
  have hle : p.length - min n p.length ≤ p.bytes.length := by
    rw [length_bytes]
    exact Nat.sub_le ..
  have hclear := Cells.clear_ofList p.length_bytes_le hle
  have hsub : p.length - min n p.length = p.length - n := by omega
  have hbytes : (p.dropLast n).bytes = p.bytes.take (p.length - min n p.length) := by
    rw [bytes_dropLast, length_bytes, hsub]
  rw [length_bytes] at hclear
  rw [toBuffer_eq hbytes (List.length_take_of_le hle)]
  exact bind_eq_of_eq_ok hclear

theorem pop_toBuffer (p : Path) :
    p.toBuffer.pop = p.pop.map fun r => (r.1.byte, r.2.toBuffer) := by
  rw [Buffer.pop, get_toBuffer, drop_toBuffer, get, pop]
  cases hp : p.uncons with
  | none =>
    have hnil := uncons_eq_none_iff.1 hp
    rw [length, hnil]
    rfl
  | some r =>
    obtain ⟨d, rest⟩ := r
    have hlist := uncons_eq_some_iff.1 hp
    have hrest : p.drop 1 = rest := ext (by rw [toList_drop, hlist, List.drop_one, List.tail_cons])
    rw [hlist, hrest]
    rfl

theorem range_toBuffer (p : Path) (start stop : Nat) :
    p.toBuffer.range start stop = (p.range start stop).map toBuffer := by
  rw [Buffer.range, nibbles_toBuffer, range]
  by_cases h : start ≤ stop ∧ stop ≤ p.length
  · have hslice := slice_eq_ok (l := p.bytes) h.1 (by rw [length_bytes]; exact h.2)
    rw [if_pos h]
    refine (bind_eq_of_eq_ok hslice).trans (ofNumbers_eq_ok_iff.2 ⟨_, ?_, rfl⟩)
    simp only [bytes, List.map_drop, List.map_take]
  · have hslice := slice_eq_error (l := p.bytes) (by rwa [length_bytes])
    rw [if_neg h]
    exact congrArg (· >>= Buffer.ofNumbers) hslice

theorem before_toBuffer (p : Path) (i : Nat) :
    p.toBuffer.before i = (p.before i).map toBuffer :=
  p.range_toBuffer 0 i

theorem after_toBuffer (p : Path) (i : Nat) : p.toBuffer.after i = (p.after i).map toBuffer :=
  p.range_toBuffer i p.length

theorem split_toBuffer (p : Path) (i : Nat) :
    p.toBuffer.split i = (p.split i).map fun r => (r.1.toBuffer, r.2.toBuffer) := by
  rw [Buffer.split, split, before_toBuffer, after_toBuffer]
  cases p.before i with
  | error f => rfl
  | ok q => cases p.after i <;> rfl

theorem append_toBuffer (p q : Path) :
    p.toBuffer.append q.toBuffer = (p.append q).map toBuffer := by
  rw [Buffer.append, append, nibbles_toBuffer]
  by_cases hle : p.length + q.length ≤ maxNibbles
  · have hlist : p.toList.length + q.toList.length ≤ maxNibbles := hle
    have hcopy := Cells.copy_ofList (l := p.bytes) (m := q.bytes)
      (by rwa [length_bytes, length_bytes])
    rw [length_bytes, length_bytes] at hcopy
    rw [if_pos (by exact hle), dif_pos hlist]
    refine (bind_eq_of_eq_ok hcopy).trans (congrArg Except.ok (toBuffer_eq ?_ ?_).symm)
    · simp only [bytes, List.map_append]
    · rw [List.length_append, length_bytes, length_bytes]
      rfl
  · have hlist : ¬ p.toList.length + q.toList.length ≤ maxNibbles := hle
    rw [if_neg (by exact hle), dif_neg hlist]
    rfl

end Path

end Stateless
