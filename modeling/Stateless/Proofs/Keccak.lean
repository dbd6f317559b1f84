import Mathlib.Data.Nat.Bitwise
import Mathlib.Tactic.Ring
import Stateless.Keccak

/-!
# Keccak-256 in natural numbers

Statements about given byte strings need the hashes of these strings. To compute them in a proof,
the 25 lanes of a state are written behind each other into one natural number, and every step of the
permutation is repeated on such numbers. `Shows` says that a number has the lanes of a state; every
step keeps it. The main statement is `hash_toBytes`: the bytes of a hash are those that the numbers
give.

The operations on numbers are called by their names because these are what a proof checker computes
with directly, and a step treats as many lanes at once as it can.
-/

namespace Stateless

namespace Keccak

namespace Packed

/-! ## Lanes in a number -/

/-- The number of values of a lane. -/
def laneSize : Nat := 18446744073709551616

/-- A lane of a number. -/
def lane (n i : Nat) : Nat := Nat.mod (Nat.shiftRight n (Nat.mul 64 i)) laneSize

/-- The number with the given lanes. -/
def ofLanes : List Nat → Nat
  | [] => 0
  | x :: l => Nat.add x (Nat.mul laneSize (ofLanes l))

/-- The number in which the five lanes of a number stand `k` times. -/
def rows (n : Nat) : (k : Nat) → Nat
  | 0 => 0
  | k + 1 => Nat.add n (Nat.mul (Nat.pow laneSize 5) (rows n k))

variable {n m i k : Nat} {l : List Nat}

theorem lane_eq (n i : Nat) : lane n i = n >>> (64 * i) % 2 ^ 64 := rfl

theorem lane_lt (n i : Nat) : lane n i < 2 ^ 64 := Nat.mod_lt _ (Nat.two_pow_pos 64)

theorem testBit_lane (n i j : Nat) :
    (lane n i).testBit j = (decide (j < 64) && n.testBit (64 * i + j)) := by
  rw [lane_eq, Nat.testBit_mod_two_pow, Nat.testBit_shiftRight]

/-- A lane is determined by its bits. -/
theorem lane_eq_of_testBit {x : Nat} (hx : x < 2 ^ 64)
    (h : ∀ j < 64, n.testBit (64 * i + j) = x.testBit j) : lane n i = x := by
  refine Nat.eq_of_testBit_eq fun j => ?_
  rw [testBit_lane]
  by_cases hj : j < 64
  · simp [hj, h j hj]
  · have hpow : 2 ^ 64 ≤ 2 ^ j := Nat.pow_le_pow_right (by decide) (by omega)
    simp [hj, Nat.testBit_lt_two_pow (hx.trans_le hpow)]

theorem lane_zero_left (i : Nat) : lane 0 i = 0 := by simp [lane_eq]

theorem lane_zero (hn : n < 2 ^ 64) : lane n 0 = n := Nat.mod_eq_of_lt hn

theorem lane_of_lt (hn : n < 2 ^ (64 * k)) (hi : k ≤ i) : lane n i = 0 := by
  have hpow : 2 ^ (64 * k) ≤ 2 ^ (64 * i) := Nat.pow_le_pow_right (by decide) (by omega)
  rw [lane_eq, Nat.shiftRight_eq_div_pow, Nat.div_eq_of_lt (hn.trans_le hpow), Nat.zero_mod]

theorem lane_xor (n m i : Nat) : lane (Nat.xor n m) i = lane n i ^^^ lane m i := by
  have hxor : Nat.xor n m = n ^^^ m := rfl
  rw [hxor, lane_eq, Nat.shiftRight_xor_distrib, Nat.xor_mod_two_pow, ← lane_eq, ← lane_eq]

theorem lane_land (n m i : Nat) : lane (Nat.land n m) i = lane n i &&& lane m i := by
  have hland : Nat.land n m = n &&& m := rfl
  rw [hland, lane_eq, Nat.shiftRight_and_distrib, Nat.and_mod_two_pow, ← lane_eq, ← lane_eq]

theorem lane_lor (n m i : Nat) : lane (Nat.lor n m) i = lane n i ||| lane m i := by
  have hlor : Nat.lor n m = n ||| m := rfl
  rw [hlor, lane_eq, Nat.shiftRight_or_distrib, Nat.or_mod_two_pow, ← lane_eq, ← lane_eq]

theorem lane_shiftRight (n k i : Nat) : lane (Nat.shiftRight n (64 * k)) i = lane n (k + i) := by
  have hshift : Nat.shiftRight n (64 * k) = n >>> (64 * k) := rfl
  rw [hshift, lane_eq, ← Nat.shiftRight_add, ← Nat.mul_add, ← lane_eq]

theorem lane_shiftLeft (n k i : Nat) :
    lane (Nat.shiftLeft n (64 * k)) i = if i < k then 0 else lane n (i - k) := by
  have hshift : Nat.shiftLeft n (64 * k) = n <<< (64 * k) := rfl
  rw [hshift]
  split
  · next hi =>
    refine lane_eq_of_testBit (Nat.two_pow_pos 64) fun j hj => ?_
    have hlt : ¬ 64 * i + j ≥ 64 * k := by omega
    rw [Nat.testBit_shiftLeft, Nat.zero_testBit, decide_eq_false hlt, Bool.false_and]
  · next hi =>
    refine lane_eq_of_testBit (lane_lt _ _) fun j hj => ?_
    have hle : 64 * i + j ≥ 64 * k := by omega
    have hsub : 64 * i + j - 64 * k = 64 * (i - k) + j := by omega
    rw [Nat.testBit_shiftLeft, decide_eq_true hle, hsub, testBit_lane, decide_eq_true hj]

/-- The lanes of a number that is put in front of another one. -/
theorem lane_add_mul (hn : n < 2 ^ (64 * k)) (m i : Nat) :
    lane (n + 2 ^ (64 * k) * m) i = if i < k then lane n i else lane m (i - k) := by
  have hbit : ∀ j, (n + 2 ^ (64 * k) * m).testBit j =
      if j < 64 * k then n.testBit j else m.testBit (j - 64 * k) := fun j => by
    rw [Nat.add_comm, Nat.testBit_two_pow_mul_add m hn]
  split
  · next hi =>
    refine lane_eq_of_testBit (lane_lt _ _) fun j hj => ?_
    rw [hbit, if_pos (by omega), testBit_lane, decide_eq_true hj, Bool.true_and]
  · next hi =>
    refine lane_eq_of_testBit (lane_lt _ _) fun j hj => ?_
    have hsub : 64 * i + j - 64 * k = 64 * (i - k) + j := by omega
    rw [hbit, if_neg (by omega), testBit_lane, decide_eq_true hj, Bool.true_and, hsub]

theorem ofLanes_cons (x : Nat) (l : List Nat) :
    ofLanes (x :: l) = x + 2 ^ (64 * 1) * ofLanes l := rfl

theorem ofLanes_lt (h : ∀ x ∈ l, x < 2 ^ 64) : ofLanes l < 2 ^ (64 * l.length) := by
  induction l with
  | nil => exact Nat.one_pos
  | cons x l ih =>
    rw [List.forall_mem_cons] at h
    have hx := h.1
    have hl := ih h.2
    have hpow : 2 ^ (64 * (x :: l).length) = 2 ^ 64 * 2 ^ (64 * l.length) := by
      rw [List.length_cons]
      ring
    rw [ofLanes_cons, hpow]
    omega

/-- The lanes of a number are those from which it was made. -/
theorem lane_ofLanes (h : ∀ x ∈ l, x < 2 ^ 64) (i : Nat) : lane (ofLanes l) i = l.getD i 0 := by
  induction l generalizing i with
  | nil => exact lane_zero_left i
  | cons x l ih =>
    rw [List.forall_mem_cons] at h
    rw [ofLanes_cons, lane_add_mul h.1]
    cases i with
    | zero => rw [if_pos Nat.one_pos, lane_zero h.1, List.getD_cons_zero]
    | succ i => rw [if_neg (by omega), Nat.add_sub_cancel, ih h.2, List.getD_cons_succ]

theorem lane_rows (hn : n < 2 ^ (64 * 5)) (hi : i < 5 * k) : lane (rows n k) i = lane n (i % 5) := by
  induction k generalizing i with
  | zero => exact absurd hi (Nat.not_lt_zero i)
  | succ k ih =>
    have hrows : rows n (k + 1) = n + (2 ^ 64) ^ 5 * rows n k := rfl
    rw [hrows, ← pow_mul, lane_add_mul hn]
    split
    · next h => rw [Nat.mod_eq_of_lt h]
    · next h => rw [ih (by omega), ← Nat.mod_eq_sub_mod (Nat.le_of_not_lt h)]

/-! ## Steps of the permutation -/

/-- A lane of a number, rotated to the left. -/
def rotated (n i r : Nat) : Nat :=
  Nat.lor
    (Nat.shiftLeft (Nat.mod (Nat.shiftRight n (Nat.mul 64 i)) (Nat.pow 2 (Nat.sub 64 r))) r)
    (Nat.mod (Nat.shiftRight n (Nat.sub (Nat.mul 64 (Nat.succ i)) r)) (Nat.pow 2 r))

/-- The sum of every column, in the first five lanes. -/
def columns (n : Nat) : Nat :=
  Nat.xor (Nat.xor (Nat.xor (Nat.xor n (Nat.shiftRight n 320)) (Nat.shiftRight n 640))
    (Nat.shiftRight n 960)) (Nat.shiftRight n 1280)

/-- What is added to every lane of a column. -/
def spread (n : Nat) : Nat :=
  ofLanes [Nat.xor (lane n 4) (rotated n 1 1), Nat.xor (lane n 0) (rotated n 2 1),
    Nat.xor (lane n 1) (rotated n 3 1), Nat.xor (lane n 2) (rotated n 4 1),
    Nat.xor (lane n 3) (rotated n 0 1)]

/-- Column sums are added to the neighbouring columns. -/
def theta (n : Nat) : Nat := Nat.xor n (rows (spread (columns n)) 5)

/-- Lanes are rotated and moved. -/
def rhoPi (n : Nat) : Nat :=
  ofLanes [rotated n 0 0, rotated n 6 44, rotated n 12 43, rotated n 18 21, rotated n 24 14,
    rotated n 3 28, rotated n 9 20, rotated n 10 3, rotated n 16 45, rotated n 22 61,
    rotated n 1 1, rotated n 7 6, rotated n 13 25, rotated n 19 8, rotated n 20 18,
    rotated n 4 27, rotated n 5 36, rotated n 11 10, rotated n 17 15, rotated n 23 56,
    rotated n 2 62, rotated n 8 55, rotated n 14 39, rotated n 15 41, rotated n 21 2]

/-- All bits of the first column. -/
def firstColumn : Nat := rows (Nat.sub (Nat.pow 2 64) 1) 5

/-- All bits of the first four columns. -/
def fourColumns : Nat := rows (Nat.sub (Nat.pow 2 256) 1) 5

/-- Every lane moves to its left neighbour, the first one of a row to the last one. -/
def turned (n : Nat) : Nat :=
  Nat.lor (Nat.land (Nat.shiftRight n 64) fourColumns)
    (Nat.shiftLeft (Nat.land n firstColumn) 256)

/-- Every lane is combined with its two right neighbours. The second of them loses what it shares with
the first. -/
def chi (n : Nat) : Nat :=
  Nat.xor n (Nat.xor (Nat.land (turned n) (turned (turned n))) (turned (turned n)))

/-- One round of the permutation. -/
def round (n : Nat) (constant : UInt64) : Nat := Nat.xor (chi (rhoPi (theta n))) constant.toNat

/-- The permutation. -/
def permute (n : Nat) : Nat := roundConstants.foldl round n

/-- The number whose bytes, least significant first, are given. -/
def littleEndian (b : Bytes) : Nat := b.foldr (fun d n => Nat.add d.toNat (Nat.mul 256 n)) 0

/-- The number of the lanes of a block. -/
def ofBlock (block : Bytes) : Nat := ofLanes ((pieces 8 17 block).map littleEndian)

/-- A block of the message added to a number, which is then permuted. -/
def absorb (n : Nat) (block : Bytes) : Nat := permute (Nat.xor n (ofBlock block))

end Packed

open Packed (lane_xor lane_land lane_lor lane_shiftRight lane_shiftLeft lane_ofLanes lane_rows)

/-- A number has the lanes of a state. -/
def Shows (n : Nat) (s : Lanes) : Prop := ∀ (i : Nat) (h : i < 25), Packed.lane n i = s[i].toNat

section

variable {n m : Nat} {s t : Lanes} {w : Vector UInt64 5} {i : Nat}

theorem rotated_toNat {x r : UInt64} (hx : Packed.lane n i = x.toNat) (hr : r.toNat < 64) :
    Packed.rotated n i r.toNat = (rotate x r).toNat := by
  -- the upper bits come from the lower end of the lane, the lower ones from its upper end
  have hbits : (rotate x r).toNat =
      (x.toNat <<< r.toNat % 2 ^ 64) ||| (x.toNat >>> (64 - r.toNat)) := by
    have hlt := x.toNat_lt
    rw [rotate]
    split
    · next h => simp [h, Nat.mod_eq_of_lt hlt, Nat.shiftRight_eq_div_pow, Nat.div_eq_of_lt hlt]
    · next h =>
      have hpos : 0 < r.toNat := Nat.pos_of_ne_zero fun h0 => h (UInt64.toNat_inj.1 h0)
      have hsub : (64 - r).toNat = 64 - r.toNat := by
        have h64 : (64 : UInt64).toNat = 64 := rfl
        rw [UInt64.toNat_sub]
        omega
      rw [UInt64.toNat_or, UInt64.toNat_shiftLeft, UInt64.toNat_shiftRight, hsub,
        Nat.mod_eq_of_lt hr, Nat.mod_eq_of_lt (show 64 - r.toNat < 64 by omega)]
  have hrotated : Packed.rotated n i r.toNat =
      (n >>> (64 * i) % 2 ^ (64 - r.toNat)) <<< r.toNat |||
        n >>> (64 * (i + 1) - r.toNat) % 2 ^ r.toNat := rfl
  refine Nat.eq_of_testBit_eq fun j => ?_
  rw [hrotated, hbits, ← hx]
  simp only [Nat.testBit_or, Nat.testBit_shiftLeft, Nat.testBit_mod_two_pow, Nat.testBit_shiftRight,
    Packed.testBit_lane]
  by_cases hj : j < r.toNat
  · have hplace : 64 * (i + 1) - r.toNat + j = 64 * i + (64 - r.toNat + j) := by omega
    simp [hj, Nat.not_le.2 hj, hplace, show 64 - r.toNat + j < 64 by omega]
  · have hupper : ¬ 64 - r.toNat + j < 64 := by omega
    by_cases h64 : j < 64
    · simp [hj, hupper, h64, show j - r.toNat < 64 - r.toNat by omega, show j - r.toNat < 64 by omega]
    · simp [hj, hupper, h64, show ¬ j - r.toNat < 64 - r.toNat by omega]

/-! A number is made from the lanes of a state, or from five of them. -/

theorem ofLanes_range {k : Nat} {v : Vector UInt64 k} {f : Nat → Nat}
    (h : ∀ (i : Nat) (hi : i < k), f i = v[i].toNat) :
    Packed.ofLanes ((List.range k).map f) = Packed.ofLanes (v.toList.map UInt64.toNat) := by
  refine congrArg Packed.ofLanes (List.ext_getElem (by simp) fun i hi _ => ?_)
  rw [List.length_map, List.length_range] at hi
  simp [h i hi]

theorem lane_ofLanes_toList {k : Nat} (v : Vector UInt64 k) (hi : i < k) :
    Packed.lane (Packed.ofLanes (v.toList.map UInt64.toNat)) i = v[i].toNat := by
  rw [lane_ofLanes (List.forall_mem_map.2 fun x _ => x.toNat_lt)]
  simp [hi]

theorem ofLanes_toList_lt {k : Nat} (v : Vector UInt64 k) :
    Packed.ofLanes (v.toList.map UInt64.toNat) < 2 ^ (64 * k) := by
  have h := Packed.ofLanes_lt (l := v.toList.map UInt64.toNat)
    (List.forall_mem_map.2 fun x _ => x.toNat_lt)
  rwa [List.length_map, Vector.length_toList] at h

theorem lane_columns (h : Shows n s) {x : Nat} (hx : x < 5) :
    Packed.lane (Packed.columns n) x = ((columns s)[x]).toNat := by
  have hrow : ∀ k < 5, Packed.lane (Nat.shiftRight n (64 * (5 * k))) x =
      (Keccak.lane s x k).toNat := fun k hk => by
    have hplace : x % 5 + 5 * (k % 5) = 5 * k + x := by omega
    rw [lane_shiftRight, h _ (by omega), lane]
    simp only [hplace]
  have h0 : Packed.lane n x = (Keccak.lane s x 0).toNat := hrow 0 (by decide)
  rw [Packed.columns, lane_xor, lane_xor, lane_xor, lane_xor, h0, hrow 1 (by decide),
    hrow 2 (by decide), hrow 3 (by decide), hrow 4 (by decide)]
  simp [columns]

theorem spread_eq (h : ∀ (x : Nat) (hx : x < 5), Packed.lane m x = w[x].toNat) :
    Packed.spread m = Packed.ofLanes ((spread w).toList.map UInt64.toNat) := by
  have hlist : Packed.spread m = Packed.ofLanes ((List.range 5).map fun x =>
      Nat.xor (Packed.lane m ((x + 4) % 5)) (Packed.rotated m ((x + 1) % 5) 1)) := rfl
  rw [hlist]
  refine ofLanes_range fun x hx => ?_
  have hrotated : Packed.rotated m ((x + 1) % 5) 1 = (rotate (w[(x + 1) % 5]) 1).toNat :=
    rotated_toNat (r := 1) (h _ _) (by decide)
  rw [h _ (Nat.mod_lt _ (by decide)), hrotated]
  simp only [spread, Vector.getElem_ofFn, UInt64.toNat_xor]
  rfl

theorem Shows.theta (h : Shows n s) : Shows (Packed.theta n) (theta s) := by
  intro i hi
  rw [Packed.theta, spread_eq fun x hx => lane_columns h hx, lane_xor, h i hi,
    lane_rows (ofLanes_toList_lt _) hi, lane_ofLanes_toList _ (Nat.mod_lt i (by decide))]
  simp [Keccak.theta]

theorem offset_eq : ∀ (k : Nat) (h : k < 25),
    offsets.toList.getD k 0 = offsets[k] ∧ offsets[k].toNat < 64 := by
  decide

theorem Shows.rhoPi (h : Shows n s) : Shows (Packed.rhoPi n) (rhoPi s) := by
  have hlist : Packed.rhoPi n = Packed.ofLanes ((List.range 25).map fun i =>
      Packed.rotated n ((i % 5 + 3 * (i / 5)) % 5 + 5 * (i % 5))
        (offsets.toList.getD ((i % 5 + 3 * (i / 5)) % 5 + 5 * (i % 5)) 0).toNat) := rfl
  have hlanes : Packed.rhoPi n = Packed.ofLanes ((Keccak.rhoPi s).toList.map UInt64.toNat) := by
    rw [hlist]
    refine ofLanes_range fun i hi => ?_
    have hlt : (i % 5 + 3 * (i / 5)) % 5 + 5 * (i % 5) < 25 := by omega
    obtain ⟨hget, hbound⟩ := offset_eq _ hlt
    rw [hget, rotated_toNat (h _ hlt) hbound]
    simp only [Keccak.rhoPi, Vector.getElem_ofFn]
  intro i hi
  rw [hlanes, lane_ofLanes_toList _ hi]

/-- The masks of the columns. -/
theorem lane_masks : ∀ i < 25, Packed.lane Packed.firstColumn i =
      (if i % 5 = 0 then 2 ^ 64 - 1 else 0) ∧
    Packed.lane Packed.fourColumns i = if i % 5 < 4 then 2 ^ 64 - 1 else 0 := by
  decide +kernel

theorem lane_turned (n : Nat) (hi : i < 25) :
    Packed.lane (Packed.turned n) i = Packed.lane n ((i + 1) % 5 + 5 * (i / 5)) := by
  have hmask : ∀ k, Packed.lane n k &&& 2 ^ 64 - 1 = Packed.lane n k := fun k => by
    rw [Nat.and_two_pow_sub_one_eq_mod, Nat.mod_eq_of_lt (Packed.lane_lt n k)]
  have hright : Packed.lane (Nat.shiftRight n 64) i = Packed.lane n (1 + i) := lane_shiftRight n 1 i
  have hleft : ∀ m, Packed.lane (Nat.shiftLeft m 256) i =
      if i < 4 then 0 else Packed.lane m (i - 4) := fun m => lane_shiftLeft m 4 i
  rw [Packed.turned, lane_lor, lane_land, hright, hleft, (lane_masks i hi).2]
  by_cases hlast : i % 5 < 4
  · have hplace : (i + 1) % 5 + 5 * (i / 5) = 1 + i := by omega
    rw [if_pos hlast, hmask, hplace]
    split
    · rw [Nat.or_zero]
    · next h4 =>
      rw [lane_land, (lane_masks (i - 4) (by omega)).1, if_neg (by omega), Nat.and_zero, Nat.or_zero]
  · have hplace : (i + 1) % 5 + 5 * (i / 5) = i - 4 := by omega
    rw [if_neg hlast, Nat.and_zero, Nat.zero_or, if_neg (by omega), lane_land,
      (lane_masks (i - 4) (by omega)).1, if_pos (by omega), hmask, hplace]

theorem Shows.chi (h : Shows n s) : Shows (Packed.chi n) (chi s) := by
  intro i hi
  have hnext : Packed.lane (Packed.turned n) i = (Keccak.lane s (i + 1) (i / 5)).toNat := by
    rw [lane_turned n hi, h _ (by omega), lane]
    have hrow : i / 5 % 5 = i / 5 := by omega
    simp only [hrow]
  have hafter : Packed.lane (Packed.turned (Packed.turned n)) i =
      (Keccak.lane s (i + 2) (i / 5)).toNat := by
    rw [lane_turned _ hi, lane_turned _ (by omega), h _ (by omega), lane]
    have hrow : ((i + 1) % 5 + 5 * (i / 5) + 1) % 5 + 5 * (((i + 1) % 5 + 5 * (i / 5)) / 5) =
        (i + 2) % 5 + 5 * (i / 5 % 5) := by omega
    simp only [hrow]
  have hmasked : ∀ a b : UInt64, a &&& b ^^^ b = ~~~a &&& b := fun a b => by
    rw [← UInt64.toBitVec_inj]
    ext j hj
    simp only [UInt64.toBitVec_xor, UInt64.toBitVec_and, UInt64.toBitVec_not, BitVec.getElem_xor,
      BitVec.getElem_and, BitVec.getElem_not]
    cases a.toBitVec[j] <;> simp
  rw [Packed.chi, lane_xor, lane_xor, lane_land, h i hi, hnext, hafter, ← UInt64.toNat_and,
    ← UInt64.toNat_xor, hmasked, ← UInt64.toNat_xor]
  simp [Keccak.chi]

theorem Shows.round (h : Shows n s) (constant : UInt64) :
    Shows (Packed.round n constant) (round s constant) := by
  intro i hi
  have hconstant : Packed.lane constant.toNat i = if i = 0 then constant.toNat else 0 := by
    have hlt := constant.toNat_lt
    split
    · next h0 => rw [h0, Packed.lane_zero hlt]
    · next h0 => exact Packed.lane_of_lt (k := 1) hlt (Nat.pos_of_ne_zero h0)
  rw [Packed.round, lane_xor, h.theta.rhoPi.chi i hi, hconstant]
  simp only [Keccak.round, Vector.getElem_set]
  by_cases h0 : i = 0
  · subst h0
    simp
  · simp [h0, Ne.symm h0]

/-- Steps that keep what a number shows may be repeated. -/
theorem Shows.foldl {α : Type} {f : Nat → α → Nat} {g : Lanes → α → Lanes}
    (hstep : ∀ {n s} (a : α), Shows n s → Shows (f n a) (g s a)) (l : List α) (h : Shows n s) :
    Shows (l.foldl f n) (l.foldl g s) := by
  induction l generalizing n s with
  | nil => exact h
  | cons a l ih =>
    rw [List.foldl_cons, List.foldl_cons]
    exact ih (hstep a h)

theorem Shows.permute (h : Shows n s) : Shows (Packed.permute n) (permute s) := by
  rw [Packed.permute, Keccak.permute]
  exact h.foldl (fun c h => h.round c) roundConstants

/-! ## Hashes -/

theorem littleEndian_lt (b : Bytes) : Packed.littleEndian b < 2 ^ (8 * b.length) := by
  induction b with
  | nil => exact Nat.one_pos
  | cons d b ih =>
    have hd := d.toNat_lt
    have hcons : Packed.littleEndian (d :: b) = d.toNat + 256 * Packed.littleEndian b := rfl
    have hpow : 2 ^ (8 * (d :: b).length) = 256 * 2 ^ (8 * b.length) := by
      rw [List.length_cons]
      ring
    omega

/-- At most eight bytes give the number of their lane. -/
theorem laneOfBytes_toNat {b : Bytes} (h : b.length ≤ 8) :
    (laneOfBytes b).toNat = Packed.littleEndian b := by
  induction b with
  | nil => rfl
  | cons d b ih =>
    rw [List.length_cons] at h
    have hb := ih (by omega)
    have hd := d.toNat_lt
    have hcons : Packed.littleEndian (d :: b) = d.toNat + 256 * Packed.littleEndian b := rfl
    have hlane : laneOfBytes (d :: b) = (laneOfBytes b <<< 8) ||| d.toUInt64 := rfl
    have hlt : 2 ^ 8 * Packed.littleEndian b < 2 ^ 64 := by
      have hpow : 2 ^ 8 * 2 ^ (8 * b.length) ≤ 2 ^ 64 := by
        rw [← pow_add]
        exact Nat.pow_le_pow_right (by decide) (by omega)
      have := littleEndian_lt b
      omega
    have h8 : (8 : UInt64).toNat % 64 = 8 := rfl
    rw [hlane, UInt64.toNat_or, UInt64.toNat_shiftLeft, h8, hb, UInt8.toNat_toUInt64,
      Nat.shiftLeft_eq, Nat.mul_comm, Nat.mod_eq_of_lt hlt, ← Nat.two_pow_add_eq_or_of_lt hd, hcons]
    omega

theorem length_of_mem_pieces {α : Type} {k count : Nat} {l p : List α}
    (h : p ∈ pieces k count l) : p.length ≤ k := by
  induction count generalizing l with
  | zero => cases h
  | succ count ih =>
    rcases List.mem_cons.1 h with rfl | h
    · exact List.length_take_le k l
    · exact ih h

theorem Shows.absorb (h : Shows n s) (block : Bytes) :
    Shows (Packed.absorb n block) (absorb s block) := by
  refine Shows.permute fun i hi => ?_
  have hmap : (pieces 8 17 block).map Packed.littleEndian =
      ((pieces 8 17 block).map laneOfBytes).map UInt64.toNat := by
    rw [List.map_map]
    exact List.map_congr_left fun p hp => (laneOfBytes_toNat (length_of_mem_pieces hp)).symm
  have hlt : ∀ x ∈ (pieces 8 17 block).map Packed.littleEndian, x < 2 ^ 64 := by
    rw [hmap]
    exact List.forall_mem_map.2 fun x _ => x.toNat_lt
  have hblock : Packed.lane (Packed.ofBlock block) i =
      (((pieces 8 17 block).map laneOfBytes).getD i 0).toNat := by
    rw [Packed.ofBlock, lane_ofLanes hlt, hmap, List.getD_eq_getElem?_getD, List.getElem?_map,
      List.getD_eq_getElem?_getD]
    cases ((pieces 8 17 block).map laneOfBytes)[i]? <;> rfl
  rw [lane_xor, h i hi, hblock]
  simp

end

/-- The bytes of a hash, found by computing with numbers. -/
def Packed.hashBytes (message : Bytes) : Bytes :=
  let n := (pieces rate (message.length / rate + 1) (message ++ padding message.length)).foldl
    Packed.absorb 0
  (List.range 4).flatMap fun i => bytesOfLane (.ofNat (Packed.lane n i))

/-- The bytes of a hash are those that the numbers give. -/
theorem hash_toBytes (message : Bytes) : (hash message).toBytes = Packed.hashBytes message := by
  have hzero : Shows 0 (Vector.replicate 25 0) := by
    intro i hi
    rw [Packed.lane_zero_left, Vector.getElem_replicate]
    rfl
  have h := hzero.foldl (fun b h => h.absorb b)
    (pieces rate (message.length / rate + 1) (message ++ padding message.length))
  simp [hash, Packed.hashBytes, squeeze, List.range_succ, h 0, h 1, h 2, h 3]

/-- The hash of a byte string, found by computing with numbers. -/
def Packed.hash (message : Bytes) : Word :=
  ⟨hashBytes message, by rw [← hash_toBytes, FixedBytes.length_eq]⟩

end Keccak

/-- Every hash can be found by computing with numbers. -/
theorem digest_eq (message : Bytes) : digest message = Keccak.Packed.hash message :=
  FixedBytes.ext (Keccak.hash_toBytes message)

theorem digest_toBytes (message : Bytes) :
    (digest message).toBytes = Keccak.Packed.hashBytes message :=
  Keccak.hash_toBytes message

theorem digest_toNat (message : Bytes) :
    (digest message).toNat = Bytes.toNat (Keccak.Packed.hashBytes message) :=
  congrArg Bytes.toNat (digest_toBytes message)

/-! Hashes are compared by the bytes that are computed. -/

theorem digest_eq_iff {message : Bytes} {w : Word} :
    digest message = w ↔ Keccak.Packed.hashBytes message = w.toBytes := by
  rw [FixedBytes.ext_iff, digest_toBytes]

theorem digest_eq_digest_iff {a b : Bytes} :
    digest a = digest b ↔ Keccak.Packed.hashBytes a = Keccak.Packed.hashBytes b := by
  rw [digest_eq_iff, digest_toBytes]

end Stateless
