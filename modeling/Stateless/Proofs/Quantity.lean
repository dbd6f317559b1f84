import Stateless.Json.States
import Stateless.Proofs.Account

/-!
# Quantities are natural numbers

A quantity keeps base-256 digits and is written and read in base 16. Both are ways to write one
natural number, so every question about a quantity is one about its number: `toNat_inj` compares two,
`length_digits_le_iff` says which fit in a width, `text_eq` and `parse?_eq_some_iff` how they are
written and what is read as one. `is_number` puts them together.
-/

namespace Stateless

/-! ## Digits of bytes -/

namespace Bytes

theorem toNat_cons (d : UInt8) (b : Bytes) : toNat (d :: b) = d.toNat * 256 ^ b.length + toNat b := by
  induction b using List.reverseRecOn with
  | nil => simp [toNat]
  | append_singleton b x ih =>
    rw [← List.cons_append, toNat_append_singleton, ih, toNat_append_singleton, List.length_append,
      List.length_singleton, pow_succ]
    ring

theorem toNat_trim (b : Bytes) : toNat (trim b) = toNat b := by
  induction b with
  | nil => rfl
  | cons d b ih =>
    by_cases hd : d = 0
    · subst hd
      rw [toNat_cons, ← ih]
      simp [trim]
    · rw [trim, List.dropWhile_cons_of_neg (by simpa using hd)]

theorem toNat_replicate_zero_append (k : Nat) (b : Bytes) :
    toNat (List.replicate k 0 ++ b) = toNat b := by
  induction k with
  | zero => rfl
  | succ k ih =>
    rw [List.replicate_succ, List.cons_append, toNat_cons, ih]
    simp

/-- Bytes that do not start with a zero are the digits of their number. -/
theorem ofNat_toNat {b : Bytes} (h : b.head? ≠ some 0) : ofNat (toNat b) = b := by
  have hcount : digitCount (toNat b) = b.length := by
    refine Nat.le_antisymm (digitCount_le (toNat_lt b)) ?_
    cases b with
    | nil => exact Nat.zero_le _
    | cons d b =>
      have hd : d.toNat ≠ 0 := by
        intro hzero
        have : d = 0 := UInt8.toNat_inj.1 hzero
        exact h (congrArg some this)
      have hle : 256 ^ b.length ≤ toNat (d :: b) := by
        rw [toNat_cons]
        have : 1 * 256 ^ b.length ≤ d.toNat * 256 ^ b.length :=
          Nat.mul_le_mul_right _ (Nat.pos_of_ne_zero hd)
        omega
      exact (Nat.pow_lt_pow_iff_right (by decide)).1 (hle.trans_lt (lt_pow_digitCount _))
  rw [ofNat, hcount, ofNatWidth_toNat]

end Bytes

/-! ## Digits of texts -/

namespace Hex

/-- The number whose base-16 digits, most significant first, are the nibbles. -/
def number (ds : List Nibble) : Nat := ds.foldl (fun n d => 16 * n + d.val) 0

/-- A text of digits, each in either case. -/
def Spells (cs : List Char) (ds : List Nibble) : Prop :=
  List.Forall₂ (fun c d => c = Nat.digitChar d.val ∨ c = (Nat.digitChar d.val).toUpper) cs ds

theorem digit_eq (d : Nibble) : digit d = Nat.digitChar d.val := by
  revert d
  decide

/-- Sixteen digits are read, the letters among them in either case. -/
theorem digit?_eq_some_iff {c : Char} {d : Nibble} :
    digit? c = some d ↔ c = Nat.digitChar d.val ∨ c = (Nat.digitChar d.val).toUpper := by
  constructor
  · have hcodes : ∀ n : Nat, n < 128 → ∀ d, digit? (Char.ofNat n) = some d →
        Char.ofNat n = Nat.digitChar d.val ∨ Char.ofNat n = (Nat.digitChar d.val).toUpper := by
      decide +kernel
    intro h
    have hlt : c.toNat < 128 := by
      unfold digit? at h
      have hupper : ∀ x : Char, x.toNat < 128 → c ≤ x → c.toNat < 128 := fun x hx hc =>
        Nat.lt_of_le_of_lt (show c.toNat ≤ x.toNat from hc) hx
      split at h
      · next hc => exact hupper '9' (by decide) hc.2
      · split at h
        · next hc => exact hupper 'f' (by decide) hc.2
        · split at h
          · next hc => exact hupper 'F' (by decide) hc.2
          · cases h
    have := hcodes c.toNat hlt d
    rw [Char.ofNat_toNat] at this
    exact this h
  · revert d
    rintro d (rfl | rfl) <;> revert d <;> decide

theorem digits?_eq_some_iff {cs : List Char} {ds : List Nibble} :
    digits? cs = some ds ↔ Spells cs ds := by
  induction cs generalizing ds with
  | nil => simp [digits?, Spells, eq_comm]
  | cons c cs ih =>
    have hstep : digits? (c :: cs) =
        (digit? c).bind fun d => (digits? cs).bind fun ds => some (d :: ds) := by
      rw [digits?, List.mapM_cons]
      rfl
    rw [hstep, Spells, List.forall₂_cons_left_iff]
    simp only [Option.bind_eq_some_iff, Option.some.injEq]
    constructor
    · rintro ⟨d, hd, rest, hrest, rfl⟩
      exact ⟨d, rest, digit?_eq_some_iff.1 hd, ih.1 hrest, rfl⟩
    · rintro ⟨d, rest, hd, hrest, rfl⟩
      exact ⟨d, digit?_eq_some_iff.2 hd, rest, ih.2 hrest, rfl⟩

theorem digits?_zero_cons (cs : List Char) : digits? ('0' :: cs) = (digits? cs).map (0 :: ·) := by
  have hzero : digit? '0' = some 0 := rfl
  rw [digits?, List.mapM_cons, hzero]
  show (digits? cs).bind _ = _
  cases digits? cs <;> rfl

theorem foldl_ofNibbles (ds : List Nibble) (heven : ds.length % 2 = 0) (n : Nat) :
    (Bytes.ofNibbles ds).foldl (fun n d => 256 * n + d.toNat) n =
      ds.foldl (fun n d => 16 * n + d.val) n := by
  fun_induction Bytes.ofNibbles ds generalizing n with
  | case1 u l rest ih =>
    have hpack : (Nibble.pack u l).toNat = 16 * u.val + l.val := by
      rw [Nibble.pack, UInt8.toNat_ofNat']
      omega
    have hstep : 256 * n + (Nibble.pack u l).toNat = 16 * (16 * n + u.val) + l.val := by
      rw [hpack]
      ring
    rw [List.foldl_cons, List.foldl_cons, List.foldl_cons, hstep]
    exact ih (by simp only [List.length_cons] at heven; omega) _
  | case2 ds hshort =>
    rcases ds with _ | ⟨u, _ | ⟨l, rest⟩⟩
    · rfl
    · simp at heven
    · exact absurd rfl (hshort u l rest)

/-- Two nibbles to a byte make the same number. -/
theorem toNat_ofNibbles {ds : List Nibble} (heven : ds.length % 2 = 0) :
    Bytes.toNat (Bytes.ofNibbles ds) = number ds := foldl_ofNibbles ds heven 0

theorem number_nibbles (b : Bytes) : number (Bytes.nibbles b) = Bytes.toNat b := by
  rw [← toNat_ofNibbles (by simp), Bytes.ofNibbles_nibbles]

theorem number_concat (ds : List Nibble) (d : Nibble) :
    number (ds ++ [d]) = 16 * number ds + d.val := by
  simp [number]

theorem number_dropWhile_zero (ds : List Nibble) : number (ds.dropWhile (· = 0)) = number ds := by
  induction ds with
  | nil => rfl
  | cons d ds ih =>
    by_cases hd : d = 0
    · subst hd
      rw [List.dropWhile_cons_of_pos (by simp), ih]
      simp [number]
    · rw [List.dropWhile_cons_of_neg (by simpa using hd)]

theorem foldl_pos {ds : List Nibble} {n : Nat} (hn : 0 < n) :
    0 < ds.foldl (fun n d => 16 * n + d.val) n := by
  induction ds generalizing n with
  | nil => exact hn
  | cons d ds ih =>
    rw [List.foldl_cons]
    exact ih (by omega)

theorem number_pos {d : Nibble} (hd : d ≠ 0) (ds : List Nibble) : 0 < number (d :: ds) := by
  have : 0 < d.val := Nat.pos_of_ne_zero fun h => hd (Fin.ext h)
  rw [number, List.foldl_cons]
  exact foldl_pos (by omega)

/-- Digits that do not start with a zero are those that the number is written with. -/
theorem map_digit_eq_toDigits {d : Nibble} (hd : d ≠ 0) (ds : List Nibble) :
    (d :: ds).map digit = Nat.toDigits 16 (number (d :: ds)) := by
  induction ds using List.reverseRecOn with
  | nil =>
    have hnumber : number [d] = d.val := by simp [number]
    rw [hnumber, Nat.toDigits_of_lt_base d.isLt, List.map_singleton, digit_eq]
  | append_singleton ds x ih =>
    rw [← List.cons_append, List.map_append, ih, number_concat, List.map_singleton, digit_eq,
      ← Nat.toDigits_of_lt_base x.isLt]
    exact Nat.toDigits_append_toDigits (by decide) (number_pos hd ds) x.isLt

theorem dropWhile_map_digit (ds : List Nibble) :
    (ds.map digit).dropWhile (· == '0') = (ds.dropWhile (· = 0)).map digit := by
  have hzero : ∀ d : Nibble, (digit d == '0') = decide (d = 0) := by decide
  induction ds with
  | nil => rfl
  | cons d ds ih =>
    rw [List.map_cons, List.dropWhile_cons, List.dropWhile_cons, hzero, ih]
    split <;> rfl

end Hex

/-! ## Quantities -/

namespace Quantity

variable {q q' : Quantity} {w : Nat}

theorem digits_eq (q : Quantity) : q.digits = Bytes.ofNat q.toNat :=
  (Bytes.ofNat_toNat q.head_ne_zero).symm

theorem toNat_ofBytes (b : Bytes) : (ofBytes b).toNat = Bytes.toNat b := Bytes.toNat_trim b

theorem toNat_ofNat (n : Nat) : (ofNat n).toNat = n := by
  rw [ofNat, toNat_ofBytes, Bytes.toNat_ofNat]

/-- Quantities are told apart by their numbers. -/
theorem toNat_inj : q.toNat = q'.toNat ↔ q = q' := by
  refine ⟨fun h => ?_, fun h => congrArg toNat h⟩
  have hdigits : q.digits = q'.digits := by rw [digits_eq, digits_eq, h]
  cases q
  cases q'
  cases hdigits
  rfl

theorem ofNat_toNat (q : Quantity) : ofNat q.toNat = q := toNat_inj.1 (toNat_ofNat _)

/-- A number has at most so many digits exactly if it is below the power. -/
theorem length_digits_le_iff : q.digits.length ≤ w ↔ q.toNat < 256 ^ w := by
  constructor
  · intro h
    exact (Bytes.toNat_lt q.digits).trans_le (Nat.pow_le_pow_right (by decide) h)
  · intro h
    rw [digits_eq, Bytes.length_ofNat]
    exact Bytes.digitCount_le h

theorem toUInt64?_eq (q : Quantity) :
    q.toUInt64? = if q.toNat < 2 ^ 64 then some (UInt64.ofNat q.toNat) else none := by
  have hiff : q.digits.length ≤ 8 ↔ q.toNat < 2 ^ 64 := length_digits_le_iff
  rw [toUInt64?]
  simp only [hiff]

theorem toAmount?_eq (q : Quantity) :
    q.toAmount? = if q.toNat < 2 ^ 256 then some (.ofNat 256 q.toNat) else none := by
  have hiff : q.digits.length ≤ 32 ↔ q.toNat < 2 ^ 256 := length_digits_le_iff
  rw [toAmount?]
  simp only [hiff]

theorem toWord?_eq (q : Quantity) :
    q.toWord? = if q.toNat < 2 ^ 256 then some (.ofNat 32 q.toNat) else none := by
  have hiff : q.digits.length ≤ 32 ↔ q.toNat < 2 ^ 256 := length_digits_le_iff
  rw [toWord?]
  by_cases h : q.toNat < 2 ^ 256
  · rw [if_pos (hiff.2 h), if_pos h]
    have hle := hiff.2 h
    have hpad : (FixedBytes.padLeft 32 q.digits).toBytes =
        List.replicate (32 - q.digits.length) 0 ++ q.digits := by
      show _ ++ q.digits.drop (q.digits.length - 32) = _
      rw [Nat.sub_eq_zero_of_le hle, List.drop_zero]
    have hnumber : (FixedBytes.padLeft 32 q.digits).toNat = q.toNat := by
      rw [FixedBytes.toNat, hpad, Bytes.toNat_replicate_zero_append]
      rfl
    rw [← hnumber, FixedBytes.ofNat_toNat]
  · rw [if_neg (mt hiff.1 h), if_neg h]

/-- The nibbles that a quantity is written with. -/
theorem exists_text_eq (q : Quantity) : ∃ ds : List Nibble,
    q.text = String.ofList ('0' :: 'x' :: ds.map Hex.digit) ∧ Hex.number ds = q.toNat ∧
      ds.map Hex.digit = Nat.toDigits 16 q.toNat := by
  have hnumber : Hex.number ((Bytes.nibbles q.digits).dropWhile (· = 0)) = q.toNat := by
    rw [Hex.number_dropWhile_zero, Hex.number_nibbles]
    rfl
  rw [text, Hex.encode, Hex.dropWhile_map_digit]
  have hhead := List.head?_dropWhile_not (· = (0 : Nibble)) (Bytes.nibbles q.digits)
  cases hds : (Bytes.nibbles q.digits).dropWhile (· = 0) with
  | nil =>
    rw [hds] at hnumber
    refine ⟨[0], rfl, hnumber, ?_⟩
    rw [← hnumber]
    decide
  | cons d ds =>
    rw [hds] at hnumber
    have hd : d ≠ 0 := by simpa [hds] using hhead
    refine ⟨d :: ds, rfl, hnumber, ?_⟩
    rw [← hnumber, Hex.map_digit_eq_toDigits hd ds]

/-- A quantity is written in lower-case digits without leading zeroes, zero as a single one. -/
theorem text_eq (q : Quantity) : q.text = "0x" ++ String.ofList (Nat.toDigits 16 q.toNat) := by
  obtain ⟨ds, htext, -, hds⟩ := exists_text_eq q
  rw [htext, hds, ← String.toList_inj]
  simp

theorem parse?_eq (s : String) :
    parse? s = (Hex.digits? (Hex.afterMark s.toList)).map fun ds => ofNat (Hex.number ds) := by
  have heven : ∀ cs : List Char, cs.length % 2 = 0 →
      (Hex.decode cs).map ofBytes = (Hex.digits? cs).map fun ds => ofNat (Hex.number ds) := by
    intro cs hcs
    rw [Hex.decode, if_pos hcs, Option.map_map]
    cases hds : Hex.digits? cs with
    | none => rfl
    | some ds =>
      have hlen : ds.length % 2 = 0 := by
        rwa [← (Hex.digits?_eq_some_iff.1 hds).length_eq]
      have hnumber := Hex.toNat_ofNibbles hlen
      rw [Option.map_some, Option.map_some, Function.comp_apply, ← ofNat_toNat (ofBytes _),
        toNat_ofBytes, hnumber]
  rw [parse?, readBytes?]
  by_cases hodd : (Hex.afterMark s.toList).length % 2 = 1
  · rw [if_pos hodd, heven _ (by rw [List.length_cons]; omega), Hex.digits?_zero_cons,
      Option.map_map]
    rfl
  · rw [if_neg hodd, heven _ (by omega)]

/-- What is read as a quantity: any digits in either case, with or without a `0x`. -/
theorem parse?_eq_some_iff {s : String} : parse? s = some q ↔ ∃ cs ds, Hex.Spells cs ds ∧
    (s = String.ofList cs ∨ s = "0x" ++ String.ofList cs) ∧ q.toNat = Hex.number ds := by
  have hx : Hex.digit? 'x' = none := rfl
  rw [parse?_eq, Option.map_eq_some_iff]
  constructor
  · rintro ⟨ds, hds, rfl⟩
    refine ⟨_, ds, Hex.digits?_eq_some_iff.1 hds, ?_, toNat_ofNat _⟩
    unfold Hex.afterMark
    split
    · next rest hs =>
      refine Or.inr ?_
      rw [← String.toList_inj, hs]
      simp
    · exact Or.inl (by simp)
  · rintro ⟨cs, ds, hcs, hs, hq⟩
    refine ⟨ds, Hex.digits?_eq_some_iff.2 ?_, by rw [← hq, ofNat_toNat]⟩
    rcases hs with rfl | rfl
    · have hmark : Hex.afterMark cs = cs := by
        unfold Hex.afterMark
        split
        · next rest =>
          -- no digits start with the mark
          have hdigits := Hex.digits?_eq_some_iff.2 hcs
          simp [Hex.digits?, hx] at hdigits
        · rfl
      rw [String.toList_ofList, hmark]
      exact hcs
    · have hmark : Hex.afterMark ("0x" ++ String.ofList cs).toList = cs := by
        simp [Hex.afterMark]
      rwa [hmark]

theorem parse?_text (q : Quantity) : parse? q.text = some q := by
  obtain ⟨ds, htext, hnumber, -⟩ := exists_text_eq q
  have hmark : Hex.afterMark q.text.toList = ds.map Hex.digit := by
    rw [htext, String.toList_ofList]
    rfl
  rw [parse?_eq, hmark, Hex.digits?_map_digit, Option.map_some, hnumber, ofNat_toNat]

/-- A quantity is a natural number: its bytes, its comparison, what it is in each type that it may
fit in, its text and what is read as one depend on the number alone. -/
theorem is_number (b : Bytes) :
    (ofBytes b).digits.head? ≠ some 0 ∧ Bytes.toNat (ofBytes b).digits = Bytes.toNat b ∧
    (∀ b', ofBytes b = ofBytes b' ↔ Bytes.toNat b = Bytes.toNat b') ∧
    (ofBytes b).toUInt64? =
      (if Bytes.toNat b < 2 ^ 64 then some (UInt64.ofNat (Bytes.toNat b)) else none) ∧
    (ofBytes b).toAmount? =
      (if Bytes.toNat b < 2 ^ 256 then some (BitVec.ofNat 256 (Bytes.toNat b)) else none) ∧
    (ofBytes b).toWord? =
      (if Bytes.toNat b < 2 ^ 256 then some (FixedBytes.ofNat 32 (Bytes.toNat b)) else none) ∧
    (ofBytes b).text = "0x" ++ String.ofList (Nat.toDigits 16 (Bytes.toNat b)) ∧
    ∀ s q, Json.quantity? (.string s) = some q ↔ ∃ cs ds, Hex.Spells cs ds ∧
      (s = String.ofList cs ∨ s = "0x" ++ String.ofList cs) ∧ q.toNat = Hex.number ds := by
  have hnumber : (ofBytes b).toNat = Bytes.toNat b := toNat_ofBytes b
  refine ⟨(ofBytes b).head_ne_zero, hnumber, fun b' => ?_, ?_, ?_, ?_, ?_, fun s q => ?_⟩
  · rw [← toNat_inj, hnumber, toNat_ofBytes]
  · rw [toUInt64?_eq, hnumber]
  · rw [toAmount?_eq, hnumber]
  · rw [toWord?_eq, hnumber]
  · rw [text_eq, hnumber]
  · exact parse?_eq_some_iff

/-- Leading zeroes of either kind do not count. -/
example : parse? "0x000aB" = some (ofBytes [0, 0xab]) := by decide

end Quantity

end Stateless
