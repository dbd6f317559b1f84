import Mathlib.Tactic.Ring
import Mathlib.Data.List.Induction
import Stateless.Rlp.Reader
import Stateless.Rlp.Writer

/-!
# Reading what was written

An item that was written reads back, whatever bytes follow it, as long as its length fits in eight
bytes. The main statements are `frames_data`, `frames_list` and `items_flatten`. In particular no two
lists of items are written alike (`list_inj`).
-/

namespace Stateless

namespace Bytes

/-- The first digit of a number. -/
theorem ofNatWidth_succ (w n : Nat) :
    ofNatWidth (w + 1) n = UInt8.ofNat (n / 256 ^ w) :: ofNatWidth w n := by
  induction w generalizing n with
  | zero => simp [ofNatWidth]
  | succ w ih =>
    have hdiv : n / 256 / 256 ^ w = n / 256 ^ (w + 1) := by
      rw [Nat.div_div_eq_div_mul, pow_succ']
    rw [ofNatWidth, ih (n / 256), hdiv, List.cons_append, ofNatWidth]

theorem toNat_lt (b : Bytes) : toNat b < 256 ^ b.length := by
  induction b using List.reverseRecOn with
  | nil => simp [toNat]
  | append_singleton b d ih =>
    have hd := d.toNat_lt
    rw [toNat_append_singleton, List.length_append, List.length_singleton, pow_succ]
    omega

theorem pow_digitCount_le {n : Nat} (hn : n ≠ 0) : 256 ^ (digitCount n - 1) ≤ n := by
  have hlog : 2 ^ n.log2 ≤ n := Nat.log2_self_le hn
  have hpow : 256 ^ (n.log2 / 8) = 2 ^ (8 * (n.log2 / 8)) := by
    rw [pow_mul]
    norm_num
  rw [digitCount, if_neg hn, Nat.add_sub_cancel, hpow]
  exact (Nat.pow_le_pow_right (by omega) (by omega)).trans hlog

theorem lt_pow_digitCount (n : Nat) : n < 256 ^ digitCount n := by
  by_cases hn : n = 0
  · simp [hn, digitCount]
  · have hpow : 256 ^ (n.log2 / 8 + 1) = 2 ^ (8 * (n.log2 / 8 + 1)) := by
      rw [pow_mul]
      norm_num
    rw [digitCount, if_neg hn, hpow]
    exact Nat.lt_log2_self.trans_le (Nat.pow_le_pow_right (by omega) (by omega))

/-- The digits of a number read back. -/
@[simp] theorem toNat_ofNat (n : Nat) : toNat (ofNat n) = n := by
  rw [ofNat, toNat_ofNatWidth]
  exact Nat.mod_eq_of_lt (lt_pow_digitCount n)

@[simp] theorem length_ofNat (n : Nat) : (ofNat n).length = digitCount n := length_ofNatWidth _ n

theorem digitCount_le {n w : Nat} (h : n < 256 ^ w) : digitCount n ≤ w := by
  by_cases hn : n = 0
  · simp [hn, digitCount]
  · by_contra hlt
    have h₁ := pow_digitCount_le hn
    have h₂ : 256 ^ w ≤ 256 ^ (digitCount n - 1) := Nat.pow_le_pow_right (by omega) (by omega)
    omega

theorem digitCount_pos {n : Nat} (hn : n ≠ 0) : 0 < digitCount n := by
  rw [digitCount, if_neg hn]
  omega

/-- The digits of a number start with one that is not zero. -/
theorem ofNat_eq_cons {n : Nat} (hn : n ≠ 0) : ∃ d rest, ofNat n = d :: rest ∧ d ≠ 0 := by
  obtain ⟨w, hw⟩ := Nat.exists_eq_succ_of_ne_zero (digitCount_pos hn).ne'
  have hle := pow_digitCount_le hn
  have hlt := lt_pow_digitCount n
  rw [hw] at hle hlt
  rw [Nat.succ_sub_one] at hle
  have hone : 1 ≤ n / 256 ^ w := (Nat.one_le_div_iff (Nat.pow_pos (by omega))).2 hle
  have hsmall : n / 256 ^ w < 256 := Nat.div_lt_of_lt_mul (by rwa [← pow_succ])
  refine ⟨_, _, by rw [ofNat, hw, ofNatWidth_succ], fun h => ?_⟩
  have := congrArg UInt8.toNat h
  rw [UInt8.toNat_ofNat'] at this
  simp only [UInt8.toNat_zero] at this
  omega

end Bytes

namespace Rlp

/-- Bytes in front of which an item with the given payload stands, whatever follows. -/
def Frames (item p : Bytes) : Prop :=
  ∃ head, item = head ++ p ∧
    ∀ rest, declaredExtent (item ++ rest) = .ok ⟨head.length, p.length⟩

section

variable {item p rest : Bytes}

theorem Frames.extent (h : Frames item p) (rest : Bytes) :
    ∃ head, item = head ++ p ∧ extent (item ++ rest) = .ok ⟨head.length, p.length⟩ := by
  obtain ⟨head, hitem, hdec⟩ := h
  refine ⟨head, hitem, ?_⟩
  have hle : (⟨head.length, p.length⟩ : Extent).total ≤ (item ++ rest).length := by
    simp [Extent.total, hitem]
  rw [Rlp.extent, hdec]
  exact if_pos hle

theorem Frames.takeItem (h : Frames item p) (rest : Bytes) :
    takeItem (item ++ rest) = .ok (item, rest) := by
  obtain ⟨head, hitem, hext⟩ := h.extent rest
  have hlen : (⟨head.length, p.length⟩ : Extent).total = item.length := by
    simp [Extent.total, hitem]
  rw [Rlp.takeItem, hext]
  simp [hlen]

theorem Frames.payload (h : Frames item p) : payload item = .ok p := by
  obtain ⟨head, hitem, hext⟩ := h.extent []
  rw [List.append_nil] at hext
  rw [Rlp.payload, hext]
  simp [hitem]

theorem Frames.extent_self (h : Frames item p) :
    ∃ e, Rlp.extent item = .ok e ∧ e.total = item.length := by
  obtain ⟨head, hitem, hext⟩ := h.extent []
  rw [List.append_nil] at hext
  exact ⟨_, hext, by simp [Extent.total, hitem]⟩

end

/-! ## Headers -/

/-- A header says how long the payload is. -/
theorem declaredExtent_header {base n : Nat} (hbase : base = 0x80 ∨ base = 0xc0)
    (hn : n < 256 ^ 8) (rest : Bytes) :
    declaredExtent (header base n ++ rest) = .ok ⟨(header base n).length, n⟩ := by
  by_cases hshort : n ≤ 55
  · have hfirst : (UInt8.ofNat (base + n)).toNat = base + n := by
      rw [UInt8.toNat_ofNat']
      omega
    rw [header, if_pos hshort, List.singleton_append]
    simp only [declaredExtent, hfirst]
    rcases hbase with rfl | rfl
    · rw [if_neg (by omega), if_pos (by omega)]
      simp
    · rw [if_neg (by omega), if_neg (by omega), if_neg (by omega), if_pos (by omega)]
      simp
  · have hne : n ≠ 0 := by omega
    have hcount := Bytes.digitCount_le hn
    have hpos := Bytes.digitCount_pos hne
    obtain ⟨d, digits, hdigits, hd⟩ := Bytes.ofNat_eq_cons hne
    have hlong : longExtent (Bytes.digitCount n) (Bytes.ofNat n ++ rest) =
        .ok ⟨1 + Bytes.digitCount n, n⟩ := by
      have htake : (Bytes.ofNat n ++ rest).take (Bytes.digitCount n) = Bytes.ofNat n := by
        rw [← Bytes.length_ofNat, List.take_left]
      have hroom : ¬ (Bytes.ofNat n ++ rest).length < Bytes.digitCount n := by simp
      rw [hdigits, List.cons_append] at htake hroom ⊢
      rw [longExtent, if_neg hd, if_neg hroom, htake, ← hdigits, Bytes.toNat_ofNat, if_neg hshort]
    have hfirst : (UInt8.ofNat (base + 55 + Bytes.digitCount n)).toNat =
        base + 55 + Bytes.digitCount n := by
      rw [UInt8.toNat_ofNat']
      omega
    rw [header, if_neg hshort]
    simp only [Bytes.length_ofNat, List.cons_append, declaredExtent, hfirst, List.length_cons]
    rcases hbase with rfl | rfl
    · rw [if_neg (by omega), if_neg (by omega), if_pos (by omega),
        show 0x80 + 55 + Bytes.digitCount n - 0xb7 = Bytes.digitCount n by omega, hlong,
        Nat.add_comm 1]
    · rw [if_neg (by omega), if_neg (by omega), if_neg (by omega), if_neg (by omega),
        show 0xc0 + 55 + Bytes.digitCount n - 0xf7 = Bytes.digitCount n by omega, hlong,
        Nat.add_comm 1]

theorem frames_header {base : Nat} {p : Bytes} (hbase : base = 0x80 ∨ base = 0xc0)
    (hp : p.length < 256 ^ 8) : Frames (header base p.length ++ p) p :=
  ⟨_, rfl, fun rest => by rw [List.append_assoc, declaredExtent_header hbase hp]⟩

/-- No item that can be read is longer than eight bytes of length can say. -/
theorem extent_total_lt {b : Bytes} {e : Extent} (h : extent b = .ok e) :
    e.total < 256 ^ 8 + 9 := by
  have long : ∀ k rest e, k ≤ 8 → longExtent k rest = .ok e → e.total < 256 ^ 8 + 9 := by
    intro k rest e hk he
    have hhead := header_of_longExtent he
    cases rest with
    | nil => cases he
    | cons first rest =>
      simp only [longExtent] at he
      split at he
      · cases he
      · split at he
        · cases he
        · split at he
          · cases he
          · have hlt := Bytes.toNat_lt ((first :: rest).take k)
            have hpow : 256 ^ ((first :: rest).take k).length ≤ 256 ^ 8 :=
              Nat.pow_le_pow_right (by omega) (by simp; omega)
            rw [← Except.ok.inj he, Extent.total]
            dsimp only
            omega
  have declared : ∀ e, declaredExtent b = .ok e → e.total < 256 ^ 8 + 9 := by
    intro e he
    cases b with
    | nil => cases he
    | cons first rest =>
      have hbyte := first.toNat_lt
      unfold declaredExtent at he
      dsimp only at he
      repeat' split at he
      all_goals first
        | exact long _ _ _ (by omega) he
        | (rw [← Except.ok.inj he, Extent.total]
           dsimp only
           omega)
  unfold extent at h
  split at h
  · cases h
  · next e' he' =>
    split at h
    · obtain rfl := Except.ok.inj h
      exact declared _ he'
    · cases h

/-! ## Items -/

/-- A byte string that was written reads back. -/
theorem frames_data {b : Bytes} (h : b.length < 256 ^ 8) : Frames (data b) b := by
  unfold data
  split
  · next x =>
    split
    · next hx =>
      have hlt : x.toNat < 0x80 := by simpa [UInt8.lt_iff_toNat_lt] using hx
      exact ⟨[], rfl, fun rest => by simp [declaredExtent, hlt]⟩
    · exact ⟨[0x81], rfl, fun rest => by simp [declaredExtent]⟩
  · exact frames_header (Or.inl rfl) h

/-- The first byte of a header tells byte strings from lists. -/
theorem isList_header {base n : Nat} (hbase : base = 0x80 ∨ base = 0xc0) (hn : n < 256 ^ 8)
    (rest : Bytes) : isList (header base n ++ rest) = decide (base = 0xc0) := by
  have hcount := Bytes.digitCount_le hn
  have hfirst : ∀ k, k < 64 → ∀ tail,
      isList (UInt8.ofNat (base + k) :: tail) = decide (base = 0xc0) := by
    intro k hk tail
    have hbyte : (UInt8.ofNat (base + k)).toNat = base + k := by
      rw [UInt8.toNat_ofNat']
      omega
    have hge : (0xc0 : UInt8).toNat = 0xc0 := rfl
    rw [isList, decide_eq_decide, UInt8.le_iff_toNat_le, hbyte, hge]
    omega
  rw [header]
  split
  · exact hfirst n (by omega) rest
  · have := hfirst (55 + Bytes.digitCount n) (by omega) (Bytes.ofNat n ++ rest)
    simpa [Nat.add_assoc] using this

theorem isList_data {b : Bytes} (h : b.length < 256 ^ 8) : isList (data b) = false := by
  unfold data
  split
  · next x =>
    split
    · next hx =>
      have hlt : x.toNat < 0x80 := by simpa [UInt8.lt_iff_toNat_lt] using hx
      rw [isList, decide_eq_false_iff_not, UInt8.le_iff_toNat_le]
      exact Nat.not_le.2 (hlt.trans (by decide))
    · rfl
  · exact isList_header (Or.inl rfl) h b

/-- A list that was written reads back as its items one after the other. -/
theorem frames_list {xs : List Bytes} (h : xs.flatten.length < 256 ^ 8) :
    Frames (list xs) xs.flatten :=
  frames_header (Or.inr rfl) h

theorem isList_list {xs : List Bytes} (h : xs.flatten.length < 256 ^ 8) :
    isList (list xs) = true :=
  isList_header (Or.inr rfl) h xs.flatten

/-- A list whose length can be said at all has a payload whose length can. -/
theorem flatten_length_lt {xs : List Bytes} (h : (list xs).length < 256 ^ 8 + 9) :
    xs.flatten.length < 256 ^ 8 := by
  by_contra hge
  have hlong : ¬ xs.flatten.length ≤ 55 := by omega
  have hcount : 9 ≤ Bytes.digitCount xs.flatten.length := by
    by_contra hlt
    have h₁ := Bytes.lt_pow_digitCount xs.flatten.length
    have h₂ : 256 ^ Bytes.digitCount xs.flatten.length ≤ 256 ^ 8 :=
      Nat.pow_le_pow_right (by omega) (by omega)
    omega
  have hlen : (list xs).length = 1 + Bytes.digitCount xs.flatten.length + xs.flatten.length := by
    rw [list]
    simp only [header, if_neg hlong, List.cons_append, List.length_cons, List.length_append,
      Bytes.length_ofNat]
    omega
  omega

theorem length_le_of_mem {x : Bytes} {xs : List Bytes} (h : x ∈ xs) :
    x.length ≤ xs.flatten.length :=
  (List.sublist_flatten_of_mem h).length_le

theorem flatten_length_le (xs : List Bytes) : xs.flatten.length ≤ (list xs).length := by
  rw [list, List.length_append]
  omega

theorem length_le_data (b : Bytes) : b.length ≤ (data b).length := by
  unfold data
  split
  · split <;> simp
  · rw [List.length_append]
    omega

theorem length_header_le (base : Nat) {n : Nat} (hn : n < 256 ^ 8) : (header base n).length ≤ 9 := by
  have hcount := Bytes.digitCount_le hn
  rw [header]
  split
  · simp
  · rw [List.length_cons, Bytes.length_ofNat]
    omega

theorem length_data_le {b : Bytes} (h : b.length < 256 ^ 8) :
    (data b).length ≤ b.length + 9 := by
  have hheader := length_header_le 0x80 h
  unfold data
  split
  · split <;> simp
  · rw [List.length_append]
    omega

theorem length_list_le {xs : List Bytes} (h : xs.flatten.length < 256 ^ 8) :
    (list xs).length ≤ xs.flatten.length + 9 := by
  have hheader := length_header_le 0xc0 h
  rw [list, List.length_append]
  omega

/-- A byte string that is written within a list whose length can be said reads back. -/
theorem frames_data_of_mem {b : Bytes} {xs : List Bytes} (hb : data b ∈ xs)
    (h : xs.flatten.length < 256 ^ 8) : Frames (data b) b :=
  frames_data (((length_le_data b).trans (length_le_of_mem hb)).trans_lt h)

/-- Items that were written one after the other are split again. -/
theorem items_flatten (xs : List Bytes) (h : ∀ x ∈ xs, ∃ p, Frames x p) :
    items xs.flatten = xs := by
  induction xs with
  | nil => rw [items]; rfl
  | cons x xs ih =>
    obtain ⟨p, hp⟩ := h x List.mem_cons_self
    have htake := hp.takeItem xs.flatten
    rw [List.flatten_cons, items]
    split
    · next e he => rw [he] at htake; cases htake
    · next item rest he =>
      obtain ⟨rfl, rfl⟩ := Prod.mk.inj (Except.ok.inj (he.symm.trans htake))
      rw [ih fun y hy => h y (List.mem_cons_of_mem _ hy)]

/-- Byte strings that are written alike are the same. -/
theorem data_inj {a b : Bytes} (ha : (data a).length < 256 ^ 8) (h : data a = data b) : a = b := by
  have hpa := (frames_data ((length_le_data a).trans_lt ha)).payload
  have hpb := (frames_data ((length_le_data b).trans_lt (h ▸ ha))).payload
  rw [h, hpb] at hpa
  exact (Except.ok.inj hpa).symm

/-- Lists of items that are written alike are the same. -/
theorem list_inj {xs ys : List Bytes} (hlen : (list xs).length < 256 ^ 8 + 9)
    (hxs : ∀ x ∈ xs, ∃ p, Frames x p) (hys : ∀ y ∈ ys, ∃ p, Frames y p)
    (h : list xs = list ys) : xs = ys := by
  have hpx := (frames_list (flatten_length_lt hlen)).payload
  have hpy := (frames_list (flatten_length_lt (h ▸ hlen))).payload
  rw [h, hpy] at hpx
  have hflat : xs.flatten = ys.flatten := (Except.ok.inj hpx).symm
  rw [← items_flatten xs hxs, hflat, items_flatten ys hys]

end Rlp

end Stateless
