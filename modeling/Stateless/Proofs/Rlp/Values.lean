import Stateless.Proofs.Rlp.Items

/-!
# Reading values that were written

A number or a word that was written as an item is read back as a value of its type. The main
statements are `number64_number`, `number256_number` and `word_data`.
-/

namespace Stateless

namespace Bytes

/-- Bytes are the digits of the number that they stand for. -/
theorem ofNatWidth_toNat (b : Bytes) : ofNatWidth b.length (toNat b) = b := by
  induction b using List.reverseRecOn with
  | nil => rfl
  | append_singleton b d ih =>
    have hd := d.toNat_lt
    have hdiv : (256 * toNat b + d.toNat) / 256 = toNat b := by omega
    have hlast : UInt8.ofNat (256 * toNat b + d.toNat) = d := by
      rw [← UInt8.toNat_inj, UInt8.toNat_ofNat']
      omega
    rw [toNat_append_singleton, List.length_append, List.length_singleton, ofNatWidth, hdiv, ih,
      hlast]

/-- The digits of a number start with a zero only if there are none. -/
theorem headD_ofNat_ne_zero (n : Nat) : (ofNat n).headD 1 ≠ 0 := by
  by_cases hn : n = 0
  · subst hn
    decide
  · obtain ⟨d, rest, h, hd⟩ := ofNat_eq_cons hn
    rw [h]
    exact hd

/-- There are no leading zeroes to be taken off. -/
theorem trim_ofNat (n : Nat) : trim (ofNat n) = ofNat n := by
  by_cases hn : n = 0
  · subst hn
    decide
  · obtain ⟨d, rest, h, hd⟩ := ofNat_eq_cons hn
    rw [h, trim, List.dropWhile_cons_of_neg (by simpa using hd)]

end Bytes

namespace Rlp

variable {b : Bytes} {n : Nat}

/-- The value of a short byte string is read back. -/
theorem value_data (h : b.length ≤ 55) : value (data b) = .ok b := by
  have hlong : ∀ b : Bytes, b.length ≤ 55 → b.length ≠ 1 →
      value (header 0x80 b.length ++ b) = .ok b := fun b hb hone => by
    have hfirst : (UInt8.ofNat (0x80 + b.length)).toNat = 0x80 + b.length := by
      rw [UInt8.toNat_ofNat']
      omega
    rw [header, if_pos hb, List.singleton_append, value]
    simp only [hfirst]
    rw [if_neg (by omega), if_pos (by omega), Nat.add_sub_cancel_left, if_neg (by omega),
      if_neg (fun h => hone h.1), List.take_length]
  rcases b with _ | ⟨x, _ | ⟨y, rest⟩⟩
  · exact hlong [] h (by simp)
  · rw [data]
    split
    · next hx =>
      have hlt : x.toNat < 0x80 := by simpa [UInt8.lt_iff_toNat_lt] using hx
      rw [value, if_pos hlt]
    · next hx =>
      have hge : ¬ x.toNat < 0x80 := by simpa [UInt8.lt_iff_toNat_lt] using hx
      simp [value, hge]
  · exact hlong (x :: y :: rest) h (by simp)

theorem number64_number (n : UInt64) : number64 (number n.toNat) = .ok n := by
  have hlen : (Bytes.ofNat n.toNat).length ≤ 8 := by
    rw [Bytes.length_ofNat]
    exact Bytes.digitCount_le n.toNat_lt
  rw [number64, number, value_data (by omega)]
  simp only [bind, Except.bind]
  rw [if_neg (Nat.not_lt.2 hlen), if_neg (Bytes.headD_ofNat_ne_zero _), Bytes.toNat_ofNat,
    UInt64.ofNat_toNat]
  rfl

theorem number256_number (n : BitVec 256) : number256 (number n.toNat) = .ok n := by
  have hlen : (Bytes.ofNat n.toNat).length ≤ 32 := by
    rw [Bytes.length_ofNat]
    refine Bytes.digitCount_le (n.isLt.trans_le ?_)
    decide
  rw [number256, number, value_data (by omega)]
  simp only [bind, Except.bind]
  rw [if_neg (Bytes.headD_ofNat_ne_zero _), if_neg (Nat.not_lt.2 hlen), Bytes.toNat_ofNat,
    BitVec.ofNat_toNat, BitVec.setWidth_eq]
  rfl

theorem word_data (w : Word) : word (data w.toBytes) = .ok w := by
  rw [word, value_data (by simp [w.length_eq])]
  simp [bind, Except.bind, pure, Except.pure]

end Rlp

end Stateless
