import Stateless.Path.Compact
import Stateless.Proofs.Path.Lists

/-!
# Compact paths read back

The main statements are `ofCompact_compact`, that reading the compact form of a fragment gives the
fragment and tells leaves from extensions, and `compact_of_ofCompact`, that nothing else is read as
the fragment. `describes_of_ofCompact` says what is wrong with bytes that are refused.
-/

namespace Stateless

namespace Bytes

theorem nibbles_ofNibbles {l : List Nibble} (h : l.length % 2 = 0) : nibbles (ofNibbles l) = l := by
  fun_induction ofNibbles l with
  | case1 u l rest ih =>
    rw [nibbles, Nibble.upper_pack, Nibble.lower_pack, ih]
    simp only [List.length_cons] at h
    omega
  | case2 l hl =>
    rcases l with _ | ⟨u, _ | ⟨v, r⟩⟩
    · rfl
    · simp at h
    · exact absurd rfl (hl u v r)

end Bytes

namespace Path

theorem flag_val (isLeaf isOdd : Bool) :
    (flag isLeaf isOdd).val = (if isLeaf then 2 else 0) + (if isOdd then 1 else 0) := by
  cases isLeaf <;> cases isOdd <;> decide

theorem length_compact (f : Path) (isLeaf : Bool) : (f.compact isLeaf).length = f.length / 2 + 1 := by
  rw [compact]
  split
  · rw [Bytes.length_ofNibbles, List.length_cons, length_toList]
    omega
  · rw [Bytes.length_ofNibbles, List.length_cons, List.length_cons, length_toList]
    omega

/-- The compact form of a fragment reads back as the fragment. -/
theorem ofCompact_compact (f : Path) (isLeaf : Bool) :
    ofCompact (f.compact isLeaf) = .ok (f, isLeaf) := by
  have hmax := f.length_le_max
  have hlen := length_compact f isLeaf
  simp only [maxNibbles] at hmax
  by_cases hodd : f.length % 2 = 1
  · have hflag := flag_val isLeaf true
    rw [compact, if_pos hodd] at hlen ⊢
    cases hf : f.toList with
    | nil => simp [← length_toList, hf] at hodd
    | cons d rest =>
      have hrest : f.length = rest.length + 1 := by rw [← length_toList, hf, List.length_cons]
      rw [hf, Bytes.ofNibbles, List.length_cons] at hlen
      have hlong : ¬ 33 < (Nibble.pack (flag isLeaf true) d :: Bytes.ofNibbles rest).length := by
        rw [List.length_cons]
        omega
      have hroom : ¬ (Bytes.ofNibbles rest).length = 32 := by omega
      rw [Bytes.ofNibbles, ofCompact, dif_neg hlong, Nibble.upper_pack]
      have hback : ∀ h, (⟨d :: Bytes.nibbles (Bytes.ofNibbles rest), h⟩ : Path) = f := fun h =>
        ext (hf ▸ congrArg (d :: ·) (Bytes.nibbles_ofNibbles (by omega)))
      cases isLeaf <;> simp [hflag, hroom, Nibble.lower_pack, hback]
  · have hflag := flag_val isLeaf false
    rw [compact, if_neg hodd] at hlen ⊢
    rw [Bytes.ofNibbles, List.length_cons] at hlen
    have hlong : ¬ 33 < (Nibble.pack (flag isLeaf false) 0 :: Bytes.ofNibbles f.toList).length := by
      rw [List.length_cons]
      omega
    rw [Bytes.ofNibbles, ofCompact, dif_neg hlong, Nibble.upper_pack]
    have hback : ∀ h, (⟨Bytes.nibbles (Bytes.ofNibbles f.toList), h⟩ : Path) = f := fun h =>
      ext (Bytes.nibbles_ofNibbles (by rw [length_toList]; omega))
    cases isLeaf <;> simp [hflag, Nibble.lower_pack, hback]

/-- The first nibble of a compact path is given by what it tells. -/
theorem flag_of_le_three {u : Nibble} (h : ¬ 3 < u.val) :
    flag (decide (2 ≤ u.val)) (decide (u.val % 2 = 1)) = u := by
  revert u
  decide

/-- What a refusal says of the bytes: there are none, or the upper half of the first byte is no flag
or its lower half should be zero, or more than 64 nibbles follow the flags. -/
def CompactError.Describes : CompactError → Bytes → Prop
  | empty, b => b = []
  | invalidFlags u, b => ∃ head rest, b = head :: rest ∧ Nibble.upper head = u ∧
      (3 < u.val ∨ u.val % 2 = 0 ∧ Nibble.lower head ≠ 0)
  | tooLong c, b => c = b ∧ ∃ head rest, b = head :: rest ∧
      maxNibbles < (Nibble.upper head).val % 2 + 2 * rest.length

/-- Bytes are refused for a reason, or they are read as what their first byte tells. -/
theorem ofCompact_cases (head : UInt8) (rest : Bytes) :
    (∃ e, ofCompact (head :: rest) = .error e ∧ e.Describes (head :: rest)) ∨
    ∃ f : Path, ofCompact (head :: rest) = .ok (f, decide (2 ≤ (Nibble.upper head).val)) ∧
      ¬ 3 < (Nibble.upper head).val ∧ ((Nibble.upper head).val % 2 = 0 → Nibble.lower head = 0) ∧
      f.toList = (if (Nibble.upper head).val % 2 = 1 then [Nibble.lower head] else []) ++
        Bytes.nibbles rest := by
  simp only [ofCompact]
  split
  · next hlong =>
    rw [List.length_cons] at hlong
    exact .inl ⟨_, rfl, rfl, head, rest, rfl, by simp only [maxNibbles]; omega⟩
  split
  · next hflags => exact .inl ⟨_, rfl, head, rest, rfl, rfl, .inl hflags⟩
  split
  · next hflags heven =>
    split
    · next hpad => exact .inl ⟨_, rfl, head, rest, rfl, rfl, .inr ⟨heven, hpad⟩⟩
    · next hpad =>
      have hnodd : ¬ (Nibble.upper head).val % 2 = 1 := by omega
      refine .inr ⟨_, rfl, hflags, fun _ => Decidable.not_not.1 hpad, ?_⟩
      rw [if_neg hnodd, List.nil_append]
  · next hflags hneven =>
    have hodd : (Nibble.upper head).val % 2 = 1 := by omega
    split
    · next hfull => exact .inl ⟨_, rfl, rfl, head, rest, rfl, by simp only [maxNibbles]; omega⟩
    · exact .inr ⟨_, rfl, hflags, fun heven => absurd heven hneven, rfl⟩

/-- A refusal is true of the bytes that are refused. -/
theorem describes_of_ofCompact {b : Bytes} {e : CompactError} (h : ofCompact b = .error e) :
    e.Describes b := by
  cases b with
  | nil =>
    obtain rfl := Except.error.inj h
    rfl
  | cons head rest =>
    rcases ofCompact_cases head rest with ⟨e', he, hdescribes⟩ | ⟨f, hf, -⟩
    · obtain rfl := Except.error.inj (h.symm.trans he)
      exact hdescribes
    · cases h.symm.trans hf

/-- Bytes that are read as a fragment are its compact form. -/
theorem compact_of_ofCompact {b : Bytes} {f : Path} {isLeaf : Bool}
    (h : ofCompact b = .ok (f, isLeaf)) : f.compact isLeaf = b := by
  cases b with
  | nil => cases h
  | cons head rest =>
    rcases ofCompact_cases head rest with ⟨e, he, -⟩ | ⟨g, hg, hflags, hpad, hlist⟩
    · cases h.symm.trans he
    obtain ⟨rfl, rfl⟩ := Prod.mk.inj (Except.ok.inj (h.symm.trans hg))
    have hflag := flag_of_le_three hflags
    by_cases hodd : (Nibble.upper head).val % 2 = 1
    · rw [if_pos hodd, List.singleton_append] at hlist
      have hlen : f.length % 2 = 1 := by
        rw [← length_toList, hlist, List.length_cons, Bytes.length_nibbles]
        omega
      rw [decide_eq_true hodd] at hflag
      rw [compact, if_pos hlen, hlist, hflag, Bytes.ofNibbles, Bytes.ofNibbles_nibbles,
        Nibble.pack_upper_lower]
    · rw [if_neg hodd, List.nil_append] at hlist
      have hlen : ¬ f.length % 2 = 1 := by
        rw [← length_toList, hlist, Bytes.length_nibbles]
        omega
      rw [decide_eq_false hodd] at hflag
      rw [compact, if_neg hlen, hlist, hflag, Bytes.ofNibbles, Bytes.ofNibbles_nibbles,
        ← hpad (by omega), Nibble.pack_upper_lower]

/-- The compact form tells fragments apart, and leaves from extensions. -/
theorem compact_inj {f g : Path} {isLeaf isLeaf' : Bool}
    (h : f.compact isLeaf = g.compact isLeaf') : f = g ∧ isLeaf = isLeaf' := by
  have hf := ofCompact_compact f isLeaf
  rw [h, ofCompact_compact] at hf
  have heq := Prod.mk.inj (Except.ok.inj hf)
  exact ⟨heq.1.symm, heq.2.symm⟩

end Path

end Stateless
