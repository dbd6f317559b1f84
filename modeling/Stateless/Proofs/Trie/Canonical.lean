import Stateless.Proofs.Trie.View

/-!
# Canonical tries

Among all tries with the same answers one shape is canonical: no value is empty, a branch is never
left with a single occupant, and an extension always leads to a branch or to a hidden part. The
predicate also bounds the way down, so that no key in the trie is longer than a path can be.

Insertion and removal keep this shape; the lemmas here build canonical tries from canonical parts.
-/

namespace Stateless

/-- What may be put into a trie: values that are not empty, and hidden parts. -/
def Entry.Solid : Entry → Prop
  | .value v => v ≠ []
  | .hidden _ => True

namespace Trie

/-- At least two places of a branch are taken, by two children or by a child and the value. -/
def Crowded (cs : Nibble → Trie) (v : Bytes) : Prop :=
  ∃ i, cs i ≠ .empty ∧ (v ≠ [] ∨ ∃ j, j ≠ i ∧ cs j ≠ .empty)

/-- What may stand below an extension: a branch, or a hidden part in its place. -/
def IsStem (t : Trie) : Prop := t.kind = .branch ∨ t.kind = .hidden

/-- A trie in canonical form whose keys have at most `n` nibbles. -/
def Canonical : Nat → Trie → Prop
  | _, .empty => True
  | _, .hidden _ => True
  | n, .leaf f v _ => f.length ≤ n ∧ v ≠ []
  | n, .extension f c _ => f.toList ≠ [] ∧ f.length ≤ n ∧ c.IsStem ∧ Canonical (n - f.length) c
  | n, .branch cs v _ => 1 ≤ n ∧ Crowded cs v ∧ ∀ i, Canonical (n - 1) (cs i)

theorem isEmpty_iff {t : Trie} : t.isEmpty = true ↔ t = .empty := by
  cases t <;> simp [isEmpty, kind]

theorem isEmpty_eq_false_iff {t : Trie} : t.isEmpty = false ↔ t ≠ .empty := by
  rw [ne_eq, ← isEmpty_iff, Bool.not_eq_true]

theorem IsStem.ne_empty {t : Trie} (h : t.IsStem) : t ≠ .empty := by
  rintro rfl
  simp [IsStem, kind] at h

theorem isStem_branch (cs : Nibble → Trie) (v : Bytes) (m : Option Word) :
    (branch cs v m).IsStem := Or.inl rfl

theorem isStem_hidden (h : Word) : (hidden h).IsStem := Or.inr rfl

theorem IsStem.forgetRoot {t : Trie} (h : t.IsStem) : t.forgetRoot.IsStem := by
  cases t <;> exact h

theorem Canonical.mono {t : Trie} {n m : Nat} (h : Canonical n t) (hle : n ≤ m) :
    Canonical m t := by
  induction t generalizing n m with
  | empty => trivial
  | hidden => trivial
  | leaf f v memo => exact ⟨Nat.le_trans h.1 hle, h.2⟩
  | extension f c memo ih =>
    obtain ⟨hf, hl, hs, hc⟩ := h
    exact ⟨hf, Nat.le_trans hl hle, hs, ih hc (by omega)⟩
  | branch cs v memo ih =>
    obtain ⟨h1, hv, hc⟩ := h
    exact ⟨Nat.le_trans h1 hle, hv, fun i => ih i (hc i) (by omega)⟩

theorem Canonical.withMemo {t : Trie} {n : Nat} (h : Canonical n t) (m : Option Word) :
    Canonical n (t.withMemo m) := by
  cases t <;> exact h

/-! ## Canonical parts -/

theorem canonical_behind {f : Path} {t : Trie} {n m : Nat} (ht : Canonical m t) (hs : t.IsStem)
    (hle : f.length + m ≤ n) : Canonical n (behind f t) := by
  unfold behind
  split
  · exact ht.mono (by omega)
  · next hf =>
    exact ⟨fun h => hf (Path.isEmpty_iff.2 h), by omega, hs, ht.mono (by omega)⟩

theorem behind_ne_empty {f : Path} {t : Trie} (ht : t ≠ .empty) : behind f t ≠ .empty := by
  unfold behind
  split
  · exact ht
  · exact fun h => by cases h

theorem canonical_plant {k : Path} {e : Entry} {n : Nat} (he : e.Solid) (hk : k.length ≤ n) :
    Canonical n (plant k e) := by
  cases e with
  | value v => exact ⟨hk, he⟩
  | hidden h =>
    simp only [plant]
    split
    · trivial
    · next hf => exact ⟨fun hl => hf (Path.isEmpty_iff.2 hl), hk, isStem_hidden h, trivial⟩

theorem plant_ne_empty (k : Path) (e : Entry) : plant k e ≠ .empty := by
  cases e with
  | value v => exact fun h => by cases h
  | hidden h =>
    simp only [plant]
    split <;> exact fun h => by cases h

/-- A branch with one child and a value. -/
theorem canonical_fork_only {d : Nibble} {t : Trie} {v : Bytes} {n : Nat} (ht : Canonical n t)
    (hne : t ≠ .empty) (hv : v ≠ []) : Canonical (n + 1) (fork (only d t) v) := by
  refine ⟨by omega, ⟨d, ?_, Or.inl hv⟩, fun i => ?_⟩
  · simpa [only_get] using hne
  · rw [only_get]
    split
    · exact ht
    · trivial

/-- A branch with two children and no value. -/
theorem canonical_fork_pair {d d' : Nibble} {t t' : Trie} {n : Nat} (hd : d ≠ d')
    (ht : Canonical n t) (hne : t ≠ .empty) (ht' : Canonical n t') (hne' : t' ≠ .empty) :
    Canonical (n + 1) (fork (Children.set (only d t).get d' t') []) := by
  refine ⟨by omega, ⟨d', ?_, Or.inr ⟨d, hd, ?_⟩⟩, fun i => ?_⟩
  · simpa using hne'
  · simpa [only_get, hd] using hne
  · rw [Children.get_set, only_get]
    split
    · exact ht'
    · split
      · exact ht
      · trivial

/-- A branch of which one child is replaced by one that is not empty. -/
theorem canonical_fork_set {cs : Nibble → Trie} {v : Bytes} {m : Option Word} {d : Nibble}
    {t : Trie} {n : Nat} (h : Canonical n (.branch cs v m)) (ht : Canonical (n - 1) t)
    (hne : t ≠ .empty) : Canonical n (fork (Children.set cs d t) v) := by
  obtain ⟨h1, ⟨i, hi, hother⟩, hcs⟩ := h
  have hkeep : ∀ j, cs j ≠ .empty → (Children.set cs d t).get j ≠ .empty := by
    intro j hj
    rw [Children.get_set]
    split
    · exact hne
    · exact hj
  refine ⟨h1, ⟨i, hkeep i hi, ?_⟩, fun j => ?_⟩
  · exact hother.imp_right fun ⟨j, hji, hj⟩ => ⟨j, hji, hkeep j hj⟩
  · rw [Children.get_set]
    split
    · exact ht
    · exact hcs j

end Trie

end Stateless
