import Stateless.Proofs.Trie.Nodes

/-!
# Pruned tries

A trie is pruned by hiding some of its parts behind the hashes of their encodings. Only parts whose
encoding is at least as long as a hash may be hidden, because their parents refer to them by hash
anyway. What a pruned trie answers is what the whole trie answers, its hidden parts stand where the
whole trie has nodes with their hashes, and the two have the same root hash (`Pruned.hash_eq`).
-/

namespace Stateless

namespace Trie

variable [Hasher]

/-- A trie, and the same trie with some parts hidden behind their hashes. `K` says which kinds of
nodes may be hidden. Memos do not matter. -/
inductive Pruned (K : Kind → Prop) : Trie → Trie → Prop
  /-- Nothing is seen as nothing. -/
  | empty : Pruned K .empty .empty
  /-- A leaf is seen as it is. -/
  | leaf {f : Path} {v : Bytes} {a b : Option Word} : Pruned K (.leaf f v a) (.leaf f v b)
  /-- An extension is seen with its child. -/
  | extension {f : Path} {c c' : Trie} {a b : Option Word} (hc : Pruned K c c') :
    Pruned K (.extension f c a) (.extension f c' b)
  /-- A branch is seen with its children. -/
  | branch {cs cs' : Nibble → Trie} {v : Bytes} {a b : Option Word}
    (hcs : ∀ i, Pruned K (cs i) (cs' i)) : Pruned K (.branch cs v a) (.branch cs' v b)
  /-- A part with a long encoding is hidden. -/
  | hidden {t : Trie} {e : Bytes} (hk : K t.kind) (he : t.content = .ok e)
    (hlen : hashLength ≤ e.length) : Pruned K t (.hidden (digest e))

/-- A node that may be hidden stands at a place, and this is its hash. -/
def Hideable (K : Kind → Prop) (t : Trie) (m : List Nibble) (w : Word) : Prop :=
  ∃ s e, t.nodeAt m = some s ∧ K s.kind ∧ s.content = .ok e ∧ hashLength ≤ e.length ∧ w = digest e

variable {K : Kind → Prop} {t p s : Trie} {e : Bytes} {l m : List Nibble} {w : Word} {n : Nat}

/-- The encoding of nothing is short. -/
theorem ne_empty_of_long_content (he : t.content = .ok e) (hlen : hashLength ≤ e.length) :
    t ≠ .empty := by
  rintro rfl
  obtain rfl := Except.ok.inj he
  exact absurd hlen (by decide)

/-! ## What is seen -/

/-- A pruned trie answers nothing but what the whole trie answers. -/
theorem Pruned.view {a : Option Bytes} (h : Pruned K t p) (ha : p.view l = .ok a) :
    t.view l = .ok a := by
  induction h generalizing l with
  | empty => exact ha
  | leaf => exact ha
  | @extension f c c' _ _ hc ih =>
    rw [view_extension] at ha ⊢
    by_cases hf : f.toList <+: l
    · obtain ⟨r, rfl⟩ := hf
      rw [under_front] at ha ⊢
      exact ih ha
    · rw [under_off _ hf] at ha ⊢
      exact ha
  | branch hcs ih =>
    cases l with
    | nil => exact ha
    | cons d l => exact ih d ha
  | hidden => cases ha

/-- Where a part is hidden, the whole trie has a node with that hash. -/
theorem Pruned.hideable (h : Pruned K t p) (hm : p.nodeAt m = some (.hidden w)) :
    Hideable K t m w := by
  induction h generalizing m with
  | empty => cases m <;> cases hm
  | leaf => cases m <;> cases hm
  | @extension f c c' _ _ hc ih =>
    cases m with
    | nil => cases hm
    | cons d m =>
      rw [nodeAt] at hm
      split at hm
      · next hf =>
        obtain ⟨s, e, hs, hse⟩ := ih hm
        exact ⟨s, e, by rw [nodeAt, if_pos hf, hs], hse⟩
      · cases hm
  | branch hcs ih =>
    cases m with
    | nil => cases hm
    | cons d m => exact ih d hm
  | @hidden t e hk he hlen =>
    cases m with
    | nil =>
      obtain rfl := hidden.inj (Option.some.inj hm)
      exact ⟨t, e, nodeAt_nil t, hk, he, hlen, rfl⟩
    | cons d m => cases hm

/-- Of nothing there is nothing to hide. -/
theorem Pruned.empty_iff (h : Pruned K t p) : p = .empty ↔ t = .empty := by
  cases h with
  | hidden hk he hlen => simp [ne_empty_of_long_content he hlen]
  | _ => simp

/-- Hiding parts of a canonical trie keeps the canonical form. -/
theorem Pruned.canonical (h : Pruned K t p) (ht : Canonical n t) : Canonical n p := by
  induction h generalizing n with
  | empty => trivial
  | leaf => exact ht
  | @extension f c c' _ _ hc ih =>
    obtain ⟨hf, hlen, hstem, hcan⟩ := ht
    refine ⟨hf, hlen, ?_, ih hcan⟩
    cases hc with
    | branch => exact isStem_branch _ _ _
    | hidden => exact isStem_hidden _
    | _ => simp [IsStem, kind] at hstem
  | branch hcs ih =>
    obtain ⟨h1, ⟨i, hi, hother⟩, hcan⟩ := ht
    refine ⟨h1, ⟨i, mt (hcs i).empty_iff.1 hi, ?_⟩, fun j => ih j (hcan j)⟩
    rcases hother with hv | ⟨j, hji, hj⟩
    · exact Or.inl hv
    · exact Or.inr ⟨j, hji, mt (hcs j).empty_iff.1 hj⟩
  | hidden => trivial

/-- A pruned trie of which nothing is hidden is the whole trie. -/
theorem Pruned.forget_eq (h : Pruned K t p) (hp : Full p) : p.forget = t.forget := by
  induction h with
  | empty => rfl
  | leaf => rfl
  | extension hc ih => rw [forget, forget, ih hp]
  | branch hcs ih =>
    rw [forget_branch, forget_branch]
    simp only [fun i => ih i (hp.1 i)]
  | hidden => exact absurd hp id

/-! ## Hashes -/

/-- Parents refer to a pruned trie as to the whole trie. -/
theorem Pruned.reference_eq (h : Pruned K t p) (ht : Sound t) (hp : Sound p) :
    p.reference = t.reference := by
  rw [hp.memoHolds.reference_eq, ht.memoHolds.reference_eq]
  induction h with
  | empty => rfl
  | leaf => rfl
  | extension hc ih =>
    have hchild := ih ht.1 hp.1
    rw [← hp.1.memoHolds.reference_eq, ← ht.1.memoHolds.reference_eq] at hchild
    rw [content_extension, content_extension, hchild]
  | branch hcs ih =>
    have hchild := fun i => ih i (ht.1 i) (hp.1 i)
    simp only [← (hp.1 _).memoHolds.reference_eq, ← (ht.1 _).memoHolds.reference_eq] at hchild
    rw [content_branch, content_branch]
    simp only [hchild]
  | hidden hk he hlen =>
    simp [content, he, Reference.ofContent, Nat.not_lt.2 hlen]

/-- A pruned trie has the root hash of the whole trie. -/
theorem Pruned.hash_eq (h : Pruned K t p) (ht : Sound t) (hp : Sound p) :
    p.hash.1 = t.hash.1 := by
  rw [hash_eq_reference hp, hash_eq_reference ht, h.reference_eq ht hp]

end Trie

end Stateless
