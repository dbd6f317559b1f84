import Stateless.Proofs.Trie.Canonical
import Stateless.Trie.Encoding

/-!
# Remembered hashes

A trie is sound if every hash that it remembers is the hash of the encoding of its node, which is at
least as long as a hash. Memos of sound tries are invisible: forgetting them changes neither an
encoding nor a reference, and computing the root hash only adds sound ones. The main statement is
`hash_eq_digest`: the root hash of a sound trie is the hash of the encoding of its root.
-/

namespace Stateless

namespace Trie

variable {t c : Trie} {n : Nat}

@[simp] theorem forget_branch (cs : Nibble → Trie) (v : Bytes) (m : Option Word) :
    forget (.branch cs v m) = .branch (fun i => forget (cs i)) v none := by
  rw [forget, Children.get_tabulate_eq]

@[simp] theorem forget_withMemo (t : Trie) (m : Option Word) : (t.withMemo m).forget = t.forget := by
  cases t <;> rfl

@[simp] theorem view_forget (t : Trie) : t.forget.view = t.view := by
  induction t with
  | empty => rfl
  | hidden h => rfl
  | leaf f v m => rfl
  | extension f c m ih => rw [forget, view_extension, view_extension, ih]
  | branch cs v m ih =>
    funext l
    cases l with
    | nil => simp
    | cons d l => simp [ih d]

theorem forget_eq_empty_iff : t.forget = .empty ↔ t = .empty := by
  cases t <;> simp [forget]

theorem memo_forget (t : Trie) : t.forget.memo = none := by
  cases t <;> rfl

theorem kind_forget (t : Trie) : t.forget.kind = t.kind := by
  cases t <;> rfl

theorem canonical_forget : Canonical n t.forget ↔ Canonical n t := by
  induction t generalizing n with
  | empty => rfl
  | hidden h => rfl
  | leaf f v m => rfl
  | extension f c m ih => simp only [forget, Canonical, IsStem, kind_forget, ih]
  | branch cs v m ih => simp [Canonical, Crowded, forget_eq_empty_iff, ih]

variable [Hasher]

/-! ## References -/

/-- An extension refers to its child. -/
theorem content_extension (f : Path) (c : Trie) (m : Option Word) :
    content (.extension f c m) = .ok (extensionEncoding f c.reference.item) := by
  cases hm : c.memo <;> simp [content, reference, hm]

/-- A branch refers to its children. -/
theorem content_branch (cs : Nibble → Trie) (v : Bytes) (m : Option Word) :
    content (.branch cs v m) = .ok (branchEncoding (fun i => (cs i).reference.item) v) := by
  rw [content]
  congr 2
  funext i
  cases hm : (cs i).memo <;> simp [reference, hm]

theorem content_withMemo (t : Trie) (m : Option Word) : (t.withMemo m).content = t.content := by
  cases t <;> rfl

/-! ## Soundness -/

/-- The memo of the root, if there is one, is the hash of a long encoding. -/
def MemoHolds (t : Trie) : Prop :=
  ∀ h, t.memo = some h → ∃ e, t.content = .ok e ∧ hashLength ≤ e.length ∧ h = digest e

/-- All memos are the hashes of their nodes. -/
def Sound : Trie → Prop
  | .empty => True
  | .hidden _ => True
  | .leaf f v m => MemoHolds (.leaf f v m)
  | .extension f c m => Sound c ∧ MemoHolds (.extension f c m)
  | .branch cs v m => (∀ i, Sound (cs i)) ∧ MemoHolds (.branch cs v m)

theorem memoHolds_of_memo_none (h : t.memo = none) : MemoHolds t := by
  intro w hw
  rw [h] at hw
  cases hw

theorem sound_leaf (f : Path) (v : Bytes) : Sound (.leaf f v none) := memoHolds_of_memo_none rfl

theorem Sound.memoHolds (h : Sound t) : MemoHolds t := by
  cases t with
  | empty => exact memoHolds_of_memo_none rfl
  | hidden => exact memoHolds_of_memo_none rfl
  | leaf f v m => exact h
  | extension f c m => exact h.2
  | branch cs v m => exact h.2

/-- A sound memo says what the encoding says. -/
theorem MemoHolds.reference_eq (h : MemoHolds t) : t.reference = .ofContent t.content := by
  unfold reference
  cases hm : t.memo with
  | none => rfl
  | some w =>
    obtain ⟨e, he, hlen, hw⟩ := h w hm
    simp [he, Reference.ofContent, Nat.not_lt.2 hlen, hw]

/-- A parent refers to a long child by its hash. -/
theorem item_of_long {e : Bytes} (hs : Sound t) (hc : t.content = .ok e)
    (hlen : hashLength ≤ e.length) : t.reference.item = Rlp.data (digest e).toBytes := by
  rw [hs.memoHolds.reference_eq, hc, Reference.ofContent, if_neg (Nat.not_lt.2 hlen)]
  rfl

theorem reference_forget_of_content (h : Sound t) (hc : t.forget.content = t.content) :
    t.forget.reference = t.reference := by
  rw [h.memoHolds.reference_eq, (memoHolds_of_memo_none (memo_forget t)).reference_eq, hc]

/-- Forgetting sound memos does not change the encoding. -/
theorem content_forget (h : Sound t) : t.forget.content = t.content := by
  induction t with
  | empty => rfl
  | hidden w => rfl
  | leaf f v m => rfl
  | extension f c m ih =>
    have hr := reference_forget_of_content h.1 (ih h.1)
    rw [forget, content_extension, content_extension, hr]
  | branch cs v m ih =>
    have hr := fun i => reference_forget_of_content (h.1 i) (ih i (h.1 i))
    rw [forget_branch, content_branch, content_branch]
    simp only [hr]

/-- Forgetting sound memos does not change how a parent refers to the trie. -/
theorem reference_forget (h : Sound t) : t.forget.reference = t.reference :=
  reference_forget_of_content h (content_forget h)

/-! ## Computing the root hash -/

theorem forget_remember (t : Trie) : t.remember.forget = t.forget := by
  unfold remember
  split
  · split
    · rfl
    · exact forget_withMemo t _
  · rfl

/-- Computing the root hash only changes memos. -/
@[simp] theorem forget_memoize (t : Trie) : t.memoize.forget = t.forget := by
  induction t with
  | empty => rfl
  | hidden h => rfl
  | leaf f v m => exact forget_remember _
  | extension f c m ih =>
    cases m with
    | some h => rfl
    | none => rw [memoize, forget_remember, forget, forget, ih]
  | branch cs v m ih =>
    cases m with
    | some h => rfl
    | none =>
      rw [memoize, forget_remember, Children.get_tabulate_eq, forget_branch, forget_branch]
      simp only [ih]

theorem remember_eq (t : Trie) : ∃ m, t.remember = t.withMemo m := by
  have hself : t = t.withMemo t.memo := by cases t <;> rfl
  rw [remember]
  split
  · split
    · exact ⟨_, hself⟩
    · exact ⟨_, rfl⟩
  · exact ⟨_, hself⟩

theorem memoize_leaf (f : Path) (v : Bytes) (m : Option Word) :
    ∃ m', (leaf f v m).memoize = .leaf f v m' :=
  remember_eq (leaf f v m)

theorem Sound.withMemo {m : Option Word} (h : Sound t) (hm : MemoHolds (t.withMemo m)) :
    Sound (t.withMemo m) := by
  cases t with
  | empty => trivial
  | hidden => trivial
  | leaf f v m' => exact hm
  | extension f c m' => exact ⟨h.1, hm⟩
  | branch cs v m' => exact ⟨h.1, hm⟩

theorem Sound.remember (h : Sound t) : Sound t.remember := by
  unfold Trie.remember
  split
  · next e hmemo hcontent =>
    split
    · exact h
    · next hlen =>
      refine h.withMemo fun w hw => ⟨e, ?_, Nat.not_lt.1 hlen, ?_⟩
      · rw [content_withMemo, hcontent]
      · cases t <;> simp_all [memo, Trie.withMemo]
  · exact h

theorem Sound.memoize (h : Sound t) : Sound t.memoize := by
  induction t with
  | empty => trivial
  | hidden w => trivial
  | leaf f v m => exact Sound.remember h
  | extension f c m ih =>
    cases m with
    | some w => exact h
    | none => exact Sound.remember ⟨ih h.1, memoHolds_of_memo_none rfl⟩
  | branch cs v m ih =>
    cases m with
    | some w => exact h
    | none =>
      rw [Trie.memoize, Children.get_tabulate_eq]
      exact Sound.remember ⟨fun i => ih i (h.1 i), memoHolds_of_memo_none rfl⟩

theorem content_memoize (h : Sound t) : t.memoize.content = t.content := by
  rw [← content_forget h.memoize, forget_memoize, content_forget h]

theorem reference_memoize (h : Sound t) : t.memoize.reference = t.reference := by
  rw [← reference_forget h.memoize, forget_memoize, reference_forget h]

/-- The root hash is what the reference to the root stands for. -/
theorem hash_eq_reference (h : Sound t) : t.hash.1 = t.reference.hash := by
  rw [← reference_memoize h]
  rfl

theorem Reference.hash_ofContent (e : Bytes) : (Reference.ofContent (.ok e)).hash = digest e := by
  simp only [Reference.ofContent]
  split <;> rfl

/-- The root hash of a sound trie is the hash of the encoding of its root. -/
theorem hash_eq_digest {e : Bytes} (h : Sound t) (hc : t.content = .ok e) :
    t.hash.1 = digest e := by
  rw [hash_eq_reference h, h.memoHolds.reference_eq, hc, Reference.hash_ofContent]

end Trie

end Stateless
