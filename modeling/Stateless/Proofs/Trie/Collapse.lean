import Stateless.Proofs.Trie.Reencoding
import Stateless.Proofs.Trie.Storable

/-!
# Writing a node and reading it back

What is read from the encoding of a node is the node with its long children replaced by their
hashes, also inside the children that are embedded in it; this is the collapsed node. It is the
outline of the node, since nothing is hidden inside an embedded child. The main statement is
`decode_encoding`: the encoding of a node reads back as the collapsed node, of which the encoding is
the same again.
-/

namespace Stateless

namespace Trie

section

variable [Hasher]

/-- The hash of a node whose encoding is not shorter than a hash. -/
def longDigest? (t : Trie) : Option Word :=
  match t.content with
  | .ok e => if hashLength ≤ e.length then some (digest e) else none
  | .error _ => none

/-- A node with every child of a long encoding replaced by its hash. The other children are kept, but
for their own children of long encodings. -/
def collapse : Trie → Trie
  | .empty => .empty
  | .hidden h => .hidden h
  | .leaf f v _ => .leaf f v none
  | .extension f c _ => .extension f ((c.longDigest?.map hidden).getD (collapse c)) none
  | .branch cs v _ =>
    .branch (fun i => ((cs i).longDigest?.map hidden).getD (collapse (cs i))) v none

variable {t c : Trie} {e : Bytes}

/-- A child is shown by its parent as it stands in the collapsed parent. -/
theorem collapsed_child (hs : Sound c) (h : c.collapse = c.outline) :
    (c.longDigest?.map hidden).getD c.collapse = c.curtain := by
  unfold longDigest? curtain
  cases hc : c.content with
  | error w =>
    cases c with
    | hidden w' =>
      obtain rfl : w' = w := Except.error.inj hc
      rfl
    | _ => cases hc
  | ok e =>
    dsimp only
    by_cases hlen : hashLength ≤ e.length
    · rw [if_pos hlen, if_pos hlen]
      rfl
    · -- nothing of an embedded child is hidden
      rw [if_neg hlen, if_neg hlen]
      show c.collapse = c.forget
      rw [h, outline_of_short hs hc (Nat.lt_of_not_le hlen)]

/-- The collapsed node is the outline. -/
theorem collapse_eq_outline (hs : Sound t) : t.collapse = t.outline := by
  induction t with
  | empty => rfl
  | hidden w => rfl
  | leaf f v m => rfl
  | extension f c m ih =>
    have hchild := collapsed_child hs.1 (ih hs.1)
    rw [collapse, hchild, outline]
  | branch cs v m ih =>
    have hchild := fun i => collapsed_child (hs.1 i) (ih i (hs.1 i))
    rw [collapse, outline]
    simp only [hchild]

/-- Only a hidden node has no encoding. -/
theorem exists_content (hknown : ∀ w, t ≠ .hidden w) : ∃ e, t.content = .ok e := by
  cases t with
  | hidden w => exact absurd rfl (hknown w)
  | _ => exact ⟨_, rfl⟩

/-- The encoding of a node that is neither empty nor hidden, in which no extension leads to nothing
and every value fits into memory, reads back as the collapsed node. The encoding of this is the same
again. -/
theorem decode_encoding (hs : Sound t) (hgrounded : Grounded t) (hne : t ≠ .empty)
    (hknown : ∀ w, t ≠ .hidden w)
    (hfits : Within (fun v => v.length < twoPow 63) (fun _ => True) t) :
    ∃ e, t.encoding? = some e ∧ decode e = .ok t.collapse ∧ t.collapse.encoding? = some e := by
  obtain ⟨e, he⟩ := exists_content hknown
  have hlen : e.length < 256 ^ 8 + 9 := content_length_lt hfits hs he
  have hout : t.collapse.content = .ok e := by
    rw [collapse_eq_outline hs, content_outline hs, he]
  refine ⟨e, ?_, ?_, ?_⟩
  · rw [encoding?, he]
  · rw [collapse_eq_outline hs]
    exact decode_grounded hgrounded hs hne he hlen
  · rw [encoding?, hout]

end

end Trie

/-! ## An instance -/

namespace Bush

open Trie

def fragment : Path := ⟨[4, 5], by decide⟩

/-- Two leaves without a fragment. -/
def twig : Trie :=
  .branch (fun i => if i = 0 then .leaf .empty [1] none
    else if i = 1 then .leaf .empty [2] none else .empty) [] none

/-- A value of the length of a hash. -/
def value : Bytes := List.replicate 32 7

def digest₀ : Word := .padRight 32 [1]

/-- A leaf that remembers its hash, a hidden part, and a leaf and an extension that are short. -/
def child (i : Nibble) : Trie :=
  if i = 0 then .leaf fragment value (some (digest (leafEncoding fragment value)))
  else if i = 1 then .hidden digest₀
  else if i = 2 then .leaf fragment [3] none
  else if i = 3 then .extension fragment twig none else .empty

def trie : Trie := .branch child [6] none

/-- Only the long leaf is replaced. -/
def collapsed : Trie :=
  .branch (fun i => if i = 0 then .hidden (digest (leafEncoding fragment value)) else child i) [6] none

theorem sound : Sound trie := by
  refine ⟨fun i => ?_, memoHolds_of_memo_none rfl⟩
  unfold child
  split
  · intro h hh
    exact ⟨_, rfl, by decide, (Option.some.inj hh).symm⟩
  split
  · trivial
  split
  · exact memoHolds_of_memo_none rfl
  split
  · refine ⟨⟨fun j => ?_, memoHolds_of_memo_none rfl⟩, memoHolds_of_memo_none rfl⟩
    dsimp only
    split
    · exact memoHolds_of_memo_none rfl
    split
    · exact memoHolds_of_memo_none rfl
    · trivial
  · trivial

theorem grounded : Grounded trie := by
  intro i _
  unfold child
  split
  · trivial
  split
  · trivial
  split
  · trivial
  split
  · refine ⟨nofun, fun _ j _ => ?_⟩
    dsimp only
    split
    · trivial
    split <;> trivial
  · trivial

theorem fits : Within (fun v => v.length < twoPow 63) (fun _ => True) trie := by
  have hlt : ∀ n ≤ 32, n < twoPow 63 := by decide
  refine ⟨fun i => ?_, hlt 1 (by decide)⟩
  unfold child
  split
  · exact hlt 32 (by decide)
  split
  · trivial
  split
  · exact hlt 1 (by decide)
  split
  · refine ⟨fun j => ?_, hlt 0 (by decide)⟩
    dsimp only
    split
    · exact hlt 1 (by decide)
    split
    · exact hlt 1 (by decide)
    · trivial
  · trivial

theorem collapse_twig : twig.collapse = twig := by
  unfold twig
  rw [collapse]
  congr 1
  funext i
  split
  · rfl
  split <;> rfl

theorem collapse_trie : trie.collapse = collapsed := by
  rw [trie, collapse, collapsed]
  congr 1
  funext i
  unfold child
  split
  · rfl
  split
  · rfl
  split
  · rfl
  split
  · have hstalk : (extension fragment twig none).longDigest? = none := rfl
    have htwig : twig.longDigest? = none := rfl
    rw [hstalk, Option.map_none, Option.getD_none, collapse, htwig, Option.map_none,
      Option.getD_none, collapse_twig]
  · rfl

end Bush

/-- The hypotheses hold of a branch over a leaf that remembers its hash, a hidden part, a short leaf,
and a short extension of a branch. -/
theorem Trie.decode_encoding_bush :
    Trie.Sound Bush.trie ∧ Trie.Grounded Bush.trie ∧ Bush.trie ≠ .empty ∧
    (∀ w, Bush.trie ≠ .hidden w) ∧
    Trie.Within (fun v => v.length < twoPow 63) (fun _ => True) Bush.trie ∧
    ∃ e, Bush.trie.encoding? = some e ∧ Trie.decode e = .ok Bush.collapsed ∧
      Bush.collapsed.encoding? = some e := by
  have hne : Bush.trie ≠ .empty := nofun
  have hknown : ∀ w, Bush.trie ≠ .hidden w := fun w => nofun
  obtain ⟨e, he, hdecode, hagain⟩ :=
    Trie.decode_encoding Bush.sound Bush.grounded hne hknown Bush.fits
  rw [Bush.collapse_trie] at hdecode hagain
  exact ⟨Bush.sound, Bush.grounded, hne, hknown, Bush.fits, e, he, hdecode, hagain⟩

end Stateless
