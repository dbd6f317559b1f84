import Stateless.Proofs.Trie.Nodes
import Stateless.Proofs.Trie.Outline

/-!
# Fragments of leaves and extensions

A leaf and an extension are alike in their fragment. Joining a run of nibbles with one of them puts
the run in front of the fragment and changes nothing else. An insertion that splits one of them
leaves a remnant with the rest of the fragment.
-/

namespace Stateless

namespace Trie

/-- The fragment of a leaf or an extension; other nodes have none. -/
def fragment : Trie → Path
  | .leaf f _ _ => f
  | .extension f _ _ => f
  | _ => .empty

variable {t t' s c : Trie} {x : List Nibble} {n : Nat} {f : Path}

theorem isShort_iff : t.isShort = true ↔
    (∃ f v m, t = .leaf f v m) ∨ ∃ f c m, t = .extension f c m := by
  cases t <;> simp [isShort, kind]

theorem setFragment_self (hshort : t.isShort = true) : t.setFragment t.fragment = t.forgetRoot := by
  rcases isShort_iff.1 hshort with ⟨f, v, m, rfl⟩ | ⟨f, c, m, rfl⟩ <;> rfl

theorem isShort_setFragment (hshort : t.isShort = true) (f : Path) :
    (t.setFragment f).isShort = true ∧ (t.setFragment f).fragment = f := by
  rcases isShort_iff.1 hshort with ⟨g, v, m, rfl⟩ | ⟨g, c, m, rfl⟩ <;> exact ⟨rfl, rfl⟩

theorem setFragment_setFragment (t : Trie) (f g : Path) :
    (t.setFragment f).setFragment g = t.setFragment g := by
  cases t <;> rfl

theorem isShort_forget (t : Trie) : t.forget.isShort = t.isShort := by
  cases t <;> rfl

theorem fragment_forget (t : Trie) : t.forget.fragment = t.fragment := by
  cases t <;> rfl

theorem forget_setFragment (t : Trie) (f : Path) :
    (t.setFragment f).forget = t.forget.setFragment f := by
  cases t <;> rfl

theorem Sound.setFragment [Hasher] (h : Sound t) (f : Path) : Sound (t.setFragment f) := by
  cases t with
  | leaf g v m => exact memoHolds_of_memo_none rfl
  | extension g c m => exact ⟨h.1, memoHolds_of_memo_none rfl⟩
  | branch cs v m => exact ⟨h.1, memoHolds_of_memo_none rfl⟩
  | _ => trivial

theorem fragment_length_le (ht : Canonical n t) : t.fragment.length ≤ n := by
  cases t with
  | leaf f v m => exact ht.1
  | extension f c m => exact ht.2.1
  | _ => exact Nat.zero_le n

/-- An outline has the fragment of its node. -/
theorem outline_fragment [Hasher] (t : Trie) : t.outline.fragment = t.fragment := by
  cases t <;> rfl

theorem outline_isShort [Hasher] (t : Trie) : t.outline.isShort = t.isShort := by
  cases t <;> rfl

/-- Below a leaf or an extension every node stands behind the fragment. -/
theorem fragment_front (hshort : t.isShort = true) (hx : x ≠ []) (h : t.nodeAt x = some s) :
    t.fragment.toList <+: x := by
  obtain ⟨d, x, rfl⟩ := List.exists_cons_of_ne_nil hx
  rcases isShort_iff.1 hshort with ⟨f, v, m, rfl⟩ | ⟨f, c, m, rfl⟩
  · cases h
  · rw [nodeAt] at h
    split at h
    · next hp => exact hp
    · cases h

/-- A leaf or an extension answers only where its fragment leads. -/
theorem view_off (hshort : t.isShort = true) (h : ¬ t.fragment.toList <+: x) :
    t.view x = .ok none := by
  rcases isShort_iff.1 hshort with ⟨f, v, m, rfl⟩ | ⟨f, c, m, rfl⟩
  · exact under_off _ h
  · exact under_off _ h

/-! ## Taking nibbles off the front -/

theorem view_setFragment_drop (hshort : t.isShort = true) (i : Nat) (x : List Nibble) :
    (t.setFragment (t.fragment.drop i)).view x = t.view (t.fragment.toList.take i ++ x) := by
  have hunder : ∀ (f : Path) (answers : List Nibble → Answer),
      under (f.drop i).toList answers x = under f.toList answers (f.toList.take i ++ x) := by
    intro f answers
    have hf : f.toList = f.toList.take i ++ (f.drop i).toList := (List.take_append_drop i _).symm
    conv_rhs => rw [hf, under_append, ← hf, under_front]
  rcases isShort_iff.1 hshort with ⟨f, v, m, rfl⟩ | ⟨f, c, m, rfl⟩
  · exact hunder f (onlyHere v)
  · exact hunder f c.view

theorem canonical_setFragment_drop {i : Nat} (ht : Canonical n t) (hi : i < t.fragment.length) :
    Canonical n (t.setFragment (t.fragment.drop i)) := by
  have hlen : ∀ f : Path, (f.drop i).toList.length = f.length - i := by
    intro f
    rw [Path.toList_drop, List.length_drop, Path.length_toList]
  cases t with
  | leaf f v m =>
    obtain ⟨hf, hv⟩ := ht
    have hdrop := hlen f
    rw [Path.length_toList] at hdrop
    exact ⟨by rw [fragment]; omega, hv⟩
  | extension f c m =>
    obtain ⟨-, hf, hstem, hc⟩ := ht
    rw [fragment] at hi
    have hdrop := hlen f
    have hne : (f.drop i).toList ≠ [] := by
      rw [← List.length_pos_iff]
      omega
    rw [Path.length_toList] at hdrop
    have hroom : (f.drop i).length ≤ n := by omega
    exact ⟨hne, hroom, hstem, hc.mono (by rw [fragment]; omega)⟩
  | _ => exact absurd hi (Nat.not_lt_zero i)

theorem join_withMemo (t : Trie) (m : Option Word) : join f (t.withMemo m) = join f t := by
  cases t <;> rfl

/-- Settling a trie of which no two fragments have to be joined changes memos only. -/
theorem settle_forget (hstem : ∀ g b m, t = .extension g b m → b.IsStem)
    (h : settle t = .ok t') : t'.forget = t.forget := by
  cases t with
  | extension g b m =>
    rw [settle, join_stem (hstem g b m rfl)] at h
    rw [← Except.ok.inj h, forget, forget, forgetRoot, forget_withMemo]
  | _ => rw [← Except.ok.inj h]

/-- Joining a run of nibbles with a leaf, or with an extension above what may stand below one, puts
the run in front of the fragment. Only memos are lost besides. -/
theorem join_short (hshort : t.isShort = true)
    (hstem : ∀ g b m, t = .extension g b m → b.IsStem) (h : join f t = .ok t') :
    t'.isShort = true ∧ t'.fragment.toList = f.toList ++ t.fragment.toList ∧
      (∀ g, (t'.setFragment g).forget = (t.setFragment g).forget) ∧
      f.length + t.fragment.length ≤ maxNibbles := by
  have hroom : ∀ {g fg : Path}, f.append g = .ok fg →
      fg.toList = f.toList ++ g.toList ∧ f.length + g.length ≤ maxNibbles := fun {g fg} hfg => by
    have hlist := Path.toList_append hfg
    refine ⟨hlist, ?_⟩
    have hlen := fg.length_le_max
    rwa [← Path.length_toList, hlist, List.length_append] at hlen
  rcases isShort_iff.1 hshort with ⟨g, v, m, rfl⟩ | ⟨g, b, m, rfl⟩
  · rw [join] at h
    cases hfg : f.append g with
    | error e => simp [hfg] at h
    | ok fg =>
      simp only [hfg, Except.ok.injEq] at h
      subst h
      exact ⟨rfl, (hroom hfg).1, fun g => rfl, (hroom hfg).2⟩
  · rw [join] at h
    cases hfg : f.append g with
    | error e => simp [hfg] at h
    | ok fg =>
      simp only [hfg, join_stem (hstem g b m rfl), Except.ok.injEq] at h
      subst h
      refine ⟨rfl, (hroom hfg).1, fun g => ?_, (hroom hfg).2⟩
      rw [setFragment, setFragment, forget, forget, forgetRoot, forget_withMemo]

/-! ## Splitting -/

/-- What is left of a leaf or an extension behind the rest of its fragment. -/
def remnant (t : Trie) (below : Path) : Trie :=
  match t with
  | .leaf _ v _ => .leaf below v none
  | .extension _ c _ => behind below c
  | t => t

theorem remnant_eq_setFragment (hshort : t.isShort = true) (hf : f.toList ≠ []) :
    t.remnant f = t.setFragment f := by
  rcases isShort_iff.1 hshort with ⟨g, v, m, rfl⟩ | ⟨g, c, m, rfl⟩
  · rfl
  · rw [remnant, behind, if_neg fun h => hf (Path.isEmpty_iff.1 h)]
    rfl

/-- A key that parts from the fragment gets a place of its own beside the remnant. -/
theorem insert_part {k front below rest : Path} {d d' : Nibble} (w : Bytes)
    (hshort : t.isShort = true) (hd : d ≠ d')
    (hf : t.fragment.toList = front.toList ++ d :: below.toList)
    (hk : k.toList = front.toList ++ d' :: rest.toList) :
    t.insert k (.value w) = .ok (behind front
      (fork (Children.set (only d (t.remnant below)).get d' (plant rest (.value w))) [])) := by
  obtain ⟨hcommon, hleft, hright⟩ := Path.meet_part hd hf hk
  rcases isShort_iff.1 hshort with ⟨g, v, m, rfl⟩ | ⟨g, c, m, rfl⟩
  · rw [fragment] at hcommon hleft hright
    simp only [insert, hcommon, hleft, hright, remnant]
  · rw [fragment] at hcommon hleft hright
    simp only [insert, hcommon, hleft, hright, remnant]

/-- A key that ends within the fragment leaves its value above the remnant. -/
theorem insert_stop {k below : Path} {d : Nibble} (w : Bytes) (hshort : t.isShort = true)
    (hf : t.fragment.toList = k.toList ++ d :: below.toList) :
    t.insert k (.value w) = .ok (behind k (fork (only d (t.remnant below)) w)) := by
  obtain ⟨hcommon, hleft, hright⟩ := Path.meet_stop hf
  rcases isShort_iff.1 hshort with ⟨g, v, m, rfl⟩ | ⟨g, c, m, rfl⟩
  · rw [fragment] at hcommon hleft hright
    simp [insert, hcommon, hleft, hright, remnant, valueOf, bind, Except.bind, pure, Except.pure]
  · rw [fragment] at hcommon hleft hright
    simp [insert, hcommon, hleft, hright, remnant, valueOf, bind, Except.bind, pure, Except.pure]

/-- A key that goes on behind the fragment of an extension is inserted below. -/
theorem insert_pass {k rest : Path} {e : Entry} {c' : Trie} {m : Option Word}
    (hk : k.toList = f.toList ++ rest.toList) (h : c.insert rest e = .ok c') :
    (extension f c m).insert k e = .ok (.extension f c' none) := by
  obtain ⟨hleft, hright⟩ := Path.meet_pass hk
  simp [insert, hleft, hright, h, bind, Except.bind, pure, Except.pure]

/-- A key that splits a node does not pass the node's fragment. -/
theorem Split.not_pass {k : Path} {e : Entry} {part : Path → Trie} (h : Split f k e part t') :
    ¬ f.toList <+: k.toList := by
  cases h with
  | stop d below w hf he =>
    intro hp
    have := hp.length_le
    rw [hf, List.length_append, List.length_cons] at this
    omega
  | part front d below d' rest hd hf hk =>
    intro hp
    rw [hf, hk, List.prefix_append_right_inj, List.cons_prefix_cons] at hp
    exact hd hp.1

end Trie

end Stateless
