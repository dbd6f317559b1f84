import Stateless.Proofs.NodeSet.Orphans

/-!
# Which joined nodes are recovered

A removal that leaves a branch with one leaf or extension joins the nibbles that lead to it with its
fragment. The node is recovered from the joined one if its fragment is not used up: it is then among
the orphans of the joined node, at the place of these nibbles (`mem_orphans_joined`). The orphans are
all the ways to split the fragment with something on either side, so a leaf whose key ends where it
stands is not among them (`orphans_lack_bare_leaf`).
-/

namespace Stateless

namespace Trie

variable {s t t' : Trie} {p f : Path}

/-- A leaf, or an extension above what may stand below an extension: a node with which nibbles are
joined in one step. -/
def Settled (s : Trie) : Prop := s.isShort = true ∧ ∀ f c m, s = .extension f c m → c.IsStem

/-- Joining nibbles with such a node puts them in front of its fragment. The memo of a branch below
is lost. -/
theorem join_settled (hs : s.Settled) (hf : p.append s.fragment = .ok f) :
    ∃ t, join p s = .ok t ∧ t.forget = (s.setFragment f).forget := by
  obtain ⟨hshort, hstem⟩ := hs
  rcases isShort_iff.1 hshort with ⟨g, v, m, rfl⟩ | ⟨g, c, m, rfl⟩
  · rw [fragment] at hf
    rw [join, hf]
    exact ⟨_, rfl, rfl⟩
  · rw [fragment] at hf
    rw [join, hf]
    refine ⟨_, join_stem (hstem g c m rfl), ?_⟩
    rw [setFragment, forget, forget, forgetRoot, forget_withMemo]

theorem shortened_eq (hshort : s.isShort = true) :
    s.shortened = (shortenings s.fragment).map fun x => (x.1, s.setFragment x.2) := by
  rcases isShort_iff.1 hshort with ⟨g, v, m, rfl⟩ | ⟨g, c, m, rfl⟩ <;> rfl

theorem fragment_setFragment_le (s : Trie) (f : Path) :
    (s.setFragment f).fragment.length ≤ f.length := by
  cases s with
  | leaf g v m => exact le_refl _
  | extension g c m => exact le_refl _
  | _ => exact Nat.zero_le _

section

variable [Hasher]

theorem ofTrie_forgetRoot (s : Trie) : ProvedNode.ofTrie s.forgetRoot = ProvedNode.ofTrie s := by
  rw [ProvedNode.ofTrie, ProvedNode.ofTrie, encoding?, encoding?, forgetRoot, content_withMemo]

/-- Sound memos do not show in an orphan. -/
theorem ofTrie_eq_of_forget_eq (ht : Sound t) (ht' : Sound t') (h : t.forget = t'.forget) :
    ProvedNode.ofTrie t = ProvedNode.ofTrie t' := by
  rw [ProvedNode.ofTrie, ProvedNode.ofTrie, encoding?, encoding?, ← content_forget ht, h,
    content_forget ht']

/-- The same nodes have the same orphans. -/
theorem orphans_eq_of_forget_eq (ht : Sound t) (ht' : Sound t') (h : t.forget = t'.forget) :
    orphans t = orphans t' := by
  have hshort : t.isShort = t'.isShort := by rw [← isShort_forget, h, isShort_forget]
  have hfragment : t.fragment = t'.fragment := by rw [← fragment_forget, h, fragment_forget]
  cases hs : t'.isShort with
  | true =>
    rw [orphans, orphans, shortened_eq (hshort.trans hs), shortened_eq hs, hfragment, List.map_map,
      List.map_map]
    refine List.map_congr_left fun x _ => congrArg (Prod.mk x.1) ?_
    refine ofTrie_eq_of_forget_eq (ht.setFragment x.2) (ht'.setFragment x.2) ?_
    rw [forget_setFragment, h, forget_setFragment]
  | false =>
    have hnone : ∀ t : Trie, t.isShort = false → orphans t = [] := fun t ht => by
      cases t with
      | leaf f v m => cases ht
      | extension f c m => cases ht
      | _ => rfl
    rw [hnone t (hshort.trans hs), hnone t' hs]

/-- What is behind some nibbles in a fragment is an orphan at their place. -/
theorem mem_orphans_of_fragment (hshort : s.isShort = true) (hp : p.toList ≠ [])
    (hs : s.fragment.toList ≠ []) (hf : f.toList = p.toList ++ s.fragment.toList) :
    (p, ProvedNode.ofTrie s) ∈ orphans (s.setFragment f) := by
  have hlen := congrArg List.length hf
  have hpos := List.length_pos_iff.2 hp
  have hpos' := List.length_pos_iff.2 hs
  simp only [List.length_append, Path.length_toList] at hlen hpos hpos'
  have hfragment := (isShort_setFragment hshort f).2
  have hfront : p.toList = f.toList.take p.length := by
    rw [hf, ← Path.length_toList, List.take_left]
  have hrest : f.drop p.length = s.fragment := by
    refine Path.ext ?_
    rw [Path.toList_drop, hf, ← Path.length_toList, List.drop_left]
  have hvariant : (s.setFragment f).setFragment (f.drop p.length) = s.forgetRoot := by
    rw [setFragment_setFragment, hrest, setFragment_self hshort]
  have hmem : (p, s.forgetRoot) ∈ (s.setFragment f).shortened := by
    rw [mem_shortened, hfragment]
    exact ⟨p.length, hpos, by omega, hfront, hvariant.symm⟩
  exact List.mem_map.2 ⟨_, hmem, congrArg (Prod.mk p) (ofTrie_forgetRoot s)⟩

/-- Some nibbles are joined with a node below them. The joined node has that node among its orphans,
at the place to which the nibbles lead, exactly if the fragment of the node is not empty. The join
makes this node, up to memos, which do not show in its orphans. -/
theorem mem_orphans_joined (hp : p.isEmpty = false)
    (hroom : p.length + s.fragment.length ≤ maxNibbles) :
    ∃ f, p.append s.fragment = .ok f ∧
      (s.Settled → ∃ t, join p s = .ok t ∧ t.forget = (s.setFragment f).forget ∧
        (Sound s → orphans t = orphans (s.setFragment f))) ∧
      ((p, ProvedNode.ofTrie s) ∈ orphans (s.setFragment f) ↔ s.fragment.isEmpty = false) := by
  obtain ⟨f, happend, hf⟩ := Path.append_eq_ok hroom
  have hempty : ∀ q : Path, q.isEmpty = false ↔ q.toList ≠ [] := fun q => by
    rw [← Bool.not_eq_true, Path.isEmpty_iff]
  refine ⟨f, happend, fun hs => ?_, ?_⟩
  · obtain ⟨t, ht, hsame⟩ := join_settled hs happend
    exact ⟨t, ht, hsame, fun hsound => orphans_eq_of_forget_eq (hereditary_sound.join hsound ht)
      (hsound.setFragment f) hsame⟩
  rw [hempty]
  constructor
  · intro hmem
    obtain ⟨⟨off, variant⟩, hvariant, heq⟩ := List.mem_map.1 hmem
    obtain ⟨i, -, hi, hoff, -⟩ := mem_shortened.1 hvariant
    obtain rfl : off = p := congrArg Prod.fst heq
    -- the whole of the nibbles was taken off, and something was left
    intro hnil
    have hlen := congrArg List.length hf
    have hlen' := congrArg List.length hoff
    have hle := fragment_setFragment_le s f
    simp only [List.length_append, List.length_take, Path.length_toList, hnil, List.length_nil]
      at hlen hlen'
    omega
  · intro hs
    have hshort : s.isShort = true := by
      cases s with
      | leaf g v m => rfl
      | extension g c m => rfl
      | _ => exact absurd rfl hs
    exact mem_orphans_of_fragment hshort ((hempty p).1 hp) hs hf

end

/-- A leaf is recovered from a joined one: the part `5` of the key `35` is left after `3`. -/
theorem mem_orphans_joined_leaf :
    (Path.single 3).isEmpty = false ∧
      (Path.single 3).length + (leaf (.single 5) [7] none).fragment.length ≤ maxNibbles ∧
      (leaf (.single 5) [7] none).Settled ∧ Sound (leaf (.single 5) [7] none) ∧
      join (.single 3) (leaf (.single 5) [7] none) = .ok (.leaf (.ofList [3, 5]) [7] none) ∧
      (Path.single 3, ProvedNode.ofTrie (leaf (.single 5) [7] none)) ∈
        orphans (.leaf (.ofList [3, 5]) [7] none) := by
  have hroom : (Path.single 3).length + (leaf (.single 5) [7] none).fragment.length ≤ maxNibbles := by
    decide
  have hsettled : (leaf (.single 5) [7] none).Settled := ⟨rfl, nofun⟩
  have hsound : Sound (leaf (.single 5) [7] none) := memoHolds_of_memo_none rfl
  obtain ⟨f, hf, hjoin, hmem⟩ := mem_orphans_joined (s := .leaf (.single 5) [7] none) rfl hroom
  obtain rfl : .ofList [3, 5] = f := Except.ok.inj hf
  obtain ⟨t, ht, -, horphans⟩ := hjoin hsettled
  obtain rfl : .leaf (.ofList [3, 5]) [7] none = t := Except.ok.inj ht
  refine ⟨rfl, hroom, hsettled, hsound, ht, ?_⟩
  rw [horphans hsound]
  exact hmem.2 rfl

/-- A key that ends where a hidden leaf stands leaves that leaf with an empty fragment. Nothing is
recovered from the joined leaf, although the hidden one is as long as a hash. -/
theorem orphans_lack_bare_leaf :
    hashLength ≤ (leafEncoding .empty (List.replicate 32 9)).length ∧
      join (.single 3) (leaf .empty (List.replicate 32 9) none) =
        .ok (.leaf (.single 3) (List.replicate 32 9) none) ∧
      (Path.single 3, ProvedNode.ofTrie (leaf .empty (List.replicate 32 9) none)) ∉
        orphans (.leaf (.single 3) (List.replicate 32 9) none) := by
  refine ⟨by decide, rfl, ?_⟩
  have hnone : orphans (.leaf (.single 3) (List.replicate 32 9) none) = [] := rfl
  rw [hnone]
  exact List.not_mem_nil

end Trie

end Stateless
