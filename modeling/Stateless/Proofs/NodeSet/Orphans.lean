import Stateless.Proofs.Fault
import Stateless.Proofs.NodeSet.Contents
import Stateless.Proofs.Trie.Fragment

/-!
# Where orphans belong

An orphan of a trie is a leaf or an extension of the trie with some nibbles taken off the front of
its fragment, at the place to which these nibbles lead. No other node of the trie stands there, and
there is only one orphan for each place. The proof of an absent key reveals the orphans of the last
node on its way. The main statements are `IsOrphan.unique` and `mem_orphanCandidates`.
-/

namespace Stateless

namespace Trie

section

variable {t : Trie}

theorem mem_shortened {off : Path} {s : Trie} : (off, s) ∈ t.shortened ↔
    ∃ i, 0 < i ∧ i < t.fragment.length ∧ off.toList = t.fragment.toList.take i ∧
      s = t.setFragment (t.fragment.drop i) := by
  have hmem : ∀ (f : Path) (rebuild : Path → Trie),
      (off, s) ∈ (shortenings f).map (fun x => (x.1, rebuild x.2)) ↔
        ∃ i, 0 < i ∧ i < f.length ∧ off.toList = f.toList.take i ∧ s = rebuild (f.drop i) := by
    intro f rebuild
    simp only [shortenings, List.map_map, List.mem_map, List.mem_range'_1, Function.comp_apply,
      Prod.mk.injEq]
    constructor
    · rintro ⟨i, ⟨h₁, h₂⟩, rfl, rfl⟩
      exact ⟨i, by omega, by omega, Path.dropLast_sub (by omega), rfl⟩
    · rintro ⟨i, h₁, h₂, hoff, rfl⟩
      exact ⟨i, ⟨by omega, by omega⟩, Path.ext ((Path.dropLast_sub h₂.le).trans hoff.symm), rfl⟩
  cases t with
  | leaf f v m => exact hmem f fun rest => .leaf rest v none
  | extension f c m => exact hmem f fun rest => .extension rest c none
  | _ => simp [shortened, fragment, Path.empty, Path.length]

/-- The last node on the way of some nibbles: all other nodes on the way are above it. -/
structure LastOn (t : Trie) (k l : List Nibble) (c : Trie) : Prop where
  front : l <+: k
  node : t.nodeAt l = some c
  deep {l' : List Nibble} {s : Trie} : l' <+: k → t.nodeAt l' = some s → s ≠ .empty → l' <+: l

/-- If a leaf or an extension is the last node on a way, nothing else is. -/
theorem LastOn.eq_of_short {n : Nat} {k l l' : List Nibble} {c s : Trie} (ht : Canonical n t)
    (h : LastOn t k l c) (hshort : c.isShort = true) (h' : LastOn t k l' s) : l' = l ∧ s = c := by
  have hne : c ≠ .empty := by
    rintro rfl
    cases hshort
  obtain ⟨x, rfl⟩ := h'.deep h.front h.node hne
  have hx : x = [] := by
    by_contra hx
    have hs := h'.node
    rw [nodeAt_append h.node] at hs
    rcases isShort_iff.1 hshort with ⟨f, v, m, rfl⟩ | ⟨f, b, m, rfl⟩
    · cases x with
      | nil => exact hx rfl
      | cons d x => cases hs
    · -- the child of the extension is on the way as well
      obtain ⟨-, hf, -, hstem, -⟩ := ht.nodeAt h.node
      have hfront : f.toList <+: x := fragment_front hshort hx hs
      have hchild : t.nodeAt (l ++ f.toList) = some b := by
        rw [nodeAt_append h.node, nodeAt_extension m hf]
      have hway : l ++ f.toList <+: k :=
        ((List.prefix_append_right_inj l).2 hfront).trans h'.front
      have hlen := (h.deep hway hchild hstem.ne_empty).length_le
      rw [List.length_append] at hlen
      exact hf (List.length_eq_zero_iff.1 (by omega))
  subst hx
  rw [List.append_nil] at h' ⊢
  exact ⟨rfl, Option.some.inj (h'.node.symm.trans h.node)⟩

end

variable [Hasher] {t c : Trie}

theorem curtain_reference (hs : Sound c) : c.curtain.reference = c.reference := by
  rw [hs.memoHolds.reference_eq, curtain]
  cases hc : c.content with
  | error w => rfl
  | ok e =>
    by_cases hlen : hashLength ≤ e.length
    · simp only [hlen, if_true, Reference.ofContent, Nat.not_lt.2 hlen, if_false]
      rfl
    · simp only [hlen, if_false]
      rw [reference_forget hs, hs.memoHolds.reference_eq, hc]

/-- A shorter variant of a node is written as the same variant of its outline. -/
theorem content_setFragment_outline (hs : Sound t) (f : Path) :
    (t.outline.setFragment f).content = (t.setFragment f).content := by
  cases t with
  | extension g c m =>
    rw [outline, setFragment, setFragment, content_extension, content_extension,
      curtain_reference hs.1]
  | branch cs v m =>
    simp only [outline, setFragment, forgetRoot, withMemo, content_branch,
      fun i => curtain_reference (hs.1 i)]
  | _ => rfl

/-- A leaf or extension on the way of one of some keys with the front of its fragment taken off, and
its place. -/
def IsOrphan (t : Trie) (keys : List Word) (path : Path) (node : ProvedNode) : Prop :=
  ∃ l c i e, (∃ a ∈ keys, l <+: (Path.ofWord a).toList) ∧ t.nodeAt l = some c ∧
    c.isShort = true ∧ 0 < i ∧ i < c.fragment.length ∧
    path.toList = l ++ c.fragment.toList.take i ∧
    (c.setFragment (c.fragment.drop i)).content = .ok e ∧ node = ⟨digest e, e⟩

/-- An orphan that the proof of one of some keys reveals: the key is absent, and the last node on its
way is a leaf or an extension. -/
def Revealed (t : Trie) (keys : List Word) (path : Path) (node : ProvedNode) : Prop :=
  ∃ a ∈ keys, t.get (.ofWord a) = none ∧ ∃ l c i e, t.LastOn (Path.ofWord a).toList l c ∧
    c.isShort = true ∧ 0 < i ∧ i < c.fragment.length ∧
    path.toList = l ++ c.fragment.toList.take i ∧
    (c.setFragment (c.fragment.drop i)).content = .ok e ∧ node = ⟨digest e, e⟩

theorem Revealed.isOrphan {keys : List Word} {path : Path} {node : ProvedNode}
    (h : Revealed t keys path node) : IsOrphan t keys path node := by
  obtain ⟨a, ha, -, l, c, i, e, hlast, hrest⟩ := h
  exact ⟨l, c, i, e, ⟨a, ha, hlast.front⟩, hlast.node, hrest⟩

/-- A byte string is the encoding of a leaf or an extension of a trie, or of one with the front of its
fragment taken off. -/
def Shortens (t : Trie) (b : Bytes) : Prop :=
  ∃ l c i, t.nodeAt l = some c ∧ c.isShort = true ∧ i < c.fragment.length ∧
    (c.setFragment (c.fragment.drop i)).content = .ok b

theorem IsOrphan.shortens {keys : List Word} {path : Path} {node : ProvedNode}
    (h : IsOrphan t keys path node) : t.Shortens node.blob := by
  obtain ⟨l, c, i, e, -, hc, hshort, -, hi, -, he, rfl⟩ := h
  exact ⟨l, c, i, hc, hshort, hi, he⟩

theorem not_shortens_empty {b : Bytes} : ¬ Shortens .empty b := by
  rintro ⟨l, c, i, hc, hshort, -⟩
  cases l with
  | nil =>
    obtain rfl := Option.some.inj hc
    cases hshort
  | cons d l => cases hc

theorem shortens_leaf {f : Path} {v : Bytes} {m : Option Word} {b : Bytes} :
    Shortens (.leaf f v m) b ↔ ∃ i < f.length, b = leafEncoding (f.drop i) v := by
  constructor
  · rintro ⟨l, c, i, hc, -, hi, hb⟩
    cases l with
    | nil =>
      obtain rfl := Option.some.inj hc
      exact ⟨i, hi, (Except.ok.inj hb).symm⟩
    | cons d l => cases hc
  · rintro ⟨i, hi, rfl⟩
    exact ⟨[], _, i, rfl, rfl, hi, rfl⟩

theorem shortens_branch {cs : Nibble → Trie} {v : Bytes} {m : Option Word} {b : Bytes} :
    Shortens (.branch cs v m) b ↔ ∃ i, (cs i).Shortens b := by
  constructor
  · rintro ⟨l, c, i, hc, hshort, hi, hb⟩
    cases l with
    | nil =>
      obtain rfl := Option.some.inj hc
      cases hshort
    | cons d l => exact ⟨d, l, c, i, hc, hshort, hi, hb⟩
  · rintro ⟨d, l, c, i, hc, hshort, hi, hb⟩
    exact ⟨d :: l, c, i, hc, hshort, hi, hb⟩

theorem shortens_twin {t' : Trie} {d d' : Nibble} {b : Bytes}
    (hb : (twin d t d' t').Shortens b) : t.Shortens b ∨ t'.Shortens b := by
  obtain ⟨i, hb⟩ := shortens_branch.1 hb
  rw [get_twin] at hb
  split at hb
  · exact Or.inr hb
  · split at hb
    · exact Or.inl hb
    · exact absurd hb not_shortens_empty

theorem Shortens.of_memoize {b : Bytes} (hs : Sound t) (h : t.memoize.Shortens b) :
    t.Shortens b := by
  obtain ⟨l, c, i, hl, hshort, hi, hb⟩ := h
  obtain ⟨c', hl', hforget⟩ := nodeAt_of_forget_eq (forget_memoize t) hl
  have hfragment : c'.fragment = c.fragment := by rw [← fragment_forget, ← hforget, fragment_forget]
  refine ⟨l, c', i, hl', ?_, hfragment ▸ hi, ?_⟩
  · rw [← isShort_forget, ← hforget, isShort_forget, hshort]
  · rw [hfragment, ← content_forget ((hs.nodeAt hl').setFragment _), forget_setFragment, ← hforget,
      ← forget_setFragment, content_forget ((hs.memoize.nodeAt hl).setFragment _), hb]

/-- There is one orphan at most for each place. -/
theorem IsOrphan.unique {keys keys' : List Word} {path : Path} {a b : ProvedNode}
    (ha : IsOrphan t keys path a) (hb : IsOrphan t keys' path b) : a = b := by
  obtain ⟨l, c, i, e, -, hc, hshort, hi, hlen, hpath, he, rfl⟩ := ha
  obtain ⟨l', c', i', e', -, hc', hshort', hi', hlen', hpath', he', rfl⟩ := hb
  -- no node stands within the fragment of another
  have hsame : ∀ {l l' : List Nibble} {c c' : Trie} {i : Nat}, t.nodeAt l = some c →
      t.nodeAt l' = some c' → c.isShort = true → i < c.fragment.length →
      path.toList = l ++ c.fragment.toList.take i → l' <+: path.toList → l <+: l' → l = l' := by
    rintro l l' c c' i hc hc' hshort hlen hpath hl' ⟨x, rfl⟩
    by_contra hne
    have hx : x ≠ [] := fun h => hne (by rw [h, List.append_nil])
    rw [nodeAt_append hc] at hc'
    have hle := (fragment_front hshort hx hc').length_le
    rw [hpath, List.prefix_append_right_inj] at hl'
    have := hl'.length_le
    rw [List.length_take, Path.length_toList] at this
    rw [Path.length_toList] at hle
    omega
  have hl : l <+: path.toList := hpath ▸ List.prefix_append _ _
  have hl' : l' <+: path.toList := hpath' ▸ List.prefix_append _ _
  obtain rfl : l = l' := by
    rcases List.prefix_or_prefix_of_prefix hl hl' with h | h
    · exact hsame hc hc' hshort hlen hpath hl' h
    · exact (hsame hc' hc hshort' hlen' hpath' hl h).symm
  obtain rfl := Option.some.inj (hc.symm.trans hc')
  obtain rfl : i = i' := by
    have := congrArg List.length (List.append_cancel_left (hpath.symm.trans hpath'))
    simp only [List.length_take, Path.length_toList] at this
    omega
  rw [Except.ok.inj (he.symm.trans he')]

end Trie

namespace NodeSet

open Trie

variable [Hasher] {t : Trie} {p : VerifiedPath}

theorem ofTrie_eq {s : Trie} {e : Bytes} (h : s.content = .ok e) :
    ProvedNode.ofTrie s = ⟨digest e, e⟩ := by
  simp [ProvedNode.ofTrie, encoding?, h]

/-- The candidates of a node's outline are the node's own. -/
theorem mem_orphans {c : Trie} (hs : Sound c) {off : Path} {node : ProvedNode} :
    (off, node) ∈ orphans c.outline ↔ ∃ i e, 0 < i ∧ i < c.fragment.length ∧
      off.toList = c.fragment.toList.take i ∧
      (c.setFragment (c.fragment.drop i)).content = .ok e ∧ node = ⟨digest e, e⟩ := by
  have hcontent : ∀ i, i < c.fragment.length →
      ∃ e, (c.setFragment (c.fragment.drop i)).content = .ok e := fun i hi => by
    cases c with
    | leaf f v m => exact ⟨_, rfl⟩
    | extension f b m => exact ⟨_, rfl⟩
    | _ => exact absurd hi (Nat.not_lt_zero i)
  have hnode : ∀ i e, (c.setFragment (c.fragment.drop i)).content = .ok e →
      ProvedNode.ofTrie (c.outline.setFragment (c.fragment.drop i)) = ⟨digest e, e⟩ :=
    fun i e he => ofTrie_eq ((content_setFragment_outline hs _).trans he)
  simp only [orphans, List.mem_map, Prod.mk.injEq, Prod.exists, mem_shortened, outline_fragment]
  constructor
  · rintro ⟨off', s, ⟨i, hi, hlen, hoff, rfl⟩, rfl, rfl⟩
    obtain ⟨e, he⟩ := hcontent i hlen
    exact ⟨i, e, hi, hlen, hoff, he, hnode i e he⟩
  · rintro ⟨i, e, hi, hlen, hoff, he, rfl⟩
    exact ⟨off, _, ⟨i, hi, hlen, hoff, rfl⟩, rfl, hnode i e he⟩

/-- If a way ends at a leaf or an extension without reaching its key, then all orphans of that node
are among some candidates. -/
def Reveals (t : Trie) (p : VerifiedPath) (candidates : List (Path × ProvedNode)) : Prop :=
  ∀ c i e, p.value = none → t.nodeAt p.matched.toList = some c → c.isShort = true →
    0 < i → i < c.fragment.length → (c.setFragment (c.fragment.drop i)).content = .ok e →
    ∃ path : Path, path.toList = p.matched.toList ++ c.fragment.toList.take i ∧
      (path, ⟨digest e, e⟩) ∈ candidates

omit [Hasher] in
/-- Nodes are placed behind a path where there is room for all of them. -/
theorem place_eq_ok {q : Path} {nodes : List (Path × ProvedNode)}
    (hroom : ∀ x ∈ nodes, q.length + x.1.length ≤ maxNibbles) :
    ∃ placed, (nodes.mapM fun x => do
        return (← q.append x.1, x.2) : Except Fault (List (Path × ProvedNode))) = .ok placed ∧
      ∀ path node, (path, node) ∈ placed ↔
        ∃ off, (off, node) ∈ nodes ∧ path.toList = q.toList ++ off.toList := by
  have hone : ∀ x ∈ nodes, ∃ path, path.toList = q.toList ++ x.1.toList ∧
      (do return (← q.append x.1, x.2) : Except Fault (Path × ProvedNode)) = .ok (path, x.2) := by
    intro x hx
    obtain ⟨path, happend, hpath⟩ := Path.append_eq_ok (hroom x hx)
    exact ⟨path, hpath, by simp [happend, bind, Except.bind, pure, Except.pure]⟩
  obtain ⟨placed, hplaced, hmem⟩ := mapM_eq_ok fun x hx => (hone x hx).imp' (·, x.2) fun _ h => h.2
  refine ⟨placed, hplaced, fun path node => (hmem _).trans ⟨?_, ?_⟩⟩
  · rintro ⟨⟨off, node'⟩, hx, hy⟩
    obtain ⟨path', hpath, hy'⟩ := hone _ hx
    obtain ⟨rfl, rfl⟩ := Prod.mk.inj (Except.ok.inj (hy.symm.trans hy'))
    exact ⟨off, hx, hpath⟩
  · rintro ⟨off, hx, hpath⟩
    obtain ⟨path', hpath', hy'⟩ := hone _ hx
    obtain rfl := Path.ext (hpath.trans hpath'.symm)
    exact ⟨_, hx, hy'⟩

omit [Hasher] in
theorem fragment_room {l : List Nibble} {c : Trie} {i : Nat} (ht : Canonical maxNibbles t)
    (hc : t.nodeAt l = some c) (hi : i < c.fragment.length) :
    (l ++ c.fragment.toList.take i).length ≤ maxNibbles := by
  obtain ⟨hroom, hcan⟩ := ht.nodeAt hc
  have hfrag := fragment_length_le hcan
  rw [List.length_append, List.length_take, Path.length_toList]
  omega

/-- The orphans at the end of a way are those of its last node, if that is a leaf or an extension and
the key is absent. -/
theorem mem_orphansAt {k : Path} (ht : Canonical maxNibbles t) (hs : Sound t)
    (h : Ends t .empty k p) :
    ∃ here, orphansAt p = .ok here ∧ ∀ path node, (path, node) ∈ here ↔
      p.value = none ∧ ∃ c i e, t.nodeAt p.matched.toList = some c ∧ c.isShort = true ∧
        0 < i ∧ i < c.fragment.length ∧
        path.toList = p.matched.toList ++ c.fragment.toList.take i ∧
        (c.setFragment (c.fragment.drop i)).content = .ok e ∧ node = ⟨digest e, e⟩ := by
  obtain ⟨-, -, c, hc, hlast⟩ := ends_eq h
  by_cases hskip : (p.isInclusion || !p.last.isShort) = true
  · refine ⟨[], by rw [orphansAt, if_pos hskip], fun path node => ?_⟩
    refine iff_of_false List.not_mem_nil ?_
    rintro ⟨hvalue, c', i, e, hc', hshort, -⟩
    obtain rfl := Option.some.inj (hc.symm.trans hc')
    rw [hlast, outline_isShort, hshort, VerifiedPath.isInclusion, hvalue] at hskip
    cases hskip
  · obtain ⟨hvalue, hshort⟩ : p.value = none ∧ c.isShort = true := by
      rw [hlast, outline_isShort, Bool.or_eq_true, not_or, Bool.not_eq_true', Bool.not_eq_false,
        VerifiedPath.isInclusion, Option.not_isSome_iff_eq_none] at hskip
      exact hskip
    have hsc := hs.nodeAt hc
    have hfits : ∀ x ∈ orphans p.last, p.matched.length + x.1.length ≤ maxNibbles := by
      rintro ⟨off, node⟩ hx
      rw [hlast, mem_orphans hsc] at hx
      obtain ⟨i, e, -, hi, hoff, -, -⟩ := hx
      have hroom := fragment_room ht hc hi
      rwa [← hoff, List.length_append, Path.length_toList, Path.length_toList] at hroom
    obtain ⟨here, hhere, hmem⟩ := place_eq_ok hfits
    refine ⟨here, by rw [orphansAt, if_neg hskip]; exact hhere, fun path node => ?_⟩
    rw [hmem]
    constructor
    · rintro ⟨off, hoff, hpath⟩
      rw [hlast, mem_orphans hsc] at hoff
      obtain ⟨i, e, hi, hlen, hoff, he, rfl⟩ := hoff
      exact ⟨hvalue, c, i, e, hc, hshort, hi, hlen, hoff ▸ hpath, he, rfl⟩
    · rintro ⟨-, c', i, e, hc', -, hi, hlen, hpath, he, rfl⟩
      obtain rfl := Option.some.inj (hc.symm.trans hc')
      have htake : (c.fragment.dropLast (c.fragment.length - i)).toList = c.fragment.toList.take i :=
        Path.dropLast_sub hlen.le
      refine ⟨c.fragment.dropLast (c.fragment.length - i), ?_, by rw [htake, hpath]⟩
      rw [hlast, mem_orphans hsc]
      exact ⟨i, e, hi, hlen, htake, he, rfl⟩

theorem lastOn_of_ends {k : Path} (h : Ends t .empty k p) :
    ∃ s, t.LastOn k.toList p.matched.toList s := by
  obtain ⟨l, s, hl, hfront, hnode, -, hdeep⟩ := h.last
  have hl' : p.matched.toList = l := hl
  rw [hl']
  exact ⟨s, hfront, hnode, fun {l' s'} => hdeep l' s'⟩

/-- The candidates are the orphans that the proofs reveal. -/
theorem mem_orphanCandidates {root : Word} {source : NodeSource} {keys : List Word}
    (ht : Canonical maxNibbles t) (hs : Sound t)
    (hkeys : ∀ a ∈ keys, Complete t .empty (.ofWord a) (verify root (.ofWord a) source)) :
    ∃ candidates, orphanCandidates root source keys = .ok candidates ∧
      ∀ path node, (path, node) ∈ candidates ↔ Revealed t keys path node := by
  induction keys with
  | nil => exact ⟨[], rfl, fun path node => by simp [Revealed]⟩
  | cons a keys ih =>
    obtain ⟨p, hp, hends⟩ := (hkeys a List.mem_cons_self).ends
    obtain ⟨here, hhere, hmem⟩ := mem_orphansAt ht hs hends
    obtain ⟨rest, hrest, hmem'⟩ := ih fun b hb => hkeys b (List.mem_cons_of_mem _ hb)
    obtain ⟨s, hlast⟩ := lastOn_of_ends hends
    obtain ⟨hvalue, -⟩ := ends_eq hends
    refine ⟨here ++ rest, ?_, fun path node => ?_⟩
    · simp [orphanCandidates, hp, hhere, hrest, Attempt.mapError, Attempt.ofFault, bind, Except.bind,
        pure, Except.pure]
    · unfold Revealed at hmem' ⊢
      rw [List.mem_append, hmem, hmem', List.exists_mem_cons_iff, hvalue]
      refine or_congr_left (and_congr_right fun _ => ⟨?_, ?_⟩)
      · rintro ⟨c, i, e, hc, hrest⟩
        obtain rfl := Option.some.inj (hlast.node.symm.trans hc)
        exact ⟨_, s, i, e, hlast, hrest⟩
      · rintro ⟨l, c, i, e, hlast', hshort, hrest⟩
        obtain ⟨hl, rfl⟩ := hlast'.eq_of_short ht hshort hlast
        rw [← hl] at hrest
        exact ⟨s, i, e, hlast.node, hshort, hrest⟩

/-- The orphans that the proofs of some keys reveal are orphans of the trie, and all that there are
at the ends of their ways. -/
theorem orphanCandidates_complete {root : Word} {source : NodeSource} {keys : List Word}
    (ht : Canonical maxNibbles t) (hs : Sound t)
    (hkeys : ∀ a ∈ keys, Complete t .empty (.ofWord a) (verify root (.ofWord a) source)) :
    ∃ candidates, orphanCandidates root source keys = .ok candidates ∧
      (∀ x ∈ candidates, IsOrphan t keys x.1 x.2) ∧
      ∀ a ∈ keys, ∃ p, Ends t .empty (.ofWord a) p ∧ Reveals t p candidates := by
  obtain ⟨candidates, hcandidates, hmem⟩ := mem_orphanCandidates ht hs hkeys
  refine ⟨candidates, hcandidates, fun x hx => ((hmem x.1 x.2).1 hx).isOrphan, fun a ha => ?_⟩
  obtain ⟨p, -, hends⟩ := (hkeys a ha).ends
  refine ⟨p, hends, fun c i e hvalue hc hshort hi hlen he => ?_⟩
  obtain ⟨s, hlast⟩ := lastOn_of_ends hends
  obtain rfl := Option.some.inj (hlast.node.symm.trans hc)
  refine ⟨⟨_, fragment_room ht hc hlen⟩, rfl, (hmem _ _).2 ?_⟩
  exact ⟨a, ha, (ends_eq hends).1.symm.trans hvalue, _, s, i, e, hlast, hshort, hi, hlen, rfl, he,
    rfl⟩

end NodeSet

end Stateless
