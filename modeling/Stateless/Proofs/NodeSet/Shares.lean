import Stateless.Proofs.NodeSet.Exact
import Stateless.Proofs.NodeSet.Merging
import Stateless.Proofs.Trie.Shape

/-!
# Shares of one transition

Several lists of keys are proven before and after one transition. Each list fills a set of its own
with the nodes on the ways of its keys before the transition, and with the orphans that the proofs
after it reveal; this is the share of the list. Two shares can be merged unless one of them has a
node of the first trie where the other one has an orphan of the second with another hash. This does
not happen if every list has all keys that the transition changes, since an orphan that stands where
no changed key passes is a node of the first trie. The main result is `shares_merge_iff`.

If one list has a changed key and the other one has not, it does happen: an orphan stands in the way
of a real node (`shares_apart`).
-/

namespace Stateless

open Trie

section

variable [Hasher]

namespace Trie

/-- A node that the proof of one of some keys shows, at its place. -/
def Held (t : Trie) (keys : List Word) (path : Path) (node : ProvedNode) : Prop :=
  t ≠ .empty ∧ ∃ a ∈ keys, ∃ e, t.Stored (Path.ofWord a).toList path.toList e ∧ node = ⟨digest e, e⟩

/-- One list of keys reveals an orphan of the second trie where another list has proven a node of the
first trie that has another hash, and has not proven this node itself. -/
def Clash (t t' : Trie) (keys keys' : List Word) : Prop :=
  ∃ path node node', t.Held keys path node ∧ (∀ n, ¬ t.Held keys' path n) ∧
    t'.Revealed keys' path node' ∧ node.hash ≠ node'.hash

/-- The byte strings that are hashed for the share of some keys. -/
def Disclosed (t t' : Trie) (keys : List Word) (b : Bytes) : Prop :=
  b = Rlp.emptyData ∨ t.Encodes b ∨ t'.Encodes b ∨
    ∃ path node, t'.Revealed keys path node ∧ node.blob = b

/-- All keys of which a transition changes the value are listed. -/
def Lists (t t' : Trie) (keys : List Word) : Prop :=
  ∀ k, t.get k ≠ t'.get k → ∃ a ∈ keys, k = .ofWord a

variable {t t' : Trie} {keys keys' : List Word} {path : Path} {node : ProvedNode}

theorem Held.unique {a b : ProvedNode} (ha : t.Held keys path a)
    (hb : t.Held keys' path b) : a = b := by
  obtain ⟨-, -, -, e, ⟨-, c, hc, he, -⟩, rfl⟩ := ha
  obtain ⟨-, -, -, e', ⟨-, c', hc', he', -⟩, rfl⟩ := hb
  obtain rfl := Option.some.inj (hc.symm.trans hc')
  rw [Except.ok.inj (he.symm.trans he')]

theorem Revealed.mono (h : t.Revealed keys path node) (hsub : keys ⊆ keys') :
    t.Revealed keys' path node := by
  obtain ⟨a, ha, hrest⟩ := h
  exact ⟨a, hsub ha, hrest⟩

theorem Disclosed.mono {b : Bytes} (h : t.Disclosed t' keys b) (hsub : keys ⊆ keys') :
    t.Disclosed t' keys' b := by
  rcases h with hb | hb | hb | ⟨path, node, hnode, hb⟩
  · exact Or.inl hb
  · exact Or.inr (Or.inl hb)
  · exact Or.inr (Or.inr (Or.inl hb))
  · exact Or.inr (Or.inr (Or.inr ⟨path, node, hnode.mono hsub, hb⟩))

/-- Where two tries give the same answers, an orphan of one is a node of the other. -/
theorem content_of_view_eq {l l' : List Nibble} {s c : Trie} {i : Nat} (ht : t.Whole)
    (ht' : t'.Whole) (hs : t.nodeAt l' = some s) (hc : t'.nodeAt l = some c)
    (hshort : c.isShort = true) (hi : i < c.fragment.length)
    (hl : l' = l ++ c.fragment.toList.take i) (hview : ∀ x, t.view (l' ++ x) = t'.view (l' ++ x)) :
    s.content = (c.setFragment (c.fragment.drop i)).content := by
  have hsame : s.view = (c.setFragment (c.fragment.drop i)).view := by
    funext x
    have hx := hview x
    rw [view_nodeAt hs, hl, List.append_assoc, view_nodeAt hc] at hx
    rw [hx, view_setFragment_drop hshort]
  obtain ⟨-, hcan⟩ := ht.canonical.nodeAt hs
  obtain ⟨-, hcan'⟩ := ht'.canonical.nodeAt hc
  have hfull : Full (c.setFragment (c.fragment.drop i)) := by
    have hfull := ht'.full.nodeAt hc
    cases c <;> exact hfull
  have hforget := forget_eq_of_view_eq (canonical_setFragment_drop hcan' hi) hfull hcan
    (ht.full.nodeAt hs) hsame
  have hsound := (ht'.sound.nodeAt hc).setFragment (c.fragment.drop i)
  rw [← content_forget (ht.sound.nodeAt hs), hforget, content_forget hsound]

/-- A list that has all changed keys reveals no orphan in the way of a node of the first trie. -/
theorem Lists.not_clash (h : Lists t t' keys') (ht : t.Whole) (ht' : t'.Whole) :
    ¬ Clash t t' keys keys' := by
  rintro ⟨path, node, node', ⟨hne, a, ha, e, hstored, rfl⟩, hnot, hrevealed, hhash⟩
  obtain ⟨-, s, hs, he, hlong⟩ := hstored
  obtain ⟨b, hb, -, l, c, i, e', hlast, hshort, hi, hlen, hpath, he', rfl⟩ := hrevealed
  -- none of the listed keys passes here
  have hpass : ∀ a' ∈ keys', ¬ path.toList <+: (Path.ofWord a').toList := by
    intro a' ha' hfront
    exact hnot _ ⟨hne, a', ha', e, ⟨hfront, s, hs, he, hlong⟩, rfl⟩
  have hview : ∀ x, t.view (path.toList ++ x) = t'.view (path.toList ++ x) := by
    intro x
    by_cases hroom : (path.toList ++ x).length ≤ maxNibbles
    · by_contra hdiff
      have hget : t.get ⟨path.toList ++ x, hroom⟩ ≠ t'.get ⟨path.toList ++ x, hroom⟩ := by
        intro heq
        refine hdiff ((ht.full.view_get ⟨_, hroom⟩).trans ?_)
        rw [heq]
        exact (ht'.full.view_get ⟨_, hroom⟩).symm
      obtain ⟨a', ha', hk⟩ := h _ hget
      refine hpass a' ha' ?_
      rw [← hk]
      exact List.prefix_append _ _
    · -- no value is stored so far down
      have hnone : ∀ {s : Trie}, s.Whole → s.view (path.toList ++ x) = .ok none := by
        intro s hs
        obtain ⟨v, hv⟩ := hs.full.view (path.toList ++ x)
        cases v with
        | none => exact hv
        | some v => exact absurd (hs.canonical.length_le hv) hroom
      rw [hnone ht, hnone ht']
  have hcontent := content_of_view_eq ht ht' hs hlast.node hshort hlen hpath hview
  rw [he, he'] at hcontent
  exact hhash (congrArg digest (Except.ok.inj hcontent))

end Trie

namespace NodeSet

/-- What a set holds that was filled with the nodes on the ways of some keys, and then with the
orphans that their proofs after a transition reveal. -/
structure Share (t t' : Trie) (keys : List Word) (s₀ s : NodeSet) : Prop where
  exact : Exact t keys s₀
  owner : s.owner = s₀.owner
  leaves : s.leaves = s₀.leaves
  nodes (path : Path) (node : ProvedNode) : s.nodes.find? path = some node ↔
    t.Held keys path node ∨ (∀ n, ¬ t.Held keys path n) ∧ t'.Revealed keys path node

/-- The sets that are filled with the proofs of some keys before and after a transition. -/
def Collects (owner : TrieOwner) (t t' : Trie) (keys : List Word) (s₀ s : NodeSet) : Prop :=
  ∃ blobs blobs' count, t.proveAll keys = .ok blobs ∧
    (empty owner).addKeys t.hash.1 (NodeTable.ofProof blobs).source keys = .ok s₀ ∧
    t'.proveAll keys = .ok blobs' ∧
    s₀.addOrphans t'.hash.1 (NodeTable.ofProof blobs').source keys = .ok (s, count)

variable {t t' : Trie} {keys keys' : List Word} {s₀ s r₀ r : NodeSet} {S S' : Bytes → Prop}

/-- The proofs of some keys before and after a transition can be collected. -/
theorem exists_share (owner : TrieOwner) (keys : List Word) (ht : t.Whole) (ht' : t'.Whole)
    (hfree : CollisionFree S) (hempty : S Rlp.emptyData) (hS : ∀ e, t.Encodes e → S e)
    (hfree' : CollisionFree S') (hempty' : S' Rlp.emptyData) (hS' : ∀ e, t'.Encodes e → S' e) :
    ∃ s₀ s, Collects owner t t' keys s₀ s ∧ s₀.owner = owner ∧ Share t t' keys s₀ s := by
  obtain ⟨blobs, hblobs, hmem⟩ := proveAll_complete ht.canonical ht.full keys
  obtain ⟨blobs', hblobs', hmem'⟩ := proveAll_complete ht'.canonical ht'.full keys
  have hkeys := verify_proven ht hfree hempty hS hmem
  have hkeys' := verify_proven ht' hfree' hempty' hS' hmem'
  obtain ⟨s₀, hadd, -⟩ := addKeys_shows owner hkeys
  obtain ⟨howner, hexact⟩ := exact_of_addKeys ht.full hkeys hadd
  obtain ⟨candidates, hcandidates, hrevealed⟩ :=
    mem_orphanCandidates ht'.canonical ht'.sound hkeys'
  obtain ⟨hkeeps, honly, hfilled⟩ := fill_find? s₀ candidates
  have horphans : s₀.addOrphans t'.hash.1 (NodeTable.ofProof blobs').source keys =
      .ok ((s₀.fill candidates).1, (s₀.fill candidates).2) := by
    rw [addOrphans, hcandidates]
    rfl
  refine ⟨s₀, (s₀.fill candidates).1, ⟨blobs, blobs', _, hblobs, hadd, hblobs', horphans⟩, howner,
    hexact, hkeeps.owner, (fill_counts s₀ candidates).1, fun path node => ⟨fun hfind => ?_, ?_⟩⟩
  · by_cases hheld : ∃ n, t.Held keys path n
    · obtain ⟨n, hn⟩ := hheld
      have hfind' := hkeeps.nodes ((hexact.nodes path n).2 hn)
      rw [Option.some.inj (hfind.symm.trans hfind')]
      exact Or.inl hn
    · rw [not_exists] at hheld
      refine (honly path node hfind).imp (hexact.nodes path node).1 fun h => ⟨hheld, ?_⟩
      exact (hrevealed path node).1 h
  · rintro (hheld | ⟨hnot, hnode⟩)
    · exact hkeeps.nodes ((hexact.nodes path node).2 hheld)
    · obtain ⟨node', hfind⟩ := hfilled path node ((hrevealed path node).2 hnode)
      rcases honly path node' hfind with hold | hnew
      · exact absurd ((hexact.nodes path node').1 hold) (hnot node')
      · -- there is only one orphan for each place
        rwa [((hrevealed path node').1 hnew).isOrphan.unique hnode.isOrphan] at hfind

/-- Shares agree unless they clash. -/
theorem Share.agrees_iff (h : Share t t' keys s₀ s) (h' : Share t t' keys' r₀ r) :
    s.Agrees r ↔ ¬ Clash t t' keys keys' ∧ ¬ Clash t t' keys' keys := by
  constructor
  · intro hagree
    constructor
    · rintro ⟨path, node, node', hheld, hnot, hrevealed, hhash⟩
      exact hhash (hagree.nodes ((h.nodes path node).2 (Or.inl hheld))
        ((h'.nodes path node').2 (Or.inr ⟨hnot, hrevealed⟩)))
    · rintro ⟨path, node, node', hheld, hnot, hrevealed, hhash⟩
      exact hhash (hagree.symm.nodes ((h'.nodes path node).2 (Or.inl hheld))
        ((h.nodes path node').2 (Or.inr ⟨hnot, hrevealed⟩)))
  · rintro ⟨hclear, hclear'⟩
    constructor
    · intro path node node' hnode hnode'
      rcases (h.nodes path node).1 hnode with hheld | ⟨hnot, hrevealed⟩
      · rcases (h'.nodes path node').1 hnode' with hheld' | ⟨hnot', hrevealed'⟩
        · rw [Held.unique hheld hheld']
        · by_contra hhash
          exact hclear ⟨path, node, node', hheld, hnot', hrevealed', hhash⟩
      · rcases (h'.nodes path node').1 hnode' with hheld' | ⟨hnot', hrevealed'⟩
        · by_contra hhash
          exact hclear' ⟨path, node', node, hheld', hnot, hrevealed, Ne.symm hhash⟩
        · rw [hrevealed.isOrphan.unique hrevealed'.isOrphan]
    · intro key value value' hvalue hvalue'
      rw [h.leaves] at hvalue
      rw [h'.leaves] at hvalue'
      obtain ⟨-, -, -, hget⟩ := (h.exact.leaves key value).1 hvalue
      obtain ⟨-, -, -, hget'⟩ := (h'.exact.leaves key value').1 hvalue'
      exact Option.some.inj (hget.symm.trans hget')

/-- The nodes of a share have the hashes under which they are held. -/
theorem Share.disclosed (h : Share t t' keys s₀ s) {path : Path} {node : ProvedNode}
    (hfind : s.nodes.find? path = some node) :
    digest node.blob = node.hash ∧ t.Disclosed t' keys node.blob := by
  rcases (h.nodes path node).1 hfind with ⟨-, a, ha, e, hstored, rfl⟩ | ⟨-, hrevealed⟩
  · exact ⟨rfl, Or.inr (Or.inl hstored.encodes)⟩
  · have hhash : digest node.blob = node.hash := by
      obtain ⟨a, ha, -, l, c, i, e, -, -, -, -, -, -, rfl⟩ := hrevealed
      rfl
    exact ⟨hhash, Or.inr (Or.inr (Or.inr ⟨path, node, hrevealed, rfl⟩))⟩

theorem Share.keeps (h : Share t t' keys s₀ s) {path : Path} {node : ProvedNode}
    (hfind : s₀.nodes.find? path = some node) : s.nodes.find? path = some node :=
  (h.nodes path node).2 (Or.inl ((h.exact.nodes path node).1 hfind))

/-- The nodes of two shares are told apart by their hashes. -/
theorem Share.unambiguous (h : Share t t' keys s₀ s) (h' : Share t t' keys' r₀ r)
    (hfree : CollisionFree (t.Disclosed t' (keys ++ keys'))) :
    MergedNodeSet.Unambiguous [s, r] := by
  have hdisclosed : ∀ x ∈ [s, r], ∀ path node, x.nodes.find? path = some node →
      digest node.blob = node.hash ∧ t.Disclosed t' (keys ++ keys') node.blob := by
    intro x hx path node hfind
    rcases List.mem_pair.1 hx with rfl | rfl
    · obtain ⟨hhash, hnode⟩ := h.disclosed hfind
      exact ⟨hhash, hnode.mono (List.subset_append_left _ _)⟩
    · obtain ⟨hhash, hnode⟩ := h'.disclosed hfind
      exact ⟨hhash, hnode.mono (List.subset_append_right _ _)⟩
  refine MergedNodeSet.unambiguous_of_injOn (fun x hx path node hfind => ?_) ?_
  · exact (hdisclosed x hx path node hfind).1
  · rintro b ⟨x, hx, path, node, hfind, rfl⟩ b' ⟨x', hx', path', node', hfind', rfl⟩ heq
    exact hfree.inj (hdisclosed x hx path node hfind).2 (hdisclosed x' hx' path' node' hfind').2 heq

/-- Shares that do not clash are merged into a set that has all nodes that were proven. -/
theorem Share.merge (h : Share t t' keys s₀ s) (h' : Share t t' keys' r₀ r)
    (hfree : CollisionFree (t.Disclosed t' (keys ++ keys'))) (howner : s.owner = r.owner)
    (hclear : ¬ Clash t t' keys keys' ∧ ¬ Clash t t' keys' keys) :
    ∃ m u, MergedNodeSet.empty.addAll [s, r] = .ok m ∧
      MergedNodeSet.empty.addAll [r, s] = .ok m ∧ m.sets.find? s.owner = some u ∧
      ∀ path node, s₀.nodes.find? path = some node ∨ r₀.nodes.find? path = some node →
        u.nodes.find? path = some node := by
  obtain ⟨m, hm, hm', hunites⟩ :=
    MergedNodeSet.addAll_pair (h.unambiguous h' hfree) ((h.agrees_iff h').2 hclear)
  obtain ⟨u, hu⟩ := (hunites.tries s.owner).2 ⟨s, List.mem_cons_self, rfl⟩
  refine ⟨m, u, hm, hm', hu, fun path node hfind => (hunites.nodes hu path node).2 ?_⟩
  rcases hfind with hfind | hfind
  · exact ⟨s, by simp, rfl, h.keeps hfind⟩
  · exact ⟨r, by simp, howner.symm, h'.keeps hfind⟩

/-- Shares that clash cannot be merged. -/
theorem Share.conflict (h : Share t t' keys s₀ s) (h' : Share t t' keys' r₀ r)
    (howner : s.owner = r.owner) (hclash : Clash t t' keys keys' ∨ Clash t t' keys' keys) :
    (∃ e, MergedNodeSet.empty.addAll [s, r] = .error e ∧ e.IsConflict) ∧
    ∃ e, MergedNodeSet.empty.addAll [r, s] = .error e ∧ e.IsConflict := by
  have hnot : ¬ s.Agrees r := by
    rw [h.agrees_iff h', not_and_or, not_not, not_not]
    exact hclash
  exact ⟨MergedNodeSet.addAll_pair_error howner hnot,
    MergedNodeSet.addAll_pair_error howner.symm fun hagree => hnot hagree.symm⟩

/-- The proofs of two lists of keys before and after a transition between tries that were made by
putting values and removing keys can be collected in two sets. These can be merged, in either order,
exactly if neither list reveals an orphan in the way of a node that only the other one has proven.
The result then has all nodes that were proven before the transition. A list that has all keys that
the transition changes reveals no such orphan. -/
theorem shares_merge_iff {edits edits' : List Edit} {answers answers' : List (Option Bytes)}
    (owner : TrieOwner) (hputs : ∀ e ∈ edits, e.Puts Entry.Storable)
    (hrun : Edit.run edits .empty = .ok (answers, t))
    (hputs' : ∀ e ∈ edits', e.Puts Entry.Storable)
    (hrun' : Edit.run edits' .empty = .ok (answers', t'))
    (hfree : CollisionFree (t.Disclosed t' (keys ++ keys'))) :
    ∃ s₀ s r₀ r, Collects owner t t' keys s₀ s ∧ Collects owner t t' keys' r₀ r ∧
      (¬ Clash t t' keys keys' ∧ ¬ Clash t t' keys' keys →
        ∃ m u, MergedNodeSet.empty.addAll [s, r] = .ok m ∧
          MergedNodeSet.empty.addAll [r, s] = .ok m ∧ m.sets.find? owner = some u ∧
          ∀ path node, s₀.nodes.find? path = some node ∨ r₀.nodes.find? path = some node →
            u.nodes.find? path = some node) ∧
      (Clash t t' keys keys' ∨ Clash t t' keys' keys →
        (∃ e, MergedNodeSet.empty.addAll [s, r] = .error e ∧ e.IsConflict) ∧
        ∃ e, MergedNodeSet.empty.addAll [r, s] = .error e ∧ e.IsConflict) ∧
      (Lists t t' keys' → ¬ Clash t t' keys keys') ∧
      (Lists t t' keys → ¬ Clash t t' keys' keys) := by
  have ht : t.Whole := run_whole hputs hrun
  have ht' : t'.Whole := run_whole hputs' hrun'
  have hempty : t.Disclosed t' (keys ++ keys') Rlp.emptyData := Or.inl rfl
  have hencodes : ∀ e, t.Encodes e → t.Disclosed t' (keys ++ keys') e :=
    fun e he => Or.inr (Or.inl he)
  have hencodes' : ∀ e, t'.Encodes e → t.Disclosed t' (keys ++ keys') e :=
    fun e he => Or.inr (Or.inr (Or.inl he))
  obtain ⟨s₀, s, hs, howner, h⟩ :=
    exists_share owner keys ht ht' hfree hempty hencodes hfree hempty hencodes'
  obtain ⟨r₀, r, hr, howner', h'⟩ :=
    exists_share owner keys' ht ht' hfree hempty hencodes hfree hempty hencodes'
  have hsame : s.owner = owner := h.owner.trans howner
  have hsame' : s.owner = r.owner := hsame.trans (h'.owner.trans howner').symm
  refine ⟨s₀, s, r₀, r, hs, hr, fun hclear => ?_, h.conflict h' hsame', fun hl => hl.not_clash ht ht',
    fun hl => hl.not_clash ht ht'⟩
  rw [← hsame]
  exact h.merge h' hfree hsame' hclear

end NodeSet

end

/-! ## Instances -/

namespace Pair

/-- The trie of the first key alone. -/
def alone (v : UInt8) : Trie := .leaf (.ofWord (key 0x00)) [v] none

def aloneEdits (v : UInt8) : List Edit := [.put (.ofWord (key 0x00)) (.value [v])]

theorem run_alone (v : UInt8) : Edit.run (aloneEdits v) .empty = .ok ([none], alone v) := rfl

theorem aloneEdits_storable (v : UInt8) : ∀ e ∈ aloneEdits v, e.Puts Entry.Storable := by
  have hlen : 1 < twoPow 63 := by decide
  simp [aloneEdits, Edit.Puts, Entry.Storable, hlen]

/-- The first key gets another value, and the second key is removed. -/
def removal : List Edit :=
  [.put (.ofWord (key 0x00)) (.value [9]), .remove (.ofWord (key 0x10))]

theorem run_removal : Edit.run removal trie = .ok ([none, some [8]], alone 9) := rfl

theorem encodes_alone {v : UInt8} {b : Bytes} (h : (alone v).Encodes b) : b ∈ blobsWith v := by
  rw [encodes_leaf.1 h]
  exact List.mem_cons_self

/-- A branch is the last node on the way of an absent key, so there are no orphans. -/
theorem not_revealed {path : Path} {node : ProvedNode} :
    ¬ trie.Revealed [key 0x10, key 0x20] path node := by
  rintro ⟨a, ha, hget, l, c, i, e, ⟨hfront, hnode, -⟩, hshort, -⟩
  rcases List.mem_pair.1 ha with rfl | rfl
  · cases hget
  · rcases nodeAt_cases hnode with ⟨-, rfl⟩ | ⟨rfl, -⟩ | ⟨rfl, -⟩ | rfl
    · cases hshort
    · exact absurd hfront (by decide)
    · exact absurd hfront (by decide)
    · cases hshort

theorem collisionFree_disclosed :
    CollisionFree ((alone 7).Disclosed trie ([key 0x10] ++ [key 0x10, key 0x20])) := by
  refine (collisionFree_blobsWith (Or.inl rfl)).mono ?_
  rintro b (rfl | h | h | ⟨path, node, h, rfl⟩)
  · exact List.mem_cons_of_mem _ List.mem_cons_self
  · exact encodes_alone h
  · exact List.mem_cons_of_mem _ (encodes h)
  · exact absurd (h.mono (by simp)) not_revealed

theorem not_clash {keys keys' : List Word} (hsub : keys' ⊆ [key 0x10, key 0x20]) :
    ¬ Clash (alone 7) trie keys keys' := by
  rintro ⟨path, node, node', -, -, hrevealed, -⟩
  exact not_revealed (hrevealed.mono hsub)

/-- The second key's proof after the removal reveals an orphan in the place of the first leaf. -/
theorem clash : Clash trie (alone 9) [key 0x00] [key 0x10] := by
  have hstored : trie.Stored (Path.ofWord (key 0x00)).toList [0] (leafEncoding fragment [7]) :=
    ⟨by decide, .leaf fragment [7] none, rfl, rfl, Or.inr (by decide)⟩
  have hlast : (alone 9).LastOn (Path.ofWord (key 0x10)).toList [] (alone 9) := by
    refine ⟨List.nil_prefix, rfl, fun {l s} _ hs _ => ?_⟩
    cases l with
    | nil => exact List.nil_prefix
    | cons d l => cases hs
  have hheld : trie.Held [key 0x00] (.ofList [0]) ⟨hash₇, leafEncoding fragment [7]⟩ :=
    ⟨nofun, key 0x00, List.mem_singleton_self _, _, hstored, by rw [digest₇]⟩
  have hrevealed : (alone 9).Revealed [key 0x10] (.ofList [0])
      ⟨digest (leafEncoding fragment [9]), leafEncoding fragment [9]⟩ :=
    ⟨key 0x10, List.mem_singleton_self _, rfl, [], alone 9, 1, _, hlast, rfl, by decide, by decide,
      rfl, rfl, rfl⟩
  refine ⟨_, _, _, hheld, ?_, hrevealed, ?_⟩
  · -- the first leaf is not on the way of the second key
    rintro n ⟨-, a, ha, e, hstored', -⟩
    obtain rfl := List.mem_singleton.1 ha
    exact absurd hstored'.1 (by decide)
  · exact Ne.symm (mt digest_eq_iff.1 (by decide +kernel))

end Pair

open Pair in
/-- The hypotheses hold of Keccak-256 and the insertion of a second key. Two lists that have this key
give sets that can be merged in either order. -/
theorem NodeSet.shares_merge_iff_pair :
    (∀ e ∈ aloneEdits 7, e.Puts Entry.Storable) ∧
    Edit.run (aloneEdits 7) .empty = .ok ([none], alone 7) ∧
    (∀ e ∈ edits, e.Puts Entry.Storable) ∧ Edit.run edits .empty = .ok ([none, none], trie) ∧
    CollisionFree ((alone 7).Disclosed trie ([key 0x10] ++ [key 0x10, key 0x20])) ∧
    ∃ s₀ s r₀ r m u, Collects .account (alone 7) trie [key 0x10] s₀ s ∧
      Collects .account (alone 7) trie [key 0x10, key 0x20] r₀ r ∧
      MergedNodeSet.empty.addAll [s, r] = .ok m ∧ MergedNodeSet.empty.addAll [r, s] = .ok m ∧
      m.sets.find? .account = some u ∧
      ∀ path node, s₀.nodes.find? path = some node ∨ r₀.nodes.find? path = some node →
        u.nodes.find? path = some node := by
  obtain ⟨s₀, s, r₀, r, hs, hr, hmerge, -⟩ := shares_merge_iff .account (aloneEdits_storable 7)
    (run_alone 7) edits_storable run_edits collisionFree_disclosed
  obtain ⟨m, u, hm⟩ := hmerge ⟨not_clash fun _ => id, not_clash (by simp)⟩
  exact ⟨aloneEdits_storable 7, run_alone 7, edits_storable, run_edits, collisionFree_disclosed,
    s₀, s, r₀, r, m, u, hs, hr, hm⟩

open Pair in
/-- Where a transition changes two keys, and each of two lists has one of them, the sets cannot be
merged: the proof of the removed key reveals an orphan in the place of a leaf that the other list has
proven. -/
theorem NodeSet.shares_apart :
    Edit.run edits .empty = .ok ([none, none], trie) ∧
    Edit.run removal trie = .ok ([none, some [8]], alone 9) ∧
    ∃ s₀ s r₀ r, Collects .account trie (alone 9) [key 0x00] s₀ s ∧
      Collects .account trie (alone 9) [key 0x10] r₀ r ∧
      (∃ e, MergedNodeSet.empty.addAll [s, r] = .error e ∧ e.IsConflict) ∧
      ∃ e, MergedNodeSet.empty.addAll [r, s] = .error e ∧ e.IsConflict := by
  have ht : trie.Whole := run_whole edits_storable run_edits
  have ht' : (alone 9).Whole := run_whole (aloneEdits_storable 9) (run_alone 9)
  have hfree := @collisionFree_blobsWith 9 (Or.inr rfl)
  have hempty : Rlp.emptyData ∈ blobsWith 9 := List.mem_cons_of_mem _ List.mem_cons_self
  have hencodes : ∀ e, trie.Encodes e → e ∈ blobsWith 9 :=
    fun e he => List.mem_cons_of_mem _ (encodes he)
  obtain ⟨s₀, s, hs, howner, h⟩ := exists_share .account [key 0x00] ht ht' hfree hempty
    hencodes hfree hempty fun e => encodes_alone
  obtain ⟨r₀, r, hr, howner', h'⟩ := exists_share .account [key 0x10] ht ht' hfree hempty
    hencodes hfree hempty fun e => encodes_alone
  have hsame : s.owner = r.owner := by
    rw [h.owner, h'.owner, howner, howner']
  exact ⟨run_edits, run_removal, s₀, s, r₀, r, hs, hr, h.conflict h' hsame (Or.inl clash)⟩

end Stateless
