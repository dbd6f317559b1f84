import Stateless.Proofs.NodeSet.Recording
import Stateless.Proofs.Transition

/-!
# What node sets hold, exactly

The proofs of some keys of a full trie can be added to a new set exactly if the source has every
stored node on the ways of the keys. The set then holds these nodes, the values of the keys, and
nothing else; in which order the keys are listed, and how often, does not count. The main result is
`addKeys_exact`.
-/

namespace Stateless

open Trie

theorem Trie.Full.view_get {t : Trie} (h : Full t) (k : Path) :
    t.view k.toList = .ok (t.get k) := by
  obtain ⟨a, ha⟩ := h.view k.toList
  rw [get, lookup_eq_view, ha]

theorem Trie.Full.get_eq_some_iff {t : Trie} (h : Full t) {k : Path} {v : Bytes} :
    t.get k = some v ↔ t.view k.toList = .ok (some v) := by
  rw [h.view_get, Except.ok.injEq]

namespace NodeSet

section

variable [Hasher] {t : Trie} {s s' : NodeSet} {owner : TrieOwner} {source : NodeSource}
variable {keys keys' : List Word}

/-- A source has the stored nodes on the ways of some keys, the root among them. -/
def Supplied (source : NodeSource) (t : Trie) (keys : List Word) : Prop :=
  ∀ a ∈ keys, ∀ l e, t ≠ .empty → t.Stored (Path.ofWord a).toList l e → source (digest e) = some e

/-- A set holds the stored nodes on the ways of some keys through a trie, the values of these keys,
and nothing else. -/
structure Exact (t : Trie) (keys : List Word) (s : NodeSet) : Prop where
  nodes (path : Path) (node : ProvedNode) : s.nodes.find? path = some node ↔
    t ≠ .empty ∧ ∃ a ∈ keys, ∃ e,
      t.Stored (Path.ofWord a).toList path.toList e ∧ node = ⟨digest e, e⟩
  leaves (key : Path) (value : Bytes) : s.leaves.find? key = some value ↔
    ∃ a ∈ keys, key = .ofWord a ∧ t.get key = some value

/-- A set is determined by the trie and by which keys are listed. -/
theorem Exact.unique (h : Exact t keys s) (h' : Exact t keys' s') (howner : s.owner = s'.owner)
    (hsame : ∀ a, a ∈ keys ↔ a ∈ keys') : s = s' := by
  have hnodes : s.nodes = s'.nodes := by
    refine Table.eq_of_find?_eq fun path => Option.ext fun node => ?_
    rw [h.nodes, h'.nodes]
    simp only [hsame]
  have hleaves : s.leaves = s'.leaves := by
    refine Table.eq_of_find?_eq fun key => Option.ext fun value => ?_
    rw [h.leaves, h'.leaves]
    simp only [hsame]
  cases s
  cases s'
  cases howner
  cases hnodes
  cases hleaves
  rfl

/-- Where all verifications go the whole way, a new set that takes the proofs is exact: whatever is
held was found by one of them, and each of them finds what is on the way of its key. -/
theorem exact_of_addKeys {root : Word} (hfull : Full t)
    (hkeys : ∀ a ∈ keys, Complete t .empty (.ofWord a) (verify root (.ofWord a) source))
    (h : (empty owner).addKeys root source keys = .ok s) : s.owner = owner ∧ Exact t keys s := by
  obtain ⟨s', hadd, howner, hshows, hcovers⟩ := addKeys_shows owner hkeys
  obtain rfl := Except.ok.inj (h.symm.trans hadd)
  obtain ⟨habsorbs, -⟩ := addKeys_absorbs h
  refine ⟨howner, fun path node => ⟨fun hfind => ?_, ?_⟩, fun key value => ⟨fun hfind => ?_, ?_⟩⟩
  · rcases addKeys_from h hfind with hold | ⟨a, ha, visit, hvisit, rfl, rfl⟩
    · cases hold
    · obtain ⟨hne, l, e, hstored, hpath, hdigest, hblob⟩ := ((hkeys a ha).visits visit).1 hvisit
      have hl : l = visit.path.toList := hpath.symm
      exact ⟨hne, a, ha, e, hl ▸ hstored, by rw [hdigest, hblob]⟩
  · rintro ⟨hne, a, ha, e, hstored, rfl⟩
    obtain ⟨path', hpath, hfind⟩ := hcovers a ha path.toList e hne hstored
    rwa [Path.ext hpath] at hfind
  · have hjust : s.Justified fun v => ∃ a ∈ keys, v = verify root (.ofWord a) source :=
      habsorbs.justified (justified_empty owner) fun a ha => ⟨a, ha, rfl⟩
    obtain ⟨v, ⟨a, ha, rfl⟩, -, hleaf⟩ := hjust key value hfind
    obtain ⟨hkey, -⟩ := ((hkeys a ha).leaf key value).1 hleaf
    exact ⟨a, ha, Path.ext hkey, hfull.get_eq_some_iff.2 (hshows.leaves hfind)⟩
  · rintro ⟨a, ha, rfl, hget⟩
    exact (habsorbs.records ha).leaf
      (((hkeys a ha).leaf _ _).2 ⟨rfl, hfull.get_eq_some_iff.1 hget⟩)

/-- The proofs of some keys of a trie that was made by putting values and removing keys can be added
to a new set, from a source that gives nothing under a wrong hash, exactly if the source has every
stored node on the ways of the keys. The set then has these nodes at their places, the values of the
listed keys, and nothing else, and any list of the same keys gives the same set. -/
theorem addKeys_exact {edits : List Edit} {answers : List (Option Bytes)} (owner : TrieOwner)
    (hputs : ∀ e ∈ edits, e.Puts Entry.Storable) (hrun : Edit.run edits .empty = .ok (answers, t))
    (haddr : source.Addressed) (hfree : CollisionFree (t.Involved source)) (keys : List Word) :
    ((∃ s, (empty owner).addKeys t.hash.1 source keys = .ok s) ↔ Supplied source t keys) ∧
    ∀ s, (empty owner).addKeys t.hash.1 source keys = .ok s →
      s.owner = owner ∧ Exact t keys s ∧
      ∀ keys', (∀ a, a ∈ keys' ↔ a ∈ keys) →
        (empty owner).addKeys t.hash.1 source keys' = .ok s := by
  obtain ⟨as, t', hrun', hholds⟩ :=
    Edit.run_holds (fun e he => (hputs e he).mono Entry.Storable.known) holds_empty
  obtain ⟨-, rfl⟩ := Prod.mk.inj (Except.ok.inj (hrun.symm.trans hrun'))
  have ht : t.Whole := ⟨hholds.intact, run_fits hputs (by trivial) hrun⟩
  have hverify := fun k : Path => verify_ends_iff (k := k) ht haddr hfree
  have hcomplete : ∀ ks, Supplied source t ks →
      ∀ a ∈ ks, Complete t .empty (.ofWord a) (verify t.hash.1 (.ofWord a) source) := by
    intro ks hsupplied a ha
    exact (hverify _).2 ((hverify _).1.2 (hsupplied a ha))
  have hsupplied : ∀ ks s, (empty owner).addKeys t.hash.1 source ks = .ok s →
      Supplied source t ks := by
    intro ks s hadd a ha
    exact (hverify _).1.1 ((addKeys_absorbs hadd).1.ends ha)
  have hadds : ∀ ks, Supplied source t ks →
      ∃ s, (empty owner).addKeys t.hash.1 source ks = .ok s := by
    intro ks hks
    obtain ⟨s, hadd, -⟩ := addKeys_shows owner (hcomplete ks hks)
    exact ⟨s, hadd⟩
  refine ⟨⟨fun ⟨s, hadd⟩ => hsupplied keys s hadd, hadds keys⟩, fun s hadd => ?_⟩
  have hkeys := hsupplied keys s hadd
  obtain ⟨howner, hexact⟩ := exact_of_addKeys ht.full (hcomplete keys hkeys) hadd
  refine ⟨howner, hexact, fun keys' hsame => ?_⟩
  have hkeys' : Supplied source t keys' := fun a ha => hkeys a ((hsame a).1 ha)
  obtain ⟨s', hadd'⟩ := hadds keys' hkeys'
  obtain ⟨howner', hexact'⟩ := exact_of_addKeys ht.full (hcomplete keys' hkeys') hadd'
  rw [hadd', hexact'.unique hexact (howner'.trans howner.symm) hsame]

end

end NodeSet

/-! ## Instances -/

namespace Pair

theorem supplied (keys : List Word) :
    NodeSet.Supplied (NodeTable.ofProof blobs).source trie keys := by
  intro a _ l e _ hstored
  exact (source_eq_some_iff (fun _ => List.mem_cons_of_mem _) _ _).2 ⟨encodes hstored.encodes, rfl⟩

theorem stored₈ :
    trie.Stored (Path.ofWord (key 0x10)).toList [1] (leafEncoding fragment [8]) :=
  ⟨by decide, .leaf fragment [8] none, rfl, rfl, Or.inr (by decide)⟩

end Pair

open Pair in
/-- The hypotheses hold of Keccak-256 and a trie with two keys. The second key and an absent one, in
either order, give a set with the leaf of the second key and without that of the first. A source
without that leaf is of no use for it. -/
theorem NodeSet.addKeys_exact_pair :
    (∀ e ∈ edits, e.Puts Entry.Storable) ∧ Edit.run edits .empty = .ok ([none, none], trie) ∧
    (NodeTable.ofProof blobs).source.Addressed ∧
    CollisionFree (trie.Involved (NodeTable.ofProof blobs).source) ∧
    ∃ s, (empty .account).addKeys trie.hash.1 (NodeTable.ofProof blobs).source
        [key 0x10, key 0x20, key 0x10] = .ok s ∧
      (empty .account).addKeys trie.hash.1 (NodeTable.ofProof blobs).source
        [key 0x20, key 0x10] = .ok s ∧
      s.nodes.find? (.ofList [1]) = some ⟨hash₈, leafEncoding fragment [8]⟩ ∧
      s.nodes.find? (.ofList [0]) = none ∧
      s.leaves.find? (.ofWord (key 0x10)) = some [8] ∧
      s.leaves.find? (.ofWord (key 0x20)) = none ∧
      ∀ s', (empty .account).addKeys trie.hash.1
        (NodeTable.ofProof [encoding, leafEncoding fragment [7]]).source [key 0x10] ≠ .ok s' := by
  have haddr : (NodeTable.ofProof blobs).source.Addressed :=
    (NodeTable.Kept.addProof blobs .empty).addressed
  have hfree : CollisionFree (trie.Involved (NodeTable.ofProof blobs).source) :=
    collisionFree_involved fun _ => List.mem_cons_of_mem _
  obtain ⟨hiff, hexact⟩ := addKeys_exact .account edits_storable run_edits haddr hfree
    [key 0x10, key 0x20, key 0x10]
  obtain ⟨s, hadd⟩ := hiff.2 (supplied _)
  obtain ⟨-, hs, hsame⟩ := hexact s hadd
  refine ⟨edits_storable, run_edits, haddr, hfree, s, hadd, hsame _ ?_, ?_, ?_, ?_, ?_, ?_⟩
  · intro a
    simp [or_comm]
  · exact (hs.nodes _ _).2 ⟨nofun, key 0x10, by simp, _, stored₈, by rw [digest₈]⟩
  · refine Option.eq_none_iff_forall_ne_some.2 fun node hnode => ?_
    obtain ⟨-, a, ha, e, hstored, -⟩ := (hs.nodes _ _).1 hnode
    have hfront : ∀ a ∈ [key 0x10, key 0x20, key 0x10], ¬ [0] <+: (Path.ofWord a).toList := by
      decide
    exact hfront a ha hstored.1
  · exact (hs.leaves _ _).2 ⟨key 0x10, by simp, rfl, rfl⟩
  · refine Option.eq_none_iff_forall_ne_some.2 fun v hv => ?_
    obtain ⟨a, -, -, hget⟩ := (hs.leaves _ _).1 hv
    cases hget
  · intro s' hadd'
    have hbs : ∀ b ∈ [encoding, leafEncoding fragment [7]], b ∈ blobsWith 9 := by
      simp [blobsWith, blobs]
    obtain ⟨hiff', -⟩ := addKeys_exact .account edits_storable run_edits
      (NodeTable.Kept.addProof [encoding, leafEncoding fragment [7]] .empty).addressed
      (collisionFree_involved hbs) [key 0x10]
    have hheld := hiff'.1 ⟨s', hadd'⟩ _ (List.mem_singleton_self _) _ _ nofun stored₈
    exact absurd ((source_eq_some_iff hbs _ _).1 hheld).1 (by decide)

end Stateless
