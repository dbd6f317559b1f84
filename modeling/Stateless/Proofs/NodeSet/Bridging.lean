import Stateless.Proofs.NodeSet.Orphans
import Stateless.Proofs.Trie.Rebuilding
import Stateless.Proofs.Trie.Spread
import Stateless.Proofs.Trie.VeiledEdits

/-!
# Node sets that bridge a transition

The keys that a transition changes are proven before and after it. A node set that was filled from
the proofs before it, and from the orphans that the proofs after it reveal, bridges the transition:
from a source that serves the set, a part of the first trie is rebuilt on which edits of the keys
that lead to the second trie end with its root hash. The main statements are `addOrphans_bridges`,
`Bridges.rebuild_eq` and `Bridges.replay`.

Between the two tries the hidden parts may be moved below a longer fragment and back again. Only
where they end up counts: a part that is `Loose` in the last trie has the place of one of the
orphans there.
-/

namespace Stateless

open Trie

/-- Whether an edit puts a value that can be stored under one of some keys, or removes one of them.
-/
def Edit.Changes (keys : List Word) : Edit → Prop
  | .put k e => (∃ a ∈ keys, k = .ofWord a) ∧ e.Storable
  | .remove k => ∃ a ∈ keys, k = .ofWord a
  | .hash => False

theorem Edit.Changes.puts {keys : List Word} {e : Edit} (h : e.Changes keys) : e.Puts Entry.Storable := by
  cases e with
  | put k x => exact h.2
  | remove k => trivial
  | hash => trivial

section

variable [Hasher]

namespace Trie

/-- The byte strings that are hashed when a trie becomes another one by edits of some keys: the
encodings of both, and the orphans of the second on the ways of the keys. -/
def Hashed (t t' : Trie) (keys : List Word) (b : Bytes) : Prop :=
  b = Rlp.emptyData ∨ t.Encodes b ∨ t'.Encodes b ∨
    ∃ path node, IsOrphan t' keys path node ∧ node.blob = b

variable {t t' : Trie} {keys : List Word} {blobs : List Bytes} {e : Bytes}

/-- Proven keys are verified all the way. -/
theorem verify_proven {S : Bytes → Prop} (ht : t.Whole) (hfree : CollisionFree S)
    (hempty : S Rlp.emptyData) (hS : ∀ e, t.Encodes e → S e)
    (hblobs : ∀ e, e ∈ blobs ↔ ∃ a ∈ keys, ∃ l, t.Stored (Path.ofWord a).toList l e)
    (a : Word) (ha : a ∈ keys) :
    Complete t .empty (.ofWord a)
      (verify t.hash.1 (.ofWord a) (NodeTable.ofProof blobs).source) := by
  refine ht.verified hfree hempty hS fun l b hstored => ?_
  have hb : b ∈ blobs := (hblobs b).2 ⟨a, ha, l, hstored⟩
  refine (ofProof_source hfree (fun b hb => ?_) _ _).2 ⟨hb, rfl⟩
  obtain ⟨a', -, l', hstored'⟩ := (hblobs b).1 hb
  exact hS b hstored'.encodes

end Trie

/-! ## What the set has -/

/-- A node set that was filled from the proofs of some keys before and after a transition. -/
structure Bridges (t t' : Trie) (keys : List Word) (s : NodeSet) : Prop where
  /-- It holds nodes of the first trie and orphans of the second. -/
  nodes {path : Path} {node : ProvedNode} : s.nodes.find? path = some node →
    NodeSet.IsNode t path node ∨ IsOrphan t' keys path node
  /-- It holds the stored nodes on the ways of the keys before the transition. -/
  covers : NodeSet.Covers t keys s
  /-- It holds something at the places of all orphans where the ways end after the transition. -/
  orphans (a : Word) : a ∈ keys → ∃ p candidates, Ends t' .empty (.ofWord a) p ∧
    NodeSet.Reveals t' p candidates ∧ ∀ x ∈ candidates,
      IsOrphan t' keys x.1 x.2 ∧ ∃ node, s.nodes.find? x.1 = some node

variable {t t' : Trie} {keys : List Word} {s : NodeSet} {path : Path} {node : ProvedNode}
variable {source : NodeSource} {l : List Nibble} {c : Trie} {w : Word} {S : Bytes → Prop}

/-- All nodes of such a set are encodings under their hashes. -/
theorem Bridges.addressed (h : Bridges t t' keys s) (hfind : s.nodes.find? path = some node) :
    digest node.blob = node.hash ∧ t.Hashed t' keys node.blob := by
  rcases h.nodes hfind with ⟨c, e, hc, he, rfl⟩ | horphan
  · exact ⟨rfl, Or.inr (Or.inl ⟨_, c, hc, he⟩)⟩
  · refine ⟨?_, Or.inr (Or.inr (Or.inr ⟨path, node, horphan, rfl⟩))⟩
    obtain ⟨l, c, i, e, -, -, -, -, -, -, -, rfl⟩ := horphan
    rfl

/-- A set with the nodes on the ways of some keys is filled with the orphans that complete
verifications of these keys after a transition reveal. -/
theorem NodeSet.addOrphans_bridges {root : Word} (ht' : t'.Whole) (hshows : Shows t s)
    (hcovers : Covers t keys s)
    (hkeys : ∀ a ∈ keys, Complete t' .empty (.ofWord a) (verify root (.ofWord a) source)) :
    ∃ s' count, s.addOrphans root source keys = .ok (s', count) ∧ s'.owner = s.owner ∧
      Bridges t t' keys s' := by
  obtain ⟨candidates, hcandidates, horphan, hreveals⟩ :=
    orphanCandidates_complete ht'.canonical ht'.sound hkeys
  obtain ⟨hkeeps, honly, hfilled⟩ := fill_find? s candidates
  refine ⟨(s.fill candidates).1, (s.fill candidates).2, ?_, hkeeps.owner, ?_, hcovers.mono hkeeps,
    fun a ha => ?_⟩
  · rw [addOrphans, hcandidates]
    rfl
  · intro path node hfind
    exact (honly path node hfind).imp (fun h => hshows.nodes h) fun h => horphan _ h
  · obtain ⟨p, hends, hp⟩ := hreveals a ha
    exact ⟨p, candidates, hends, hp, fun x hx => ⟨horphan x hx, hfilled x.1 x.2 hx⟩⟩

/-- A source that serves such a set has the nodes on the ways of the keys. -/
theorem Bridges.source_ne_none {a : Word} {e : Bytes} (h : Bridges t t' keys s)
    (hserved : s.Served S source) (ha : a ∈ keys) (hne : t ≠ .empty)
    (hstored : t.Stored (Path.ofWord a).toList l e) : source (digest e) ≠ none := by
  obtain ⟨path, -, hfind⟩ := h.covers a ha l e hne hstored
  rw [hserved.held hfind]
  exact Option.some_ne_none e

/-! ## Hidden parts -/

/-- The keys may be changed, and the nodes of the first trie that a source lacks are hidden. -/
def Veil.ofSource (t : Trie) (keys : List Word) (source : NodeSource) : Veil where
  keys k := ∃ a ∈ keys, k = (Path.ofWord a).toList
  hides q w := source w = none ∧ ∃ s e, t.nodeAt q = some s ∧ s.content = .ok e ∧ w = digest e

/-- What the source lacks of the first trie is concealed. -/
theorem Bridges.lacked (h : Bridges t t' keys s) (hserved : s.Served S source) (ht : t.Whole)
    (hspread : t.Spread) (hl : l ≠ []) (hc : t.nodeAt l = some c) :
    (Veil.ofSource t keys source).Lacked source l c := by
  intro e he hlen hnone
  have hne : t ≠ .empty := by
    rintro rfl
    cases l with
    | nil => exact hl rfl
    | cons d l => cases hc
  refine ⟨ne_empty_of_long (H := ⟨hl, c, hc, he, hlen⟩) hc,
    hspread.fragment_ne_nil ht.canonical ht.full hc hl, ⟨_, (ht.canonical.nodeAt hc).2⟩,
    ht.full.nodeAt hc, ht.sound.nodeAt hc, ⟨e, he, hlen, rfl⟩, ⟨hnone, c, e, hc, he, rfl⟩, ?_⟩
  rintro k ⟨a, ha, rfl⟩ hpre
  exact h.source_ne_none hserved ha hne ⟨hpre, c, hc, he, Or.inr hlen⟩ hnone

/-- A way that leads into the fragment of a leaf or an extension but not through it ends there. -/
theorem ends_at_short {k : Path} {p : VerifiedPath} (hends : Ends t .empty k p)
    (hc : t.nodeAt l = some c) (hshort : c.isShort = true) (hl : l <+: k.toList)
    (hnot : ¬ l ++ c.fragment.toList <+: k.toList) : p.matched.toList = l ∧ p.value = none := by
  obtain ⟨q, n, hmatched, hq, hn, -, hdeep⟩ := hends.last
  have hne : c ≠ .empty := by
    rintro rfl
    cases hshort
  obtain ⟨x, rfl⟩ := hdeep l c hl hc hne
  have hx : x = [] := by
    by_contra hx
    rw [nodeAt_append hc] at hn
    have hfragment := fragment_front hshort hx hn
    exact hnot (((List.prefix_append_right_inj l).2 hfragment).trans hq)
  subst hx
  refine ⟨hmatched.trans (List.append_nil l), ?_⟩
  obtain ⟨r, hr⟩ := hl
  have hanswer := hends.answer
  rw [← hr, List.prefix_append_right_inj] at hnot
  rw [← hr, view_nodeAt hc, view_off hshort hnot] at hanswer
  exact (Except.ok.inj hanswer).symm

/-- No part of the second trie is loose: its place is that of an orphan, so the source has it. -/
theorem Bridges.tight (h : Bridges t t' keys s) (hserved : s.Served S source)
    (hc : t'.nodeAt l = some c) {g : Path} :
    ¬ (Veil.ofSource t keys source).Loose l c g w := by
  intro hloose
  obtain ⟨f, hf, hcon⟩ := hloose.rest
  obtain ⟨k, ⟨a, ha, rfl⟩, htouch⟩ := hloose.touched
  obtain ⟨e, he, -, rfl⟩ := hcon.content
  obtain ⟨hnone, n, b, hn, hb, hdigest⟩ := hcon.hides
  obtain ⟨p, candidates, hends, hreveals, hcandidates⟩ := h.orphans a ha
  -- the way of the key ends in the fragment that was joined
  have hthrough : ¬ l ++ c.fragment.toList <+: (Path.ofWord a).toList := fun hpre => by
    refine hcon.untouched _ ⟨a, ha, rfl⟩ (List.IsPrefix.trans ?_ hpre)
    rw [hf, ← List.append_assoc]
    exact List.prefix_append _ _
  obtain ⟨hmatched, hvalue⟩ := ends_at_short hends hc hloose.short
    ((List.prefix_append _ _).trans htouch) hthrough
  -- so the concealed part is one of the orphans there
  have hlen := congrArg List.length hf
  rw [List.length_append, Path.length_toList, Path.length_toList, Path.length_toList] at hlen
  have hfront := List.length_pos_iff.2 hloose.front
  have hrest : f.toList ≠ [] := by
    obtain ⟨hshort, hfragment⟩ := isShort_setFragment hloose.short f
    have := hcon.fragment hshort
    rwa [hfragment] at this
  have hdrop : c.fragment.drop g.length = f := Path.ext (by
    rw [Path.toList_drop, hf, ← Path.length_toList, List.drop_left])
  have htake : c.fragment.toList.take g.length = g.toList := by
    rw [hf, ← Path.length_toList, List.take_left]
  obtain ⟨path, hpath, hmem⟩ := hreveals c g.length e hvalue (by rw [hmatched, hc]) hloose.short
    (by rwa [Path.length_toList] at hfront)
    (by have := List.length_pos_iff.2 hrest; rw [Path.length_toList] at this; omega)
    (by rw [hdrop, he])
  rw [hmatched, htake] at hpath
  obtain ⟨horphan, node, hfind⟩ := hcandidates _ hmem
  have hheld : node.hash = digest e := by
    rcases h.nodes hfind with ⟨n', b', hn', hb', rfl⟩ | horphan'
    · rw [hpath, hn] at hn'
      obtain rfl := Option.some.inj hn'
      rw [Except.ok.inj (hb'.symm.trans hb), hdigest]
    · rw [horphan'.unique horphan]
  have hsome := hserved.held hfind
  rw [hheld, hnone] at hsome
  cases hsome

theorem Edit.Changes.veil {e : Edit} (h : e.Changes keys) :
    (Veil.ofSource t keys source).Changes e := by
  cases e with
  | put k x =>
    obtain ⟨⟨a, ha, rfl⟩, hx⟩ := h
    cases x with
    | value v => exact ⟨a, ha, rfl⟩
    | hidden d => exact absurd hx id
  | remove k =>
    obtain ⟨a, ha, rfl⟩ := h
    exact ⟨a, ha, rfl⟩
  | hash => exact absurd h id

/-! ## Rebuilding and replaying -/

/-- From a source that serves such a set the first trie is rebuilt as far as the source knows it. -/
theorem Bridges.rebuild_eq (h : Bridges t t' keys s) (hserved : s.Served S source) (ht : t.Whole)
    (hkeys : keys ≠ []) (hfree : CollisionFree S) (hempty : S Rlp.emptyData)
    (hS : ∀ e, t.Encodes e → S e) : rebuild t.hash.1 source = .ok (t.knownTo source) := by
  obtain ⟨e, hc⟩ := ht.full.content
  have he : t.Encodes e := ⟨[], t, nodeAt_nil t, hc⟩
  have htrue : Truthful source t := fun e b he hb =>
    hfree.inj (hserved.addressed hb).2 (hS e he) (hserved.addressed hb).1
  refine Trie.rebuild_eq ht.canonical ht.full ht.sound ht.fits hfree hempty hc (hS e he) ?_ htrue
  intro hne
  obtain ⟨a, ha⟩ := List.exists_mem_of_ne_nil keys hkeys
  exact h.source_ne_none hserved ha hne ⟨List.nil_prefix, t, nodeAt_nil t, hc, Or.inl rfl⟩

/-- Such a source knows what the first trie answers for the keys. -/
theorem Bridges.view_knownTo {a : Word} (h : Bridges t t' keys s) (hserved : s.Served S source)
    (ht : t.Whole) (ha : a ∈ keys) :
    (t.knownTo source).view (Path.ofWord a).toList = t.view (Path.ofWord a).toList := by
  refine Trie.view_knownTo ht.canonical ht.full fun l e hne hl ⟨c, hc, he, hlen⟩ => ?_
  have hempty : t ≠ .empty := by
    rintro rfl
    cases l with
    | nil => exact hne rfl
    | cons d l => cases hc
  exact h.source_ne_none hserved ha hempty ⟨hl, c, hc, he, Or.inr hlen⟩

/-- A run of edits of the keys that leads from the first trie to the second, up to memos, can be
repeated on the part of the first trie that such a source knows. Every step succeeds, the answers
are the same, and so is the last root hash. -/
theorem Bridges.replay {ops : List Edit} {answers : List (Option Bytes)} {last : Trie}
    (h : Bridges t t' keys s) (hserved : s.Served S source) (ht : t.Whole) (hspread : t.Spread)
    (ht' : Sound t') (hops : ∀ e ∈ ops, e.Changes keys)
    (hrun : Edit.run ops t = .ok (answers, last)) (hlast : last.forget = t'.forget) :
    ∃ p', Edit.run ops (t.knownTo source) = .ok (answers, p') ∧ p'.hash.1 = t'.hash.1 := by
  have hknown : ∀ e ∈ ops, e.Puts Entry.Known :=
    fun e he => (hops e he).puts.mono Entry.Storable.known
  have hveil := Veil.veiled_knownTo (V := Veil.ofSource t keys source) (m := []) ht.canonical
    ht.full fun l c hl hlc => h.lacked hserved ht hspread hl hlc
  obtain ⟨p', hp', hveil'⟩ := hveil.run (fun e he => (hops e he).veil) hrun
  have hsound : Sound last := Edit.run_sound hknown ht.sound hrun
  have hsound' : Sound p' := Edit.run_sound hknown (sound_knownTo source t) hp'
  have htight : ∀ l c g w, last.nodeAt l = some c →
      ¬ (Veil.ofSource t keys source).Loose ([] ++ l) c g w := fun l c g w hlc hloose => by
    obtain ⟨c', hlc', heq⟩ := nodeAt_of_forget_eq hlast hlc
    exact h.tight hserved hlc'
      (hloose.of_forget_eq (ht'.nodeAt hlc') heq.symm)
  refine ⟨p', hp', ?_⟩
  rw [hash_eq_reference hsound', hash_eq_reference ht', hveil'.reference_eq hsound hsound' htight,
    ← reference_forget hsound, hlast, reference_forget ht']

end

end Stateless
