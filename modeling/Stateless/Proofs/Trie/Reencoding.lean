import Mathlib.Logic.Relation
import Stateless.Proofs.Fault
import Stateless.Proofs.NodeSet.Orphans
import Stateless.Proofs.NodeSet.Provenance
import Stateless.Proofs.Trie.Recovery

/-!
# Writing a rebuilt trie again

The root hash of a rebuilt trie is computed from what the library writes for its nodes. It is the
hash from which the trie was rebuilt if every node that was looked up is written again as it was
read, and no node that another one refers to by its hash is shorter than a hash (`rebuild_hash`).
Everything that the library writes is written again as it was read (`exact_of_content`).

Reading is more generous than writing: an item may be longer than it needs to be, what follows the
last item that can be read is passed over, a child may be embedded whatever its length. From such a
node a trie with another root hash is rebuilt (`rebuild_lavish`).
-/

namespace Stateless

namespace Trie

section

variable {b : Bytes} {s : Trie}

/-! ## Decoded nodes -/

/-- What is read is a leaf, or an extension or a branch whose children are read from items of the
list. -/
theorem decodeList_eq_ok (h : decodeList b = .ok s) :
    ∃ p, Rlp.isList b = true ∧ Rlp.payload b = .ok p ∧
      ((∃ f v, s = .leaf f v none) ∨
      (∃ f c, s = .extension f c none ∧ ∃ item ∈ Rlp.items p, decodeChild item = .ok c) ∨
      ∃ cs v, s = .branch cs v none ∧
        ∀ i, ∃ item ∈ Rlp.items p, decodeChild item = .ok (cs i)) := by
  rw [decodeList] at h
  split at h
  case isFalse => cases h
  next hl =>
  split at h
  · cases h
  next p hp =>
  refine ⟨p, hl, hp, ?_⟩
  dsimp only at h
  split at h
  case isTrue =>
    obtain ⟨children, hchildren, h⟩ := exists_of_bind_eq_ok h
    obtain ⟨v, -, h⟩ := exists_of_bind_eq_ok h
    refine Or.inr (Or.inr ⟨_, v, (Except.ok.inj h).symm, fun i => ?_⟩)
    exact ⟨_, List.getElem_mem _, Children.gather_eq_ok.1 hchildren i⟩
  split at h
  case isFalse => cases h
  obtain ⟨compact, -, h⟩ := exists_of_bind_eq_ok h
  obtain ⟨⟨f, isLeaf⟩, -, h⟩ := exists_of_bind_eq_ok h
  cases isLeaf with
  | true =>
    obtain ⟨v, -, h⟩ := exists_of_bind_eq_ok h
    exact Or.inl ⟨f, v, (Except.ok.inj h).symm⟩
  | false =>
    obtain ⟨c, hc, h⟩ : ∃ c, decodeChild (Rlp.items p)[1] = .ok c ∧ (do
        if c.isEmpty then throw DecodeError.nothingBelow
        return Trie.extension f c none) = Except.ok s := by
      simp only [Bool.false_eq_true, if_false] at h
      rw [decodeChild]
      split
      · next hlist =>
        rw [if_pos hlist] at h
        exact exists_of_bind_eq_ok h
      · next hlist =>
        rw [if_neg hlist] at h
        exact exists_of_bind_eq_ok h
    split at h
    · cases h
    · exact Or.inr (Or.inl ⟨f, c, (Except.ok.inj h).symm, _, List.getElem_mem _, hc⟩)

theorem decodeChild_eq_ok {item : Bytes} {c : Trie} (h : decodeChild item = .ok c) :
    decodeList item = .ok c ∨ c = .empty ∨ ∃ w, c = .hidden w := by
  rw [decodeChild] at h
  split at h
  · exact Or.inl h
  · obtain ⟨x, -, h⟩ := exists_of_bind_eq_ok h
    split at h
    · exact Or.inr (Or.inl (Except.ok.inj h).symm)
    · split at h
      · exact Or.inr (Or.inr ⟨_, (Except.ok.inj h).symm⟩)
      · cases h

/-- Nothing is remembered of a node that was read. -/
theorem sound_decodeList [Hasher] (h : decodeList b = .ok s) : Sound s := by
  induction hn : b.length using Nat.strong_induction_on generalizing b s with
  | _ n ih =>
    obtain ⟨p, hl, hp, hs⟩ := decodeList_eq_ok h
    have hchild : ∀ {item c}, item ∈ Rlp.items p → decodeChild item = .ok c → Sound c := by
      intro item c hitem hc
      rcases decodeChild_eq_ok hc with hc | rfl | ⟨w, rfl⟩
      · exact ih _ (hn ▸ Rlp.length_lt_of_mem_items hl hp hitem) hc rfl
      · trivial
      · trivial
    rcases hs with ⟨f, v, rfl⟩ | ⟨f, c, rfl, item, hitem, hc⟩ | ⟨cs, v, rfl, hcs⟩
    · exact memoHolds_of_memo_none rfl
    · exact ⟨hchild hitem hc, memoHolds_of_memo_none rfl⟩
    · refine ⟨fun i => ?_, memoHolds_of_memo_none rfl⟩
      obtain ⟨item, hitem, hc⟩ := hcs i
      exact hchild hitem hc

theorem decodeList_of_decode (h : decode b = .ok s) : decodeList b = .ok s := by
  rw [decode] at h
  split at h
  · cases h
  · split at h
    · cases h
    · exact h

theorem decode_of_decodeStored {h : Word} (hs : decodeStored h b = .ok s) : decode b = .ok s := by
  rw [decodeStored] at hs
  cases hd : decode b with
  | error e =>
    rw [hd] at hs
    cases hs
  | ok s' =>
    rw [hd] at hs
    exact congrArg Except.ok (Except.ok.inj hs)

/-! ## What is looked up -/

/-- Whether a trie hides a part behind a hash. -/
def Hides : Trie → Word → Prop
  | .hidden h, w => h = w
  | .extension _ c _, w => Hides c w
  | .branch cs _ _, w => ∃ i, Hides (cs i) w
  | _, _ => False

/-- Whether the node that a source has for one hash refers to another hash. -/
def Refers (source : NodeSource) (h w : Word) : Prop :=
  ∃ b s, source h = some b ∧ decode b = .ok s ∧ s.Hides w

variable [Hasher] {source : NodeSource} {root h w : Word} {t c : Trie} {e : Bytes} {n fuel : Nat}

/-- A node that is read from bytes, if any, is written as these bytes. -/
def Exact (b : Bytes) : Prop := ∀ s, decode b = .ok s → s.content = .ok b

/-- All that a source has for a root and for the hashes to which it leads is written as it was read,
and what others refer to is not shorter than a hash. -/
structure Faithful (source : NodeSource) (root : Word) : Prop where
  exact {h : Word} {b : Bytes} :
    Relation.ReflTransGen (Refers source) root h → source h = some b → Exact b
  long {h w : Word} {b : Bytes} : Relation.ReflTransGen (Refers source) root h →
    Refers source h w → source w = some b → hashLength ≤ b.length

theorem Faithful.step (hf : Faithful source root) (hw : Refers source root w) :
    Faithful source w :=
  ⟨fun hreach => hf.exact (.head hw hreach), fun hreach => hf.long (.head hw hreach)⟩

/-! ## Rebuilding -/

/-- A trie with other memos and other children to which its nodes refer in the same way is referred
to in the same way. -/
theorem substitute_reference {ε : Type} {known : Word → Except ε Trie} (hs : Sound s)
    (hknown : ∀ w t, s.Hides w → known w = .ok t → Sound t ∧ t.reference = .byHash w)
    (h : substitute known s = .ok t) : Sound t ∧ t.reference = s.reference := by
  induction s generalizing t with
  | empty => exact Except.ok.inj h ▸ ⟨hs, rfl⟩
  | hidden w => exact hknown w t rfl h
  | leaf f v m => exact Except.ok.inj h ▸ ⟨hs, rfl⟩
  | extension f c m ih =>
    obtain ⟨c', hc, h⟩ := exists_of_bind_eq_ok h
    obtain rfl := Except.ok.inj h
    obtain ⟨hsound, href⟩ := ih hs.1 hknown hc
    have ht : Sound (.extension f c' none) := ⟨hsound, memoHolds_of_memo_none rfl⟩
    refine ⟨ht, ?_⟩
    rw [ht.memoHolds.reference_eq, hs.memoHolds.reference_eq, content_extension, content_extension,
      href]
  | branch cs v m ih =>
    obtain ⟨children, hchildren, h⟩ := exists_of_bind_eq_ok h
    obtain rfl := Except.ok.inj h
    have hcs := fun i => ih i (hs.1 i) (fun w t hw => hknown w t ⟨i, hw⟩)
      (Children.gather_eq_ok.1 hchildren i)
    have ht : Sound (.branch children.get v none) :=
      ⟨fun i => (hcs i).1, memoHolds_of_memo_none rfl⟩
    refine ⟨ht, ?_⟩
    rw [ht.memoHolds.reference_eq, hs.memoHolds.reference_eq, content_branch, content_branch]
    simp only [fun i => (hcs i).2]

/-- What is revealed of a hash, if what the source has for it is long enough, is referred to by the
hash. -/
theorem reveal_reference (haddr : source.Addressed) (hf : Faithful source w)
    (hlong : ∀ b, source w = some b → hashLength ≤ b.length)
    (h : reveal source fuel w = .ok t) : Sound t ∧ t.reference = .byHash w := by
  induction fuel generalizing w t with
  | zero => cases h
  | succ fuel ih =>
    rw [reveal] at h
    cases hsrc : source w with
    | none =>
      simp only [hsrc] at h
      obtain rfl := Except.ok.inj h
      exact ⟨trivial, rfl⟩
    | some b =>
      simp only [hsrc] at h
      obtain ⟨s, hdec, h⟩ := exists_of_bind_eq_ok h
      have hdec := decode_of_decodeStored hdec
      have hs := sound_decodeList (decodeList_of_decode hdec)
      obtain ⟨ht, href⟩ := substitute_reference hs (fun w' t' hw' ht' => by
        have hrefers : Refers source w w' := ⟨b, s, hsrc, hdec, hw'⟩
        exact ih (hf.step hrefers) (fun b' => hf.long .refl hrefers) ht') h
      refine ⟨ht, href.trans ?_⟩
      rw [hs.memoHolds.reference_eq, hf.exact .refl hsrc s hdec, Reference.ofContent,
        if_neg (Nat.not_lt.2 (hlong b hsrc)), haddr w b hsrc]

/-- From a source that gives nothing under a wrong hash, a trie that can be rebuilt has the root hash
from which it was rebuilt, if all that is looked up is written as it was read and what is referred to
by its hash is not shorter than a hash. -/
theorem rebuild_hash (haddr : source.Addressed) (hf : Faithful source root) (hroot : root ≠ .zero)
    (h : rebuild root source = .ok t) : t.hash.1 = root := by
  rw [rebuild] at h
  split at h
  · next hempty =>
    obtain rfl := Except.ok.inj h
    rw [isEmptyRoot, Bool.or_eq_true, FixedBytes.isZero_iff, decide_eq_true_iff] at hempty
    rw [hash_eq_digest (t := .empty) trivial rfl, hempty.resolve_left hroot, emptyRoot]
  · cases hsrc : source root with
    | none =>
      simp only [hsrc] at h
      cases h
    | some b =>
      simp only [hsrc] at h
      obtain ⟨s, hdec, h⟩ := exists_of_bind_eq_ok h
      have hdec := decode_of_decodeStored hdec
      have hs := sound_decodeList (decodeList_of_decode hdec)
      obtain ⟨ht, href⟩ := substitute_reference hs (fun w t' hw ht' => by
        have hrefers : Refers source root w := ⟨b, s, hsrc, hdec, hw⟩
        exact reveal_reference haddr (hf.step hrefers) (fun b' => hf.long .refl hrefers) ht') h
      rw [hash_eq_reference ht, href, hs.memoHolds.reference_eq, hf.exact .refl hsrc s hdec,
        Reference.hash_ofContent, haddr root b hsrc]

/-! ## What the library writes -/

theorem content_outline (hs : Sound t) : t.outline.content = t.content := by
  cases t with
  | extension f c m => rw [outline, content_extension, content_extension, curtain_reference hs.1]
  | branch cs v m =>
    simp only [outline, content_branch, fun i => curtain_reference (hs.1 i)]
  | _ => rfl

/-- What is written for a node is written as it is read. -/
theorem exact_of_content (ht : Canonical n t) (hs : Sound t) (hne : t ≠ .empty)
    (hc : t.content = .ok e) : Exact e := by
  intro s hdec
  rw [outline_of_decode ht hs hne hc hdec, content_outline hs, hc]

omit [Hasher] in
theorem not_hides_forget (hfull : Full t) : ¬ t.forget.Hides w := by
  induction t with
  | hidden h => exact absurd hfull id
  | extension f c m ih => exact ih hfull
  | branch cs v m ih =>
    rw [forget_branch]
    rintro ⟨i, hi⟩
    exact ih i (hfull.1 i) hi
  | _ => exact id

theorem hides_outline (ht : Canonical n t) (hfull : Full t) (h : t.outline.Hides w) :
    ∃ l e, t.Long l e ∧ w = digest e := by
  have hcurtain : ∀ {c : Trie}, Full c → c.curtain.Hides w → ∃ e, c.Long [] e ∧ w = digest e := by
    intro c hc hw
    obtain ⟨e, he⟩ := hc.content
    rw [curtain, he] at hw
    dsimp only at hw
    split at hw
    · next hlen => exact ⟨e, ⟨c, nodeAt_nil c, he, hlen⟩, hw.symm⟩
    · exact absurd hw (not_hides_forget hc)
  cases t with
  | extension f c m =>
    obtain ⟨e, ⟨s, hs, he⟩, hw⟩ := hcurtain (c := c) hfull h
    obtain rfl := Option.some.inj ((nodeAt_nil c).symm.trans hs)
    exact ⟨f.toList, e, ⟨c, nodeAt_extension m ht.1, he⟩, hw⟩
  | branch cs v m =>
    obtain ⟨i, hi⟩ := h
    obtain ⟨e, hlong, hw⟩ := hcurtain (hfull.1 i) hi
    exact ⟨[i], e, hlong, hw⟩
  | hidden d => exact absurd hfull id
  | _ => exact absurd h id

theorem long_of_refers (ht : Canonical n t) (hfull : Full t) (hs : Sound t) (hne : t ≠ .empty)
    (hc : t.content = .ok e) (htrue : Truthful source t) (h : Refers source (digest e) w) :
    ∃ l e', t.Long l e' ∧ w = digest e' := by
  obtain ⟨b, s, hsrc, hdec, hw⟩ := h
  obtain rfl := htrue e b ⟨[], t, nodeAt_nil t, hc⟩ hsrc
  obtain rfl := outline_of_decode ht hs hne hc hdec
  exact hides_outline ht hfull hw

/-- A source that is truthful about a trie is faithful for its root hash. -/
theorem faithful_of_truthful (ht : Canonical n t) (hfull : Full t) (hs : Sound t) (hne : t ≠ .empty)
    (hc : t.content = .ok e) (htrue : Truthful source t) : Faithful source (digest e) := by
  have hlong : ∀ {l s b w}, t.nodeAt l = some s → s ≠ .empty → s.content = .ok b →
      Refers source (digest b) w → ∃ l e', t.Long l e' ∧ w = digest e' := by
    intro l s b w hl hsne hb hw
    obtain ⟨l', e', ⟨c, hc, he⟩, rfl⟩ := long_of_refers (ht.nodeAt hl).2 (hfull.nodeAt hl)
      (hs.nodeAt hl) hsne hb (htrue.nodeAt hl) hw
    exact ⟨l ++ l', e', ⟨c, by rw [nodeAt_append hl, hc], he⟩, rfl⟩
  -- every hash to which the root hash leads is that of a node
  have hnode : ∀ {h}, Relation.ReflTransGen (Refers source) (digest e) h →
      ∃ l s b, t.nodeAt l = some s ∧ s ≠ .empty ∧ s.content = .ok b ∧ h = digest b := by
    intro h hreach
    induction hreach with
    | refl => exact ⟨[], t, e, nodeAt_nil t, hne, hc, rfl⟩
    | tail _ hw ih =>
      obtain ⟨l, s, b, hl, hsne, hb, rfl⟩ := ih
      obtain ⟨l', e', ⟨c, hc, he, hlen⟩, rfl⟩ := hlong hl hsne hb hw
      exact ⟨l', c, e', hc, ne_empty_of_long_content he hlen, he, rfl⟩
  constructor
  · intro h b hreach hsrc
    obtain ⟨l, s, b', hl, hsne, hb, rfl⟩ := hnode hreach
    obtain rfl := htrue b' b ⟨l, s, hl, hb⟩ hsrc
    exact exact_of_content (ht.nodeAt hl).2 (hs.nodeAt hl) hsne hb
  · intro h w b hreach hw hsrc
    obtain ⟨l, s, b', hl, hsne, hb, rfl⟩ := hnode hreach
    obtain ⟨l', e', ⟨c, hc, he, hlen⟩, rfl⟩ := hlong hl hsne hb hw
    obtain rfl := htrue e' b ⟨l', c, hc, he⟩ hsrc
    exact hlen

end

/-! ## Instances -/

open Sheaf in
/-- The hypotheses hold of Keccak-256 and a source that has the root of a trie, one of its long
leaves and something that cannot be read. -/
theorem rebuild_hash_sheaf :
    ∃ t, Sheaf.source.Addressed ∧ Faithful Sheaf.source Sheaf.trie.hash.1 ∧
      Sheaf.trie.hash.1 ≠ .zero ∧ rebuild Sheaf.trie.hash.1 Sheaf.source = .ok t ∧
      t.hash.1 = Sheaf.trie.hash.1 := by
  have hholds := Edit.holds_of_run (fun e he => (edits_storable e he).mono Entry.Storable.known)
    holds_empty run_edits
  have hhash := hash_eq_digest hholds.sound trie_content
  have haddr : source.Addressed := fun h b hb => (source_eq_some_iff.1 hb).2
  have htrue : Truthful source trie := fun e b he hb =>
    involved_nodup.inj (trie_involved (Or.inr (Or.inr ⟨_, hb⟩))) (trie_involved (Or.inr (Or.inl he)))
      (haddr _ b hb)
  have hfaithful : Faithful source trie.hash.1 := hhash ▸ faithful_of_truthful hholds.canonical
    hholds.full hholds.sound nofun trie_content htrue
  have hzero : trie.hash.1 ≠ .zero := hhash ▸ involved_nodup.ne_zero (by simp [involved])
  have hrebuild := rebuild_eq hholds.canonical hholds.full hholds.sound
    (run_fits edits_storable (by trivial) run_edits) involved_nodup (by simp [involved]) trie_content
    (by simp [involved]) (fun _ => by
      rw [source_eq_some_iff.2 ⟨by simp, rfl⟩]
      exact Option.some_ne_none _) htrue
  exact ⟨_, haddr, hfaithful, hzero, hrebuild, rebuild_hash haddr hfaithful hzero hrebuild⟩

namespace Lavish

/-- A leaf whose value takes two bytes where one would do. -/
def blob : Bytes := [0xc5, 0x82, 0x20, 0x12, 0x81, 0x05]

def reading : Trie := .leaf (.ofList [1, 2]) [5] none

theorem decode_blob : decode blob = .ok reading := by
  have hitems : Rlp.items [0x82, 0x20, 0x12, 0x81, 0x05] = [[0x82, 0x20, 0x12], [0x81, 0x05]] := by
    decide +kernel
  have hfragment : Rlp.payload [0x82, 0x20, 0x12] = .ok (Path.compact (.ofList [1, 2]) true) := by
    decide
  have hvalue : Rlp.payload [0x81, 0x05] = .ok [5] := by decide
  have hlist : decodeList blob = .ok reading :=
    decodeList_leaf (by decide) (by decide) hitems hfragment hvalue
  have hextent : Rlp.extent blob = .ok ⟨1, 5⟩ := by decide
  rw [decode, hextent]
  exact (if_neg (by decide)).trans hlist

theorem digest_ne : digest (leafEncoding (.ofList [1, 2]) [5]) ≠ digest blob ∧
    digest blob ≠ .zero ∧ digest blob ≠ digest Rlp.emptyData := by
  refine ⟨mt digest_eq_digest_iff.1 ?_, mt digest_eq_iff.1 ?_, mt digest_eq_digest_iff.1 ?_⟩ <;>
    decide +kernel

end Lavish

open Lavish in
/-- From a source that gives nothing under a wrong hash a trie is rebuilt which has another root hash
than the one from which it was rebuilt. -/
theorem rebuild_lavish :
    ∃ (source : NodeSource) (root : Word) (t : Trie), source.Addressed ∧ root ≠ .zero ∧
      rebuild root source = .ok t ∧ t.hash.1 ≠ root := by
  obtain ⟨hhash, hzero, hempty⟩ := digest_ne
  have hcontent : reading.content = .ok (leafEncoding (.ofList [1, 2]) [5]) := rfl
  have hroot : isEmptyRoot (digest blob) = false := isEmptyRoot_eq_false_iff.2 ⟨hzero, hempty⟩
  refine ⟨(NodeTable.ofProof [blob]).source, digest blob, reading,
    (NodeTable.Kept.addProof [blob] .empty).addressed, hzero, ?_, ?_⟩
  · simp [rebuild, hroot, ofProof_singleton, decodeStored, decode_blob, Except.mapError, bind,
      Except.bind, reading, substitute]
  · have hsound : Sound reading := memoHolds_of_memo_none rfl
    exact (hash_eq_digest hsound hcontent).trans_ne hhash

end Trie

end Stateless
