import Stateless.Proofs.Keccak
import Stateless.Proofs.NodeStore
import Stateless.Proofs.Trie.Descent
import Stateless.Proofs.Trie.Storable
import Stateless.Proofs.Trie.Twins

/-!
# Proofs do not lie

A source of nodes may be made by an adversary, but what it gives for a hash has that hash. If no two
of the encodings involved collide, then the source is truthful about every node of a trie, and a
verification that succeeds has walked the trie itself. The main result is `verify_sound`.
-/

namespace Stateless

namespace Trie

section

variable [Hasher]

/-- The encoding of some node of the trie. -/
def Encodes (t : Trie) (e : Bytes) : Prop := ∃ l s, t.nodeAt l = some s ∧ s.content = .ok e

/-- What a source gives for the hash of a node is the encoding of the node. -/
def Truthful (source : NodeSource) (t : Trie) : Prop :=
  ∀ e b, t.Encodes e → source (digest e) = some b → b = e

/-- The byte strings that matter when a proof about a trie is verified: the encodings of its nodes
and of the empty trie, and all that the source has. -/
def Involved (t : Trie) (source : NodeSource) (b : Bytes) : Prop :=
  b = Rlp.emptyData ∨ t.Encodes b ∨ ∃ h, source h = some b

variable {t s : Trie} {e : Bytes} {l : List Nibble} {n fuel : Nat} {source : NodeSource}
variable {matched remaining k : Path} {p : VerifiedPath}

theorem Full.content (h : Full t) : ∃ e, t.content = .ok e := by
  cases t with
  | hidden w => exact absurd h id
  | _ => exact ⟨_, rfl⟩

theorem Encodes.nodeAt (hs : t.nodeAt l = some s) (h : s.Encodes e) : t.Encodes e := by
  obtain ⟨l', s', hs', he⟩ := h
  exact ⟨l ++ l', s', by rw [nodeAt_append hs, hs'], he⟩

theorem encodes_empty : Encodes .empty e ↔ e = Rlp.emptyData := by
  constructor
  · rintro ⟨l, s, hs, he⟩
    cases l with
    | nil =>
      obtain rfl := Option.some.inj hs
      exact (Except.ok.inj he).symm
    | cons d l => cases hs
  · rintro rfl
    exact ⟨[], .empty, rfl, rfl⟩

theorem encodes_hidden {w : Word} : ¬ Encodes (.hidden w) e := by
  rintro ⟨l, s, hs, he⟩
  cases l with
  | nil =>
    obtain rfl := Option.some.inj hs
    cases he
  | cons d l => cases hs

theorem encodes_leaf {f : Path} {v : Bytes} {m : Option Word} :
    Encodes (.leaf f v m) e ↔ e = leafEncoding f v := by
  constructor
  · rintro ⟨l, s, hs, he⟩
    cases l with
    | nil =>
      obtain rfl := Option.some.inj hs
      exact (Except.ok.inj he).symm
    | cons d l => cases hs
  · rintro rfl
    exact ⟨[], _, rfl, rfl⟩

theorem encodes_branch {cs : Nibble → Trie} {v : Bytes} {m : Option Word} :
    Encodes (.branch cs v m) e ↔ content (.branch cs v m) = .ok e ∨ ∃ i, (cs i).Encodes e := by
  constructor
  · rintro ⟨l, s, hs, he⟩
    cases l with
    | nil =>
      obtain rfl := Option.some.inj hs
      exact Or.inl he
    | cons d l => exact Or.inr ⟨d, l, s, hs, he⟩
  · rintro (he | ⟨i, l, s, hs, he⟩)
    · exact ⟨[], _, rfl, he⟩
    · exact ⟨i :: l, s, hs, he⟩

theorem Stout.encodes_twin {t' : Trie} {d d' : Nibble} {b e' : Bytes} (h : t.Stout e)
    (h' : t'.Stout e') (hb : (Trie.twin d t d' t').Encodes b) :
    b = twinEncoding d e d' e' ∨ t.Encodes b ∨ t'.Encodes b ∨ b = Rlp.emptyData := by
  have hstout : (Trie.twin d t d' t').Stout (twinEncoding d e d' e') := h.twin h'
  rcases encodes_branch.1 hb with hb | ⟨i, hb⟩
  · exact Or.inl (Except.ok.inj (hb.symm.trans hstout.content))
  · rw [get_twin] at hb
    split at hb
    · exact Or.inr (Or.inr (Or.inl hb))
    · split at hb
      · exact Or.inr (Or.inl hb)
      · exact Or.inr (Or.inr (Or.inr (encodes_empty.1 hb)))

/-- What memos there are makes no difference. -/
theorem Encodes.of_memoize (hs : Sound t) (h : t.memoize.Encodes e) : t.Encodes e := by
  obtain ⟨l, s, hl, he⟩ := h
  obtain ⟨s', hl', hforget⟩ := nodeAt_of_forget_eq (forget_memoize t) hl
  refine ⟨l, s', hl', ?_⟩
  rw [← content_forget (hs.nodeAt hl'), ← hforget, content_forget (hs.memoize.nodeAt hl), he]

theorem Truthful.nodeAt (h : Truthful source t) (hs : t.nodeAt l = some s) : Truthful source s :=
  fun e b he hb => h e b (he.nodeAt hs) hb

theorem truthful_of_collisionFree (haddr : source.Addressed)
    (hfree : CollisionFree (t.Involved source)) : Truthful source t :=
  fun _ b he hb =>
    hfree.inj (Or.inr (Or.inr ⟨_, hb⟩)) (Or.inr (Or.inl he)) (haddr _ b hb)

omit [Hasher] in
/-- The place of a node below which a walk goes on leaves enough room for the node. -/
theorem room_nodeAt {m : Path} (ht : Canonical n t) (hs : t.nodeAt l = some s)
    (hm : m.toList = matched.toList ++ l) (hroom : matched.length + n ≤ maxNibbles) :
    Canonical (n - l.length) s ∧ m.length + (n - l.length) ≤ maxNibbles := by
  obtain ⟨hle, hcan⟩ := ht.nodeAt hs
  have := congrArg List.length hm
  rw [List.length_append, Path.length_toList, Path.length_toList] at this
  exact ⟨hcan, by omega⟩

theorem ne_empty_of_long {H : l ≠ [] ∧ t.Long l e} (hs : t.nodeAt l = some s) : s ≠ .empty := by
  rintro rfl
  obtain ⟨-, s', hs', he, hlen⟩ := H
  obtain rfl := Option.some.inj (hs.symm.trans hs')
  obtain rfl := Except.ok.inj he
  exact absurd hlen (by decide)

/-- A walk from the hash of a node that succeeds, whatever its fuel, has gone the way through the
node. -/
theorem walk_ends (ht : Canonical n t) (hfull : Full t) (hs : Sound t) (hne : t ≠ .empty)
    (hc : t.content = .ok e) (htrue : Truthful source t)
    (hroom : matched.length + n ≤ maxNibbles)
    (h : (walk source fuel (digest e) matched remaining).outcome = .ok p) :
    Ends t matched remaining p := by
  induction fuel generalizing t n e matched remaining with
  | zero => cases h
  | succ fuel ih =>
    rw [walk] at h
    cases hsrc : source (digest e) with
    | none => simp [hsrc] at h
    | some blob =>
      obtain rfl := htrue e blob ⟨[], t, nodeAt_nil t, hc⟩ hsrc
      simp only [hsrc] at h
      cases hdec : decode blob with
      | error r => simp [hdec] at h
      | ok s =>
        obtain rfl := outline_of_decode ht hs hne hc hdec
        obtain ⟨a, ha⟩ := hfull.view remaining.toList
        obtain ⟨d, hd, harr⟩ := descend_outline ht hs hroom ha
        simp only [hdec, hd] at h
        cases d with
        | tooLong m k => exact absurd harr id
        | absent m last =>
          obtain rfl := Except.ok.inj h
          exact harr.1
        | found key v m last =>
          obtain rfl := Except.ok.inj h
          exact harr.1
        | lookUp w m rest =>
          obtain ⟨l, c, e', hm, hrest, hnode, hce, hlong, rfl, -⟩ := harr
          obtain ⟨hcan, hroom'⟩ := room_nodeAt ht hnode hm hroom
          have hchild := ih hcan (hfull.nodeAt hnode) (hs.nodeAt hnode)
            (ne_empty_of_long (H := hlong) hnode) hce (htrue.nodeAt hnode) hroom' h
          exact hchild.lift hnode hm hrest

theorem ends_eq (h : Ends t .empty k p) :
    p.value = t.get k ∧ k.startsWith p.matched = true ∧
      ∃ s, t.nodeAt p.matched.toList = some s ∧ p.last = s.outline := by
  obtain ⟨l, s, hl, hfront, hnode, hlast, -⟩ := h.last
  have hl' : p.matched.toList = l := hl
  refine ⟨?_, Path.startsWith_iff.2 (hl' ▸ hfront), s, by rw [hl', hnode], hlast⟩
  rw [get, lookup_eq_view, h.answer]

theorem isEmptyRoot_eq_false_iff {w : Word} :
    isEmptyRoot w = false ↔ w ≠ .zero ∧ w ≠ digest Rlp.emptyData := by
  rw [isEmptyRoot, Bool.or_eq_false_iff, Bool.eq_false_iff, Ne, FixedBytes.isZero_iff,
    decide_eq_false_iff_not]
  rfl

/-- Only the encoding of the empty trie has the hash of the empty trie. -/
theorem isEmptyRoot_digest {S : Bytes → Prop} (hfree : CollisionFree S) (hempty : S Rlp.emptyData)
    (he : S e) (hne : e ≠ Rlp.emptyData) : isEmptyRoot (digest e) = false :=
  isEmptyRoot_eq_false_iff.2 ⟨hfree.ne_zero he, mt (hfree.inj he hempty) hne⟩

/-- The root hash of a trie stands for the empty trie only if the trie is empty. -/
theorem isEmptyRoot_hash_iff {S : Bytes → Prop} (hs : Sound t) (hfree : CollisionFree S)
    (hempty : S Rlp.emptyData) (hc : t.content = .ok e) (he : S e) :
    isEmptyRoot t.hash.1 = true ↔ t = .empty := by
  rw [isEmptyRoot, hash_eq_digest hs hc, Bool.or_eq_true, decide_eq_true_iff,
    FixedBytes.isZero_iff]
  constructor
  · rintro (hzero | hroot)
    · exact absurd hzero (hfree.ne_zero he)
    · obtain rfl := hfree.inj he hempty hroot
      by_contra hne
      have hxs := content_eq_parts hne hc
      have hflat : t.parts.flatten.length < 256 ^ 8 :=
        (Rlp.flatten_length_le t.parts).trans_lt (hxs ▸ by decide)
      have hlist := Rlp.isList_list hflat
      rw [← hxs] at hlist
      cases hlist
  · rintro rfl
    obtain rfl := Except.ok.inj hc
    exact Or.inr rfl

/-- Verification of a key against the root hash of a trie that was made by putting values and
removing keys: if it succeeds with whatever nodes, then it answers the value that the key has in the
trie, or none if it has none, and the node where it ends is the trie's own. -/
theorem verify_sound {edits : List Edit} {answers : List (Option Bytes)}
    (hknown : ∀ e ∈ edits, e.Puts Entry.Known) (hrun : Edit.run edits .empty = .ok (answers, t))
    (haddr : source.Addressed) (hfree : CollisionFree (t.Involved source))
    (h : (verify t.hash.1 k source).outcome = .ok p) :
    p.value = t.get k ∧ p.value = (Edit.contents edits).find? k ∧
      k.startsWith p.matched = true ∧
      ∃ s, t.nodeAt p.matched.toList = some s ∧ p.last = s.outline := by
  obtain ⟨as, t', hrun', hholds⟩ := Edit.run_holds hknown holds_empty
  obtain ⟨-, rfl⟩ := Prod.mk.inj (Except.ok.inj (hrun.symm.trans hrun'))
  obtain ⟨e, hc⟩ : ∃ e, t.content = .ok e := hholds.full.content
  have hroot := isEmptyRoot_hash_iff hholds.sound hfree (Or.inl rfl) hc
    (Or.inr (Or.inl ⟨[], t, nodeAt_nil t, hc⟩))
  have hends : Ends t .empty k p := by
    rw [verify] at h
    split at h
    · next hempty =>
      obtain rfl := hroot.1 hempty
      obtain rfl := Except.ok.inj h
      exact ends_empty k
    · next hempty =>
      rw [hash_eq_digest hholds.sound hc] at h
      exact walk_ends hholds.canonical hholds.full hholds.sound (mt hroot.2 hempty) hc
        (truthful_of_collisionFree haddr hfree) (by simp [Path.length]) h
  obtain ⟨hvalue, hfront, hlast⟩ := ends_eq hends
  refine ⟨hvalue, ?_, hfront, hlast⟩
  exact Except.ok.inj (hends.answer.symm.trans (hholds.answers k))

end

end Trie

open Trie

/-! ## An instance -/

namespace Pair

/-! The trie of two keys that part at the first nibble. The leaves are long, so the root refers to them
by their hashes. -/

/-- A key that starts with a byte and goes on with zeroes. -/
def key (b : UInt8) : Word := .padRight 32 [b]

/-- Edits that leave two keys. -/
def edits : List Edit :=
  [.put (.ofWord (key 0x00)) (.value [7]), .put (.ofWord (key 0x10)) (.value [8])]

/-- What follows the first nibble of the keys. -/
def fragment : Path := ⟨List.replicate 63 0, by decide⟩

/-- The child of the trie of these keys behind a nibble. -/
def child (i : Nibble) : Trie :=
  if i = 1 then .leaf fragment [8] none else if i = 0 then .leaf fragment [7] none else .empty

/-- The trie of these keys. -/
def trie : Trie := .branch child [] none

theorem twin_eq_trie :
    twin 0 (.leaf fragment [7] none) 1 (.leaf fragment [8] none) = trie := by
  rw [trie, twin, fork]
  congr 1
  funext i
  exact get_twin i

theorem run_edits : Edit.run edits .empty = .ok ([none, none], trie) := by
  rw [← twin_eq_trie]
  rfl

theorem edits_storable : ∀ e ∈ edits, e.Puts Entry.Storable := by
  have hlen : 1 < twoPow 63 := by decide
  simp [edits, Edit.Puts, Entry.Storable, hlen]

/-! The hashes of the two leaves. -/

def hash₇ : Word := ⟨[
  0x64, 0xc8, 0x10, 0x5c, 0x77, 0x1d, 0x50, 0xe2, 0xfe, 0xdc, 0x33, 0xb4, 0x79, 0xa3, 0xcb, 0x7f,
  0x6b, 0x47, 0x9a, 0x25, 0x8c, 0x44, 0xa3, 0xb4, 0x27, 0xb9, 0x5f, 0xdf, 0x25, 0x30, 0x55, 0xc3],
  rfl⟩

def hash₈ : Word := ⟨[
  0xf5, 0x98, 0x1b, 0x3c, 0xae, 0xb5, 0x1d, 0x32, 0xb8, 0x32, 0xa3, 0x0f, 0x80, 0x3e, 0xfa, 0x88,
  0xd8, 0x7b, 0x28, 0x53, 0x0a, 0xb3, 0x8b, 0x4d, 0x58, 0xa4, 0xa3, 0xb3, 0xd0, 0x3c, 0x0d, 0x2c],
  rfl⟩

theorem digest₇ : digest (leafEncoding fragment [7]) = hash₇ :=
  digest_eq_iff.2 (by decide +kernel)

theorem digest₈ : digest (leafEncoding fragment [8]) = hash₈ :=
  digest_eq_iff.2 (by decide +kernel)

/-- The encoding of the root. -/
def encoding : Bytes :=
  branchEncoding (fun i => if i = 1 then Rlp.data hash₈.toBytes
    else if i = 0 then Rlp.data hash₇.toBytes else Rlp.emptyData) []

theorem stout₇ : Stout (.leaf fragment [7] none) (leafEncoding fragment [7]) :=
  stout_leaf (by decide)

theorem stout₈ : Stout (.leaf fragment [8] none) (leafEncoding fragment [8]) :=
  stout_leaf (by decide)

theorem twinEncoding_eq :
    twinEncoding 0 (leafEncoding fragment [7]) 1 (leafEncoding fragment [8]) = encoding := by
  rw [twinEncoding, digest₇, digest₈, encoding]

theorem trie_content : trie.content = .ok encoding := by
  rw [← twin_eq_trie, (stout₇.twin stout₈).content, twinEncoding_eq]

/-- The nodes of the trie. -/
theorem nodeAt_cases {l : List Nibble} {s : Trie} (h : trie.nodeAt l = some s) :
    (l = [] ∧ s = trie) ∨ (l = [0] ∧ s = .leaf fragment [7] none) ∨
      (l = [1] ∧ s = .leaf fragment [8] none) ∨ s = .empty := by
  cases l with
  | nil => exact Or.inl ⟨rfl, (Option.some.inj h).symm⟩
  | cons d l =>
    rw [trie, nodeAt_branch_cons, child] at h
    have hleaf : ∀ {t : Trie}, (∀ d l, t.nodeAt (d :: l) = none) → t.nodeAt l = some s →
        l = [] ∧ s = t := fun {t} ht hl => by
      cases l with
      | nil => exact ⟨rfl, (Option.some.inj ((nodeAt_nil t).symm.trans hl)).symm⟩
      | cons d l => cases (ht d l).symm.trans hl
    split at h
    · next hd =>
      obtain ⟨rfl, rfl⟩ := hleaf (fun _ _ => rfl) h
      exact Or.inr (Or.inr (Or.inl ⟨by rw [hd], rfl⟩))
    · split at h
      · next hd =>
        obtain ⟨rfl, rfl⟩ := hleaf (fun _ _ => rfl) h
        exact Or.inr (Or.inl ⟨by rw [hd], rfl⟩)
      · exact Or.inr (Or.inr (Or.inr (hleaf (fun _ _ => rfl) h).2))

/-- The encodings of the nodes and of the empty trie. -/
def blobs : List Bytes :=
  [Rlp.emptyData, leafEncoding fragment [7], leafEncoding fragment [8], encoding]

theorem encodes {b : Bytes} (h : trie.Encodes b) : b ∈ blobs := by
  rw [← twin_eq_trie] at h
  rw [blobs]
  rcases stout₇.encodes_twin stout₈ h with rfl | h | h | rfl
  · simp [twinEncoding_eq]
  · simp [encodes_leaf.1 h]
  · simp [encodes_leaf.1 h]
  · simp

/-- The same with a leaf that gives the first key a value of its own. -/
def blobsWith (v : UInt8) : List Bytes := leafEncoding (.ofWord (key 0x00)) [v] :: blobs

theorem collisionFree_blobsWith {v : UInt8} (hv : v = 7 ∨ v = 9) :
    CollisionFree (· ∈ blobsWith v) := by
  refine collisionFree_of_nodup (fun b => id) ?_
  simp only [digest_toNat]
  rcases hv with rfl | rfl
  · decide +kernel
  · decide +kernel

theorem source_eq_some_iff {bs : List Bytes} (hbs : ∀ b ∈ bs, b ∈ blobsWith 9) (h : Word) (b : Bytes) :
    (NodeTable.ofProof bs).source h = some b ↔ b ∈ bs ∧ digest b = h :=
  ofProof_source (collisionFree_blobsWith (Or.inr rfl)) hbs h b

theorem collisionFree_involved {bs : List Bytes} (hbs : ∀ b ∈ bs, b ∈ blobsWith 9) :
    CollisionFree (trie.Involved (NodeTable.ofProof bs).source) := by
  refine (collisionFree_blobsWith (Or.inr rfl)).mono ?_
  rintro b (rfl | h | ⟨h, hb⟩)
  · exact List.mem_cons_of_mem _ List.mem_cons_self
  · exact List.mem_cons_of_mem _ (encodes h)
  · exact hbs b ((source_eq_some_iff hbs h b).1 hb).1

/-! A verification of one of the keys looks up the root and goes on to the leaf. -/

theorem whole : trie.Whole := run_whole edits_storable run_edits

theorem hash_trie : trie.hash.1 = digest encoding := hash_eq_digest whole.sound trie_content

theorem isEmptyRoot_encoding : isEmptyRoot (digest encoding) = false :=
  isEmptyRoot_digest (collisionFree_blobsWith (Or.inr rfl)) (by simp [blobsWith, blobs])
    (by simp [blobsWith, blobs]) nofun

theorem curtain_child₇ : (child 0).curtain = .hidden hash₇ := by
  rw [← digest₇]
  exact curtain_of_long (c := child 0) rfl (by decide)

theorem curtain_child₈ : (child 1).curtain = .hidden hash₈ := by
  rw [← digest₈]
  exact curtain_of_long (c := child 1) rfl (by decide)

theorem decode_root : decode encoding = .ok trie.outline :=
  decode_content whole.canonical whole.sound nofun trie_content (by decide)

theorem decode_leaf₇ : decode (leafEncoding fragment [7]) = .ok (.leaf fragment [7] none) :=
  decode_content (n := 63) (t := .leaf fragment [7] none) ⟨by decide, nofun⟩
    (memoHolds_of_memo_none rfl) nofun rfl (by decide)

theorem walk_encoding {source : NodeSource} {b : UInt8} {i : Nibble} {h : Word}
    (hroot : source (digest encoding) = some encoding)
    (hkey : (Path.ofWord (key b)).uncons = some (i, fragment))
    (hchild : (child i).curtain = .hidden h) (fuel : Nat) :
    walk source (fuel + 1) (digest encoding) .empty (.ofWord (key b)) =
      { walk source fuel h (.single i) fragment with
        visited := ⟨.empty, digest encoding, encoding⟩ ::
          (walk source fuel h (.single i) fragment).visited } := by
  have hpush : Path.empty.push i.val = .ok (.single i) := by
    rw [Path.push, dif_pos (by decide), dif_pos i.isLt]
    rfl
  have hdescend : trie.outline.descend .empty (.ofWord (key b)) =
      .ok (.lookUp h (.single i) fragment) := by
    rw [trie, outline, descend, hkey]
    simp only [hchild, hpush]
    rfl
  rw [walk, hroot]
  simp only [decode_root, hdescend]

theorem walk_leaf₇ {source : NodeSource} (h : source hash₇ = some (leafEncoding fragment [7]))
    (fuel : Nat) : walk source (fuel + 1) hash₇ (.single 0) fragment =
      ⟨[⟨.single 0, hash₇, leafEncoding fragment [7]⟩], some (.ofWord (key 0x00), [7]),
        .ok ⟨some [7], .single 0, .leaf fragment [7] none⟩⟩ := by
  have hdescend : (leaf fragment [7] none).descend (.single 0) fragment =
      .ok (.found (.ofWord (key 0x00)) [7] (.single 0) (.leaf fragment [7] none)) := by
    rw [descend, if_neg (by decide), if_pos rfl]
    rfl
  rw [walk, h]
  simp only [decode_leaf₇, hdescend]

/-- What a source has that knows another leaf for the first key, and not the leaf of the second. -/
def served : List Bytes :=
  [leafEncoding (.ofWord (key 0x00)) [9], encoding, leafEncoding fragment [7]]

theorem served_subset : ∀ b ∈ served, b ∈ blobsWith 9 := by simp [served, blobsWith, blobs]

/-- The source that has them. -/
def source : NodeSource := (NodeTable.ofProof served).source

theorem source_of_mem {h : Word} {b : Bytes} (hb : b ∈ served) (hh : digest b = h) :
    source h = some b :=
  (source_eq_some_iff served_subset h b).2 ⟨hb, hh⟩

theorem source_addressed : source.Addressed :=
  fun h b hb => ((source_eq_some_iff served_subset h b).1 hb).2

theorem verify_leaf₇ : verify trie.hash.1 (.ofWord (key 0x00)) source =
    ⟨[⟨.empty, digest encoding, encoding⟩, ⟨.single 0, hash₇, leafEncoding fragment [7]⟩],
      some (.ofWord (key 0x00), [7]), .ok ⟨some [7], .single 0, .leaf fragment [7] none⟩⟩ := by
  obtain ⟨fuel, hfuel⟩ : ∃ fuel, lookupBound = fuel + 2 := ⟨lookupBound - 2, by decide⟩
  rw [verify, hash_trie, isEmptyRoot_encoding, if_neg Bool.false_ne_true, hfuel,
    walk_encoding (source_of_mem (by simp [served]) rfl) rfl curtain_child₇,
    walk_leaf₇ (source_of_mem (by simp [served]) digest₇)]

end Pair

open Pair in
/-- The hypotheses hold of Keccak-256, a trie with two hidden leaves, and a source that has another
leaf for the first key. The verification goes through the root to the leaf of the trie. -/
theorem Trie.verify_sound_pair :
    ∃ p, (∀ e ∈ edits, e.Puts Entry.Known) ∧ Edit.run edits .empty = .ok ([none, none], trie) ∧
      source.Addressed ∧ CollisionFree (trie.Involved source) ∧
      source (digest (leafEncoding (.ofWord (key 0x00)) [9])) =
        some (leafEncoding (.ofWord (key 0x00)) [9]) ∧
      (verify trie.hash.1 (.ofWord (key 0x00)) source).visited.length = 2 ∧
      (verify trie.hash.1 (.ofWord (key 0x00)) source).outcome = .ok p ∧
      p.value = some [7] ∧ p.value = trie.get (.ofWord (key 0x00)) ∧
      (Path.ofWord (key 0x00)).startsWith p.matched = true ∧
      ∃ s, trie.nodeAt p.matched.toList = some s ∧ p.last = s.outline := by
  have hknown : ∀ e ∈ edits, e.Puts Entry.Known :=
    fun e he => (edits_storable e he).mono Entry.Storable.known
  have hfree : CollisionFree (trie.Involved source) := collisionFree_involved served_subset
  have houtcome := congrArg Verification.outcome verify_leaf₇
  obtain ⟨hget, -, hfront, hlast⟩ := verify_sound hknown run_edits source_addressed hfree houtcome
  refine ⟨_, hknown, run_edits, source_addressed, hfree,
    source_of_mem List.mem_cons_self rfl, ?_, houtcome, rfl, hget, hfront, hlast⟩
  rw [verify_leaf₇]
  rfl

end Stateless
