import Stateless.Proofs.Trie.PartialMap
import Stateless.Proofs.Trie.Pruned
import Stateless.Proofs.Trie.Soundness
import Stateless.Proofs.Trie.Storable

/-!
# The root hash binds

A partial trie may be made by an adversary: its hidden parts may stand anywhere, and it need not
have the shape of a trie that insertions make. If its root hash is that of a trie which insertions
and removals have built, and no two of the encodings involved collide, then it is that trie with
parts hidden. The main result is `pruned_of_hash_eq`.

The encoding of a node is a list of items, its `parts`. Equal encodings have equal parts, and equal
parts belong to nodes of one kind with the same fragment, the same value and children that are
referred to alike. A child that is referred to by its encoding has an encoding shorter than a hash,
so it cannot be taken for a hash. The values of the trie have to fit into memory: the header of a
value whose length takes more than eight bytes would be that of a list.
-/

namespace Stateless

namespace Trie

section

variable [Hasher]

/-- No node of one trie has the hash of a node of the other, unless they are encoded alike. -/
def Apart (t p : Trie) : Prop :=
  ∀ a b, t.Encodes a → p.Encodes b → digest a = digest b → a = b

variable {t p c c' : Trie} {f g : Path} {v w e : Bytes} {n : Nat}

theorem Apart.nodeAt {s s' : Trie} {l l' : List Nibble} (h : Apart t p) (hs : t.nodeAt l = some s)
    (hs' : p.nodeAt l' = some s') : Apart s s' := by
  intro a b ha hb hab
  exact h a b (ha.nodeAt hs) (hb.nodeAt hs') hab

/-! ## Items -/

/-- Nodes with one encoding have the same parts, and if one of them is empty, so is the other. -/
theorem parts_eq (ht : Sound t) (hp : Sound p) (hct : t.content = .ok e) (hcp : p.content = .ok e)
    (hlen : e.length < 256 ^ 8 + 9) :
    (t = .empty ↔ p = .empty) ∧ t.parts = p.parts ∧ t.parts.flatten.length < 256 ^ 8 := by
  have hempty : ∀ {s s' : Trie}, s.content = .ok e → s'.content = .ok e → s = .empty →
      s' = .empty := by
    rintro s s' hs hs' rfl
    by_contra hne
    have he := content_eq_parts hne hs'
    have hlist := Rlp.isList_list (Rlp.flatten_length_lt (he ▸ hlen))
    rw [← he, ← Except.ok.inj hs] at hlist
    cases hlist
  refine ⟨⟨hempty hct hcp, hempty hcp hct⟩, ?_⟩
  by_cases hne : t = .empty
  · rw [hempty hct hcp hne, hne]
    exact ⟨rfl, Nat.zero_lt_succ _⟩
  · have het := content_eq_parts hne hct
    have hep := content_eq_parts (mt (hempty hcp hct) hne) hcp
    have hflat := Rlp.flatten_length_lt (het ▸ hlen)
    have hflat' := Rlp.flatten_length_lt (hep ▸ hlen)
    have hparts := Rlp.list_inj (het ▸ hlen) (frames_parts ht hflat) (frames_parts hp hflat')
      (het.symm.trans hep)
    exact ⟨hparts, hflat⟩

/-- An item that refers to a child tells whether it is the child's encoding or its hash. -/
theorem Reference.eq_of_item_eq {x y : Except Word Bytes}
    (h : (Reference.ofContent x).item = (Reference.ofContent y).item) :
    Reference.ofContent x = Reference.ofContent y := by
  -- an inline item is shorter than 32 bytes, and that of a hash has 33
  have hshape : ∀ z : Except Word Bytes,
      (∃ e, Reference.ofContent z = .inline e ∧ e.length < hashLength) ∨
        ∃ d, Reference.ofContent z = .byHash d := by
    intro z
    cases z with
    | error d => exact Or.inr ⟨d, rfl⟩
    | ok e =>
      unfold Reference.ofContent
      by_cases he : e.length < hashLength
      · exact Or.inl ⟨e, if_pos he, he⟩
      · exact Or.inr ⟨digest e, if_neg he⟩
  have hword : ∀ d : Word, ¬ (Rlp.data d.toBytes).length < hashLength := by
    intro d
    rw [length_data_word]
    decide
  rcases hshape x with ⟨e, hx, he⟩ | ⟨d, hx⟩ <;> rcases hshape y with ⟨e', hy, he'⟩ | ⟨d', hy⟩ <;>
    rw [hx, hy] at h ⊢ <;> simp only [Reference.item] at h
  · rw [h]
  · exact absurd (h ▸ he) (hword d')
  · exact absurd (h ▸ he') (hword d)
  · have hlen : (Rlp.data d.toBytes).length < 256 ^ 8 := by
      rw [length_data_word]
      decide
    rw [FixedBytes.ext (Rlp.data_inj hlen h)]

/-! ## Nodes with one encoding -/

/-- Two nodes of one kind with the same fragment and the same value, whose children are referred to
alike. -/
inductive Alike : Trie → Trie → Prop
  /-- Nothing is like nothing. -/
  | empty : Alike .empty .empty
  /-- Leaves differ in their memos only. -/
  | leaf {f : Path} {v : Bytes} {a b : Option Word} : Alike (.leaf f v a) (.leaf f v b)
  /-- Extensions refer to their children alike. -/
  | extension {f : Path} {c c' : Trie} {a b : Option Word}
    (hc : c.reference.item = c'.reference.item) : Alike (.extension f c a) (.extension f c' b)
  /-- Branches refer to their children alike. -/
  | branch {cs cs' : Nibble → Trie} {v : Bytes} {a b : Option Word}
    (hcs : ∀ i, (cs i).reference.item = (cs' i).reference.item) :
    Alike (.branch cs v a) (.branch cs' v b)

omit [Hasher] in
/-- The first item of a leaf or an extension tells the fragment, and which of them it is. -/
theorem fragment_of_item {isLeaf isLeaf' : Bool}
    (h : Rlp.data (f.compact isLeaf) = Rlp.data (g.compact isLeaf')) :
    f = g ∧ isLeaf = isLeaf' := by
  have hlen := length_data_compact_le f isLeaf
  exact Path.compact_inj (Rlp.data_inj (hlen.trans_lt (by decide)) h)

omit [Hasher] in
/-- The last item of a leaf or a branch tells the value. -/
theorem value_of_item {xs : List Bytes} (hv : Rlp.data v ∈ xs) (hlen : xs.flatten.length < 256 ^ 8)
    (h : Rlp.data v = Rlp.data w) : v = w :=
  Rlp.data_inj ((Rlp.length_le_of_mem hv).trans_lt hlen) h

/-- The encoding of a node tells what it is, up to the children that it refers to. -/
theorem alike_of_content_eq (hfits : Fits t) (ht : Sound t) (hp : Sound p)
    (hct : t.content = .ok e) (hcp : p.content = .ok e) : Alike t p := by
  obtain ⟨hempty, hparts, hlen⟩ := parts_eq ht hp hct hcp (content_length_lt hfits ht hct)
  have hcount : ∀ {cs v m} {x y : Bytes}, [x, y] ≠ (branch cs v m).parts := by
    intro cs v m x y h
    have := congrArg List.length h
    simp [parts, Children.toList] at this
  cases t with
  | empty =>
    rw [hempty.1 rfl]
    exact .empty
  | hidden d => cases hct
  | leaf f v m =>
    cases p with
    | empty => cases hempty.2 rfl
    | hidden d => cases hcp
    | leaf g w m' =>
      simp only [parts, List.cons.injEq, and_true] at hparts
      obtain ⟨rfl, -⟩ := fragment_of_item hparts.1
      obtain rfl := value_of_item (by simp [parts]) hlen hparts.2
      exact .leaf
    | extension g c m' =>
      obtain ⟨-, hkind⟩ := fragment_of_item (List.cons.inj hparts).1
      cases hkind
    | branch cs w m' => exact absurd hparts hcount
  | extension f c m =>
    cases p with
    | empty => cases hempty.2 rfl
    | hidden d => cases hcp
    | leaf g w m' =>
      obtain ⟨-, hkind⟩ := fragment_of_item (List.cons.inj hparts).1
      cases hkind
    | extension g c' m' =>
      simp only [parts, List.cons.injEq, and_true] at hparts
      obtain ⟨rfl, -⟩ := fragment_of_item hparts.1
      exact .extension hparts.2
    | branch cs w m' => exact absurd hparts hcount
  | branch cs v m =>
    cases p with
    | empty => cases hempty.2 rfl
    | hidden d => cases hcp
    | leaf g w m' => exact absurd hparts.symm hcount
    | extension g c' m' => exact absurd hparts.symm hcount
    | branch cs' w m' =>
      obtain ⟨hitems, hvalue⟩ := List.append_inj hparts (by simp [Children.toList])
      obtain rfl := value_of_item (by simp [parts]) hlen (List.singleton_inj.1 hvalue)
      exact .branch fun i => List.map_inj_left.1 hitems i (List.mem_finRange i)

/-- Only a hidden part has no encoding. -/
theorem eq_hidden_of_content {d : Word} (h : p.content = .error d) : p = .hidden d := by
  cases p with
  | hidden d' => exact congrArg hidden (Except.error.inj h)
  | _ => cases h

/-- Children that are referred to alike have one encoding, or one is hidden in the place of the
other. -/
theorem pruned_of_item (ht : Sound t) (hp : Sound p) (he : t.content = .ok e) (hap : Apart t p)
    (hitem : t.reference.item = p.reference.item)
    (hsame : p.content = .ok e → Pruned (fun _ => True) t p) : Pruned (fun _ => True) t p := by
  rw [ht.memoHolds.reference_eq, hp.memoHolds.reference_eq, he] at hitem
  have href := Reference.eq_of_item_eq hitem
  unfold Reference.ofContent at href
  have hhere : t.Encodes e := ⟨[], t, nodeAt_nil t, he⟩
  cases hcp : p.content with
  | error d =>
    obtain rfl := eq_hidden_of_content hcp
    simp only [hcp] at href
    by_cases hlen : e.length < hashLength
    · simp [hlen] at href
    · simp only [if_neg hlen, Reference.byHash.injEq] at href
      exact href ▸ .hidden trivial he (Nat.not_lt.1 hlen)
  | ok e' =>
    simp only [hcp] at href
    have hee : e = e' := by
      by_cases hlen : e.length < hashLength <;> by_cases hlen' : e'.length < hashLength <;>
        simp only [hlen, hlen', if_true, if_false, Reference.inline.injEq, Reference.byHash.injEq,
          reduceCtorEq] at href
      · exact href
      · exact hap e e' hhere ⟨[], p, nodeAt_nil p, hcp⟩ href
    exact hsame (hee ▸ hcp)

/-- A node with the encoding of a node of a full trie is that node with parts hidden. -/
theorem pruned_of_content_eq (ht : Canonical n t) (hfull : Full t) (hfits : Fits t) (hst : Sound t)
    (hsp : Sound p) (hap : Apart t p) (hct : t.content = .ok e) (hcp : p.content = .ok e) :
    Pruned (fun _ => True) t p := by
  induction t generalizing n p e with
  | empty =>
    cases alike_of_content_eq hfits hst hsp hct hcp with
    | empty => exact .empty
  | hidden d => cases hct
  | leaf f v m =>
    cases alike_of_content_eq hfits hst hsp hct hcp with
    | leaf => exact .leaf
  | extension f c m ih =>
    cases alike_of_content_eq hfits hst hsp hct hcp with
    | @extension _ _ c' _ m' hitem =>
      obtain ⟨hf, -, -, hc⟩ := ht
      have hnode : ∀ (b : Trie) (a : Option Word), nodeAt (.extension f b a) f.toList = some b := by
        intro b a
        rw [← List.append_nil f.toList, nodeAt_extension_append hf, nodeAt_nil]
      have hapc : Apart c c' := hap.nodeAt (hnode c m) (hnode c' m')
      obtain ⟨e', he'⟩ := Full.content (t := c) hfull
      refine .extension (pruned_of_item hst.1 hsp.1 he' hapc hitem fun hcp' => ?_)
      exact ih hc hfull hfits hst.1 hsp.1 hapc he' hcp'
  | branch cs v m ih =>
    cases alike_of_content_eq hfits hst hsp hct hcp with
    | @branch _ cs' _ _ m' hitems =>
      obtain ⟨-, -, hcs⟩ := ht
      refine .branch fun i => ?_
      have hnode : ∀ (bs : Nibble → Trie) (a : Option Word),
          nodeAt (.branch bs v a) [i] = some (bs i) := by
        intro bs a
        rw [nodeAt_branch_cons, nodeAt_nil]
      have hapc : Apart (cs i) (cs' i) := hap.nodeAt (hnode cs m) (hnode cs' m')
      obtain ⟨e', he'⟩ := Full.content (hfull.1 i)
      refine pruned_of_item (hst.1 i) (hsp.1 i) he' hapc (hitems i) fun hcp' => ?_
      exact ih i (hcs i) (hfull.1 i) (hfits.1 i) (hst.1 i) (hsp.1 i) hapc he' hcp'

omit [Hasher] in
/-- What is proven of a key is the answer to it. -/
theorem view_of_getProven {k : Path} {r : Option Bytes} (h : p.getProven k = .ok r) :
    p.view k.toList = .ok r := by
  rw [getProven_eq] at h
  cases hview : p.view k.toList with
  | error d =>
    rw [hview] at h
    cases h
  | ok a =>
    rw [hview] at h
    exact congrArg Except.ok (Except.ok.inj h)

/-- A trie with the root hash of a trie that was made by putting values and removing keys is that
trie with parts hidden, or nothing of it but the hash. So whatever it proves of a key, be it a value
or that there is none, is true. -/
theorem pruned_of_hash_eq {edits : List Edit} {answers : List (Option Bytes)}
    (hstorable : ∀ e ∈ edits, e.Puts Entry.Storable)
    (hrun : Edit.run edits .empty = .ok (answers, t)) (hp : Sound p) (hap : Apart t p)
    (hhash : p.hash.1 = t.hash.1) :
    (p = .hidden t.hash.1 ∨ Pruned (fun _ => True) t p) ∧
      ∀ k r, p.getProven k = .ok r → t.get k = r := by
  have hknown : ∀ e ∈ edits, e.Puts Entry.Known := by
    intro e he
    exact (hstorable e he).mono Entry.Storable.known
  have hholds := Edit.holds_of_run hknown holds_empty hrun
  have hfits : Fits t := run_fits hstorable (by trivial) hrun
  obtain ⟨e, he⟩ := hholds.full.content
  have hpruned : p = .hidden t.hash.1 ∨ Pruned (fun _ => True) t p := by
    cases hcp : p.content with
    | error d =>
      have hroot : p = .hidden d := eq_hidden_of_content hcp
      rw [hroot] at hhash ⊢
      exact Or.inl (congrArg hidden hhash)
    | ok b =>
      rw [hash_eq_digest hp hcp, hash_eq_digest hholds.sound he] at hhash
      have heb : e = b := hap e b ⟨[], t, nodeAt_nil t, he⟩ ⟨[], p, nodeAt_nil p, hcp⟩ hhash.symm
      exact Or.inr (pruned_of_content_eq hholds.canonical hholds.full hfits hholds.sound hp hap he
        (heb ▸ hcp))
  refine ⟨hpruned, ?_⟩
  intro k r hr
  have hview : p.view k.toList = .ok r := view_of_getProven hr
  rw [get, lookup_eq_view]
  rcases hpruned with rfl | hpruned
  · cases hview
  · rw [hpruned.view hview]

end

/-! ## An instance -/

namespace Sprig

/-- A value with as many bytes as a hash. -/
def long : Bytes := List.replicate 32 9

/-- Edits that leave a short value under the empty key and a long one behind a nibble. -/
def edits : List Edit :=
  [.put .empty (.value [7]), .put (.ofList [2, 5]) (.value [3]), .put (.ofList [1]) (.value long),
    .remove (.ofList [2, 5])]

/-- The leaf with the long value. -/
def tip : Trie := .leaf .empty long none

/-- The hash of the leaf. -/
def tipHash : Word := ⟨[
  0x90, 0x05, 0x98, 0xcd, 0x31, 0x30, 0xea, 0xab, 0x9d, 0xf5, 0xea, 0x7d, 0xfc, 0x73, 0x9b, 0x1a,
  0x07, 0x65, 0x9e, 0x4c, 0xe4, 0xeb, 0xa3, 0xdb, 0xbb, 0x52, 0xd3, 0x1d, 0xec, 0x71, 0x3a, 0xca],
  rfl⟩

/-- A branch with a value and one child. -/
def bearing (c : Trie) : Trie := .branch (fun i => if i = 1 then c else .empty) [7] none

/-- The encoding of such a branch, whether the leaf is seen or hidden. -/
def encoding : Bytes :=
  branchEncoding (fun i => if i = 1 then Rlp.data tipHash.toBytes else Rlp.emptyData) [7]

theorem edits_storable : ∀ e ∈ edits, e.Puts Entry.Storable := by
  have hlen : ∀ n ≤ 32, n < twoPow 63 := by
    intro n hn
    exact hn.trans_lt (by decide)
  simp [edits, Edit.Puts, Entry.Storable, hlen, long]

theorem run_edits : Edit.run edits .empty = .ok ([none, none, none, some [3]], bearing tip) := by
  have hchildren : (Children.set (Children.set (only 2 (.leaf (.ofList [5]) [3] none)).get 1
      tip).get 2 .empty).get = fun i => if i = 1 then tip else .empty := by
    funext i
    rw [Children.get_set, Children.get_set, only_get]
    by_cases h2 : i = 2
    · rw [if_pos h2, h2]
      rfl
    · rw [if_neg h2, if_neg h2]
  have hrun : Edit.run edits .empty = .ok ([none, none, none, some [3]], .branch (Children.set
      (Children.set (only 2 (.leaf (.ofList [5]) [3] none)).get 1 tip).get 2 .empty).get [7]
      none) := rfl
  rw [hrun, hchildren, bearing]

theorem digest_tip : digest (leafEncoding .empty long) = tipHash :=
  digest_eq_iff.2 (by decide +kernel)

theorem reference_tip : tip.reference = .byHash tipHash := by
  have hlen : ¬ (leafEncoding .empty long).length < hashLength := by decide
  simp [reference, tip, memo, content, Reference.ofContent, hlen, digest_tip]

theorem bearing_content {c : Trie} (h : c.reference = .byHash tipHash) :
    (bearing c).content = .ok encoding := by
  rw [bearing, content_branch, encoding]
  congr 2
  funext i
  by_cases hi : i = 1
  · rw [if_pos hi, if_pos hi, h]
    rfl
  · rw [if_neg hi, if_neg hi]
    rfl

theorem bearing_sound {c : Trie} (h : Sound c) : Sound (bearing c) := by
  refine ⟨fun i => ?_, memoHolds_of_memo_none rfl⟩
  show Sound (if i = 1 then c else .empty)
  by_cases hi : i = 1
  · rwa [if_pos hi]
  · rw [if_neg hi]
    trivial

theorem encodes_bearing {c : Trie} {b : Bytes} (h : (bearing c).Encodes b) :
    (bearing c).content = .ok b ∨ c.Encodes b ∨ b = Rlp.emptyData := by
  rcases encodes_branch.1 h with h | ⟨i, h⟩
  · exact Or.inl h
  · split at h
    · exact Or.inr (Or.inl h)
    · exact Or.inr (Or.inr (encodes_empty.1 h))

theorem apart : Apart (bearing tip) (bearing (.hidden tipHash)) := by
  have hfree : CollisionFree (· ∈ [Rlp.emptyData, leafEncoding .empty long, encoding]) := by
    refine collisionFree_of_nodup (fun b => id) ?_
    simp only [digest_toNat]
    decide +kernel
  intro a b ha hb hab
  refine hfree.inj ?_ ?_ hab
  · rcases encodes_bearing ha with h | h | rfl
    · simp [Except.ok.inj (h.symm.trans (bearing_content reference_tip))]
    · simp [encodes_leaf.1 h]
    · simp
  · rcases encodes_bearing hb with h | h | rfl
    · simp [Except.ok.inj (h.symm.trans (bearing_content (c := .hidden tipHash) rfl))]
    · exact absurd h encodes_hidden
    · simp

end Sprig

open Sprig in
/-- The hypotheses hold of Keccak-256 and a trie of which a leaf is hidden. What the trie with the
hidden leaf answers for the empty key and for a key that was removed is true. -/
theorem pruned_of_hash_eq_sprig :
    ∃ answers, (∀ e ∈ Sprig.edits, e.Puts Entry.Storable) ∧
      Edit.run Sprig.edits .empty = .ok (answers, bearing tip) ∧
      Sound (bearing (.hidden tipHash)) ∧ Apart (bearing tip) (bearing (.hidden tipHash)) ∧
      (bearing (.hidden tipHash)).hash.1 = (bearing tip).hash.1 ∧
      Pruned (fun _ => True) (bearing tip) (bearing (.hidden tipHash)) ∧
      (bearing tip).get .empty = some [7] ∧ (bearing tip).get (.ofList [2, 5]) = none := by
  have htip : Sound tip := memoHolds_of_memo_none rfl
  have hwhole := bearing_sound htip
  have hpruned : Sound (bearing (.hidden tipHash)) := bearing_sound (by trivial)
  have hhash : (bearing (.hidden tipHash)).hash.1 = (bearing tip).hash.1 := by
    rw [hash_eq_digest hpruned (bearing_content rfl),
      hash_eq_digest hwhole (bearing_content reference_tip)]
  obtain ⟨hor, hget⟩ := pruned_of_hash_eq edits_storable run_edits hpruned apart hhash
  have hnot : bearing (.hidden tipHash) ≠ .hidden (bearing tip).hash.1 := nofun
  exact ⟨_, edits_storable, run_edits, hpruned, apart, hhash, hor.resolve_left hnot,
    hget .empty _ rfl, hget (.ofList [2, 5]) _ rfl⟩

end Trie

end Stateless
