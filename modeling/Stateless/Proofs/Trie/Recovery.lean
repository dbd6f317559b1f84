import Stateless.Proofs.NodeStore
import Stateless.Proofs.Trie.Binding
import Stateless.Proofs.Trie.Rebuilding
import Stateless.Proofs.Trie.Unique

/-!
# What is recovered from some nodes of a trie

A source has the root of a trie, some of its other nodes and whatever else. The trie that is rebuilt
from it is the whole trie as far as the source knows it: what is hidden are exactly the topmost of
the nodes that are referred to by their hashes and that the source lacks. The main result is
`rebuild_exact`.
-/

namespace Stateless

namespace Trie

section

variable [Hasher]

/-- A node that is referred to by its hash, which the source lacks. -/
def Missing (t : Trie) (source : NodeSource) (l : List Nibble) (w : Word) : Prop :=
  ∃ e, t.Long l e ∧ w = digest e ∧ source w = none

/-- A missing node at a place, and no node above it that satisfies `below` is missing. -/
def Topmost (t : Trie) (source : NodeSource) (below : List Nibble → Prop) (l : List Nibble)
    (w : Word) : Prop :=
  below l ∧ t.Missing source l w ∧ ∀ l' w', below l' → l' <+: l → t.Missing source l' w' → l' = l

variable {source : NodeSource} {t c : Trie} {p l : List Nibble} {w : Word} {e : Bytes}

/-- Below a node the same nodes are missing as below its place. -/
theorem missing_append (hc : t.nodeAt p = some c) :
    t.Missing source (p ++ l) w ↔ c.Missing source l w := by
  simp only [Missing, Long, nodeAt_append hc]

/-- What is topmost below the root is topmost in the child to which every way leads. -/
theorem topmost_append (hp : p ≠ []) (hc : t.nodeAt p = some c)
    (honly : ∀ l' s, l' ≠ [] → l' <+: p ++ l → t.nodeAt l' = some s → p <+: l') :
    t.Topmost source (· ≠ []) (p ++ l) w ↔ c.Topmost source (fun _ => True) l w := by
  simp only [Topmost, missing_append hc, true_and, forall_const]
  constructor
  · rintro ⟨-, hmiss, hfirst⟩
    refine ⟨hmiss, fun l' w' hl' hmiss' => ?_⟩
    have heq := hfirst (p ++ l') w' (by simp [hp]) ((List.prefix_append_right_inj p).2 hl')
      ((missing_append hc).2 hmiss')
    exact List.append_cancel_left heq
  · rintro ⟨hmiss, hfirst⟩
    refine ⟨by simp [hp], hmiss, fun l' w' hne hl' hmiss' => ?_⟩
    obtain ⟨e, ⟨s, hs, -⟩, -⟩ := id hmiss'
    obtain ⟨r, rfl⟩ := honly l' s hne hl' hs
    rw [hfirst r w' ((List.prefix_append_right_inj p).1 hl') ((missing_append hc).1 hmiss')]

theorem seenBy_of_not_missing {known : Trie} (h : ∀ w, ¬ c.Missing source [] w) :
    seenBy source c known = known :=
  seenBy_of_known fun e he hnone => h (digest e) ⟨e, he, rfl, hnone⟩

/-- If a child's root is missing, only the root of what its parent shows is hidden; otherwise it is
what is hidden below. -/
theorem hidden_seenBy_iff (hbelow : ∀ l w, (c.knownTo source).nodeAt l = some (.hidden w) ↔
      c.Topmost source (· ≠ []) l w) :
    (seenBy source c (c.knownTo source)).nodeAt l = some (.hidden w) ↔
      c.Topmost source (fun _ => True) l w := by
  simp only [Topmost, true_and, forall_const]
  by_cases hroot : ∃ w', c.Missing source [] w'
  · obtain ⟨w', e, ⟨s, hs, he, hlen⟩, rfl, hnone⟩ := hroot
    obtain rfl := Option.some.inj ((nodeAt_nil c).symm.trans hs)
    have hseen : seenBy source c (c.knownTo source) = .hidden (digest e) := by
      simp [seenBy, he, hlen, hnone]
    have hmiss : c.Missing source [] (digest e) := ⟨e, ⟨c, nodeAt_nil c, he, hlen⟩, rfl, hnone⟩
    rw [hseen]
    constructor
    · intro h
      cases l with
      | cons d l => cases h
      | nil =>
        obtain rfl := hidden.inj (Option.some.inj h)
        exact ⟨hmiss, fun l' w' hl' _ => List.prefix_nil.1 hl'⟩
    · rintro ⟨⟨e', ⟨s, hs', he', -⟩, rfl, -⟩, hfirst⟩
      obtain rfl := hfirst [] _ List.nil_prefix hmiss
      obtain rfl := Option.some.inj ((nodeAt_nil c).symm.trans hs')
      rw [nodeAt_nil, Except.ok.inj (he.symm.trans he')]
  · have hseen : seenBy source c (c.knownTo source) = c.knownTo source :=
      seenBy_of_not_missing fun w' hmiss => hroot ⟨w', hmiss⟩
    have hne : ∀ {l' w'}, c.Missing source l' w' → l' ≠ [] := by
      rintro l' w' hmiss rfl
      exact hroot ⟨w', hmiss⟩
    rw [hseen, hbelow]
    constructor
    · rintro ⟨-, hmiss, hfirst⟩
      exact ⟨hmiss, fun l' w' hl' hmiss' => hfirst l' w' (hne hmiss') hl' hmiss'⟩
    · rintro ⟨hmiss, hfirst⟩
      exact ⟨hne hmiss, hmiss, fun l' w' _ => hfirst l' w'⟩

/-- Of a full trie the topmost missing nodes below the root are hidden. -/
theorem hidden_knownTo_iff {n : Nat} (ht : Canonical n t) (hfull : Full t) :
    (t.knownTo source).nodeAt l = some (.hidden w) ↔ t.Topmost source (· ≠ []) l w := by
  -- what is missing stands somewhere
  have hstands : ∀ {t : Trie} {l w}, (∀ s, t.nodeAt l = some s → False) →
      ¬ t.Topmost source (· ≠ []) l w := by
    rintro t l w hnone ⟨-, ⟨e, ⟨s, hs, -⟩, -⟩, -⟩
    exact hnone s hs
  induction t generalizing n l w with
  | hidden w => exact absurd hfull id
  | empty =>
    cases l with
    | nil => simp [knownTo, forget, Topmost]
    | cons d l => exact iff_of_false (fun h => by cases h) (hstands fun s hs => by cases hs)
  | leaf f v a =>
    cases l with
    | nil => simp [knownTo, forget, Topmost]
    | cons d l => exact iff_of_false (fun h => by cases h) (hstands fun s hs => by cases hs)
  | extension f c a ih =>
    obtain ⟨hf, -, -, hc⟩ := ht
    have hfull' : Full c := hfull
    have hnode := nodeAt_extension (c := c) a hf
    rw [knownTo]
    by_cases hne : l = []
    · subst hne
      simp [Topmost]
    · by_cases hl : f.toList <+: l
      · obtain ⟨r, rfl⟩ := hl
        rw [nodeAt_extension_append hf,
          topmost_append hf hnode fun l' s hne _ => prefix_of_nodeAt_extension hne]
        exact hidden_seenBy_iff fun l w => ih hc hfull'
      · exact iff_of_false (fun h => hl (prefix_of_nodeAt_extension hne h))
          (hstands fun s hs => hl (prefix_of_nodeAt_extension hne hs))
  | branch cs v a ih =>
    obtain ⟨-, -, hcs⟩ := ht
    rw [knownTo]
    cases l with
    | nil => simp [Topmost]
    | cons d l =>
      have hnode : nodeAt (.branch cs v a) [d] = some (cs d) := nodeAt_nil _
      have honly : ∀ l' s, l' ≠ [] → l' <+: [d] ++ l → nodeAt (.branch cs v a) l' = some s →
          [d] <+: l' := fun l' s hne hl' _ => by
        cases l' with
        | nil => exact absurd rfl hne
        | cons j l' =>
          obtain ⟨rfl, -⟩ := List.cons_prefix_cons.1 hl'
          simp
      rw [nodeAt_branch_cons, ← List.singleton_append, topmost_append (by simp) hnode honly]
      exact hidden_seenBy_iff fun l w => ih d (hcs d) (hfull.1 d)

/-- If no node below the root is missing, the whole trie is known. -/
theorem knownTo_eq_forget {n : Nat} (ht : Canonical n t)
    (hnone : ∀ l w, l ≠ [] → ¬ t.Missing source l w) : t.knownTo source = t.forget := by
  induction t generalizing n with
  | extension f c a ih =>
    obtain ⟨hf, -, -, hc⟩ := ht
    have hnode := nodeAt_extension (c := c) a hf
    have hbelow : ∀ l w, ¬ c.Missing source l w := fun l w hmiss =>
      hnone (f.toList ++ l) w (by simp [hf]) ((missing_append hnode).2 hmiss)
    rw [knownTo, forget, seenBy_of_not_missing (hbelow []), ih hc fun l w _ => hbelow l w]
  | branch cs v a ih =>
    have hbelow : ∀ i l w, ¬ (cs i).Missing source l w := fun i l w hmiss =>
      hnone (i :: l) w (List.cons_ne_nil _ _)
        ((missing_append (t := .branch cs v a) (p := [i]) (nodeAt_nil _)).2 hmiss)
    rw [knownTo, forget_branch]
    congr 1
    funext i
    rw [seenBy_of_not_missing (hbelow i []), ih i (ht.2.2 i) fun l w _ => hbelow i l w]
  | _ => rfl

/-- From a source that has the root of a trie which was made by putting values and removing keys,
the trie is rebuilt, with the topmost of the nodes hidden that the source lacks. The rebuilt trie
has the root hash of the whole one, and it is the whole one if the source lacks none of its nodes.
-/
theorem rebuild_exact {edits : List Edit} {answers : List (Option Bytes)}
    (hputs : ∀ e ∈ edits, e.Puts Entry.Storable) (hrun : Edit.run edits .empty = .ok (answers, t))
    (haddr : source.Addressed) (hfree : CollisionFree (t.Involved source))
    (hroot : t ≠ .empty → source t.hash.1 ≠ none) :
    rebuild t.hash.1 source = .ok (t.knownTo source) ∧
      Pruned (fun _ => True) t (t.knownTo source) ∧
      (∀ l w, (t.knownTo source).nodeAt l = some (.hidden w) ↔ t.Topmost source (· ≠ []) l w) ∧
      (t.knownTo source).hash.1 = t.hash.1 ∧
      ((∀ l w, ¬ t.Missing source l w) → t.same (t.knownTo source) = true) := by
  have hknown : ∀ e ∈ edits, e.Puts Entry.Known :=
    fun e he => (hputs e he).mono Entry.Storable.known
  have hholds := Edit.holds_of_run hknown holds_empty hrun
  have hfits : Fits t := run_fits hputs (by trivial) hrun
  obtain ⟨e, hc⟩ := hholds.full.content
  have hpruned := pruned_knownTo source hholds.full
  rw [hash_eq_digest hholds.sound hc] at hroot
  refine ⟨?_, hpruned, fun l w => hidden_knownTo_iff hholds.canonical hholds.full,
    hpruned.hash_eq hholds.sound (sound_knownTo source t), fun hnone => ?_⟩
  · exact rebuild_eq hholds.canonical hholds.full hholds.sound hfits hfree (Or.inl rfl) hc
      (Or.inr (Or.inl ⟨[], t, nodeAt_nil t, hc⟩)) hroot (truthful_of_collisionFree haddr hfree)
  · have hfull : Full (t.knownTo source) := by
      rw [knownTo_eq_forget hholds.canonical fun l w _ => hnone l w]
      exact within_forget.2 hholds.full
    exact same_iff_forget_eq.2 (hpruned.forget_eq hfull).symm

end

/-! ## An instance -/

namespace Sheaf

/-- Another leaf with the long value. -/
def stalk : Trie := .leaf (.ofList [5]) Sprig.long none

/-- The hash of that leaf. -/
def stalkHash : Word := ⟨[
  0x1c, 0x1d, 0xd3, 0x33, 0xa0, 0x36, 0xd9, 0x6c, 0xd4, 0xeb, 0x25, 0xd6, 0x49, 0x21, 0x5c, 0x1a,
  0x4a, 0xa6, 0x6f, 0x17, 0x4c, 0x2c, 0x32, 0x1d, 0x83, 0xac, 0xf7, 0x32, 0xbd, 0x95, 0xff, 0x99],
  rfl⟩

/-- A leaf with a short value. -/
def bud : Trie := .leaf .empty [7] none

/-- Edits that leave two long leaves and a short one. -/
def edits : List Edit :=
  [.put (.ofList [1]) (.value Sprig.long), .put (.ofList [2, 5]) (.value Sprig.long),
    .put (.ofList [3]) (.value [7])]

/-- The children of the root. -/
def child (i : Nibble) : Trie :=
  if i = 3 then bud else if i = 2 then stalk else if i = 1 then Sprig.tip else .empty

/-- The trie of these keys. -/
def trie : Trie := .branch child [] none

/-- The encoding of the root. -/
def encoding : Bytes :=
  branchEncoding (fun i => if i = 3 then leafEncoding .empty [7]
    else if i = 2 then Rlp.data stalkHash.toBytes else if i = 1
    then Rlp.data Sprig.tipHash.toBytes else Rlp.emptyData) []

/-- A source that has the root, the second leaf and something else, but not the first leaf. -/
def source : NodeSource :=
  (NodeTable.ofProof [encoding, leafEncoding (.ofList [5]) Sprig.long, [1, 2, 3]]).source

/-- All byte strings involved. -/
def involved : List Bytes :=
  [Rlp.emptyData, encoding, leafEncoding .empty Sprig.long, leafEncoding (.ofList [5]) Sprig.long,
    leafEncoding .empty [7], [1, 2, 3]]

theorem edits_storable : ∀ e ∈ edits, e.Puts Entry.Storable := by
  have hlen : ∀ n ≤ 32, n < twoPow 63 := by
    intro n hn
    exact hn.trans_lt (by decide)
  simp [edits, Edit.Puts, Entry.Storable, hlen, Sprig.long]

theorem run_edits : Edit.run edits .empty = .ok ([none, none, none], trie) := by
  have hchild : (Children.set (Children.set (only 1 Sprig.tip).get 2 stalk).get 3 bud).get =
      child := by
    funext i
    rw [Children.get_set, Children.get_set, only_get]
    rfl
  have hrun : Edit.run edits .empty = .ok ([none, none, none], .branch (Children.set (Children.set
      (only 1 Sprig.tip).get 2 stalk).get 3 bud).get [] none) := rfl
  rw [hrun, hchild, trie]

theorem digest_stalk : digest (leafEncoding (.ofList [5]) Sprig.long) = stalkHash :=
  digest_eq_iff.2 (by decide +kernel)

theorem trie_content : trie.content = .ok encoding := by
  have hbud : (leafEncoding .empty [7]).length < hashLength := by decide
  have hitem : ∀ i, (child i).reference.item = if i = 3 then leafEncoding .empty [7]
      else if i = 2 then Rlp.data stalkHash.toBytes else if i = 1
      then Rlp.data Sprig.tipHash.toBytes else Rlp.emptyData := fun i => by
    rw [child]
    split
    · simp [reference, bud, memo, content, Reference.ofContent, hbud, Reference.item]
    · split
      · rw [item_of_long (t := stalk) (sound_leaf _ _) rfl (by decide), digest_stalk]
      · split
        · rw [Sprig.reference_tip]
          rfl
        · rfl
  rw [trie, content_branch, encoding]
  simp only [hitem]

theorem involved_nodup : CollisionFree (· ∈ involved) := by
  refine collisionFree_of_nodup (fun b => id) ?_
  simp only [digest_toNat]
  decide +kernel

theorem source_eq_some_iff {h : Word} {b : Bytes} : source h = some b ↔
    b ∈ [encoding, leafEncoding (.ofList [5]) Sprig.long, [1, 2, 3]] ∧ digest b = h := by
  refine ofProof_source involved_nodup (fun b hb => ?_) h b
  simp only [List.mem_cons, List.not_mem_nil, or_false] at hb
  rcases hb with rfl | rfl | rfl <;> simp [involved]

theorem trie_involved {b : Bytes} (h : trie.Involved source b) : b ∈ involved := by
  rcases h with rfl | h | ⟨h, hb⟩
  · simp [involved]
  · rcases encodes_branch.1 h with h | ⟨i, h⟩
    · simp [involved, Except.ok.inj (h.symm.trans trie_content)]
    · rw [child] at h
      split at h
      · simp [involved, encodes_leaf.1 h]
      · split at h
        · simp [involved, encodes_leaf.1 h]
        · split at h
          · simp [involved, encodes_leaf.1 h]
          · simp [involved, encodes_empty.1 h]
  · obtain ⟨hb, -⟩ := source_eq_some_iff.1 hb
    simp only [List.mem_cons, List.not_mem_nil, or_false] at hb
    rcases hb with rfl | rfl | rfl <;> simp [involved]

/-- The children of what is rebuilt: the first leaf is hidden. -/
def seen (i : Nibble) : Trie :=
  if i = 3 then bud else if i = 2 then stalk else if i = 1 then .hidden Sprig.tipHash else .empty

theorem knownTo_trie : trie.knownTo source = .branch seen [] none := by
  have hheld : source stalkHash ≠ none := by
    rw [source_eq_some_iff.2 ⟨by simp, digest_stalk⟩]
    exact Option.some_ne_none _
  have hlacked : source Sprig.tipHash = none := by
    refine Option.eq_none_iff_forall_ne_some.2 fun b hb => ?_
    rw [← Sprig.digest_tip] at hb
    obtain ⟨hmem, hdigest⟩ := source_eq_some_iff.1 hb
    have hb : b ∈ involved := trie_involved (Or.inr (Or.inr ⟨_, hb⟩))
    obtain rfl := involved_nodup.inj hb (by simp [involved]) hdigest
    exact absurd hmem (by decide +kernel)
  have hseen : ∀ i, seenBy source (child i) (knownTo source (child i)) = seen i := fun i => by
    rw [child, seen]
    split
    · rfl
    · split
      · simp [seenBy, stalk, content, digest_stalk, hheld, knownTo, forget]
      · split
        · have hlen : hashLength ≤ (leafEncoding .empty Sprig.long).length := by decide
          simp [seenBy, Sprig.tip, content, hlen, Sprig.digest_tip, hlacked]
        · rfl
  rw [trie, knownTo]
  simp only [hseen]

end Sheaf

open Sheaf in
/-- The hypotheses hold of Keccak-256 and a source that has the root of a trie, one of its long
leaves and something else. In the rebuilt trie the other long leaf is hidden. -/
theorem rebuild_exact_sheaf :
    ∃ answers, (∀ e ∈ Sheaf.edits, e.Puts Entry.Storable) ∧
      Edit.run Sheaf.edits .empty = .ok (answers, Sheaf.trie) ∧ Sheaf.source.Addressed ∧
      CollisionFree (Sheaf.trie.Involved Sheaf.source) ∧ Sheaf.source Sheaf.trie.hash.1 ≠ none ∧
      rebuild Sheaf.trie.hash.1 Sheaf.source = .ok (.branch Sheaf.seen [] none) ∧
      (Trie.branch Sheaf.seen [] none).hash.1 = Sheaf.trie.hash.1 := by
  have haddr : source.Addressed := fun h b hb => (source_eq_some_iff.1 hb).2
  have hfree : CollisionFree (trie.Involved source) :=
    ⟨fun ha hb => involved_nodup.inj (trie_involved ha) (trie_involved hb),
      fun ha => involved_nodup.ne_zero (trie_involved ha)⟩
  have hsound : Sound trie :=
    Edit.run_sound (fun e he => (edits_storable e he).mono Entry.Storable.known) (by trivial) run_edits
  have hroot : source trie.hash.1 ≠ none := by
    rw [hash_eq_digest hsound trie_content, source_eq_some_iff.2 ⟨by simp, rfl⟩]
    exact Option.some_ne_none _
  obtain ⟨hrebuild, -, -, hhash, -⟩ :=
    rebuild_exact edits_storable run_edits haddr hfree fun _ => hroot
  rw [knownTo_trie] at hrebuild hhash
  exact ⟨_, edits_storable, run_edits, haddr, hfree, hroot, hrebuild, hhash⟩

end Trie

end Stateless
