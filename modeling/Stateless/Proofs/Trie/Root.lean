import Stateless.Proofs.Trie.MapRoot

/-!
# The root hash is the root of the map

A canonical full trie is encoded as the set of its pairs is: the shape of the trie follows the
recursion by which the root of a map is defined. The main result is `hash_eq_mapRoot`.
-/

namespace Stateless

namespace Trie

open MapRoot

variable {t c : Trie} {n : Nat} {L : Pairs}

/-! ## Keys of a canonical trie -/

/-- Two keys without common front part, the first of which has a nibble. -/
def Diverges (answers : List Nibble → Answer) : Prop :=
  ∃ i l v l' v', answers (i :: l) = .ok (some v) ∧ answers l' = .ok (some v') ∧ ¬ [i] <+: l'

/-- The keys of a canonical branch have no common front part. -/
theorem diverges_branch {cs : Nibble → Trie} {v : Bytes} {m : Option Word}
    (ht : Canonical n (.branch cs v m)) (hfull : Full (.branch cs v m)) :
    Diverges (branch cs v m).view := by
  obtain ⟨-, ⟨i, hi, hother⟩, hcs⟩ := ht
  obtain ⟨l, w, hl⟩ := exists_key (hcs i) (hfull.1 i) hi
  rcases hother with hv | ⟨j, hji, hj⟩
  · exact ⟨i, l, w, [], v, hl, by simp [hv], by simp⟩
  · obtain ⟨l', w', hl'⟩ := exists_key (hcs j) (hfull.1 j) hj
    refine ⟨i, l, w, j :: l', w', hl, hl', fun h => hji ?_⟩
    exact (List.cons_prefix_cons.1 h).1.symm

/-! ## Pairs of a trie -/

/-- The pairs are exactly those of a trie's keys and values, each once. -/
structure Describes (L : Pairs) (answers : List Nibble → Answer) : Prop where
  nodup : (L.map Prod.fst).Nodup
  mem_iff : ∀ l v, (l, v) ∈ L ↔ answers l = .ok (some v)

theorem Describes.prefix_of_mem {f : List Nibble} {answers : List Nibble → Answer}
    (h : Describes L (under f answers)) : ∀ p ∈ L, f <+: p.1 := by
  rintro ⟨l, v⟩ hmem
  by_contra hp
  have := (h.mem_iff l v).1 hmem
  rw [under_off _ hp] at this
  simp at this

theorem Describes.dropFront {f : List Nibble} {answers : List Nibble → Answer}
    (h : Describes L (under f answers)) : Describes (dropFront f.length L) answers where
  nodup := nodup_dropFront h.prefix_of_mem h.nodup
  mem_iff l v := by
    rw [mem_dropFront_iff h.prefix_of_mem, h.mem_iff, under_front]

theorem Describes.startingWith {cs : Nibble → Trie} {v : Bytes} {m : Option Word}
    (h : Describes L (branch cs v m).view) (d : Nibble) :
    Describes (startingWith d L) (cs d).view where
  nodup := nodup_startingWith h.nodup
  mem_iff l w := by rw [mem_startingWith_iff, h.mem_iff, view_branch_cons]

theorem Describes.valueHere {cs : Nibble → Trie} {v : Bytes} {m : Option Word}
    (h : Describes L (branch cs v m).view) : valueHere L = v := by
  rw [MapRoot.valueHere]
  cases hf : L.find? fun p => p.1.isEmpty with
  | some p =>
    obtain ⟨k, w⟩ := p
    have hk : k = [] := by simpa using List.find?_some hf
    have hw := (h.mem_iff k w).1 (List.mem_of_find?_eq_some hf)
    rw [hk, view_branch_nil] at hw
    by_cases hv : v.isEmpty = true
    · simp [hv] at hw
    · simp only [hv, Bool.false_eq_true, if_false, Except.ok.injEq, Option.some.injEq] at hw
      exact hw.symm
  | none =>
    by_contra hv
    have hmem : ([], v) ∈ L := (h.mem_iff [] v).2 (by simp [Ne.symm hv])
    have := List.find?_eq_none.1 hf _ hmem
    simp at this

/-- Pairs below a front part after which the keys diverge: there are at least two, and their common
front part is that one. -/
theorem Describes.sharedFront {f : List Nibble} {answers : List Nibble → Answer}
    (h : Describes L (under f answers)) (hd : Diverges answers) :
    ∃ p q rest, L = p :: q :: rest ∧ sharedFront L = f := by
  obtain ⟨i, l, v, l', v', hl, hl', hnot⟩ := hd
  have hmem : (f ++ i :: l, v) ∈ L := (h.mem_iff _ _).2 (by rw [under_front, hl])
  have hmem' : (f ++ l', v') ∈ L := (h.mem_iff _ _).2 (by rw [under_front, hl'])
  have hne : f ++ i :: l ≠ f ++ l' := fun heq => by
    rw [← List.append_cancel_left heq] at hnot
    exact hnot (by simp)
  match hL : L with
  | [] => exact absurd hmem List.not_mem_nil
  | [p] =>
    rw [List.mem_singleton] at hmem hmem'
    exact absurd (congrArg Prod.fst (hmem.trans hmem'.symm)) hne
  | p :: q :: rest =>
    refine ⟨p, q, rest, rfl, ?_⟩
    obtain ⟨r, hr⟩ : f <+: MapRoot.sharedFront (p :: q :: rest) :=
      prefix_sharedFront_iff.2 h.prefix_of_mem
    cases r with
    | nil => rw [← hr, List.append_nil]
    | cons d r =>
      -- a longer front part would be shared by the two keys that diverge after `f`
      exfalso
      have hall := prefix_sharedFront_iff.1
        (show f ++ [d] <+: MapRoot.sharedFront (p :: q :: rest) from ⟨r, by simp [← hr]⟩)
      have h₁ := hall _ hmem
      have h₂ := hall _ hmem'
      rw [List.prefix_append_right_inj] at h₁ h₂
      obtain rfl := (List.cons_prefix_cons.1 h₁).1
      exact hnot h₂

theorem Describes.eq_singleton {l : List Nibble} {v : Bytes} {answers : List Nibble → Answer}
    (h : Describes L answers) (hl : ∀ k w, answers k = .ok (some w) ↔ k = l ∧ w = v) :
    L = [(l, v)] := by
  have hmem : ∀ p, p ∈ L ↔ p = (l, v) := fun ⟨k, w⟩ => by
    rw [h.mem_iff, hl, Prod.mk.injEq]
  have hnd : L.Nodup := h.nodup.of_map
  match L with
  | [] => exact absurd ((hmem (l, v)).2 rfl) List.not_mem_nil
  | [p] => rw [(hmem p).1 List.mem_cons_self]
  | p :: q :: rest =>
    have hp := (hmem p).1 List.mem_cons_self
    have hq := (hmem q).1 (List.mem_cons_of_mem _ List.mem_cons_self)
    rw [hp, hq] at hnd
    simp at hnd

section

variable [Hasher]

/-! ## Encodings -/

theorem item_ofContent (e : Bytes) : (Reference.ofContent (.ok e)).item = embed e := by
  by_cases h : e.length < 32 <;>
    simp [Reference.ofContent, embed, hashLength, Reference.item, h]

/-- A canonical full trie is encoded as its pairs are. -/
theorem content_eq_encode (ht : Canonical n t) (hfull : Full t) (hs : Sound t)
    (h : Describes L t.view) : t.content = .ok (encode L) := by
  induction t generalizing n L with
  | empty =>
    have hL : L = [] := List.eq_nil_iff_forall_not_mem.2 fun ⟨l, v⟩ hmem => by
      have := (h.mem_iff l v).1 hmem
      simp at this
    rw [hL, encode]
    rfl
  | hidden w => exact absurd hfull id
  | leaf f v m =>
    have hL : L = [(f.toList, v)] := h.eq_singleton fun k w => by
      rw [view_leaf_apply]
      by_cases hk : k = f.toList <;> simp [hk, eq_comm]
    rw [hL, encode, content, leafEncoding, compact_eq_hexPrefix]
  | extension f c m ih =>
    obtain ⟨hf, -, hstem, hc⟩ := ht
    have hdiv : Diverges c.view := by
      cases c with
      | branch cs v m => exact diverges_branch hc hfull
      | hidden w => exact absurd hfull id
      | _ => simp [IsStem, kind] at hstem
    obtain ⟨p, q, rest, rfl, hfront⟩ := h.sharedFront hdiv
    have hchild := ih hc hfull hs.1 h.dropFront
    rw [content_extension, hs.1.memoHolds.reference_eq, hchild, item_ofContent, encode,
      if_neg (by rwa [hfront]), extensionEncoding, compact_eq_hexPrefix, hfront]
  | branch cs v m ih =>
    obtain ⟨p, q, rest, rfl, hfront⟩ := Describes.sharedFront (f := []) h (diverges_branch ht hfull)
    have hitem : ∀ d, (cs d).reference.item = embed (encode (startingWith d (p :: q :: rest))) :=
      fun d => by
        rw [(hs.1 d).memoHolds.reference_eq,
          ih d (ht.2.2 d) (hfull.1 d) (hs.1 d) (h.startingWith d), item_ofContent]
    rw [content_branch, encode, if_pos hfront, branchEncoding, h.valueHere]
    simp only [hitem]
    rfl

/-- The pairs of the map that a trie holds describe the trie. -/
theorem Holds.describes {m : Table Path Bytes} (h : t.Holds m) : Describes (pairs m) t.view where
  nodup := by
    have hmap : (pairs m).map Prod.fst = (m.entries.map Prod.fst).map Path.toList := by
      simp [pairs]
    rw [hmap]
    exact (Table.nodup_keys m).map fun _ _ => Path.ext
  mem_iff l v := by
    have hmem : (l, v) ∈ pairs m ↔ ∃ k : Path, k.toList = l ∧ m.find? k = some v := by
      simp only [pairs, List.mem_map, Prod.mk.injEq, Prod.exists, Table.find?_eq_some_iff]
      constructor
      · rintro ⟨k, w, hkw, rfl, rfl⟩
        exact ⟨k, rfl, hkw⟩
      · rintro ⟨k, rfl, hkv⟩
        exact ⟨k, v, hkv, rfl, rfl⟩
    rw [hmem]
    constructor
    · rintro ⟨k, rfl, hk⟩
      rw [h.answers, hk]
    · intro hl
      refine ⟨⟨l, h.canonical.length_le hl⟩, rfl, ?_⟩
      have := h.answers ⟨l, h.canonical.length_le hl⟩
      rw [hl] at this
      exact (Except.ok.inj this).symm

/-- The root hash of a trie is the root of the map that it holds. -/
theorem Holds.hash_eq {m : Table Path Bytes} (h : t.Holds m) : t.hash.1 = mapRoot m :=
  hash_eq_digest h.sound (content_eq_encode h.canonical h.full h.sound h.describes)

/-- Every run of insertions of values and removals, with root hashes computed at any time, succeeds;
if it makes the map `m` out of nothing, then the root hash of the trie is the root of `m`. -/
theorem hash_eq_mapRoot {edits : List Edit} {m : Table Path Bytes}
    (hknown : ∀ e ∈ edits, e.Puts Entry.Known) (hm : Edit.contents edits = m) :
    ∃ answers t, Edit.run edits .empty = .ok (answers, t) ∧
      (∀ k, t.getProven k = .ok (m.find? k)) ∧ t.hash.1 = mapRoot m := by
  obtain ⟨answers, t, hrun, ht⟩ := Edit.run_holds hknown holds_empty
  rw [show edits.foldl (fun m e => e.record m) .empty = m from hm] at ht
  refine ⟨answers, t, hrun, fun k => ?_, ht.hash_eq⟩
  have hk := ht.answers k
  rw [← lookup_eq_view] at hk
  rw [getProven, hk]

end

/-- Edits that leave a key and its continuation, and remove a key that parts from both. -/
def nestedEdits : List Edit :=
  [.put (.ofList [1, 2]) (.value [7]), .put (.ofList [1, 3]) (.value [8]), .hash,
    .put (.ofList [1, 2, 0, 4]) (.value [9, 9]), .remove (.ofList [1, 3])]

/-- The root after removals and root hashes in between is the root of the two keys that are left. -/
theorem hash_eq_mapRoot_nested :
    (∀ e ∈ nestedEdits, e.Puts Entry.Known) ∧
    Edit.contents nestedEdits =
      Table.ofList [(Path.ofList [1, 2, 0, 4], [9, 9]), (Path.ofList [1, 2], [7])] ∧
    ∃ answers t, Edit.run nestedEdits .empty = .ok (answers, t) ∧
      (∀ k, t.getProven k = .ok ((Table.ofList
        [(Path.ofList [1, 2, 0, 4], [9, 9]), (Path.ofList [1, 2], [7])]).find? k)) ∧
      t.hash.1 = mapRoot (Table.ofList
        [(Path.ofList [1, 2, 0, 4], [9, 9]), (Path.ofList [1, 2], [7])]) := by
  have hknown : ∀ e ∈ nestedEdits, e.Puts Entry.Known := by
    simp [nestedEdits, Edit.Puts, Entry.Known]
  have hm : Edit.contents nestedEdits =
      Table.ofList [(Path.ofList [1, 2, 0, 4], [9, 9]), (Path.ofList [1, 2], [7])] := by decide
  exact ⟨hknown, hm, hash_eq_mapRoot hknown hm⟩

end Trie

end Stateless
