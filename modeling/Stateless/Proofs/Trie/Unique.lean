import Mathlib.Data.List.Perm.Subperm
import Stateless.Proofs.Trie.Fragment
import Stateless.Proofs.Trie.Shape

/-!
# One trie for every map

A trie that insertions and removals have built from nothing is compressed: no node could be left out
or merged with its neighbour. Two compressed tries with the same contents have the same nodes, so
the way by which the contents came about leaves no trace in the trie. The main result is
`same_iff_contents_eq`.
-/

namespace Stateless

namespace Trie

variable {t t' : Trie}

/-! ## Compressed tries -/

/-- How much a branch holds: its children that are not empty, and its value if that is not empty. -/
def occupants (cs : Nibble → Trie) (v : Bytes) : Nat :=
  (Children.positions fun i => !(cs i).isEmpty).length + if v.isEmpty then 0 else 1

/-- No node of the trie could be left out or merged with its neighbour, and no way from the root is
longer than a path. Since no extension is without fragment, every node has a place of its own. -/
structure Compressed (t : Trie) : Prop where
  /-- No leaf is without value. -/
  leaf {l : List Nibble} {f : Path} {v : Bytes} {m : Option Word}
    (h : t.nodeAt l = some (.leaf f v m)) : v ≠ []
  /-- An extension has a fragment and leads to a branch. -/
  extension {l : List Nibble} {f : Path} {c : Trie} {m : Option Word}
    (h : t.nodeAt l = some (.extension f c m)) : f.toList ≠ [] ∧ c.kind = .branch
  /-- A branch holds at least two things. -/
  branch {l : List Nibble} {cs : Nibble → Trie} {v : Bytes} {m : Option Word}
    (h : t.nodeAt l = some (.branch cs v m)) : 2 ≤ occupants cs v
  /-- The nibbles that lead to a node and through its fragment fit into a path. -/
  room {l : List Nibble} {s : Trie} (h : t.nodeAt l = some s) :
    l.length + s.fragment.length ≤ maxNibbles

/-- A branch that is not left with a single occupant has two. -/
theorem Crowded.two_le_occupants {cs : Nibble → Trie} {v : Bytes} (h : Crowded cs v) :
    2 ≤ occupants cs v := by
  obtain ⟨i, hi, hother⟩ := h
  have htaken : ∀ {j}, cs j ≠ .empty → j ∈ Children.positions fun i => !(cs i).isEmpty := by
    intro j hj
    rw [Children.mem_positions, isEmpty_eq_false_iff.2 hj]
    rfl
  unfold occupants
  rcases hother with hv | ⟨j, hji, hj⟩
  · have hpos := List.length_pos_of_mem (htaken hi)
    rw [if_neg (by simpa using hv)]
    omega
  · have hnodup : [j, i].Nodup := by simpa using hji
    have hsub : [j, i] ⊆ Children.positions fun i => !(cs i).isEmpty := by
      simpa using ⟨htaken hj, htaken hi⟩
    have htwo : 2 ≤ (Children.positions fun i => !(cs i).isEmpty).length :=
      (hnodup.subperm hsub).length_le
    omega

/-- Canonical tries without hidden parts are compressed. -/
theorem Canonical.compressed (ht : Canonical maxNibbles t) (hfull : Full t) : t.Compressed where
  leaf h := by
    obtain ⟨-, -, hv⟩ := ht.nodeAt h
    exact hv
  extension {l f c m} h := by
    obtain ⟨-, hf, -, hstem, -⟩ := ht.nodeAt h
    have hbelow : Full (.extension f c m) := hfull.nodeAt h
    refine ⟨hf, hstem.resolve_right fun hhidden => ?_⟩
    cases c with
    | hidden w => exact hbelow
    | _ => cases hhidden
  branch h := by
    obtain ⟨-, -, hcrowd, -⟩ := ht.nodeAt h
    exact hcrowd.two_le_occupants
  room h := by
    obtain ⟨hlen, hs⟩ := ht.nodeAt h
    have hf := fragment_length_le hs
    omega

/-! ## Equality of tries -/

/-- Tries have the same nodes if they differ in their memos only. -/
theorem same_iff_forget_eq : t.same t' = true ↔ t.forget = t'.forget := by
  induction t generalizing t' with
  | empty => cases t' <;> simp [same, forget]
  | hidden w => cases t' <;> simp [same, forget]
  | leaf f v m => cases t' <;> simp [same, forget]
  | extension f c m ih => cases t' <;> simp [same, forget, ih]
  | branch cs v m ih =>
    cases t' with
    | branch cs' v' m' =>
      simp only [same, forget_branch, Bool.and_eq_true, decide_eq_true_eq, List.all_eq_true,
        List.mem_finRange, forall_const, ih, branch.injEq, and_true, funext_iff]
      exact and_comm
    | _ => simp [same, forget]

section

variable [Hasher] {m m' : Table Path Bytes}

/-- Tries that hold the same map have the same answers, also for lists longer than paths. -/
theorem Holds.view_eq (h : t.Holds m) (h' : t'.Holds m) : t'.view = t.view := by
  have hsome : ∀ {s s' : Trie} {l v}, s.Holds m → s'.Holds m → s.view l = .ok (some v) →
      s'.view l = .ok (some v) := by
    intro s s' l v hs hs' hl
    have hlen := hs.canonical.length_le hl
    rw [← hl, hs'.answers ⟨l, hlen⟩, hs.answers ⟨l, hlen⟩]
  funext l
  obtain ⟨a, ha⟩ := h.full.view l
  obtain ⟨a', ha'⟩ := h'.full.view l
  cases a with
  | some v => rw [ha, hsome h h' ha]
  | none =>
    cases a' with
    | none => rw [ha, ha']
    | some v => rw [ha', hsome h' h ha']

/-- Two tries have the same nodes exactly if they hold the same map. -/
theorem Holds.same_iff (h : t.Holds m) (h' : t'.Holds m') : t.same t' = true ↔ m = m' := by
  rw [same_iff_forget_eq]
  constructor
  · intro heq
    refine Table.eq_of_find?_eq fun k => ?_
    have hk : t.view k.toList = t'.view k.toList := by rw [← view_forget, heq, view_forget]
    rw [h.answers, h'.answers] at hk
    exact Except.ok.inj hk
  · rintro rfl
    exact forget_eq_of_view_eq h'.canonical h'.full h.canonical h.full (h'.view_eq h)

/-- Every run of insertions of values and removals makes a compressed trie, and two runs make the
same trie exactly if they make the same map out of nothing, whatever happened on the way. -/
theorem same_iff_contents_eq {edits edits' : List Edit} (hknown : ∀ e ∈ edits, e.Puts Entry.Known)
    (hknown' : ∀ e ∈ edits', e.Puts Entry.Known) :
    ∃ answers t answers' t', Edit.run edits .empty = .ok (answers, t) ∧
      Edit.run edits' .empty = .ok (answers', t') ∧ t.Compressed ∧ t'.Compressed ∧
      (t.same t' = true ↔ Edit.contents edits = Edit.contents edits') := by
  obtain ⟨answers, t, hrun, ht⟩ := Edit.run_holds hknown holds_empty
  obtain ⟨answers', t', hrun', ht'⟩ := Edit.run_holds hknown' holds_empty
  exact ⟨answers, t, answers', t', hrun, hrun', ht.canonical.compressed ht.full,
    ht'.canonical.compressed ht'.full, ht.same_iff ht'⟩

end

/-- Three keys on one way, put in the order of their lengths. -/
def straightEdits : List Edit :=
  [.put (.ofList [1, 2]) (.value [7]), .put (.ofList [1, 2, 3, 4]) (.value [8]),
    .put (.ofList [1, 2, 3, 5]) (.value [9])]

/-- The same keys put in another order, one of them twice, with other keys put and removed on the
way: one that parts from all of them, the empty key, and one below the longest. -/
def crookedEdits : List Edit :=
  [.put (.ofList [1, 2, 3, 5]) (.value [1]), .put (.ofList [6]) (.value [2]),
    .put (.ofList [1, 2, 3, 4]) (.value [8]), .put .empty (.value [3]), .hash,
    .put (.ofList [1, 2]) (.value [7]), .remove (.ofList [6]),
    .put (.ofList [1, 2, 3, 5, 0]) (.value [4]), .put (.ofList [1, 2, 3, 5]) (.value [9]),
    .remove .empty, .remove (.ofList [1, 2, 3, 5, 0])]

/-- The way around leads to the same trie. -/
theorem same_of_crooked_edits :
    (∀ e ∈ straightEdits, e.Puts Entry.Known) ∧ (∀ e ∈ crookedEdits, e.Puts Entry.Known) ∧
    ∃ answers t answers' t', Edit.run straightEdits .empty = .ok (answers, t) ∧
      Edit.run crookedEdits .empty = .ok (answers', t') ∧ t.Compressed ∧ t'.Compressed ∧
      t.same t' = true := by
  have hstraight : ∀ e ∈ straightEdits, e.Puts Entry.Known := by
    simp [straightEdits, Edit.Puts, Entry.Known]
  have hcrooked : ∀ e ∈ crookedEdits, e.Puts Entry.Known := by
    simp [crookedEdits, Edit.Puts, Entry.Known]
  have hcontents : Edit.contents straightEdits = Edit.contents crookedEdits := by decide
  obtain ⟨answers, t, answers', t', hrun, hrun', ht, ht', hsame⟩ :=
    same_iff_contents_eq hstraight hcrooked
  exact ⟨hstraight, hcrooked, answers, t, answers', t', hrun, hrun', ht, ht',
    hsame.2 hcontents⟩

end Trie

end Stateless
