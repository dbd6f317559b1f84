import Stateless.Keccak
import Stateless.Proofs.Trie.Edits

/-!
# Partial tries as maps

A trie with hidden parts is a map of which some regions are unknown. The main result is
`partial_trie_is_map`: at every key a lookup, an insertion and a removal either are all refused
because of the same hidden part, or they are those of a map. Nothing else can go wrong.
-/

namespace Stateless

namespace Trie

theorem getProven_eq (t : Trie) (k : Path) :
    t.getProven k = (t.view k.toList).mapError .readHidden := by
  rw [getProven, lookup_eq_view]
  cases t.view k.toList <;> rfl

/-- Tries whose views differ in the answer for one key agree on what they prove of all others. -/
theorem getProven_of_view_update {t t' : Trie} {k : Path} {a : Option Bytes}
    (h : t'.view = Function.update t.view k.toList (.ok a)) :
    t'.getProven k = .ok a ∧ ∀ k', k' ≠ k → t'.getProven k' = t.getProven k' := by
  refine ⟨?_, fun k' hk' => ?_⟩
  · rw [getProven_eq, h, Function.update_self]
    rfl
  · have hl : k'.toList ≠ k.toList := fun hl => hk' (Path.ext hl)
    rw [getProven_eq, getProven_eq, h, Function.update_of_ne hl]

/-- After any run of edits, each key is either hidden, and then a lookup, an insertion and a removal
are refused with one and the same hash, or it is known. Then an insertion makes the key answer with
its value, a removal answers what the lookup answered and makes the key answer with none, and
neither changes what the trie answers for any other key, be that a value, none or a hidden hash. -/
theorem partial_trie_is_map [Hasher] {edits : List Edit} {answers : List (Option Bytes)} {t : Trie}
    (hsolid : ∀ e ∈ edits, e.Puts Entry.Solid) (hrun : Edit.run edits .empty = .ok (answers, t))
    (k : Path) :
    (∃ h, t.getProven k = .error (.readHidden h) ∧
      (∀ v, v ≠ [] → (t.put k (.value v)).1 = .error (.insertHidden h)) ∧
      (t.remove k).1 = .error (.error (.removeHidden h))) ∨
    ∃ a, t.getProven k = .ok a ∧
      (∀ v, v ≠ [] → ∃ t', t.put k (.value v) = (.ok (), t') ∧ t'.getProven k = .ok (some v) ∧
        ∀ k', k' ≠ k → t'.getProven k' = t.getProven k') ∧
      ∃ t', t.remove k = (.ok a, t') ∧ t'.getProven k = .ok none ∧
        ∀ k', k' ≠ k → t'.getProven k' = t.getProven k' := by
  have hcan := Edit.run_canonical hsolid hrun
  have hput := fun v hv => put_answer (v := v) hcan k.length_le_max hv
  have hremove := remove_answer (Nat.le_refl _) hcan k
  cases ha : t.view k.toList with
  | error h =>
    rw [ha] at hremove
    refine Or.inl ⟨h, by rw [getProven_eq, ha]; rfl, fun v hv => ?_, hremove⟩
    have := hput v hv
    rwa [ha] at this
  | ok a =>
    rw [ha] at hremove
    obtain ⟨t', hrem, -, hview⟩ := hremove
    refine Or.inr ⟨a, by rw [getProven_eq, ha]; rfl, fun v hv => ?_, t', hrem,
      getProven_of_view_update hview⟩
    have hspec := hput v hv
    rw [ha] at hspec
    obtain ⟨s, hs, -, hsview⟩ := hspec
    exact ⟨s, hs, getProven_of_view_update hsview⟩

/-- Edits that put values on one way and a hidden part beside it, and remove the longest key. -/
def siblingEdits : List Edit :=
  [.put (.ofList [1, 2, 3, 4]) (.value [1]), .put (.ofList [1, 2, 5, 6]) (.hidden .zero),
    .put (.ofList [1, 2]) (.value [2]), .remove (.ofList [1, 2, 3, 4])]

/-- The hypotheses hold of a run with a hidden part, and the key behind it is the hidden one. -/
theorem partial_trie_is_map_beside_hidden :
    ∃ answers t, (∀ e ∈ siblingEdits, e.Puts Entry.Solid) ∧
      Edit.run siblingEdits .empty = .ok (answers, t) ∧
      answers = [none, none, none, some [1]] ∧
      (t.remove (.ofList [1, 2, 5, 6, 7])).1 = .error (.error (.removeHidden .zero)) ∧
      ∃ a, t.getProven (.ofList [1, 2]) = .ok a ∧ a = some [2] ∧
        ∃ t', t.remove (.ofList [1, 2]) = (.ok a, t') ∧
          t'.getProven (.ofList [1, 2]) = .ok none := by
  have hsolid : ∀ e ∈ siblingEdits, e.Puts Entry.Solid := by
    simp [siblingEdits, Edit.Puts, Entry.Solid]
  refine ⟨_, _, hsolid, rfl, rfl, ?_, ?_⟩
  · rcases partial_trie_is_map hsolid rfl (.ofList [1, 2, 5, 6, 7]) with
      ⟨h, hget, -, hremove⟩ | ⟨a, hget, -⟩
    · obtain rfl := TrieError.readHidden.inj (Except.error.inj hget)
      exact hremove
    · cases hget
  · rcases partial_trie_is_map hsolid rfl (.ofList [1, 2]) with ⟨h, hget, -⟩ | ⟨a, hget, -, hrem⟩
    · cases hget
    · obtain ⟨t', ht', hnone, -⟩ := hrem
      exact ⟨a, hget, (Except.ok.inj hget).symm, t', ht', hnone⟩

end Trie

end Stateless
