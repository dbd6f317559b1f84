import Mathlib.Data.List.Nodup
import Stateless.Keccak
import Stateless.NodeStore

/-!
# Assumptions on hashes

Nothing is proved about the hash function. Where a statement needs hashes to tell byte strings
apart, it says of which byte strings.
-/

namespace Stateless

/-- No two of some byte strings have the same hash, and none has the hash zero. -/
structure CollisionFree [Hasher] (S : Bytes → Prop) : Prop where
  /-- Byte strings with one hash are equal. -/
  inj {a b : Bytes} : S a → S b → digest a = digest b → a = b
  /-- No hash is zero. -/
  ne_zero {a : Bytes} : S a → digest a ≠ .zero

/-- Whatever a source gives for a hash has that hash. -/
def NodeSource.Addressed [Hasher] (source : NodeSource) : Prop :=
  ∀ h b, source h = some b → digest b = h

theorem FixedBytes.isZero_iff {n : Nat} {a : FixedBytes n} : a.isZero = true ↔ a = .zero := by
  constructor
  · intro h
    refine FixedBytes.ext (List.eq_replicate_iff.2 ⟨a.length_eq, fun b hb => ?_⟩)
    simpa using List.all_eq_true.1 h b hb
  · rintro rfl
    simp [isZero, zero]

theorem CollisionFree.mono [Hasher] {S S' : Bytes → Prop} (h : CollisionFree S)
    (hS : ∀ b, S' b → S b) : CollisionFree S' where
  inj ha hb := h.inj (hS _ ha) (hS _ hb)
  ne_zero ha := h.ne_zero (hS _ ha)

/-- Byte strings whose hashes are all different, and none of them zero, do not collide. The hashes are
compared as numbers. -/
theorem collisionFree_of_nodup [Hasher] {S : Bytes → Prop} {bs : List Bytes}
    (hS : ∀ b, S b → b ∈ bs) (hnodup : (0 :: bs.map fun b => (digest b).toNat).Nodup) :
    CollisionFree S := by
  obtain ⟨hzero, hnodup⟩ := List.nodup_cons.1 hnodup
  refine ⟨fun ha hb hab => ?_, fun {a} ha h => hzero ?_⟩
  · exact List.inj_on_of_nodup_map hnodup (hS _ ha) (hS _ hb) (by rw [hab])
  · exact List.mem_map.2 ⟨a, hS a ha, by rw [h]; rfl⟩

end Stateless
