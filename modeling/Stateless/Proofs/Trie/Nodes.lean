import Stateless.Proofs.Trie.Contents

/-!
# The nodes of a trie

Every node stands at the place to which the nibbles on the way from the root lead. What is said of a
trie as a whole, its canonical form, its answers and the soundness of its memos, is inherited by the
nodes at all places.
-/

namespace Stateless

namespace Trie

/-- The node at a place, if a node stands there. -/
def nodeAt : Trie → List Nibble → Option Trie
  | t, [] => some t
  | .extension f c _, d :: l =>
    if f.toList <+: d :: l then nodeAt c ((d :: l).drop f.length) else none
  | .branch cs _ _, d :: l => nodeAt (cs d) l
  | _, _ :: _ => none

variable {t s : Trie} {n : Nat} {l r : List Nibble}

@[simp] theorem nodeAt_nil (t : Trie) : t.nodeAt [] = some t := by
  cases t <;> rfl

@[simp] theorem nodeAt_branch_cons (cs : Nibble → Trie) (v : Bytes) (m : Option Word) (d : Nibble)
    (l : List Nibble) : nodeAt (.branch cs v m) (d :: l) = (cs d).nodeAt l := rfl

theorem nodeAt_extension_append {f : Path} {c : Trie} {m : Option Word} (hf : f.toList ≠ [])
    (l : List Nibble) : nodeAt (.extension f c m) (f.toList ++ l) = c.nodeAt l := by
  obtain ⟨d, rest, hd⟩ := List.exists_cons_of_ne_nil hf
  have hlen : f.length = (d :: rest).length := by rw [← Path.length_toList, hd]
  rw [hd, List.cons_append, nodeAt, if_pos (by rw [hd]; simp), hlen, ← List.cons_append,
    List.drop_left]

theorem nodeAt_extension {f : Path} {c : Trie} (m : Option Word) (hf : f.toList ≠ []) :
    nodeAt (.extension f c m) f.toList = some c := by
  simpa using nodeAt_extension_append (m := m) (c := c) hf []

/-- Below an extension every node stands behind the fragment. -/
theorem prefix_of_nodeAt_extension {f : Path} {c : Trie} {m : Option Word} (hl : l ≠ [])
    (h : nodeAt (.extension f c m) l = some s) : f.toList <+: l := by
  cases l with
  | nil => exact absurd rfl hl
  | cons d l =>
    rw [nodeAt] at h
    split at h
    · next hp => exact hp
    · cases h

/-- A node stands at the root, or in the child of an extension behind its fragment, or in a child of
a branch behind its nibble. -/
theorem nodeAt_induction {motive : Trie → List Nibble → Prop} (here : motive s [])
    (below : ∀ {f c m l}, c.nodeAt l = some s → motive c l →
      motive (.extension f c m) (f.toList ++ l))
    (beside : ∀ {cs v m d l}, (cs d).nodeAt l = some s → motive (cs d) l →
      motive (.branch cs v m) (d :: l))
    (h : t.nodeAt l = some s) : motive t l := by
  induction t generalizing l with
  | extension f c m ih =>
    cases l with
    | nil => exact Option.some.inj h ▸ here
    | cons d l =>
      rw [nodeAt] at h
      split at h
      · next hp =>
        obtain ⟨rest, hrest⟩ := hp
        rw [← hrest, ← Path.length_toList, List.drop_left] at h
        exact hrest ▸ below h (ih h)
      · cases h
  | branch cs v m ih =>
    cases l with
    | nil => exact Option.some.inj h ▸ here
    | cons d l => exact beside h (ih d h)
  | _ =>
    cases l with
    | nil => exact Option.some.inj ((nodeAt_nil _).symm.trans h) ▸ here
    | cons d l => cases h

/-- What stands at a place below a node. -/
theorem nodeAt_append (h : t.nodeAt l = some s) (r : List Nibble) :
    t.nodeAt (l ++ r) = s.nodeAt r := by
  induction t generalizing l with
  | extension f c m ih =>
    cases l with
    | nil => exact Option.some.inj h ▸ rfl
    | cons d l =>
      rw [nodeAt] at h
      split at h
      · next hp =>
        have hp' : f.toList <+: d :: (l ++ r) := hp.trans ⟨r, rfl⟩
        have hle : f.length ≤ (d :: l).length := hp.length_le
        rw [List.cons_append, nodeAt, if_pos hp', ← List.cons_append,
          List.drop_append_of_le_length hle]
        exact ih h
      · cases h
  | branch cs v m ih =>
    cases l with
    | nil => exact Option.some.inj h ▸ rfl
    | cons d l => exact ih d h
  | _ =>
    cases l with
    | nil => exact Option.some.inj ((nodeAt_nil _).symm.trans h) ▸ rfl
    | cons d l => cases h

/-- The answers of a trie below a place are those of the node that stands there. -/
theorem view_nodeAt (h : t.nodeAt l = some s) (r : List Nibble) : t.view (l ++ r) = s.view r := by
  refine nodeAt_induction (motive := fun t l => t.view (l ++ r) = s.view r) rfl ?_ ?_ h
  · intro f c m l _ hc
    rw [List.append_assoc, view_extension, under_front, hc]
  · intro cs v m d l _ hd
    exact hd

theorem Within.nodeAt {V : Bytes → Prop} {H : Word → Prop} (ht : Within V H t)
    (h : t.nodeAt l = some s) : Within V H s :=
  nodeAt_induction (motive := fun t _ => Within V H t → Within V H s) id
    (fun _ hc hwithin => hc hwithin) (fun _ hd hwithin => hd (hwithin.1 _)) h ht

theorem Full.nodeAt (ht : Full t) (h : t.nodeAt l = some s) : Full s := Within.nodeAt ht h

theorem Sound.nodeAt [Hasher] (ht : Sound t) (h : t.nodeAt l = some s) : Sound s :=
  nodeAt_induction (motive := fun t _ => Sound t → Sound s) id (fun _ hc hsound => hc hsound.1)
    (fun _ hd hsound => hd (hsound.1 _)) h ht

/-- The nodes of a canonical trie are canonical, with as much less room as their places take. -/
theorem Canonical.nodeAt (ht : Canonical n t) (h : t.nodeAt l = some s) :
    l.length ≤ n ∧ Canonical (n - l.length) s := by
  refine nodeAt_induction (motive := fun t l =>
    ∀ n, Canonical n t → l.length ≤ n ∧ Canonical (n - l.length) s) ?_ ?_ ?_ h n ht
  · exact fun n ht => ⟨Nat.zero_le n, ht⟩
  · intro f c m l _ ih n ht
    obtain ⟨-, hf, -, hc⟩ := ht
    obtain ⟨hlen, hcan⟩ := ih _ hc
    rw [List.length_append, Path.length_toList]
    exact ⟨by omega, hcan.mono (by omega)⟩
  · intro cs v m d l _ ih n ht
    obtain ⟨h1, -, hcs⟩ := ht
    obtain ⟨hlen, hcan⟩ := ih _ (hcs d)
    rw [List.length_cons]
    exact ⟨by omega, hcan.mono (by omega)⟩

/-! ## Memos -/

theorem forget_nodeAt (t : Trie) (l : List Nibble) :
    t.forget.nodeAt l = (t.nodeAt l).map forget := by
  induction t generalizing l with
  | extension f c m ih =>
    cases l with
    | nil => rw [nodeAt_nil, nodeAt_nil, Option.map_some]
    | cons d l =>
      rw [forget, nodeAt, nodeAt]
      split
      · exact ih _
      · rfl
  | branch cs v m ih =>
    cases l with
    | nil => rw [nodeAt_nil, nodeAt_nil, Option.map_some]
    | cons d l => rw [forget_branch, nodeAt_branch_cons, nodeAt_branch_cons, ih]
  | _ => cases l <;> rfl

/-- Tries that differ in their memos only have nodes at the same places. -/
theorem nodeAt_of_forget_eq {t' : Trie} (h : t.forget = t'.forget) (hs : t.nodeAt l = some s) :
    ∃ s', t'.nodeAt l = some s' ∧ s.forget = s'.forget := by
  have hmap : (t'.nodeAt l).map forget = some s.forget := by
    rw [← forget_nodeAt, ← h, forget_nodeAt, hs, Option.map_some]
  obtain ⟨s', hs', heq⟩ := Option.map_eq_some_iff.1 hmap
  exact ⟨s', hs', heq.symm⟩

end Trie

end Stateless
