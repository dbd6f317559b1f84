import Stateless.Proofs.Trie.Outline

/-!
# Branches with two children

Where two keys part there is a branch with two children. If both are long, it is long itself, and its
encoding has their hashes. The main statement is `Stout.twin`.
-/

namespace Stateless

namespace Trie

/-- A branch with two children. -/
def twin (d : Nibble) (t : Trie) (d' : Nibble) (t' : Trie) : Trie :=
  fork (Children.set (only d t).get d' t') []

variable {d d' : Nibble} {t t' : Trie} {f : Path} {v : Bytes}

theorem get_twin (i : Nibble) : (Children.set (only d t).get d' t').get i =
    if i = d' then t' else if i = d then t else .empty := by
  rw [Children.get_set, only_get]

variable [Hasher]

/-- The encoding of a branch with two long children. -/
def twinEncoding (d : Nibble) (e : Bytes) (d' : Nibble) (e' : Bytes) : Bytes :=
  branchEncoding (fun i => if i = d' then Rlp.data (digest e').toBytes
    else if i = d then Rlp.data (digest e).toBytes else Rlp.emptyData) []

/-- A sound node whose encoding is as long as a hash. -/
structure Stout (t : Trie) (e : Bytes) : Prop where
  sound : Sound t
  content : t.content = .ok e
  long : hashLength ≤ e.length

variable {e e' : Bytes}

theorem stout_leaf (h : hashLength ≤ (leafEncoding f v).length) :
    Stout (.leaf f v none) (leafEncoding f v) :=
  ⟨sound_leaf f v, rfl, h⟩

theorem Stout.twin (h : t.Stout e) (h' : t'.Stout e') :
    (twin d t d' t').Stout (twinEncoding d e d' e') where
  sound := by
    refine ⟨fun i => ?_, memoHolds_of_memo_none rfl⟩
    rw [get_twin]
    split
    · exact h'.sound
    · split
      · exact h.sound
      · trivial
  content := by
    have hitem : ∀ i, ((Children.set (only d t).get d' t').get i).reference.item =
        if i = d' then Rlp.data (digest e').toBytes
        else if i = d then Rlp.data (digest e).toBytes else Rlp.emptyData := fun i => by
      rw [get_twin]
      split
      · exact item_of_long h'.sound h'.content h'.long
      · split
        · exact item_of_long h.sound h.content h.long
        · rfl
    rw [Trie.twin, fork, content_branch, twinEncoding]
    simp only [hitem]
  long := by
    have hmem : Rlp.data (digest e').toBytes ∈ Children.toList (fun i =>
        if i = d' then Rlp.data (digest e').toBytes
        else if i = d then Rlp.data (digest e).toBytes else Rlp.emptyData) ++ [Rlp.data []] :=
      List.mem_append_left _ (List.mem_map.2 ⟨d', List.mem_finRange d', if_pos rfl⟩)
    have hdata := (Rlp.length_le_of_mem hmem).trans (Rlp.flatten_length_le _)
    rw [length_data_word] at hdata
    exact (by decide : hashLength ≤ 33).trans hdata

theorem Stout.rootHash (h : t.Stout e) : t.memoize.rootHash = digest e :=
  hash_eq_digest h.sound h.content

end Trie

end Stateless
