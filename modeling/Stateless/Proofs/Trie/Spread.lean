import Stateless.Proofs.Trie.Nodes
import Stateless.Proofs.Trie.Fragment

/-!
# Keys that part before their last nibble

Hashed keys all have the same length, and no two of them are known that agree in all nibbles but the
last. In a trie with such keys only the root can have an empty fragment. The main statement is
`Spread.fragment_ne_nil`.
-/

namespace Stateless

namespace Trie

/-- All keys have the greatest length, and no two of them agree in all nibbles but the last. -/
structure Spread (t : Trie) : Prop where
  length {k : Path} : t.get k ≠ none → k.length = maxNibbles
  apart {k k' : Path} : t.get k ≠ none → t.get k' ≠ none →
    k.toList.take (maxNibbles - 1) = k'.toList.take (maxNibbles - 1) → k = k'

variable {t s : Trie} {n : Nat} {l : List Nibble}

/-- A leaf directly behind a place below the root is the child of a branch. -/
theorem parent_of_leaf {f : Path} {v : Bytes} {m : Option Word} (ht : Canonical n t)
    (h : t.nodeAt l = some (.leaf f v m)) (hl : l ≠ []) :
    ∃ l₀ d cs w a, l = l₀ ++ [d] ∧ t.nodeAt l₀ = some (.branch cs w a) := by
  refine nodeAt_induction (motive := fun t l => ∀ n, Canonical n t → l ≠ [] →
    ∃ l₀ d cs w a, l = l₀ ++ [d] ∧ t.nodeAt l₀ = some (.branch cs w a)) ?_ ?_ ?_ h n ht hl
  · exact fun n _ hl => absurd rfl hl
  · intro g c a l hc ih n ht _
    obtain ⟨hg, -, hstem, hcan⟩ := ht
    by_cases hl : l = []
    · subst hl
      obtain rfl := Option.some.inj ((nodeAt_nil c).symm.trans hc)
      rcases hstem with hs | hs <;> cases hs
    · obtain ⟨l₀, d, cs, w, b, rfl, hl₀⟩ := ih _ hcan hl
      exact ⟨g.toList ++ l₀, d, cs, w, b, (List.append_assoc ..).symm,
        by rw [nodeAt_extension_append hg, hl₀]⟩
  · intro cs w a d l hd ih n ht _
    by_cases hl : l = []
    · exact ⟨[], d, cs, w, a, by rw [hl]; rfl, rfl⟩
    · obtain ⟨l₀, d', cs', w', b, rfl, hl₀⟩ := ih _ (ht.2.2 d) hl
      exact ⟨d :: l₀, d', cs', w', b, rfl, hl₀⟩

namespace Spread

variable {v v' : Bytes}

theorem length_list (h : t.Spread) (ht : Canonical maxNibbles t)
    (hl : t.view l = .ok (some v)) : l.length = maxNibbles := by
  have hget : t.get ⟨l, ht.length_le hl⟩ = some v := by rw [get, lookup_eq_view, hl]
  exact h.length (k := ⟨l, ht.length_le hl⟩) (by simp [hget])

theorem apart_list {d d' : Nibble} (h : t.Spread) (ht : Canonical maxNibbles t)
    (hd : t.view (l ++ [d]) = .ok (some v)) (hd' : t.view (l ++ [d']) = .ok (some v')) :
    d = d' := by
  have hget : t.get ⟨l ++ [d], ht.length_le hd⟩ ≠ none := by simp [get, lookup_eq_view, hd]
  have hget' : t.get ⟨l ++ [d'], ht.length_le hd'⟩ ≠ none := by simp [get, lookup_eq_view, hd']
  have hlen := h.length_list ht hd
  rw [List.length_append, List.length_singleton] at hlen
  have htake : maxNibbles - 1 = l.length := by omega
  have heq := h.apart hget hget' (by simp [htake])
  simpa using congrArg Path.toList heq

/-- Below the root no leaf and no extension has an empty fragment. -/
theorem fragment_ne_nil (h : t.Spread) (ht : Canonical maxNibbles t) (hfull : Full t)
    (hs : t.nodeAt l = some s) (hl : l ≠ []) (hshort : s.isShort = true) :
    s.fragment.toList ≠ [] := by
  rcases isShort_iff.1 hshort with ⟨f, v, m, rfl⟩ | ⟨f, c, m, rfl⟩
  · intro hf
    have hf' : f.toList = [] := hf
    obtain ⟨l₀, d, cs, w, a, rfl, hl₀⟩ := parent_of_leaf ht hs hl
    have hview := fun r => view_nodeAt hl₀ r
    have hkey : t.view (l₀ ++ [d]) = .ok (some v) := by
      rw [← List.append_nil (l₀ ++ [d]), view_nodeAt hs, view_leaf_apply, hf', if_pos rfl]
    have hlen := h.length_list ht hkey
    rw [List.length_append, List.length_singleton] at hlen
    obtain ⟨-, -, hcrowd, hcs⟩ := ht.nodeAt hl₀
    -- a child beside the leaf would have a key that agrees with the leaf's in all but the last nibble
    have hbeside : ∀ j, j ≠ d → cs j = .empty := fun j hj => by
      by_contra hne
      obtain ⟨r, u, hr⟩ := exists_key (hcs j) ((hfull.nodeAt hl₀).1 j) hne
      have hj' : t.view (l₀ ++ j :: r) = .ok (some u) := by rw [hview, view_branch_cons, hr]
      have hlen' := h.length_list ht hj'
      rw [List.length_append, List.length_cons] at hlen'
      obtain rfl := List.length_eq_zero_iff.1 (show r.length = 0 by omega)
      exact hj (h.apart_list ht hj' hkey)
    obtain ⟨i, hi, hother⟩ := hcrowd
    obtain rfl : i = d := not_not.1 fun hne => hi (hbeside i hne)
    rcases hother with hw | ⟨j, hj, hne⟩
    · have hhere : t.view l₀ = .ok (some w) := by
        rw [← List.append_nil l₀, hview, view_branch_nil]
        simp [hw]
      have := h.length_list ht hhere
      omega
    · exact hne (hbeside j hj)
  · obtain ⟨-, hf, -⟩ := ht.nodeAt hs
    exact hf

end Spread

end Trie

end Stateless
