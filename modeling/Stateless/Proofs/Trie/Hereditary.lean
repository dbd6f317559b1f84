import Stateless.Proofs.Trie.Insertion
import Stateless.Proofs.Trie.Memos
import Stateless.Proofs.Trie.Removal

/-!
# Hereditary properties

A property of tries is hereditary if it holds of a node without memo exactly when it holds of the
node's children and the node's value is admissible. Insertion and removal build new nodes from
parts of old ones only, so they keep every hereditary property. Two such properties are used: that
all values and hidden hashes of a trie satisfy a predicate (`Within`), and that all memos are
sound.
-/

namespace Stateless

namespace Trie

/-- A property that holds of a node if it holds of its parts, where `V` says which values are
admissible, and that the parts inherit from the node. -/
structure Hereditary (V : Bytes → Prop) (Q : Trie → Prop) : Prop where
  /-- The empty value is admissible. -/
  nil : V []
  /-- Nothing is a trie with the property. -/
  empty : Q .empty
  /-- A leaf with an admissible value has the property. -/
  leaf {f : Path} {v : Bytes} : V v → Q (.leaf f v none)
  /-- An extension inherits the property from its child. -/
  extension {f : Path} {c : Trie} : Q c → Q (.extension f c none)
  /-- A branch inherits the property from its children. -/
  branch {cs : Nibble → Trie} {v : Bytes} : (∀ i, Q (cs i)) → V v → Q (.branch cs v none)
  /-- The value of a leaf is admissible. -/
  leaf_value {f : Path} {v : Bytes} {m : Option Word} : Q (.leaf f v m) → V v
  /-- The child of an extension has the property. -/
  child {f : Path} {c : Trie} {m : Option Word} : Q (.extension f c m) → Q c
  /-- The children of a branch have the property. -/
  children {cs : Nibble → Trie} {v : Bytes} {m : Option Word} :
    Q (.branch cs v m) → ∀ i, Q (cs i)
  /-- The value of a branch is admissible. -/
  branch_value {cs : Nibble → Trie} {v : Bytes} {m : Option Word} : Q (.branch cs v m) → V v

/-- What an entry must be for an insertion to keep a property. -/
def Admits (V : Bytes → Prop) (Q : Trie → Prop) : Entry → Prop
  | .value v => V v
  | .hidden h => Q (.hidden h)

namespace Hereditary

variable {V : Bytes → Prop} {Q : Trie → Prop} {t t' c : Trie} {k : Path} {e : Entry}

theorem forgetRoot (hq : Hereditary V Q) (h : Q t) : Q t.forgetRoot := by
  cases t with
  | empty => exact h
  | hidden => exact h
  | leaf f v m => exact hq.leaf (hq.leaf_value h)
  | extension f c m => exact hq.extension (hq.child h)
  | branch cs v m => exact hq.branch (hq.children h) (hq.branch_value h)

theorem behind (hq : Hereditary V Q) {f : Path} (h : Q t) : Q (behind f t) := by
  unfold Trie.behind
  split
  · exact h
  · exact hq.extension h

theorem plant (hq : Hereditary V Q) (he : Admits V Q e) : Q (plant k e) := by
  cases e with
  | value v => exact hq.leaf he
  | hidden h =>
    simp only [Trie.plant]
    split
    · exact he
    · exact hq.extension he

theorem fork_set (hq : Hereditary V Q) {cs : Nibble → Trie} {d : Nibble} {v : Bytes}
    (hcs : ∀ i, i ≠ d → Q (cs i)) (hc : Q c) (hv : V v) : Q (fork (Children.set cs d c) v) := by
  refine hq.branch (fun i => ?_) hv
  rw [Children.get_set]
  split
  · exact hc
  · next hi => exact hcs i hi

theorem only_get (hq : Hereditary V Q) (d i : Nibble) (h : Q t) : Q ((only d t).get i) := by
  rw [Trie.only_get]
  split
  · exact h
  · exact hq.empty

theorem split (hq : Hereditary V Q) {f : Path} {part : Path → Trie} (h : Split f k e part t')
    (he : Admits V Q e) (hpart : ∀ below, Q (part below)) : Q t' := by
  cases h with
  | stop d below w hf hw =>
    subst hw
    exact hq.behind (hq.branch (fun i => hq.only_get d i (hpart below)) he)
  | part p d below d' rest hd hf hk =>
    exact hq.behind (hq.fork_set (fun i _ => hq.only_get d i (hpart below)) (hq.plant he) hq.nil)

/-- Insertion keeps a hereditary property. -/
theorem insert (hq : Hereditary V Q) (ht : Q t) (he : Admits V Q e) (h : t.insert k e = .ok t') :
    Q t' := by
  induction t generalizing k t' with
  | empty =>
    obtain rfl := Except.ok.inj h
    exact hq.plant he
  | hidden d => cases h
  | leaf f v m =>
    rcases insert_leaf_eq_ok h with ⟨-, w, rfl, rfl⟩ | ⟨d, rest, -, rfl⟩ | hsplit
    · exact hq.leaf he
    · exact hq.behind (hq.branch (fun i => hq.only_get d i (hq.plant he)) (hq.leaf_value ht))
    · exact hq.split hsplit he fun below => hq.leaf (hq.leaf_value ht)
  | extension f c m ih =>
    rcases insert_extension_eq_ok h with ⟨rest, c', -, hins, rfl⟩ | hsplit
    · exact hq.extension (ih (hq.child ht) hins)
    · exact hq.split hsplit he fun below => hq.behind (hq.child ht)
  | branch cs v m ih =>
    rcases insert_branch_eq_ok h with ⟨-, w, rfl, rfl⟩ | ⟨d, rest, c, -, hins, rfl⟩
    · exact hq.branch (hq.children ht) he
    · exact hq.fork_set (fun i _ => hq.children ht i) (ih d (hq.children ht d) hins)
        (hq.branch_value ht)

/-- Joining fragments keeps a hereditary property. -/
theorem join (hq : Hereditary V Q) {f : Path} (hc : Q c) (h : join f c = .ok t') : Q t' := by
  induction c generalizing f with
  | empty => cases h
  | hidden w =>
    obtain rfl := Except.ok.inj h
    exact hq.extension hc
  | leaf g v m =>
    simp only [Trie.join] at h
    split at h
    · obtain rfl := Except.ok.inj h
      exact hq.leaf (hq.leaf_value hc)
    · cases h
  | extension g b m ih =>
    simp only [Trie.join] at h
    split at h
    · exact ih (hq.child hc) h
    · cases h
  | branch cs v m =>
    obtain rfl := Except.ok.inj h
    exact hq.extension (hq.forgetRoot hc)

theorem settle (hq : Hereditary V Q) (ht : Q t) (h : settle t = .ok t') : Q t' := by
  cases t with
  | extension f c m => exact hq.join (hq.child ht) h
  | _ =>
    obtain rfl := Except.ok.inj h
    exact ht

theorem shrink (hq : Hereditary V Q) {cs : Nibble → Trie} {v : Bytes} {d : Nibble}
    (hcs : ∀ i, Q (cs i)) (hv : V v) (hc : Q c) (h : shrink cs v d c = .ok t') : Q t' := by
  rcases shrink_cases cs v d c with ⟨-, -, -, hs⟩ | ⟨-, -, -, hs⟩ | ⟨i, -, -, -, -, -, hs⟩ | ⟨-, hs⟩
  · obtain rfl := Except.ok.inj (hs.symm.trans h)
    exact hq.empty
  · obtain rfl := Except.ok.inj (hs.symm.trans h)
    exact hq.leaf hv
  · obtain rfl := Except.ok.inj (hs.symm.trans h)
    exact hq.extension (hcs i)
  · rw [hs] at h
    cases hset : Trie.settle c with
    | error r => simp [hset, Except.map] at h
    | ok c' =>
      simp only [hset, Except.map, Except.ok.injEq] at h
      subst h
      exact hq.fork_set (fun i _ => hcs i) (hq.settle hc hset) hv

theorem unvalue (hq : Hereditary V Q) {cs : Nibble → Trie} (hcs : ∀ i, Q (cs i)) :
    Q (unvalue cs) := by
  rcases unvalue_cases cs with ⟨i, -, -, hun⟩ | ⟨-, hun⟩
  · rw [hun]
    exact hq.extension (hcs i)
  · rw [hun]
    exact hq.branch hcs hq.nil

/-- Removal keeps a hereditary property. -/
theorem detach (hq : Hereditary V Q) {v : Bytes} (ht : Q t)
    (h : t.detach k = .ok (some (t', v))) : Q t' := by
  induction t generalizing k t' v with
  | empty => cases h
  | hidden d => cases h
  | leaf f w m =>
    simp only [Trie.detach] at h
    split at h
    · simp only [Except.ok.injEq, Option.some.injEq, Prod.mk.injEq] at h
      exact h.1 ▸ hq.empty
    · simp at h
  | extension f c m ih =>
    rcases detach_extension_eq_ok_iff.1 h with ⟨-, hr⟩ | ⟨-, -, hr⟩ | ⟨c', w, s, -, hdet, hjoin, hr⟩
    · cases hr
    · cases hr
    · obtain ⟨rfl, rfl⟩ := Prod.mk.inj (Option.some.inj hr)
      exact hq.join (ih (hq.child ht) hdet) hjoin
  | branch cs w m ih =>
    rcases detach_branch_eq_ok_iff.1 h with
      ⟨-, hr⟩ | ⟨d, rest, -, ⟨-, hr⟩ | ⟨c', x, s, hdet, hs, hr⟩⟩
    · split at hr
      · cases hr
      · obtain ⟨rfl, rfl⟩ := Prod.mk.inj (Option.some.inj hr)
        exact hq.unvalue (hq.children ht)
    · cases hr
    · obtain ⟨rfl, rfl⟩ := Prod.mk.inj (Option.some.inj hr)
      exact hq.shrink (hq.children ht) (hq.branch_value ht) (ih d (hq.children ht d) hdet) hs

end Hereditary

/-! ## Two hereditary properties -/

/-- All values satisfy `V` and all hidden hashes satisfy `H`. -/
def Within (V : Bytes → Prop) (H : Word → Prop) : Trie → Prop
  | .empty => True
  | .hidden h => H h
  | .leaf _ v _ => V v
  | .extension _ c _ => Within V H c
  | .branch cs v _ => (∀ i, Within V H (cs i)) ∧ V v

theorem hereditary_within {V : Bytes → Prop} (H : Word → Prop) (hnil : V []) :
    Hereditary V (Within V H) where
  nil := hnil
  empty := trivial
  leaf h := h
  extension h := h
  branch h hv := ⟨h, hv⟩
  leaf_value h := h
  child h := h
  children h := h.1
  branch_value h := h.2

theorem hereditary_sound [Hasher] : Hereditary (fun _ => True) Sound where
  nil := trivial
  empty := trivial
  leaf _ := memoHolds_of_memo_none rfl
  extension h := ⟨h, memoHolds_of_memo_none rfl⟩
  branch h _ := ⟨h, memoHolds_of_memo_none rfl⟩
  leaf_value _ := trivial
  child h := h.1
  children h := h.1
  branch_value _ := trivial

end Trie

end Stateless
