import Stateless.Proofs.Fault
import Stateless.Proofs.Trie.Memos
import Stateless.Proofs.Trie.Retracing

/-!
# Tries whose parts are within reach

A trie is confined to a number of nibbles if none of its parts stands further below the root. Nothing
else is asked of its shape: fragments may be empty, a branch may have a single occupant, and anything
may stand below an extension. A change of a trie that is confined to the longest key stops with no
fault, since the fragments that a removal joins never get longer than the way to the part where they
end, and it leaves a trie that is confined again. The main statement is `Edit.apply_confined`.
-/

namespace Stateless

open Attempt

namespace Trie

variable {t t' c : Trie} {k f : Path} {e : Entry} {v : Bytes} {d : Nibble} {n m : Nat}
variable {cs : Nibble → Trie}

/-- A trie of which no part is more than `n` nibbles below the root. -/
def Confined : Nat → Trie → Prop
  | _, .empty => True
  | _, .hidden _ => True
  | n, .leaf f _ _ => f.length ≤ n
  | n, .extension f c _ => f.length ≤ n ∧ Confined (n - f.length) c
  | n, .branch cs _ _ => ∀ i, cs i ≠ .empty → 1 ≤ n ∧ Confined (n - 1) (cs i)

theorem Confined.mono (h : Confined n t) (hle : n ≤ m) : Confined m t := by
  induction t generalizing n m with
  | empty => trivial
  | hidden w => trivial
  | leaf f v memo => exact h.trans hle
  | extension f c memo ih => exact ⟨h.1.trans hle, ih h.2 (by omega)⟩
  | branch cs v memo ih =>
    intro i hi
    obtain ⟨h1, hc⟩ := h i hi
    exact ⟨h1.trans hle, ih i hc (by omega)⟩

theorem Confined.withMemo (h : Confined n t) (memo : Option Word) : Confined n (t.withMemo memo) := by
  cases t <;> exact h

/-- Memos do not count. -/
theorem confined_forget : Confined n t.forget ↔ Confined n t := by
  induction t generalizing n with
  | extension f c memo ih => exact and_congr_right fun _ => ih
  | branch cs v memo ih =>
    rw [forget_branch]
    refine forall_congr' fun i => imp_congr (not_congr forget_eq_empty_iff) (and_congr_right fun _ => ?_)
    exact ih i
  | _ => rfl

theorem Confined.memoize [Hasher] (h : Confined n t) : Confined n t.memoize :=
  confined_forget.1 (forget_memoize t ▸ confined_forget.2 h)

/-! ## Parts -/

theorem confined_behind (ht : Confined m t) (hle : f.length + m ≤ n) : Confined n (behind f t) := by
  unfold behind
  split
  · exact ht.mono (by omega)
  · exact ⟨by omega, ht.mono (by omega)⟩

theorem confined_plant (hk : k.length ≤ n) : Confined n (plant k e) := by
  cases e with
  | value v => exact hk
  | hidden w =>
    rw [plant]
    split
    · trivial
    · exact ⟨hk, trivial⟩

/-- A branch of which one child is replaced. -/
theorem confined_fork_set (hcs : ∀ i, i ≠ d → cs i ≠ .empty → 1 ≤ n ∧ Confined (n - 1) (cs i))
    (hc : c ≠ .empty → 1 ≤ n ∧ Confined (n - 1) c) :
    Confined n (fork (Children.set cs d c) v) := by
  intro i
  rw [Children.get_set]
  split
  · exact hc
  · next hi => exact hcs i hi

/-- A branch with one child. -/
theorem confined_fork_only (hn : 1 ≤ n) (hc : Confined (n - 1) c) :
    Confined n (fork (only d c) v) := by
  have hnone : ∀ i, i ≠ d → noChildren i ≠ .empty → 1 ≤ n ∧ Confined (n - 1) (noChildren i) :=
    fun _ _ h => absurd rfl h
  exact confined_fork_set hnone fun _ => ⟨hn, hc⟩

/-- A branch with two children. -/
theorem confined_fork_pair {d' : Nibble} (hn : 1 ≤ n) (hc : Confined (n - 1) c)
    (ht : Confined (n - 1) t) : Confined n (fork (Children.set (only d c).get d' t) v) := by
  refine confined_fork_set (fun i _ hi => ⟨hn, ?_⟩) fun _ => ⟨hn, ht⟩
  rw [only_get] at hi ⊢
  split
  · exact hc
  · trivial

/-! ## Insertion -/

/-- Where a key ends within a fragment or parts from it, the new branch is as far down as the two
paths agree. -/
theorem Split.confined {part : Path → Trie} (h : Split f k e part t') (hf : f.length ≤ n)
    (hk : k.length ≤ n) (hpart : ∀ p d below, f.toList = p ++ d :: below.toList →
      Confined (n - p.length - 1) (part below)) : Confined n t' := by
  cases h with
  | stop d below w hfk hw =>
    have hlen := congrArg List.length hfk
    simp only [List.length_append, List.length_cons, Path.length_toList] at hlen
    have hc := hpart _ d below hfk
    rw [Path.length_toList] at hc
    have hfork : Confined (n - k.length) (fork (only d (part below)) w) :=
      confined_fork_only (by omega) hc
    exact confined_behind hfork (by omega)
  | part p d below d' rest hd hfp hkp =>
    have hlen := congrArg List.length hfp
    have hlenk := congrArg List.length hkp
    simp only [List.length_append, List.length_cons, Path.length_toList] at hlen hlenk
    have hc := hpart _ d below hfp
    rw [Path.length_toList] at hc
    have hfork : Confined (n - p.length)
        (fork (Children.set (only d (part below)).get d' (plant rest e)) []) :=
      confined_fork_pair (by omega) hc (confined_plant (by omega))
    exact confined_behind hfork (by omega)

/-- The way to a new entry is its key, and the old parts keep their places. -/
theorem insert_confined (ht : Confined n t) (hk : k.length ≤ n) (h : t.insert k e = .ok t') :
    Confined n t' := by
  induction t generalizing k n t' with
  | empty =>
    obtain rfl := Except.ok.inj h
    exact confined_plant hk
  | hidden w => cases h
  | leaf f v memo =>
    rcases insert_leaf_eq_ok h with ⟨rfl, w, rfl, rfl⟩ | ⟨d, rest, hkf, rfl⟩ | hsplit
    · exact hk
    · have hlen := congrArg List.length hkf
      simp only [List.length_append, List.length_cons, Path.length_toList] at hlen
      have hfork : Confined (n - f.length) (fork (only d (plant rest e)) v) :=
        confined_fork_only (by omega) (confined_plant (by omega))
      exact confined_behind hfork (by omega)
    · refine hsplit.confined ht hk fun p d below hfp => ?_
      have hlen := congrArg List.length hfp
      simp only [List.length_append, List.length_cons, Path.length_toList] at hlen
      have hf : f.length ≤ n := ht
      show below.length ≤ n - p.length - 1
      omega
  | extension f c memo ih =>
    obtain ⟨hf, hc⟩ := ht
    rcases insert_extension_eq_ok h with ⟨rest, c', hkf, hins, rfl⟩ | hsplit
    · have hlen := congrArg List.length hkf
      simp only [List.length_append, Path.length_toList] at hlen
      exact ⟨hf, ih hc (by omega) hins⟩
    · refine hsplit.confined hf hk fun p d below hfp => confined_behind hc ?_
      have hlen := congrArg List.length hfp
      simp only [List.length_append, List.length_cons, Path.length_toList] at hlen
      omega
  | branch cs v memo ih =>
    rcases insert_branch_eq_ok h with ⟨-, w, rfl, rfl⟩ | ⟨d, rest, c, hkd, hins, rfl⟩
    · exact ht
    · have hlen := congrArg List.length hkd
      simp only [List.length_cons, Path.length_toList] at hlen
      refine confined_fork_set (fun i _ => ht i) fun _ => ⟨by omega, ?_⟩
      by_cases hd : cs d = .empty
      · rw [hd] at hins
        obtain rfl := Except.ok.inj hins
        exact confined_plant (by omega)
      · exact ih d (ht d hd).2 (by omega) hins

/-! ## Removal -/

/-- Fragments that are joined are no longer than the way to where they end. -/
theorem join_faultless (hc : Confined m c) (hle : f.length + m ≤ n) (hn : n ≤ maxNibbles) :
    Faultless (Confined n) (join f c) := by
  induction c generalizing f m with
  | empty => trivial
  | hidden w => exact ⟨by omega, trivial⟩
  | leaf g v memo =>
    have hg : g.length ≤ m := hc
    obtain ⟨fg, hfg, hl⟩ := Path.append_eq_ok (p := f) (q := g) (by omega)
    have hlen := congrArg List.length hl
    simp only [List.length_append, Path.length_toList] at hlen
    rw [join, hfg]
    show fg.length ≤ n
    omega
  | extension g b memo ih =>
    obtain ⟨hg, hb⟩ := hc
    obtain ⟨fg, hfg, hl⟩ := Path.append_eq_ok (p := f) (q := g) (by omega)
    have hlen := congrArg List.length hl
    simp only [List.length_append, Path.length_toList] at hlen
    rw [join, hfg]
    exact ih hb (by omega)
  | branch cs v memo => exact ⟨by omega, hc.mono (by omega)⟩

theorem settle_faultless (ht : Confined n t) (hn : n ≤ maxNibbles) :
    Faultless (Confined n) (settle t) := by
  cases t with
  | extension f c memo => exact join_faultless ht.2 (by have := ht.1; omega) hn
  | _ => exact ht

/-- A branch that gets smaller leaves what it still has where it was. -/
theorem shrink_faultless (hcs : ∀ i, cs i ≠ .empty → 1 ≤ n ∧ Confined (n - 1) (cs i))
    (hn : n ≤ maxNibbles) (h1 : 1 ≤ n) (hc : Confined (n - 1) c) : Faultless (Confined n) (shrink cs v d c) := by
  rcases shrink_cases cs v d c with ⟨-, -, -, hs⟩ | ⟨-, -, -, hs⟩ | ⟨i, -, -, hi, -, -, hs⟩ | ⟨-, hs⟩
  · rw [hs]
    trivial
  · rw [hs]
    exact Nat.zero_le n
  · rw [hs]
    exact hcs i hi
  · rw [hs]
    rcases (settle_faultless hc (by omega)).cases with ⟨c', hset, hc'⟩ | ⟨r, hset⟩
    · rw [hset]
      exact confined_fork_set (v := v) (fun i _ => hcs i) fun _ => ⟨h1, hc'⟩
    · rw [hset]
      trivial

theorem unvalue_confined (hcs : ∀ i, cs i ≠ .empty → 1 ≤ n ∧ Confined (n - 1) (cs i)) :
    Confined n (unvalue cs) := by
  rcases unvalue_cases cs with ⟨i, hi, -, hun⟩ | ⟨-, hun⟩
  · rw [hun]
    exact hcs i hi
  · rw [hun]
    exact hcs

/-- What a removal in progress answers: a confined trie, if it finds the key. -/
def Detached (n : Nat) (r : Option (Trie × Bytes)) : Prop := ∀ t v, r = some (t, v) → Confined n t

theorem detached_none (n : Nat) : Detached n none := fun _ _ h => by cases h

theorem detached_some (ht : Confined n t) (v : Bytes) : Detached n (some (t, v)) := by
  intro t' v' h
  obtain ⟨rfl, -⟩ := Prod.mk.inj (Option.some.inj h)
  exact ht

/-- What is found below a node is put into its place by what is left of the node. -/
theorem detached_bind {x : Attempt TrieError (Option (Trie × Bytes))}
    {place : Trie → Attempt TrieError Trie} (hx : Faultless (Detached m) x)
    (hplace : ∀ c, Confined m c → Faultless (Confined n) (place c)) :
    Faultless (Detached n) (do
      match ← x with
      | none => return none
      | some (c, v) => return some (← place c, v)) := by
  refine hx.bind fun r hr => ?_
  cases r with
  | none => exact detached_none n
  | some p => exact (hplace p.1 (hr p.1 p.2 rfl)).bind fun t' ht' => detached_some ht' p.2

/-- A removal in progress stops with no fault. -/
theorem detach_faultless (ht : Confined n t) (hn : n ≤ maxNibbles) (k : Path) :
    Faultless (Detached n) (t.detach k) := by
  induction t generalizing k n with
  | empty => exact detached_none n
  | hidden w => trivial
  | leaf f v memo =>
    rw [detach]
    split
    · exact detached_some (t := .empty) trivial v
    · exact detached_none n
  | extension f c memo ih =>
    obtain ⟨hf, hc⟩ := ht
    rw [detach]
    split
    · exact detached_bind (ih hc (by omega) (k.drop f.length)) fun c' hc' =>
        join_faultless hc' (by omega) hn
    · exact detached_none n
  | branch cs v memo ih =>
    rw [detach]
    split
    · split
      · exact detached_none n
      · exact detached_some (unvalue_confined ht) v
    · next d rest hu =>
      by_cases hd : cs d = .empty
      · rw [hd]
        exact detached_none n
      · obtain ⟨h1, hcd⟩ := ht d hd
        exact detached_bind (ih d hcd (by omega) rest) fun c' hc' => shrink_faultless ht hn h1 hc'

theorem remove_faultless (ht : Confined n t) (hn : n ≤ maxNibbles) (k : Path) :
    Faultless (fun _ => True) (t.remove k).1 ∧ Confined n (t.remove k).2 := by
  have hforget : Confined n t.forgetRoot := ht.withMemo none
  rw [remove]
  rcases (detach_faultless ht hn k).cases with ⟨_ | ⟨t', w⟩, hdetach, hr⟩ | ⟨r, hdetach⟩
  · rw [hdetach]
    exact ⟨trivial, hforget⟩
  · simp only [hdetach]
    rcases (settle_faultless (hr t' w rfl) hn).cases with ⟨s, hset, hs⟩ | ⟨r, hset⟩
    · rw [hset]
      exact ⟨trivial, hs⟩
    · rw [hset]
      exact ⟨trivial, hforget⟩
  · rw [hdetach]
    exact ⟨trivial, hforget⟩

end Trie

open Trie

namespace Edit

variable [Hasher] {t : Trie}

/-- An edit of a confined trie stops with no fault and leaves a confined trie. -/
theorem apply_confined (ht : Confined maxNibbles t) (e : Edit) :
    Faultless (fun _ => True) (e.apply t).1 ∧ Confined maxNibbles (e.apply t).2 := by
  cases e with
  | put k x =>
    rw [apply, Trie.put]
    cases hins : t.insert k x with
    | error r => exact ⟨trivial, ht.withMemo none⟩
    | ok t' => exact ⟨trivial, insert_confined ht k.length_le_max hins⟩
  | remove k => exact remove_faultless ht (le_refl _) k
  | hash => exact ⟨trivial, ht.memoize⟩

theorem after_confined (ht : Confined maxNibbles t) (edits : List Edit) :
    Confined maxNibbles (after edits t) := by
  induction edits generalizing t with
  | nil => exact ht
  | cons e edits ih => exact ih (apply_confined ht e).2

end Edit

end Stateless
