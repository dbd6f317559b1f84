import Stateless.Proofs.Trie.Hereditary

/-!
# Runs of edits

A trie is put to use by a run of edits: entries are put under keys, keys are removed, and now and
then the root hash is computed, which leaves memos behind. A run goes on as long as every edit
succeeds. What one edit preserves, a run preserves (`run_induction`); in particular every run from
the empty trie ends in a canonical trie with sound memos.
-/

namespace Stateless

open Trie

/-- A value that may be stored: it is not empty, and nothing is hidden. -/
def Entry.Known : Entry → Prop
  | .value v => v ≠ []
  | .hidden _ => False

theorem Entry.Known.solid {e : Entry} (h : e.Known) : e.Solid := by
  cases e with
  | value v => exact h
  | hidden d => trivial

/-- A use of a trie that may change it. -/
inductive Edit where
  /-- An entry is put under a key. -/
  | put (key : Path) (entry : Entry)
  /-- A key is removed. -/
  | remove (key : Path)
  /-- The root hash is computed and remembered. -/
  | hash
  deriving DecidableEq

namespace Edit

/-- Whether the entry that is put, if one is, satisfies a predicate. -/
def Puts (P : Entry → Prop) : Edit → Prop
  | put _ e => P e
  | _ => True

variable [Hasher]

/-- Carries an edit out. A removal answers the removed value; the others have nothing to answer. -/
def apply : Edit → Trie → Attempt TrieError (Option Bytes) × Trie
  | put k e, t =>
    match t.put k e with
    | (.ok (), t') => (.ok none, t')
    | (.error r, t') => (.error (.error r), t')
  | remove k, t => t.remove k
  | hash, t => (.ok none, t.hash.2)

/-- Carries edits out in turn. Answers what they answer and the last trie, unless one fails. -/
def run : List Edit → Trie → Attempt TrieError (List (Option Bytes) × Trie)
  | [], t => .ok ([], t)
  | e :: rest, t =>
    match e.apply t with
    | (.error r, _) => .error r
    | (.ok a, t') => (run rest t').map fun (as, t'') => (a :: as, t'')

variable {t t' : Trie} {edits : List Edit} {answers : List (Option Bytes)}

theorem run_cons_eq_ok {e : Edit} (h : run (e :: edits) t = .ok (answers, t')) :
    ∃ a s as, e.apply t = (.ok a, s) ∧ run edits s = .ok (as, t') ∧ answers = a :: as := by
  rw [run] at h
  rcases hap : e.apply t with ⟨r | a, s⟩
  · simp [hap] at h
  · rw [hap] at h
    cases hrest : run edits s with
    | error r => simp [hrest, Except.map] at h
    | ok p =>
      obtain ⟨as, t''⟩ := p
      simp only [hrest, Except.map, Except.ok.injEq, Prod.mk.injEq] at h
      obtain ⟨rfl, rfl⟩ := h
      exact ⟨a, s, as, rfl, hrest, rfl⟩

/-- What every edit of a run preserves, the run preserves. -/
theorem run_induction {Q : Trie → Prop}
    (hstep : ∀ e ∈ edits, ∀ t a t', Q t → e.apply t = (.ok a, t') → Q t') (ht : Q t)
    (h : run edits t = .ok (answers, t')) : Q t' := by
  induction edits generalizing t answers with
  | nil =>
    obtain ⟨-, rfl⟩ := Prod.mk.inj (Except.ok.inj h)
    exact ht
  | cons e edits ih =>
    obtain ⟨a, s, as, hap, hrest, -⟩ := run_cons_eq_ok h
    exact ih (fun e he => hstep e (List.mem_cons_of_mem _ he))
      (hstep e List.mem_cons_self t a s ht hap) hrest

/-! ## What edits do to tries -/

/-- What a successful edit has done. -/
theorem apply_eq_ok {e : Edit} {a : Option Bytes} (h : e.apply t = (.ok a, t')) :
    (∃ k x, e = .put k x ∧ t.insert k x = .ok t' ∧ a = none) ∨
    (∃ k, e = .remove k ∧ a = none ∧ t.detach k = .ok none ∧ t' = t.forgetRoot) ∨
    (∃ k v s, e = .remove k ∧ a = some v ∧ t.detach k = .ok (some (s, v)) ∧ settle s = .ok t') ∨
    (e = .hash ∧ a = none ∧ t' = t.memoize) := by
  cases e with
  | put k x =>
    simp only [apply, Trie.put] at h
    cases hins : t.insert k x with
    | error r => simp [hins] at h
    | ok s =>
      simp only [hins, Prod.mk.injEq, Except.ok.injEq] at h
      exact Or.inl ⟨k, x, rfl, h.2 ▸ hins, h.1.symm⟩
  | remove k =>
    simp only [apply, Trie.remove] at h
    cases hdet : t.detach k with
    | error r => simp [hdet] at h
    | ok o =>
      cases o with
      | none =>
        simp only [hdet, Prod.mk.injEq, Except.ok.injEq] at h
        exact Or.inr (Or.inl ⟨k, rfl, h.1.symm, hdet, h.2.symm⟩)
      | some p =>
        obtain ⟨s, v⟩ := p
        cases hset : settle s with
        | error r => simp [hdet, hset] at h
        | ok s' =>
          simp only [hdet, hset, Prod.mk.injEq, Except.ok.injEq] at h
          exact Or.inr (Or.inr (Or.inl ⟨k, v, s, rfl, h.1.symm, hdet, hset.trans (congrArg _ h.2)⟩))
  | hash =>
    simp only [apply, Prod.mk.injEq, Except.ok.injEq] at h
    exact Or.inr (Or.inr (Or.inr ⟨rfl, h.1.symm, h.2.symm⟩))

/-- A hereditary property that computing hashes keeps is kept by edits. -/
theorem apply_hereditary {V : Bytes → Prop} {Q : Trie → Prop} (hq : Hereditary V Q)
    (hmemo : ∀ t, Q t → Q t.memoize) {e : Edit} {a : Option Bytes} (he : e.Puts (Admits V Q))
    (ht : Q t) (h : e.apply t = (.ok a, t')) : Q t' := by
  rcases apply_eq_ok h with ⟨k, x, rfl, hins, -⟩ | ⟨k, rfl, -, -, rfl⟩ |
    ⟨k, v, s, rfl, -, hdet, hset⟩ | ⟨rfl, -, rfl⟩
  · exact hq.insert ht he hins
  · exact hq.forgetRoot ht
  · exact hq.settle (hq.detach ht hdet) hset
  · exact hmemo t ht

theorem canonical_memoize {n : Nat} (ht : Canonical n t) : Canonical n t.memoize := by
  rw [← canonical_forget, forget_memoize, canonical_forget]
  exact ht

/-- Edits keep canonical form. -/
theorem apply_canonical {e : Edit} {a : Option Bytes} (he : e.Puts Entry.Solid)
    (ht : Canonical maxNibbles t) (h : e.apply t = (.ok a, t')) : Canonical maxNibbles t' := by
  rcases apply_eq_ok h with ⟨k, x, rfl, hins, -⟩ | ⟨k, rfl, -, -, rfl⟩ |
    ⟨k, v, s, rfl, -, hdet, hset⟩ | ⟨rfl, -, rfl⟩
  · exact (insert_canonical ht k.length_le_max he hins).1
  · exact ht.withMemo none
  · exact settle_canonical (Nat.le_refl _) ht hdet hset
  · exact canonical_memoize ht

/-- Runs from the empty trie end in canonical form. -/
theorem run_canonical (hsolid : ∀ e ∈ edits, e.Puts Entry.Solid)
    (h : run edits .empty = .ok (answers, t)) : Canonical maxNibbles t :=
  run_induction (fun e he _ _ _ ht hap => apply_canonical (hsolid e he) ht hap)
    (by trivial : Canonical maxNibbles .empty) h

end Edit

end Stateless
