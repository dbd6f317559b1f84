import Stateless.Proofs.Trie.Writes
import Stateless.State.StateTrie

/-!
# Steps on state tries

Every update of a state trie is one edit of its trie. Updates that are carried out in turn succeed if
the edits do, and they leave the same trie (`LocalTrie.inTurn_eq_ok`).
-/

namespace Stateless

/-- A word unless it is zero. -/
def Word.nonzero? (w : Word) : Option Word := if w.isZero then none else some w

namespace LocalTrie

variable [Hasher] {α : Type}

/-- Carries out steps one after another, as long as they succeed. -/
def inTurn (step : LocalTrie → α → Attempt StateError Unit × LocalTrie) :
    List α → LocalTrie → Attempt StateError Unit × LocalTrie
  | [], l => (.ok (), l)
  | a :: as, l =>
    match step l a with
    | (.ok (), l) => inTurn step as l
    | (.error e, l) => (.error e, l)

/-- Writes a word to a slot. -/
def setStorage (l : LocalTrie) (write : Word × Word) : Attempt StateError Unit × LocalTrie :=
  l.updateStorage write.1 write.2

/-- Writes an account, or removes it. -/
def setAccount (l : LocalTrie) (write : Address × Option Account) :
    Attempt StateError Unit × LocalTrie :=
  match write.2 with
  | some r => l.updateAccount write.1 r
  | none => l.deleteAccount write.1

variable {l : LocalTrie} {key : Word} {b : Bytes} {a : Option Bytes} {t : Trie}

theorem write_eq_ok (h : (Edit.write key (some b)).apply l.trie = (.ok a, t)) :
    l.write key b = (.ok (), { l with trie := t }) := by
  simp only [Edit.write, Edit.apply] at h
  split at h
  · next hput =>
    rw [write, hput, (Prod.mk.inj h).2]
    rfl
  · cases (Prod.mk.inj h).1

theorem delete_eq_ok (h : (Edit.write key none).apply l.trie = (.ok a, t)) :
    l.delete key = (.ok (), { l with trie := t }) := by
  have hremove : l.trie.remove (.ofWord key) = (.ok a, t) := h
  rw [delete, hremove]
  rfl

/-- To write a word is to write its encoding, or nothing if it is zero. -/
theorem setStorage_eq_ok {w : Word × Word}
    (h : (Edit.write (hashedSlot w.1) (w.2.nonzero?.map encodeStorage)).apply l.trie = (.ok a, t)) :
    l.setStorage w = (.ok (), { l with trie := t }) := by
  rw [Word.nonzero?] at h
  rw [setStorage, updateStorage]
  split at h
  · next hzero =>
    rw [if_pos hzero]
    exact delete_eq_ok h
  · next hzero =>
    rw [if_neg hzero]
    exact write_eq_ok h

theorem setAccount_eq_ok {w : Address × Option Account}
    (h : (Edit.write (hashedAddress w.1) (w.2.map Account.encode)).apply l.trie = (.ok a, t)) :
    l.setAccount w = (.ok (), { l with trie := t }) := by
  obtain ⟨x, o⟩ := w
  cases o with
  | some r => exact write_eq_ok h
  | none => exact delete_eq_ok h

/-- Steps that each carry out an edit carry out a run of edits. -/
theorem inTurn_eq_ok {step : LocalTrie → α → Attempt StateError Unit × LocalTrie} {edit : α → Edit}
    (hstep : ∀ l x a t, (edit x).apply l.trie = (.ok a, t) →
      step l x = (.ok (), { l with trie := t }))
    {xs : List α} {answers : List (Option Bytes)} {p : Trie}
    (h : Edit.run (xs.map edit) l.trie = .ok (answers, p)) :
    inTurn step xs l = (.ok (), { l with trie := p }) := by
  induction xs generalizing l answers with
  | nil =>
    obtain ⟨-, rfl⟩ := Prod.mk.inj (Except.ok.inj h)
    rfl
  | cons x xs ih =>
    obtain ⟨a, s, as, hap, hrest, -⟩ := Edit.run_cons_eq_ok h
    rw [inTurn, hstep l x a s hap]
    exact ih (l := { l with trie := s }) hrest

end LocalTrie

end Stateless
