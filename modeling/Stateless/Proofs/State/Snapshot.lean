import Stateless.Proofs.Account
import Stateless.Proofs.State.StateTrie
import Stateless.State.Snapshot

/-!
# What a snapshot answers

A complete snapshot that is not stale answers what is in two tables, the records of the accounts and
the words of every account. Each write to a snapshot is a write to one of the tables.
-/

namespace Stateless

namespace Snapshot

/-- The hashed address and the hashed slot can both be told from the key of a word. -/
theorem storageKey_inj {h h' k k' : Word} :
    storageKey h k = storageKey h' k' ↔ h = h' ∧ k = k' := by
  refine ⟨fun heq => ?_, by rintro ⟨rfl, rfl⟩; rfl⟩
  obtain ⟨hh, hk⟩ := List.append_inj heq (h.length_eq.trans h'.length_eq.symm)
  exact ⟨FixedBytes.ext hh, FixedBytes.ext hk⟩

/-- All of two tables is in a snapshot, and nothing else, and all of it can be answered. -/
structure Holds (s : Snapshot) (records : Table Word Account) (words : Word → Table Word Word) :
    Prop where
  complete : s.generatedUpTo = none
  fresh : s.stale = false
  account (h : Word) : s.accounts.find? h = (records.find? h).map Account.encode
  word (h k : Word) : s.storage.find? (storageKey h k) = ((words h).find? k).map encodeStorage

theorem holds_empty : empty.Holds .empty fun _ => .empty where
  complete := rfl
  fresh := rfl
  account _ := rfl
  word _ _ := rfl

variable {s : Snapshot} {records : Table Word Account} {words : Word → Table Word Word}

theorem Holds.checkReadable (h : s.Holds records words) (key : Bytes) :
    s.checkReadable key = .ok () := by
  rw [Snapshot.checkReadable, h.fresh, h.complete]
  rfl

variable [Hasher]

theorem Holds.insertAccount (h : s.Holds records words) (a : Address) (r : Account) :
    (s.insertAccount a r).Holds (records.insert (hashedAddress a) r) words where
  complete := h.complete
  fresh := h.fresh
  account k := by
    rw [Snapshot.insertAccount, Table.find?_insert, Table.find?_insert]
    split
    · rfl
    · exact h.account k
  word := h.word

theorem storage_insertStorage (s : Snapshot) (a : Address) (slot value : Word) :
    (s.insertStorage a slot value).storage =
      s.storage.write (storageKey (hashedAddress a) (hashedSlot slot))
        (value.nonzero?.map encodeStorage) := by
  rw [insertStorage, Word.nonzero?]
  split <;> rfl

theorem Holds.insertStorage (h : s.Holds records words) (a : Address) (slot value : Word) :
    (s.insertStorage a slot value).Holds records (Function.update words (hashedAddress a)
      ((words (hashedAddress a)).write (hashedSlot slot) value.nonzero?)) where
  complete := by
    rw [Snapshot.insertStorage]
    split <;> exact h.complete
  fresh := by
    rw [Snapshot.insertStorage]
    split <;> exact h.fresh
  account := by
    rw [Snapshot.insertStorage]
    split <;> exact h.account
  word k x := by
    rw [storage_insertStorage, Table.find?_write, Function.update_apply, Function.update_apply]
    by_cases hk : k = hashedAddress a
    · subst hk
      rw [if_pos rfl, Table.find?_write, Function.update_apply]
      simp only [storageKey_inj, true_and]
      split
      · rfl
      · exact h.word _ x
    · rw [if_neg hk, if_neg fun heq => hk (storageKey_inj.1 heq).1, h.word]

theorem Holds.readAccount (h : s.Holds records words) (a : Address) :
    s.readAccount a = .ok (records.find? (hashedAddress a)) := by
  have haccount : s.account (hashedAddress a) =
      .ok ((records.find? (hashedAddress a)).map Account.encode) := by
    rw [Snapshot.account, h.checkReadable, ← h.account]
    rfl
  rw [Snapshot.readAccount, haccount]
  cases records.find? (hashedAddress a) with
  | none => rfl
  | some r => simp [Except.mapError, Except.map]

theorem Holds.readStorage (h : s.Holds records words) (a : Address) (slot : Word) :
    s.readStorage a slot =
      .ok (((words (hashedAddress a)).find? (hashedSlot slot)).getD .zero) := by
  have hword : s.word (hashedAddress a) (hashedSlot slot) =
      .ok (((words (hashedAddress a)).find? (hashedSlot slot)).map encodeStorage) := by
    rw [Snapshot.word, h.checkReadable, ← h.word]
    rfl
  rw [Snapshot.readStorage, hword]
  cases (words (hashedAddress a)).find? (hashedSlot slot) with
  | none => rfl
  | some v => simp [Except.mapError]

end Snapshot

end Stateless
