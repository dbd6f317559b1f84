import Stateless.Proofs.Account
import Stateless.Proofs.State.StateTrie

/-!
# States as full tries

A state as its tries: the account trie holds a record for every account, under its hashed address,
and every account has a storage trie, which holds its words under their hashed slots. Whatever can be
written to the tries may be there (`LocalTrie.setAccount_tabulates`, `setStorage_tabulates`). What is
asked of a state is only that each record names the root of the storage trie of its account.
-/

namespace Stateless

open Trie

theorem Account.storable (r : Account) : (Entry.value r.encode).Storable :=
  ⟨r.encode_ne_nil, r.length_encode_lt⟩

theorem storable_encodeStorage (w : Word) : (Entry.value (encodeStorage w)).Storable :=
  ⟨encodeStorage_ne_nil w, length_encodeStorage_lt w⟩

/-- A trie that can be stored holds the values of a table, each in written form under its key. -/
structure Trie.Tabulates [Hasher] {α : Type} (t : Trie) (encode : α → Bytes) (T : Table Word α) :
    Prop where
  fits : t.Fits
  holds : ∃ m, t.Holds m ∧ Keyed id encode T m

section

variable [Hasher] {α : Type} {t : Trie} {encode : α → Bytes} {T : Table Word α} {key : Word}

namespace Trie

theorem tabulates_empty : Tabulates .empty encode .empty where
  fits := trivial
  holds := ⟨.empty, holds_empty, by simp [Keyed]⟩

theorem Tabulates.whole (h : t.Tabulates encode T) : t.Whole := by
  obtain ⟨m, hm, -⟩ := h.holds
  exact ⟨hm.intact, h.fits⟩

theorem Tabulates.view (h : t.Tabulates encode T) (key : Word) :
    t.view (Path.ofWord key).toList = .ok ((T.find? key).map encode) := by
  obtain ⟨m, hm, hkeyed⟩ := h.holds
  have hfind : m.find? (.ofWord key) = (T.find? key).map encode :=
    hkeyed.find? fun y _ hy => hy
  rw [hm.answers, hfind]

theorem Tabulates.find?_of_empty (h : Tabulates .empty encode T) (key : Word) :
    T.find? key = none := by
  have hview := h.view key
  rw [view_empty] at hview
  exact Option.map_eq_none_iff.1 (Except.ok.inj hview).symm

/-- Writes are carried out on the trie and on the table alike. -/
theorem Tabulates.run (h : t.Tabulates encode T)
    (hencode : ∀ v, (Entry.value (encode v)).Storable) (writes : List (Word × Option α)) :
    ∃ answers t', Edit.run (writeEdits id encode writes) t = .ok (answers, t') ∧
      t'.Tabulates encode (writes.foldl (fun T w => T.write w.1 w.2) T) := by
  obtain ⟨m, hm, hkeyed⟩ := h.holds
  have hputs : ∀ e ∈ writeEdits id encode writes, e.Puts Entry.Storable := writeEdits_puts hencode
  obtain ⟨answers, t', hrun, ht'⟩ :=
    Edit.run_holds (fun e he => (hputs e he).mono Entry.Storable.known) hm
  have hkeyed' : Keyed id encode (writes.foldl (fun T w => T.write w.1 w.2) T)
      ((writeEdits id encode writes).foldl (fun m e => e.record m) m) :=
    hkeyed.foldl_write (U := fun _ => True) (fun x y _ _ hxy => hxy) (fun _ _ => trivial)
      fun _ _ => trivial
  exact ⟨answers, t', hrun, run_fits hputs h.fits hrun, _, ht', hkeyed'⟩

theorem tabulates_leaf (hencode : ∀ v, (Entry.value (encode v)).Storable) (key : Word) (v : α) :
    Tabulates (.leaf (.ofWord key) (encode v) none) encode (Table.empty.insert key v) := by
  obtain ⟨answers, t, hrun, ht⟩ := tabulates_empty.run hencode [(key, some v)]
  have hleaf : Edit.run (writeEdits id encode [(key, some v)]) .empty =
      .ok ([none], .leaf (.ofWord key) (encode v) none) := rfl
  obtain ⟨-, rfl⟩ := Prod.mk.inj (Except.ok.inj (hleaf.symm.trans hrun))
  exact ht

end Trie

namespace LocalTrie

variable {l : LocalTrie}

/-- Accounts of all kinds can be written and removed in turn. -/
theorem setAccount_tabulates {T : Table Word Account} (h : l.trie.Tabulates Account.encode T)
    (writes : List (Address × Option Account)) :
    ∃ t, l.inTurn setAccount writes = (.ok (), { l with trie := t }) ∧
      t.Tabulates Account.encode
        (writes.foldl (fun T w => T.write (hashedAddress w.1) w.2) T) := by
  obtain ⟨answers, t, hrun, ht⟩ :=
    h.run Account.storable (writes.map fun w => (hashedAddress w.1, w.2))
  rw [writeEdits, List.map_map] at hrun
  rw [List.foldl_map] at ht
  exact ⟨t, inTurn_eq_ok (fun l x a t => setAccount_eq_ok) hrun, ht⟩

/-- Words can be written to slots in turn; the zero word clears a slot. -/
theorem setStorage_tabulates {T : Table Word Word} (h : l.trie.Tabulates encodeStorage T)
    (writes : List (Word × Word)) :
    ∃ t, l.inTurn setStorage writes = (.ok (), { l with trie := t }) ∧
      t.Tabulates encodeStorage
        (writes.foldl (fun T w => T.write (hashedSlot w.1) w.2.nonzero?) T) := by
  obtain ⟨answers, t, hrun, ht⟩ :=
    h.run storable_encodeStorage (writes.map fun w => (hashedSlot w.1, w.2.nonzero?))
  rw [writeEdits, List.map_map] at hrun
  rw [List.foldl_map] at ht
  exact ⟨t, inTurn_eq_ok (fun l x a t => setStorage_eq_ok) hrun, ht⟩

end LocalTrie

end

/-- A state as its tries, with the tables that they hold: the records of all accounts by hashed
address, and the words of every account by hashed slot. -/
structure FullState [Hasher] where
  /-- The records of the accounts. -/
  records : Table Word Account
  /-- The words of an account. -/
  words : Word → Table Word Word
  /-- The account trie. -/
  accountTrie : Trie
  /-- The storage trie of an account. -/
  storageTrie : Word → Trie
  accounts : accountTrie.Tabulates Account.encode records
  storage (h : Word) : (storageTrie h).Tabulates encodeStorage (words h)
  /-- A record names the root of the storage trie. That there is no storage can be said by any
  spelling of an empty root. -/
  root_of_record {h : Word} {r : Account} : records.find? h = some r →
    r.storageRoot = (storageTrie h).hash.1 ∨
      storageTrie h = .empty ∧ isEmptyRoot r.storageRoot = true
  vacant {h : Word} : records.find? h = none → storageTrie h = .empty

namespace FullState

variable [Hasher]

/-- The state root. -/
def root (w : FullState) : Word := w.accountTrie.hash.1

/-- The record of an account; none if it does not exist. -/
def account? (w : FullState) (a : Address) : Option Account := w.records.find? (hashedAddress a)

/-- The word in a slot; zero if there is none. -/
def word (w : FullState) (a : Address) (slot : Word) : Word :=
  ((w.words (hashedAddress a)).find? (hashedSlot slot)).getD .zero

theorem word_of_empty {w : FullState} {a : Address} (h : w.storageTrie (hashedAddress a) = .empty)
    (slot : Word) : w.word a slot = .zero := by
  have hstorage := w.storage (hashedAddress a)
  rw [h] at hstorage
  rw [word, hstorage.find?_of_empty]
  rfl

/-- Whatever is written to the tries in turn makes a state, if the records that are left name the
roots of the storage tries. -/
theorem exists_of_writes (accountWrites : List (Address × Option Account))
    (slotWrites : Word → List (Word × Word))
    (hroot : ∀ h l, LocalTrie.inTurn LocalTrie.setStorage (slotWrites h) ⟨.storage h, .empty⟩ =
        (.ok (), l) →
      match (accountWrites.foldl (fun T w => T.write (hashedAddress w.1) w.2)
        (.empty : Table Word Account)).find? h with
      | some r => r.storageRoot = l.trie.hash.1 ∨ l.trie = .empty ∧ isEmptyRoot r.storageRoot = true
      | none => l.trie = .empty) :
    ∃ w : FullState,
      LocalTrie.inTurn LocalTrie.setAccount accountWrites ⟨.account, .empty⟩ =
        (.ok (), ⟨.account, w.accountTrie⟩) ∧
      (∀ h, LocalTrie.inTurn LocalTrie.setStorage (slotWrites h) ⟨.storage h, .empty⟩ =
        (.ok (), ⟨.storage h, w.storageTrie h⟩)) ∧
      w.records = accountWrites.foldl (fun T w => T.write (hashedAddress w.1) w.2) .empty ∧
      ∀ h, w.words h =
        (slotWrites h).foldl (fun T w => T.write (hashedSlot w.1) w.2.nonzero?) .empty := by
  obtain ⟨t, hrun, ht⟩ := LocalTrie.setAccount_tabulates
    (l := ⟨.account, .empty⟩) tabulates_empty accountWrites
  have hstorage := fun h => LocalTrie.setStorage_tabulates
    (l := ⟨.storage h, .empty⟩) tabulates_empty (slotWrites h)
  choose storageTrie hruns hstorage using hstorage
  refine ⟨⟨_, _, t, storageTrie, ht, hstorage, fun {h r} hr => ?_, fun {h} hr => ?_⟩, hrun, hruns,
    rfl, fun h => rfl⟩
  · have hname := hroot h _ (hruns h)
    rwa [hr] at hname
  · have hname := hroot h _ (hruns h)
    rwa [hr] at hname

/-- The state of a single account. -/
def single (a : Address) (r : Account) {T : Table Word Word} {t : Trie}
    (ht : t.Tabulates encodeStorage T) (hroot : r.storageRoot = t.hash.1) : FullState where
  records := Table.empty.insert (hashedAddress a) r
  words := Function.update (fun _ => .empty) (hashedAddress a) T
  accountTrie := .leaf (.ofWord (hashedAddress a)) r.encode none
  storageTrie := Function.update (fun _ => .empty) (hashedAddress a) t
  accounts := tabulates_leaf Account.storable (hashedAddress a) r
  storage k := by
    rw [Function.update_apply, Function.update_apply]
    split
    · exact ht
    · exact tabulates_empty
  root_of_record {k s} hk := by
    rw [Table.find?_insert] at hk
    split at hk
    · next heq =>
      rw [heq, Function.update_self, ← Option.some.inj hk]
      exact Or.inl hroot
    · cases hk
  vacant {k} hk := by
    rw [Table.find?_insert] at hk
    split at hk
    · cases hk
    · next hne => exact Function.update_of_ne hne ..

section

variable {a : Address} {r : Account} {T : Table Word Word} {t : Trie}
variable {ht : t.Tabulates encodeStorage T} {hroot : r.storageRoot = t.hash.1}

theorem account?_single : (single a r ht hroot).account? a = some r := by
  rw [account?, single, Table.find?_insert, if_pos rfl]

theorem words_single : (single a r ht hroot).words (hashedAddress a) = T := by
  simp [single]

theorem storageTrie_single : (single a r ht hroot).storageTrie (hashedAddress a) = t := by
  simp [single]

end

end FullState

end Stateless
