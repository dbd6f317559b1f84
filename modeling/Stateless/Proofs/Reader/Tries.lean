import Stateless.Proofs.Table
import Stateless.Reader.Tries

/-!
# What a reader of tries remembers

Reading a slot may make a reader remember a storage trie, the one that it would rebuild for the
account at any time (`readStorage_snd`). So it makes no difference to later reads which storage
tries a reader has remembered by reading (`readStorage_remember`).
-/

namespace Stateless

namespace TrieReader

variable [Hasher]

/-- The storage trie that is rebuilt for an address: none if its account cannot be read, has no
storage, or has storage that cannot be rebuilt. -/
def rebuilt? (r : TrieReader) (a : Address) : Option Trie :=
  match r.readAccount a with
  | .ok (some account) =>
    if isEmptyRoot account.storageRoot then none
    else (Trie.rebuild account.storageRoot r.nodes.source).toOption
  | _ => none

/-- The reader after a slot of an address has been read. -/
def remember (r : TrieReader) (a : Address) : TrieReader :=
  match r.storageTries.find? a, r.rebuilt? a with
  | none, some t => { r with storageTries := r.storageTries.insert a t }
  | _, _ => r

variable {r : TrieReader} {a : Address}

/-- Only storage tries are remembered. -/
theorem remember_eq (r : TrieReader) (a : Address) :
    r.remember a = { r with storageTries := (r.remember a).storageTries } := by
  unfold remember
  split <;> rfl

theorem readAccount_remember (r : TrieReader) (a b : Address) :
    (r.remember b).readAccount a = r.readAccount a := by
  rw [remember_eq]
  rfl

theorem rebuilt?_remember (r : TrieReader) (a b : Address) :
    (r.remember b).rebuilt? a = r.rebuilt? a := by
  rw [remember_eq]
  rfl

/-- Of one address the rebuilt trie is remembered if there was none, and of the others nothing. -/
theorem find?_remember (r : TrieReader) (a b : Address) :
    (r.remember b).storageTries.find? a =
      if a = b then (r.storageTries.find? a).or (r.rebuilt? a) else r.storageTries.find? a := by
  unfold remember
  split
  · next t hfind hrebuilt =>
    rw [Table.find?_insert]
    by_cases hab : a = b
    · rw [if_pos hab, if_pos hab, hab, hfind, hrebuilt, Option.none_or]
    · rw [if_neg hab, if_neg hab]
  · next hnone =>
    by_cases hab : a = b
    · rw [if_pos hab, hab]
      cases hfind : r.storageTries.find? b with
      | some t => rfl
      | none =>
        cases hrebuilt : r.rebuilt? b with
        | none => rfl
        | some t => exact absurd hrebuilt (hnone t hfind)
    · rw [if_neg hab]

/-- A reader after a slot was read is the reader that remembers the trie of its address. -/
theorem readStorage_snd (r : TrieReader) (a : Address) (slot : Word) :
    (r.readStorage a slot).2 = r.remember a := by
  unfold readStorage remember rebuilt?
  rcases r.readAccount a with e | _ | account
  · cases r.storageTries.find? a <;> rfl
  · cases r.storageTries.find? a <;> rfl
  · dsimp only
    by_cases hroot : isEmptyRoot account.storageRoot = true
    · rw [if_pos hroot, if_pos hroot]
      cases r.storageTries.find? a <;> rfl
    · rw [if_neg hroot, if_neg hroot]
      unfold storageTrie
      cases r.storageTries.find? a with
      | some t =>
        dsimp only
        split <;> rfl
      | none =>
        cases Trie.rebuild account.storageRoot r.nodes.source with
        | error e => rfl
        | ok t =>
          dsimp only
          split <;> rfl

/-- The storage trie that is used for an address with a certain root, whatever has been remembered
for the addresses whose slots were read. -/
theorem storageTrie_remember {account : Account} (haccount : r.readAccount a = .ok (some account))
    (hroot : ¬ isEmptyRoot account.storageRoot = true) (b : Address) :
    ((r.remember b).storageTrie a account.storageRoot).map Prod.fst =
      (r.storageTrie a account.storageRoot).map Prod.fst := by
  have hnodes : (r.remember b).nodes = r.nodes := by rw [remember_eq]
  unfold storageTrie
  rw [hnodes, find?_remember]
  by_cases hab : a = b
  · rw [if_pos hab]
    cases r.storageTries.find? a with
    | some t => rfl
    | none =>
      have hrebuilt : r.rebuilt? a =
          (Trie.rebuild account.storageRoot r.nodes.source).toOption := by
        unfold rebuilt?
        rw [haccount]
        exact if_neg hroot
      rw [Option.none_or, hrebuilt]
      cases Trie.rebuild account.storageRoot r.nodes.source <;> rfl
  · rw [if_neg hab]
    cases r.storageTries.find? a with
    | some t => rfl
    | none => cases Trie.rebuild account.storageRoot r.nodes.source <;> rfl

/-- The word that a storage trie of an account has in a slot. -/
def wordIn (t : Trie) (a : Address) (slot : Word) : Except StateError Word :=
  match t.getProven (.ofWord (hashedSlot slot)) with
  | .error e => .error (.ofTrie (.storage (hashedAddress a)) e)
  | .ok none => .ok .zero
  | .ok (some b) => (decodeStorage b).mapError .decode

/-- A slot is read in the storage trie of the account, if there is one. -/
theorem readStorage_fst (r : TrieReader) (a : Address) (slot : Word) :
    (r.readStorage a slot).1 = r.readAccount a >>= fun account? =>
      match account? with
      | none => .ok .zero
      | some account =>
        if isEmptyRoot account.storageRoot then .ok .zero
        else (r.storageTrie a account.storageRoot).map Prod.fst >>= fun t => wordIn t a slot := by
  unfold readStorage wordIn
  rcases r.readAccount a with e | _ | account
  · rfl
  · rfl
  · dsimp only [bind, Except.bind]
    by_cases hroot : isEmptyRoot account.storageRoot = true
    · rw [if_pos hroot, if_pos hroot]
    · rw [if_neg hroot, if_neg hroot]
      rcases r.storageTrie a account.storageRoot with e | ⟨t, r'⟩
      · rfl
      · dsimp only [Except.map]
        rcases t.getProven (.ofWord (hashedSlot slot)) with e | _ | b <;> rfl

/-- What is remembered by reading changes no answer. -/
theorem readStorage_remember (r : TrieReader) (a b : Address) (slot : Word) :
    ((r.remember b).readStorage a slot).1 = (r.readStorage a slot).1 := by
  rw [readStorage_fst, readStorage_fst, readAccount_remember]
  rcases haccount : r.readAccount a with e | _ | account
  · rfl
  · rfl
  · dsimp only [bind, Except.bind]
    by_cases hroot : isEmptyRoot account.storageRoot = true
    · rw [if_pos hroot, if_pos hroot]
    · rw [if_neg hroot, if_neg hroot, storageTrie_remember haccount hroot]

end TrieReader

end Stateless
