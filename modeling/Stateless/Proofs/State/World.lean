import Stateless.Proofs.Account
import Stateless.Proofs.Digest
import Stateless.Proofs.Trie.Keyed
import Stateless.State.World

/-!
# The tries of a state

The tries of a state are intact and can be stored. If no two addresses and no two slots of an
account have one hash, the account trie holds the records of all accounts and each storage trie the
words of its account.
-/

namespace Stateless

namespace Trie

variable [Hasher]

theorem whole_empty : Whole .empty := ⟨holds_empty.intact, by trivial⟩

theorem Whole.hash_eq_rootHash {t : Trie} (h : t.Whole) : t.hash.1 = t.rootHash :=
  hash_eq_reference h.sound

end Trie

/-- Byte strings of one length that belong to a table have a hash for themselves if none of them
collide. -/
theorem alone_of_collisionFree [Hasher] {α : Type} {n : Nat} {S : Bytes → Prop}
    {T : Table (FixedBytes n) α} {x : FixedBytes n} (hfree : CollisionFree S)
    (hT : ∀ y v, T.find? y = some v → S y.toBytes) (hx : S x.toBytes) :
    Alone (fun y => digest y.toBytes) T x := fun y hy hkey => by
  obtain ⟨v, hv⟩ := Option.ne_none_iff_exists'.1 hy
  exact FixedBytes.ext (hfree.inj (hT y v hv) hx hkey)

variable [Hasher]

/-! ## Storage -/

namespace Holding

variable (h : Holding)

theorem storageTrie_holds : h.storageTrie.Holds (Table.ofList (h.storage.entries.map fun e =>
    (.ofWord (hashedSlot e.1), encodeStorage e.2))) ∧ Trie.Fits h.storageTrie :=
  Trie.ofValues_holds fun e he => by
    obtain ⟨x, -, rfl⟩ := List.mem_map.1 he
    exact ⟨encodeStorage_ne_nil _, length_encodeStorage_lt _⟩

theorem whole_storageTrie : h.storageTrie.Whole :=
  ⟨h.storageTrie_holds.1.intact, h.storageTrie_holds.2⟩

section

variable {h} {S : Bytes → Prop} (hfree : CollisionFree S)
variable (hstorage : ∀ x, h.storage.contains x = true → S x.toBytes)
include hfree hstorage

theorem alone_slot {slot : Word} (hslot : S slot.toBytes) : Alone hashedSlot h.storage slot :=
  alone_of_collisionFree hfree (fun x _ hx => hstorage x (Table.contains_of_find? hx)) hslot

/-- The storage trie holds the words. -/
theorem storageTrie_keyed :
    ∃ m, h.storageTrie.Holds m ∧ Keyed hashedSlot encodeStorage h.storage m :=
  ⟨_, h.storageTrie_holds.1, keyed_ofList fun x _ hx => alone_slot hfree hstorage
    (hstorage x (Table.contains_of_find? hx))⟩

/-- The storage trie answers for the hash of a slot what is in the slot. -/
theorem view_storageTrie {slot : Word} (hslot : S slot.toBytes) :
    h.storageTrie.view (Path.ofWord (hashedSlot slot)).toList =
      .ok ((h.storage.find? slot).map encodeStorage) := by
  obtain ⟨m, hm, hkeyed⟩ := storageTrie_keyed hfree hstorage
  rw [hm.answers, hkeyed.find? (alone_slot hfree hstorage hslot)]

end

end Holding

/-! ## Accounts -/

namespace World

variable (w : World)

/-- The records of all accounts. -/
def records : Table Address Account := w.map fun _ h => h.account h.storageTrie.rootHash

variable {w} {a : Address} {h : Holding}

theorem storageTrie_of_find? (ha : w.find? a = some h) :
    w.commit.storageTrie a = h.storageTrie := by
  rw [CommittedWorld.storageTrie, commit, Table.find?_map, ha]
  rfl

theorem storageTrie_of_find?_eq_none (ha : w.find? a = none) :
    w.commit.storageTrie a = .empty := by
  rw [CommittedWorld.storageTrie, commit, Table.find?_map, ha]
  rfl

theorem account?_commit (w : World) (a : Address) : w.commit.account? a = w.records.find? a := by
  rw [records, Table.find?_map, CommittedWorld.account?]
  cases ha : w.find? a with
  | none => simp [commit, ha]
  | some h => simp [commit, ha, ← storageTrie_of_find? ha]

theorem accounts_commit (w : World) : w.commit.accounts =
    (Trie.ofValues (w.records.entries.map fun e =>
      (.ofWord (hashedAddress e.1), e.2.encode))).memoize := by
  have hentries : (w.records.entries.map fun e =>
        ((.ofWord (hashedAddress e.1) : Path), e.2.encode)) =
      w.entries.map fun e => (.ofWord (hashedAddress e.1),
        (e.2.account (w.commit.storageTrie e.1).rootHash).encode) := by
    rw [records, Table.map, List.map_map]
    refine List.map_congr_left fun e he => ?_
    rw [storageTrie_of_find? (Table.find?_eq_some_iff.2 he)]
    rfl
  rw [hentries]
  rfl

theorem accounts_holds (w : World) : w.commit.accounts.Holds (Table.ofList
    (w.records.entries.map fun e => (.ofWord (hashedAddress e.1), e.2.encode))) ∧
      Trie.Fits w.commit.accounts := by
  rw [accounts_commit]
  refine Trie.ofValues_holds fun e he => ?_
  obtain ⟨x, -, rfl⟩ := List.mem_map.1 he
  exact ⟨Account.encode_ne_nil _, Account.length_encode_lt _⟩

theorem whole_accounts (w : World) : w.commit.accounts.Whole :=
  ⟨w.accounts_holds.1.intact, w.accounts_holds.2⟩

/-- The root of a state is the hash of the encoding of its account trie. -/
theorem root_eq_digest {w : World} {e : Bytes} (h : w.commit.accounts.content = .ok e) :
    w.commit.root = digest e := by
  rw [CommittedWorld.root, ← w.whole_accounts.hash_eq_rootHash,
    Trie.hash_eq_digest w.whole_accounts.sound h]

theorem whole_storageTrie (w : World) (a : Address) : (w.commit.storageTrie a).Whole := by
  cases ha : w.find? a with
  | none =>
    rw [storageTrie_of_find?_eq_none ha]
    exact Trie.whole_empty
  | some h =>
    rw [storageTrie_of_find? ha]
    exact h.whole_storageTrie

theorem contains_of_find?_records {r : Account} (h : w.records.find? a = some r) :
    w.contains a = true := by
  rw [records, Table.find?_map] at h
  obtain ⟨x, hx, -⟩ := Option.map_eq_some_iff.1 h
  exact Table.contains_of_find? hx

section

variable {S : Bytes → Prop} (hfree : CollisionFree S)
variable (haccounts : ∀ b, w.contains b = true → S b.toBytes)
include hfree haccounts

theorem alone_address (ha : S a.toBytes) : Alone hashedAddress w.records a :=
  alone_of_collisionFree hfree (fun b _ hb => haccounts b (contains_of_find?_records hb)) ha

/-- The account trie holds the records. -/
theorem accounts_keyed :
    ∃ m, w.commit.accounts.Holds m ∧ Keyed hashedAddress Account.encode w.records m :=
  ⟨_, w.accounts_holds.1, keyed_ofList fun b _ hb => alone_address hfree haccounts
    (haccounts b (contains_of_find?_records hb))⟩

/-- The account trie answers for the hash of an address the record of the account. -/
theorem view_accounts (ha : S a.toBytes) :
    w.commit.accounts.view (Path.ofWord (hashedAddress a)).toList =
      .ok ((w.commit.account? a).map Account.encode) := by
  obtain ⟨m, hm, hkeyed⟩ := accounts_keyed hfree haccounts
  rw [hm.answers, hkeyed.find? (alone_address hfree haccounts ha), account?_commit]

end

/-- The storage trie of an address answers for the hash of a slot what is in the slot. -/
theorem view_storageTrie {S : Bytes → Prop} {slot : Word} (hfree : CollisionFree S)
    (hstorage : ∀ h x, w.find? a = some h → h.storage.contains x = true → S x.toBytes)
    (hslot : S slot.toBytes) :
    (w.commit.storageTrie a).view (Path.ofWord (hashedSlot slot)).toList =
      .ok (((w.find? a).bind fun h => h.storage.find? slot).map encodeStorage) := by
  cases ha : w.find? a with
  | none =>
    rw [storageTrie_of_find?_eq_none ha]
    rfl
  | some h =>
    rw [storageTrie_of_find? ha]
    exact Holding.view_storageTrie hfree (fun x hx => hstorage h x ha hx) hslot

end World

end Stateless
