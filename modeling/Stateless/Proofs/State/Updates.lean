import Mathlib.Data.Set.Function
import Stateless.Proofs.Keccak
import Stateless.Proofs.State.FullState
import Stateless.Proofs.Trie.PartialMap
import Stateless.Proofs.Trie.Root

/-!
# A state trie is what it was told

A state trie that is opened at an empty root takes any updates. It then answers what was written
last, and its root hash is that of the table which is left of the writes (`tableRoot`): overwritten
and removed values leave no trace. The only assumption is that no two of the slots, and no two of the
addresses, that are written and read have one hash. The main result is `LocalTrie.make_updates`.
-/

namespace Stateless

open Trie

section

variable {κ α : Type} [Ord κ] [Std.TransOrd κ] [Std.LawfulEqOrd κ] [DecidableEq κ] [Hasher]
variable {key : κ → Word} {encode : α → Bytes} {T : Table κ α}

omit [Std.TransOrd κ] [Std.LawfulEqOrd κ] [DecidableEq κ] in
/-- The root of a table, in which every value stands in written form under the hash of its key. -/
def tableRoot (key : κ → Word) (encode : α → Bytes) (T : Table κ α) : Word :=
  mapRoot (Table.ofList (T.entries.map fun e => (.ofWord (key e.1), encode e.2)))

omit [Std.TransOrd κ] [Std.LawfulEqOrd κ] [DecidableEq κ] in
theorem tableRoot_empty : tableRoot key encode (.empty : Table κ α) = emptyRoot := by
  show digest (MapRoot.encode []) = emptyRoot
  rw [MapRoot.encode]
  rfl

/-- Writes to an empty trie, whose keys have different hashes, make the trie of what is left of them.
-/
theorem run_writes_empty {keys : Set κ} (hinj : Set.InjOn key keys)
    (hencode : ∀ v, (Entry.value (encode v)).Storable) {writes : List (κ × Option α)}
    (hwrites : ∀ w ∈ writes, w.1 ∈ keys) :
    ∃ answers t T, Edit.run (writeEdits key encode writes) .empty = .ok (answers, t) ∧
      T.find? = overwrite writes (fun _ => none) ∧ t.hash.1 = tableRoot key encode T ∧
      ∀ x ∈ keys, t.getProven (.ofWord (key x)) = .ok ((T.find? x).map encode) := by
  have hknown : ∀ e ∈ writeEdits key encode writes, e.Puts Entry.Known := by
    intro e he
    exact (writeEdits_puts hencode e he).mono Entry.Storable.known
  obtain ⟨answers, t, hrun, hholds⟩ := Edit.run_holds hknown holds_empty
  have hempty : Keyed key encode .empty .empty := by simp [Keyed]
  have hkeyed := hempty.foldl_write (U := (· ∈ keys)) (fun x y hx hy => hinj hx hy)
    (fun x hx => absurd rfl hx) hwrites
  have hfind := Table.find?_foldl_write writes (.empty : Table κ α)
  generalize writes.foldl (fun T w => T.write w.1 w.2) (.empty : Table κ α) = T at hkeyed hfind
  have hmem : ∀ x, T.find? x ≠ none → x ∈ keys := by
    intro x hx
    by_contra hnot
    have hunwritten : x ∉ writes.map Prod.fst := fun hmem => by
      obtain ⟨w, hw, rfl⟩ := List.mem_map.1 hmem
      exact hnot (hwrites w hw)
    rw [hfind, overwrite_of_not_mem hunwritten] at hx
    exact hx rfl
  have halone : ∀ x ∈ keys, Alone key T x := fun x hx y hy heq => hinj (hmem y hy) hx heq
  refine ⟨answers, t, T, hrun, hfind, ?_, fun x hx => ?_⟩
  · have hlist : Keyed key encode T
        (Table.ofList (T.entries.map fun e => (.ofWord (key e.1), encode e.2))) :=
      keyed_ofList fun x v hx => halone x (hmem x (by simp [hx]))
    rw [hholds.hash_eq, hkeyed.unique hlist, tableRoot]
  · rw [getProven_eq, hholds.answers, hkeyed.find? (halone x hx)]
    rfl

end

theorem Word.getD_nonzero? (w : Word) : w.nonzero?.getD .zero = w := by
  unfold nonzero?
  split
  · next h => exact (FixedBytes.isZero_iff.1 h).symm
  · rfl

namespace LocalTrie

section

variable [Hasher] {l : LocalTrie}

theorem getStorage_eq {slot : Word} {o : Option Word}
    (h : l.trie.getProven (.ofWord (hashedSlot slot)) = .ok (o.map encodeStorage)) :
    l.getStorage slot = .ok (o.getD .zero) := by
  unfold getStorage
  rw [h]
  cases o with
  | none => rfl
  | some w =>
    show (decodeStorage (encodeStorage w)).mapError StateError.decode = .ok w
    rw [decodeStorage_encodeStorage]
    rfl

theorem getAccount_eq {a : Address} {o : Option Account}
    (h : l.trie.getProven (.ofWord (hashedAddress a)) = .ok (o.map Account.encode)) :
    l.getAccount a = .ok o := by
  unfold getAccount
  rw [h]
  cases o with
  | none => rfl
  | some r =>
    show ((Account.decode r.encode).map some).mapError StateError.decode = .ok (some r)
    rw [Account.decode_encode]
    rfl

/-- All writes to the slots of an empty trie succeed, and what is left of them is the trie. -/
theorem setStorage_empty (owner : TrieOwner) {slots : Set Word} (hinj : Set.InjOn hashedSlot slots)
    {writes : List (Word × Word)} (hwrites : ∀ w ∈ writes, w.1 ∈ slots) :
    ∃ l T, inTurn setStorage writes ⟨owner, .empty⟩ = (.ok (), l) ∧
      T.find? = Word.nonzero? ∘ overwrite writes (fun _ => .zero) ∧
      l.hash.1 = tableRoot hashedSlot encodeStorage T ∧
      ∀ slot ∈ slots, l.getStorage slot = .ok (overwrite writes (fun _ => .zero) slot) := by
  have hkeys : ∀ w ∈ writes.map (fun w => (w.1, w.2.nonzero?)), w.1 ∈ slots := by
    intro w hw
    obtain ⟨w', hw', rfl⟩ := List.mem_map.1 hw
    exact hwrites w' hw'
  obtain ⟨answers, t, T, hrun, hfind, hroot, hget⟩ :=
    run_writes_empty hinj storable_encodeStorage hkeys
  rw [writeEdits, List.map_map] at hrun
  have hsteps := inTurn_eq_ok (l := ⟨owner, .empty⟩) (fun l x a t => setStorage_eq_ok) hrun
  have hleft : T.find? = Word.nonzero? ∘ overwrite writes (fun _ => .zero) := by
    rw [hfind]
    exact overwrite_map Word.nonzero? writes fun _ => .zero
  refine ⟨_, T, hsteps, hleft, hroot, fun slot hslot => ?_⟩
  rw [getStorage_eq (hget slot hslot), hleft]
  exact congrArg Except.ok (Word.getD_nonzero? _)

theorem setAccount_empty (owner : TrieOwner) {addresses : Set Address}
    (hinj : Set.InjOn hashedAddress addresses) {writes : List (Address × Option Account)}
    (hwrites : ∀ w ∈ writes, w.1 ∈ addresses) :
    ∃ l T, inTurn setAccount writes ⟨owner, .empty⟩ = (.ok (), l) ∧
      T.find? = overwrite writes (fun _ => none) ∧
      l.hash.1 = tableRoot hashedAddress Account.encode T ∧
      ∀ a ∈ addresses, l.getAccount a = .ok (overwrite writes (fun _ => none) a) := by
  obtain ⟨answers, t, T, hrun, hfind, hroot, hget⟩ :=
    run_writes_empty hinj Account.storable hwrites
  have hsteps := inTurn_eq_ok (l := ⟨owner, .empty⟩) (fun l x a t => setAccount_eq_ok) hrun
  refine ⟨_, T, hsteps, hfind, hroot, fun a ha => ?_⟩
  rw [getAccount_eq (hget a ha), hfind]

/-- A trie opened at an empty root is the state that it was told. All writes to slots succeed, each
slot reads as the last word written to it, or zero, and the root hash is a function of the words that
are not zero, that of the empty trie if there are none. All writes and removals of accounts succeed,
each address reads as the account written last unless it was removed, and the root hash is a function
of the accounts. -/
theorem make_updates {root : Word} (owner : TrieOwner) (source : NodeSource)
    (hroot : isEmptyRoot root = true) {slots : Set Word} (hslots : Set.InjOn hashedSlot slots)
    {addresses : Set Address} (haddresses : Set.InjOn hashedAddress addresses) :
    ∃ l, make owner root source = .ok l ∧
      (∀ writes : List (Word × Word), (∀ w ∈ writes, w.1 ∈ slots) →
        ∃ l' T, l.inTurn setStorage writes = (.ok (), l') ∧
          (∀ slot ∈ slots, l'.getStorage slot = .ok (overwrite writes (fun _ => .zero) slot)) ∧
          T.find? = Word.nonzero? ∘ overwrite writes (fun _ => .zero) ∧
          l'.hash.1 = tableRoot hashedSlot encodeStorage T ∧
          ((∀ slot, overwrite writes (fun _ => .zero) slot = .zero) → l'.hash.1 = emptyRoot)) ∧
      ∀ writes : List (Address × Option Account), (∀ w ∈ writes, w.1 ∈ addresses) →
        ∃ l' T, l.inTurn setAccount writes = (.ok (), l') ∧
          (∀ a ∈ addresses, l'.getAccount a = .ok (overwrite writes (fun _ => none) a)) ∧
          T.find? = overwrite writes (fun _ => none) ∧
          l'.hash.1 = tableRoot hashedAddress Account.encode T := by
  have hmake : make owner root source = .ok ⟨owner, .empty⟩ := by
    rw [make, Trie.rebuild, if_pos hroot]
  refine ⟨⟨owner, .empty⟩, hmake, fun writes hwrites => ?_, fun writes hwrites => ?_⟩
  · obtain ⟨l', T, hsteps, hfind, hhash, hget⟩ := setStorage_empty owner hslots hwrites
    refine ⟨l', T, hsteps, hget, hfind, hhash, fun hzero => ?_⟩
    have hnone : T = .empty := by
      refine Table.eq_of_find?_eq fun slot => ?_
      rw [hfind, Function.comp_apply, hzero]
      rfl
    rw [hhash, hnone, tableRoot_empty]
  · obtain ⟨l', T, hsteps, hfind, hhash, hget⟩ := setAccount_empty owner haddresses hwrites
    exact ⟨l', T, hsteps, hget, hfind, hhash⟩

end

/-! ## An instance -/

namespace Told

def slot : Word := .zero

def other : Word := ⟨List.replicate 31 0 ++ [1], rfl⟩

def word : Word := ⟨List.replicate 31 0 ++ [10], rfl⟩

def address : Address := ⟨List.replicate 20 1, rfl⟩

def neighbour : Address := ⟨List.replicate 20 2, rfl⟩

def account (nonce : UInt64) : Account := ⟨nonce, 0, .zero, .zero⟩

/-- A slot is cleared again, another one is cleared first. -/
def writes : List (Word × Word) := [(other, .zero), (slot, word), (other, word), (slot, .zero)]

/-- An account is removed, another one is removed and written again. -/
def accountWrites : List (Address × Option Account) :=
  [(address, some (account 1)), (neighbour, some (account 1)), (neighbour, none), (address, none),
    (neighbour, some (account 2))]

theorem injOn_slots : Set.InjOn hashedSlot {slot, other} := by
  refine Set.injOn_pair.2 fun h => absurd (digest_eq_digest_iff.1 h) ?_
  decide +kernel

theorem injOn_addresses : Set.InjOn hashedAddress {address, neighbour} := by
  refine Set.injOn_pair.2 fun h => absurd (digest_eq_digest_iff.1 h) ?_
  decide +kernel

end Told

open Told in
/-- The hypotheses hold of Keccak-256, two slots and two accounts. Writing a word and clearing the
slot again leaves the root of the empty trie. -/
theorem make_updates_told :
    isEmptyRoot .zero = true ∧ Set.InjOn hashedSlot {slot, other} ∧
    Set.InjOn hashedAddress {address, neighbour} ∧
    ∃ l, make .account .zero (fun _ => none) = .ok l ∧
      (∃ l', l.inTurn setStorage writes = (.ok (), l') ∧ l'.getStorage slot = .ok .zero ∧
        l'.getStorage other = .ok word) ∧
      (∃ l', l.inTurn setStorage [(slot, word), (slot, .zero)] = (.ok (), l') ∧
        l'.hash.1 = emptyRoot) ∧
      ∃ l', l.inTurn setAccount accountWrites = (.ok (), l') ∧
        l'.getAccount address = .ok none ∧
        l'.getAccount neighbour = .ok (some (account 2)) := by
  have hroot : isEmptyRoot .zero = true := rfl
  obtain ⟨l, hmake, hslots, haccounts⟩ :=
    make_updates .account (fun _ => none) hroot injOn_slots injOn_addresses
  obtain ⟨l₁, -, hrun₁, hget₁, -⟩ := hslots writes (by simp [writes])
  obtain ⟨l₂, -, hrun₂, -, -, -, hempty⟩ := hslots [(slot, word), (slot, .zero)] (by simp)
  obtain ⟨l₃, -, hrun₃, hget₃, -⟩ := haccounts accountWrites (by simp [accountWrites])
  have hcleared : ∀ x, overwrite [(slot, word), (slot, .zero)] (fun _ => .zero) x = .zero := by
    intro x
    simp [overwrite, Function.update_idem]
  exact ⟨hroot, injOn_slots, injOn_addresses, l, hmake,
    ⟨l₁, hrun₁, hget₁ slot (by simp), hget₁ other (by simp)⟩, ⟨l₂, hrun₂, hempty hcleared⟩,
    l₃, hrun₃, hget₃ address (by simp), hget₃ neighbour (by simp)⟩

end LocalTrie

end Stateless
