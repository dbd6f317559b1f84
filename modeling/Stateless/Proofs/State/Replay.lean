import Stateless.Proofs.State.Prepared
import Stateless.Proofs.State.StateTrie

/-!
# Carrying out a prepared block

From the nodes of a prepared block the tries of the state before it are opened as far as the block
needs them, and every sequence of updates that ends with the state after the block ends with its
roots. The main result is `prepared_updates`.

What happens on the way does not matter: slots may be emptied and filled again, accounts removed and
put back. Only the final contents decide about the trie that all updates together make.
-/

namespace Stateless

open Trie

section

variable [Hasher]

/-- An access list has every account and, of accounts that exist both before and after, every slot in
which two states differ. -/
structure AccessList.Covers (list : AccessList) (pre post : World) : Prop where
  account {a : Address} : pre.commit.account? a ≠ post.commit.account? a →
    list.containsAccount a = true
  slot {a : Address} {slot : Word} : pre.contains a = true → post.contains a = true →
    pre.commit.word a slot ≠ post.commit.word a slot → list.containsSlot a slot = true

namespace World

omit [Hasher] in
/-- A slot with the zero word is not there. -/
def Proper (w : World) : Prop :=
  ∀ a h slot, w.find? a = some h → h.storage.find? slot ≠ some .zero

/-- No two different keys of one trie of the state agree in all nibbles but the last. -/
structure Spread (w : World) : Prop where
  accounts {a b : Address} : w.contains a = true → w.contains b = true →
    (Path.ofWord (hashedAddress a)).toList.take (maxNibbles - 1) =
      (Path.ofWord (hashedAddress b)).toList.take (maxNibbles - 1) →
    hashedAddress a = hashedAddress b
  storage {a : Address} {h : Holding} {x y : Word} : w.find? a = some h →
    h.storage.contains x = true → h.storage.contains y = true →
    (Path.ofWord (hashedSlot x)).toList.take (maxNibbles - 1) =
      (Path.ofWord (hashedSlot y)).toList.take (maxNibbles - 1) →
    hashedSlot x = hashedSlot y

variable {w pre post : World} {list : AccessList} {a : Address} {h : Holding}

/-- The storage of an account has the words of the account that are not zero. -/
theorem Proper.find?_storage (hw : w.Proper) (ha : w.find? a = some h) :
    h.storage.find? = Word.nonzero? ∘ w.commit.word a := by
  funext slot
  have hword : w.commit.word a slot =
      ((w.find? a).bind fun h => h.storage.find? slot).getD .zero := rfl
  rw [Function.comp_apply, hword, ha, Option.bind_some, Word.nonzero?]
  cases hslot : h.storage.find? slot with
  | none => rfl
  | some v =>
    have hv : ¬ v.isZero = true := fun hzero =>
      hw a h slot ha (by rw [hslot, FixedBytes.isZero_iff.1 hzero])
    rw [Option.getD_some, if_neg hv]

end World

variable {node : RemoteNode} {n : UInt64} {pre post : World} {list : AccessList}
variable {source : NodeSource} {a : Address} {h h' : Holding}

namespace NodeSource.Carries

/-- From a source that carries a transition the storage trie of a listed account opens, and writes to
listed slots that end with the words after the transition lead to the root after it. -/
theorem storage_updates (hcarries : source.Carries list pre post)
    (hfree : CollisionFree (pre.Involved post list)) (hcovers : list.Covers pre post)
    (hproper : pre.Proper) (hproper' : post.Proper) (hspread : pre.Spread)
    (ha : list.containsAccount a = true) (hslots : list.slots a ≠ []) (hpre : pre.find? a = some h)
    (hpost : post.find? a = some h') (hne : pre.commit.storageTrie a ≠ .empty) (owner : TrieOwner) :
    ∃ l, LocalTrie.make owner (pre.commit.storageTrie a).rootHash source = .ok l ∧
      ∀ writes : List (Word × Word), (∀ w ∈ writes, list.containsSlot a w.1 = true) →
        (∀ slot, list.containsSlot a slot = true →
          overwrite writes (pre.commit.word a) slot = post.commit.word a slot) →
        ∃ l', LocalTrie.inTurn LocalTrie.setStorage writes l = (.ok (), l') ∧
          l'.hash.1 = (post.commit.storageTrie a).rootHash := by
  refine ⟨⟨owner, (pre.commit.storageTrie a).knownTo source⟩, ?_, fun writes hwrites hlast => ?_⟩
  · rw [LocalTrie.make, hcarries.rebuild_storage hfree ha hslots hne]
  obtain ⟨s, hbridges, hserved⟩ := hcarries.storage ha hne
  have hwords : overwrite writes (pre.commit.word a) = post.commit.word a :=
    overwrite_eq hwrites hlast fun slot hslot => not_not.1 fun hdiff =>
      hslot (hcovers.slot (Table.contains_of_find? hpre) (Table.contains_of_find? hpost) hdiff)
  -- the trie has no entries for zero words, and a zero that is written removes its entry
  have htable : overwrite (writes.map fun w => (w.1, w.2.nonzero?)) h.storage.find? =
      h'.storage.find? := by
    rw [hproper.find?_storage hpre, hproper'.find?_storage hpost, overwrite_map, hwords]
  have hstorage : ∀ x, h.storage.contains x = true → pre.Involved post list x.toBytes :=
    fun x hx => .slot ha (Or.inl hpre) hx
  have hstorage' : ∀ x, h'.storage.contains x = true → pre.Involved post list x.toBytes :=
    fun x hx => .slot ha (Or.inr hpost) hx
  obtain ⟨m, hm, hkeyed⟩ := Holding.storageTrie_keyed hfree hstorage
  obtain ⟨m', hm', hkeyed'⟩ := Holding.storageTrie_keyed hfree hstorage'
  rw [World.storageTrie_of_find? hpre, World.storageTrie_of_find? hpost] at hbridges
  rw [World.storageTrie_of_find? hpre, World.storageTrie_of_find? hpost]
  have hapart := hm.spread hkeyed fun x y hx hy => hspread.storage hpre
    (Option.isSome_iff_ne_none.2 hx) (Option.isSome_iff_ne_none.2 hy)
  obtain ⟨answers, p, hrun, hroot⟩ := hbridges.replay_writes hserved h.whole_storageTrie.fits hapart
    hm hkeyed hm' hkeyed' (fun x y hx hy heq => FixedBytes.ext (hfree.inj hx hy heq))
    (fun x hx => hstorage x (Option.isSome_iff_ne_none.2 hx))
    (List.forall_mem_map.2 fun w hw => ⟨.listedSlot (hwrites w hw),
      List.mem_map_of_mem (AccessList.mem_slots_iff.2 (hwrites w hw))⟩)
    (fun v => ⟨encodeStorage_ne_nil v, length_encodeStorage_lt v⟩) htable
  rw [writeEdits, List.map_map] at hrun
  refine ⟨_, LocalTrie.inTurn_eq_ok (fun l w b t => LocalTrie.setStorage_eq_ok) hrun, ?_⟩
  exact hroot.trans h'.whole_storageTrie.hash_eq_rootHash

/-- From a source that carries a transition the account trie opens, and updates of listed accounts
that end with the accounts after the transition lead to the root after it. -/
theorem account_updates (hcarries : source.Carries list pre post)
    (hfree : CollisionFree (pre.Involved post list)) (hcovers : list.Covers pre post)
    (hspread : pre.Spread) (hlist : list.addresses ≠ []) :
    ∃ l, LocalTrie.make .account pre.commit.root source = .ok l ∧
      ∀ writes : List (Address × Option Account), (∀ w ∈ writes, list.containsAccount w.1 = true) →
        (∀ a, list.containsAccount a = true →
          overwrite writes pre.commit.account? a = post.commit.account? a) →
        ∃ l', LocalTrie.inTurn LocalTrie.setAccount writes l = (.ok (), l') ∧
          l'.hash.1 = post.commit.root := by
  refine ⟨⟨.account, pre.commit.accounts.knownTo source⟩, ?_, fun writes hwrites hlast => ?_⟩
  · rw [LocalTrie.make, hcarries.rebuild_accounts hfree hlist]
  obtain ⟨s, hbridges, hserved⟩ := hcarries.accounts
  have haccounts : overwrite writes pre.commit.account? = post.commit.account? :=
    overwrite_eq hwrites hlast fun a ha => not_not.1 fun hdiff => ha (hcovers.account hdiff)
  have htable : overwrite writes pre.records.find? = post.records.find? := by
    rw [← funext pre.account?_commit, ← funext post.account?_commit, haccounts]
  have hcontains : ∀ b, pre.contains b = true → pre.Involved post list b.toBytes :=
    fun b hb => .address (Or.inr (Or.inl hb))
  have hcontains' : ∀ b, post.contains b = true → pre.Involved post list b.toBytes :=
    fun b hb => .address (Or.inr (Or.inr hb))
  obtain ⟨m, hm, hkeyed⟩ := World.accounts_keyed hfree hcontains
  obtain ⟨m', hm', hkeyed'⟩ := World.accounts_keyed hfree hcontains'
  have hrecords : ∀ {b}, pre.records.find? b ≠ none → pre.contains b = true := fun {b} hb => by
    obtain ⟨r, hr⟩ := Option.ne_none_iff_exists'.1 hb
    exact World.contains_of_find?_records hr
  have hapart := hm.spread hkeyed fun x y hx hy => hspread.accounts (hrecords hx) (hrecords hy)
  obtain ⟨answers, p, hrun, hroot⟩ := hbridges.replay_writes hserved pre.whole_accounts.fits hapart
    hm hkeyed hm' hkeyed' (fun x y hx hy heq => FixedBytes.ext (hfree.inj hx hy heq))
    (fun x hx => hcontains x (hrecords hx))
    (fun w hw => ⟨.address (Or.inl (hwrites w hw)),
      List.mem_map_of_mem (AccessList.mem_addresses_iff.2 (hwrites w hw))⟩)
    (fun r => ⟨r.encode_ne_nil, r.length_encode_lt⟩) htable
  refine ⟨_, LocalTrie.inTurn_eq_ok (fun l w b t => LocalTrie.setAccount_eq_ok) hrun, ?_⟩
  exact hroot.trans post.whole_accounts.hash_eq_rootHash

end NodeSource.Carries

/-- A block can be prepared from an honest node with any access list that is not empty and covers the
change of the state, and its nodes can be written into an empty store. From the store the account
trie opens, and so does the storage trie of every account with a listed slot that is there before and
after the block and has storage before it. Updates of what is listed that end with the state after
the block succeed, in any order and with any values in between, and end with its roots. -/
theorem prepared_updates (hhonest : node.Honest n pre post) (hn : n ≠ 0) (hlist : list ≠ .empty)
    (hcovers : list.Covers pre post) (hproper : pre.Proper) (hproper' : post.Proper)
    (hspread : pre.Spread) (hfree : CollisionFree (pre.Involved post list)) :
    ∃ p count store, PreparedBlock.prepare node n list = .ok p ∧
      p.writeNodes (NodeTable.write .empty) = .ok (count, store) ∧
      p.preRoot = pre.commit.root ∧ p.postRoot = post.commit.root ∧
      (∀ a r r', list.containsAccount a = true → list.slots a ≠ [] →
        pre.commit.account? a = some r → post.commit.account? a = some r' →
        pre.commit.storageTrie a ≠ .empty →
        ∃ l, LocalTrie.make (.storage (hashedAddress a)) r.storageRoot store.source = .ok l ∧
          ∀ writes : List (Word × Word), (∀ w ∈ writes, list.containsSlot a w.1 = true) →
            (∀ slot, list.containsSlot a slot = true →
              overwrite writes (pre.commit.word a) slot = post.commit.word a slot) →
            ∃ l', LocalTrie.inTurn LocalTrie.setStorage writes l = (.ok (), l') ∧
              l'.hash.1 = r'.storageRoot) ∧
      ∃ l, LocalTrie.make .account p.preRoot store.source = .ok l ∧
        ∀ writes : List (Address × Option Account),
          (∀ w ∈ writes, list.containsAccount w.1 = true) →
          (∀ a, list.containsAccount a = true →
            overwrite writes pre.commit.account? a = post.commit.account? a) →
          ∃ l', LocalTrie.inTurn LocalTrie.setAccount writes l = (.ok (), l') ∧
            l'.hash.1 = p.postRoot := by
  obtain ⟨p, hp, hatt⟩ := hhonest.prepare_eq_ok hn list
  obtain ⟨count, store, hwrite, hcarries⟩ := hatt.writeNodes_eq_ok hfree
  refine ⟨p, count, store, hp, hwrite, hatt.preRoot, hatt.postRoot, ?_, ?_⟩
  · intro a r r' ha hslots hpre hpost hne
    obtain ⟨h, hh, -⟩ := Option.map_eq_some_iff.1 hpre
    obtain ⟨h', hh', -⟩ := Option.map_eq_some_iff.1 hpost
    rw [World.storageRoot_of_account? hpre, World.storageRoot_of_account? hpost]
    exact hcarries.storage_updates hfree hcovers hproper hproper' hspread ha hslots hh hh' hne _
  · rw [hatt.preRoot, hatt.postRoot]
    exact hcarries.account_updates hfree hcovers hspread (AccessList.addresses_ne_nil hlist)

end

/-! ## An instance -/

namespace Closing

open Clearing (slot slotHash word hashedSlot_slot codeHash digest_nil clearRoot digest_emptyData)

/-! One account clears one of its two slots, another one is removed, and a third one stays as it is. -/

def owner : Address := ⟨List.replicate 20 13, rfl⟩

def closed : Address := ⟨List.replicate 20 5, rfl⟩

def bystander : Address := ⟨List.replicate 20 12, rfl⟩

def kept : Word := ⟨List.replicate 31 0 ++ [2], rfl⟩

def keptWord : Word := ⟨List.replicate 31 0 ++ [9], rfl⟩

def full : Holding := ⟨1, 0, [], (Table.empty.insert slot word).insert kept keptWord⟩

def thinned : Holding := ⟨2, 0, [], Table.empty.insert kept keptWord⟩

def plain : Holding := ⟨1, 0, [], .empty⟩

/-- The state before the change. -/
def before : World := ((Table.empty.insert closed plain).insert bystander plain).insert owner full

/-- The state after the change. -/
def after : World := (Table.empty.insert bystander plain).insert owner thinned

/-- What the change touches. -/
def touched : AccessList := (AccessList.empty.addSlot owner slot).addAccount closed

/-- A node that knows both states. -/
def node : RemoteNode := (Chain.ofWorlds 1 [before, after]).node

theorem honest : node.Honest 1 before after := Chain.honest (by decide) rfl rfl

theorem find?_before (a : Address) : before.find? a = if a = owner then some full
    else if a = bystander then some plain else if a = closed then some plain else none := by
  simp [before]

theorem find?_after (a : Address) : after.find? a = if a = owner then some thinned
    else if a = bystander then some plain else none := by
  simp [after]

variable {a : Address} {h : Holding} {x : Word} {b : Bytes}

theorem cases_before (hh : before.find? a = some h) :
    (a = owner ∧ h = full) ∨ (a = bystander ∧ h = plain) ∨ (a = closed ∧ h = plain) := by
  rw [find?_before] at hh
  split at hh
  · next ha => exact Or.inl ⟨ha, (Option.some.inj hh).symm⟩
  · split at hh
    · next ha => exact Or.inr (Or.inl ⟨ha, (Option.some.inj hh).symm⟩)
    · split at hh
      · next ha => exact Or.inr (Or.inr ⟨ha, (Option.some.inj hh).symm⟩)
      · cases hh

theorem cases_after (hh : after.find? a = some h) :
    (a = owner ∧ h = thinned) ∨ (a = bystander ∧ h = plain) := by
  rw [find?_after] at hh
  split at hh
  · next ha => exact Or.inl ⟨ha, (Option.some.inj hh).symm⟩
  · split at hh
    · next ha => exact Or.inr ⟨ha, (Option.some.inj hh).symm⟩
    · cases hh

theorem contains_before (ha : before.contains a = true) :
    a = owner ∨ a = bystander ∨ a = closed := by
  obtain ⟨h, hh⟩ := Option.isSome_iff_exists.1 ha
  exact (cases_before hh).imp And.left (Or.imp And.left And.left)

theorem contains_after (ha : after.contains a = true) : a = owner ∨ a = bystander := by
  obtain ⟨h, hh⟩ := Option.isSome_iff_exists.1 ha
  exact (cases_after hh).imp And.left And.left

theorem find?_full (x : Word) : full.storage.find? x =
    if x = kept then some keptWord else if x = slot then some word else none := by
  simp [full]

theorem find?_thinned (x : Word) :
    thinned.storage.find? x = if x = kept then some keptWord else none := by
  simp [thinned]

theorem contains_full (hx : full.storage.contains x = true) : x = kept ∨ x = slot := by
  by_contra hnot
  rw [not_or] at hnot
  rw [Table.contains, find?_full, if_neg hnot.1, if_neg hnot.2] at hx
  cases hx

theorem contains_thinned (hx : thinned.storage.contains x = true) : x = kept := by
  by_contra hnot
  rw [Table.contains, find?_thinned, if_neg hnot] at hx
  cases hx

theorem containsAccount_touched :
    touched.containsAccount a = true ↔ a = owner ∨ a = closed := by
  rw [touched, AccessList.containsAccount_addAccount, AccessList.containsAccount_addSlot, or_comm]
  exact or_congr_left (or_iff_left nofun)

theorem containsSlot_touched :
    touched.containsSlot a x = true ↔ a = owner ∧ x = slot := by
  rw [touched, AccessList.containsSlot_addAccount, AccessList.containsSlot_addSlot]
  exact or_iff_left nofun

/-! ### The keys -/

def ownerHash : Word := ⟨[
  0xd3, 0x4e, 0x99, 0x6b, 0xa6, 0xf1, 0x85, 0x44, 0x7d, 0x79, 0x87, 0x24, 0xa3, 0x15, 0xdb, 0xf6,
  0xf9, 0x6f, 0x19, 0x81, 0x83, 0xba, 0x59, 0x3e, 0xe3, 0x62, 0x85, 0x6b, 0xa5, 0x07, 0x13, 0xc8],
  rfl⟩

def closedHash : Word := ⟨[
  0x68, 0x5e, 0x6e, 0x68, 0x19, 0x72, 0x29, 0xce, 0x85, 0xc1, 0x7d, 0xc3, 0x61, 0x18, 0xfe, 0x13,
  0xf0, 0xbf, 0xde, 0x48, 0x65, 0x2d, 0x7e, 0x99, 0x17, 0x93, 0xb6, 0x71, 0x02, 0x33, 0xfe, 0x1c],
  rfl⟩

def bystanderHash : Word := ⟨[
  0x61, 0x3e, 0x55, 0x98, 0x96, 0x65, 0x05, 0xe3, 0x76, 0x11, 0x37, 0x68, 0x5d, 0xc3, 0x86, 0xcb,
  0x60, 0x18, 0x60, 0x73, 0xee, 0x59, 0xac, 0x47, 0xaa, 0xa6, 0xff, 0x18, 0x5e, 0x57, 0xec, 0xd4],
  rfl⟩

def keptHash : Word := ⟨[
  0x40, 0x57, 0x87, 0xfa, 0x12, 0xa8, 0x23, 0xe0, 0xf2, 0xb7, 0x63, 0x1c, 0xc4, 0x1b, 0x3b, 0xa8,
  0x82, 0x8b, 0x33, 0x21, 0xca, 0x81, 0x11, 0x11, 0xfa, 0x75, 0xcd, 0x3a, 0xa3, 0xbb, 0x5a, 0xce],
  rfl⟩

theorem hashedAddress_owner : hashedAddress owner = ownerHash := digest_eq_iff.2 (by decide +kernel)

theorem hashedAddress_closed : hashedAddress closed = closedHash :=
  digest_eq_iff.2 (by decide +kernel)

theorem hashedAddress_bystander : hashedAddress bystander = bystanderHash :=
  digest_eq_iff.2 (by decide +kernel)

theorem hashedSlot_kept : hashedSlot kept = keptHash := digest_eq_iff.2 (by decide +kernel)

/-! ### The storage -/

def clearedLeaf : Bytes := leafEncoding ((Path.ofWord slotHash).drop 1) [7]

def keptLeaf (i : Nat) : Bytes := leafEncoding ((Path.ofWord keptHash).drop i) [9]

def storageEncoding : Bytes := twinEncoding 0xb clearedLeaf 4 (keptLeaf 1)

theorem storageTrie_full : full.storageTrie =
    (twin 0xb (.leaf ((Path.ofWord slotHash).drop 1) [7] none) 4
      (.leaf ((Path.ofWord keptHash).drop 1) [9] none)).memoize := by
  have hword : encodeStorage word = [7] := by decide +kernel
  have hkept : encodeStorage keptWord = [9] := by decide +kernel
  have htrie : full.storageTrie = (ofValues [(.ofWord (hashedSlot slot), encodeStorage word),
      (.ofWord (hashedSlot kept), encodeStorage keptWord)]).memoize := rfl
  rw [htrie, hashedSlot_slot, hashedSlot_kept, hword, hkept]
  rfl

theorem storageTrie_full_ne_empty : full.storageTrie ≠ .empty := by
  rw [storageTrie_full, Ne, ← forget_eq_empty_iff, forget_memoize, forget_eq_empty_iff]
  exact nofun

theorem storageTrie_thinned :
    thinned.storageTrie = (leaf (.ofWord keptHash) [9] none).memoize := by
  have hkept : encodeStorage keptWord = [9] := by decide +kernel
  have htrie : thinned.storageTrie =
      (ofValues [(.ofWord (hashedSlot kept), encodeStorage keptWord)]).memoize := rfl
  rw [htrie, hashedSlot_kept, hkept]
  rfl

theorem stout_cleared :
    Stout (.leaf ((Path.ofWord slotHash).drop 1) [7] none) clearedLeaf :=
  stout_leaf (by decide)

theorem stout_kept : Stout (.leaf ((Path.ofWord keptHash).drop 1) [9] none) (keptLeaf 1) :=
  stout_leaf (by decide)

def fullRecord : Account := ⟨1, 0, digest storageEncoding, codeHash⟩

def thinRecord : Account := ⟨2, 0, digest (keptLeaf 0), codeHash⟩

def plainRecord : Account := ⟨1, 0, clearRoot, codeHash⟩

theorem account_full : full.account full.storageTrie.rootHash = fullRecord := by
  rw [storageTrie_full, (stout_cleared.twin stout_kept).rootHash]
  simp [Holding.account, Account.withCode, Account.new, full, digest_nil, fullRecord, storageEncoding]

theorem account_thinned : thinned.account thinned.storageTrie.rootHash = thinRecord := by
  have hstout : Stout (leaf (.ofWord keptHash) [9] none) (keptLeaf 0) := stout_leaf (by decide)
  rw [storageTrie_thinned, hstout.rootHash]
  simp [Holding.account, Account.withCode, Account.new, thinned, digest_nil, thinRecord]

theorem account_plain : plain.account plain.storageTrie.rootHash = plainRecord := by
  have hroot : plain.storageTrie.rootHash = clearRoot := digest_emptyData
  rw [hroot]
  simp [Holding.account, Account.withCode, Account.new, plain, digest_nil, plainRecord]

/-! ### The accounts -/

/-- The leaf of an account below the first `i` nibbles of its key. -/
def accountLeaf (key : Word) (i : Nat) (r : Account) : Bytes :=
  leafEncoding ((Path.ofWord key).drop i) r.encode

theorem stout_account (key : Word) (i : Nat) (r : Account) :
    Stout (.leaf ((Path.ofWord key).drop i) r.encode none) (accountLeaf key i r) := by
  have hroot : hashLength ≤ r.encode.length := by
    have hword : hashLength ≤ (Rlp.data r.storageRoot.toBytes).length := by
      rw [length_data_word]
      decide
    exact hword.trans ((Rlp.length_le_of_mem (by simp)).trans (Rlp.flatten_length_le _))
  have hvalue : r.encode.length ≤ (accountLeaf key i r).length :=
    (Rlp.length_le_data _).trans ((Rlp.length_le_of_mem (by simp)).trans (Rlp.flatten_length_le _))
  exact stout_leaf (hroot.trans hvalue)

/-- The branch above the account that is removed and the one that stays. -/
def inner : Trie :=
  twin 8 (.leaf ((Path.ofWord closedHash).drop 2) plainRecord.encode none)
    1 (.leaf ((Path.ofWord bystanderHash).drop 2) plainRecord.encode none)

def innerEncoding : Bytes :=
  twinEncoding 8 (accountLeaf closedHash 2 plainRecord) 1 (accountLeaf bystanderHash 2 plainRecord)

theorem stout_inner : Stout inner innerEncoding :=
  (stout_account closedHash 2 plainRecord).twin (stout_account bystanderHash 2 plainRecord)

def encodingBefore : Bytes :=
  twinEncoding 6 innerEncoding 0xd (accountLeaf ownerHash 1 fullRecord)

def encodingAfter : Bytes :=
  twinEncoding 6 (accountLeaf bystanderHash 1 plainRecord) 0xd (accountLeaf ownerHash 1 thinRecord)

theorem accounts_before : before.commit.accounts =
    (twin 6 inner 0xd (.leaf ((Path.ofWord ownerHash).drop 1) fullRecord.encode none)).memoize := by
  have htrie : before.commit.accounts = (ofValues
      [(.ofWord (hashedAddress closed), (plain.account plain.storageTrie.rootHash).encode),
        (.ofWord (hashedAddress bystander), (plain.account plain.storageTrie.rootHash).encode),
        (.ofWord (hashedAddress owner), (full.account full.storageTrie.rootHash).encode)]).memoize :=
    before.accounts_commit
  rw [htrie, hashedAddress_closed, hashedAddress_bystander, hashedAddress_owner, account_plain,
    account_full]
  rfl

theorem accounts_after : after.commit.accounts =
    (twin 6 (.leaf ((Path.ofWord bystanderHash).drop 1) plainRecord.encode none)
      0xd (.leaf ((Path.ofWord ownerHash).drop 1) thinRecord.encode none)).memoize := by
  have htrie : after.commit.accounts = (ofValues
      [(.ofWord (hashedAddress bystander), (plain.account plain.storageTrie.rootHash).encode),
        (.ofWord (hashedAddress owner), (thinned.account thinned.storageTrie.rootHash).encode)]).memoize :=
    after.accounts_commit
  rw [htrie, hashedAddress_bystander, hashedAddress_owner, account_plain, account_thinned]
  rfl

theorem root_before : before.commit.root = digest encodingBefore := by
  have hstout : Stout (twin 6 inner 0xd (.leaf _ fullRecord.encode none)) encodingBefore :=
    stout_inner.twin (stout_account ownerHash 1 fullRecord)
  refine World.root_eq_digest ?_
  rw [accounts_before, content_memoize hstout.sound]
  exact hstout.content

theorem root_after : after.commit.root = digest encodingAfter := by
  have hstout : Stout (twin 6 (.leaf _ plainRecord.encode none) 0xd (.leaf _ thinRecord.encode none))
      encodingAfter :=
    (stout_account bystanderHash 1 plainRecord).twin (stout_account ownerHash 1 thinRecord)
  refine World.root_eq_digest ?_
  rw [accounts_after, content_memoize hstout.sound]
  exact hstout.content

/-! ### What is hashed -/

/-- All byte strings that are hashed. The orphans are the leaves after the change with the front of
their fragments taken off. -/
def hashed : List Bytes :=
  [Rlp.emptyData, owner.toBytes, closed.toBytes, bystander.toBytes, slot.toBytes, kept.toBytes,
    storageEncoding, clearedLeaf, encodingBefore, innerEncoding, accountLeaf closedHash 2 plainRecord,
    accountLeaf ownerHash 1 fullRecord, encodingAfter] ++
  (List.range 64).map keptLeaf ++
  (List.range 63).map (fun i => accountLeaf bystanderHash (1 + i) plainRecord) ++
  (List.range 63).map fun i => accountLeaf ownerHash (1 + i) thinRecord

theorem keptLeaf_mem {i : Nat} (hi : i < 64) : keptLeaf i ∈ hashed := by
  have := List.mem_map_of_mem (f := keptLeaf) (List.mem_range.2 hi)
  simp only [hashed, List.mem_append, this, true_or, or_true]

theorem bystanderLeaf_mem {i : Nat} (hi : i < 63) :
    accountLeaf bystanderHash (1 + i) plainRecord ∈ hashed := by
  have := List.mem_map_of_mem (f := fun i => accountLeaf bystanderHash (1 + i) plainRecord)
    (List.mem_range.2 hi)
  simp only [hashed, List.mem_append, this, true_or, or_true]

theorem ownerLeaf_mem {i : Nat} (hi : i < 63) :
    accountLeaf ownerHash (1 + i) thinRecord ∈ hashed := by
  have := List.mem_map_of_mem (f := fun i => accountLeaf ownerHash (1 + i) thinRecord)
    (List.mem_range.2 hi)
  simp only [hashed, List.mem_append, this, or_true]

theorem encodes_before (h : before.commit.accounts.Encodes b) : b ∈ hashed := by
  rw [accounts_before] at h
  have hclosed := stout_account closedHash 2 plainRecord
  have hbystander := stout_account bystanderHash 2 plainRecord
  have howner := stout_account ownerHash 1 fullRecord
  rcases stout_inner.encodes_twin howner (h.of_memoize (stout_inner.twin howner).sound) with
    rfl | h | h | rfl
  · simp [hashed, encodingBefore]
  · rcases hclosed.encodes_twin hbystander h with rfl | h | h | rfl
    · simp [hashed, innerEncoding]
    · simp [hashed, encodes_leaf.1 h, accountLeaf]
    · rw [encodes_leaf.1 h]
      exact bystanderLeaf_mem (i := 1) (by decide)
    · simp [hashed]
  · simp [hashed, encodes_leaf.1 h, accountLeaf]
  · simp [hashed]

theorem encodes_after (h : after.commit.accounts.Encodes b) : b ∈ hashed := by
  rw [accounts_after] at h
  have hbystander := stout_account bystanderHash 1 plainRecord
  have howner := stout_account ownerHash 1 thinRecord
  rcases hbystander.encodes_twin howner (h.of_memoize (hbystander.twin howner).sound) with
    rfl | h | h | rfl
  · simp [hashed, encodingAfter]
  · rw [encodes_leaf.1 h]
    exact bystanderLeaf_mem (i := 0) (by decide)
  · rw [encodes_leaf.1 h]
    exact ownerLeaf_mem (i := 0) (by decide)
  · simp [hashed]

theorem shortens_after (h : after.commit.accounts.Shortens b) : b ∈ hashed := by
  rw [accounts_after] at h
  have hbystander := stout_account bystanderHash 1 plainRecord
  have howner := stout_account ownerHash 1 thinRecord
  rcases shortens_twin (h.of_memoize (hbystander.twin howner).sound) with h | h
  · obtain ⟨i, hi, rfl⟩ := shortens_leaf.1 h
    rw [Path.drop_drop]
    exact bystanderLeaf_mem hi
  · obtain ⟨i, hi, rfl⟩ := shortens_leaf.1 h
    rw [Path.drop_drop]
    exact ownerLeaf_mem hi

theorem encodes_full (h : full.storageTrie.Encodes b) : b ∈ hashed := by
  rw [storageTrie_full] at h
  rcases stout_cleared.encodes_twin stout_kept (h.of_memoize (stout_cleared.twin stout_kept).sound)
    with rfl | h | h | rfl
  · simp [hashed, storageEncoding]
  · simp [hashed, encodes_leaf.1 h, clearedLeaf]
  · rw [encodes_leaf.1 h]
    exact keptLeaf_mem (i := 1) (by decide)
  · simp [hashed]

theorem encodes_thinned (h : thinned.storageTrie.Encodes b) : b ∈ hashed := by
  rw [storageTrie_thinned] at h
  rw [encodes_leaf.1 (h.of_memoize (sound_leaf _ _))]
  exact keptLeaf_mem (i := 0) (by decide)

theorem shortens_thinned (h : thinned.storageTrie.Shortens b) : b ∈ hashed := by
  rw [storageTrie_thinned] at h
  obtain ⟨i, hi, rfl⟩ := shortens_leaf.1 (h.of_memoize (sound_leaf _ _))
  exact keptLeaf_mem (hi.trans_eq (Path.length_ofWord keptHash))

theorem mem_hashed (h : before.Involved after touched b) : b ∈ hashed := by
  cases h with
  | accounts h =>
    rcases h with rfl | h | h | ⟨path, node, h, rfl⟩
    · simp [hashed]
    · exact encodes_before h
    · exact encodes_after h
    · exact shortens_after h.shortens
  | storage ha h =>
    rcases containsAccount_touched.1 ha with rfl | rfl
    · rw [World.storageTrie_of_find? (find?_before owner),
        World.storageTrie_of_find? (find?_after owner)] at h
      rcases h with rfl | h | h | ⟨path, node, h, rfl⟩
      · simp [hashed]
      · exact encodes_full h
      · exact encodes_thinned h
      · exact shortens_thinned h.shortens
    · -- there is no storage
      rw [World.storageTrie_of_find? (find?_before closed),
        World.storageTrie_of_find?_eq_none (find?_after closed)] at h
      rcases h with rfl | h | h | ⟨path, node, h, rfl⟩
      · simp [hashed]
      · simp [hashed, encodes_empty.1 h]
      · simp [hashed, encodes_empty.1 h]
      · exact absurd h.shortens not_shortens_empty
  | address ha =>
    have hmem : ∀ {a : Address}, a = owner ∨ a = bystander ∨ a = closed → a.toBytes ∈ hashed := by
      rintro a (rfl | rfl | rfl) <;> simp [hashed]
    rcases ha with ha | ha | ha
    · exact hmem ((containsAccount_touched.1 ha).imp_right Or.inr)
    · exact hmem (contains_before ha)
    · exact hmem ((contains_after ha).imp_right Or.inl)
  | listedSlot ha =>
    rw [(containsSlot_touched.1 ha).2]
    simp [hashed]
  | slot ha hh hslot =>
    rcases hh with hh | hh
    · rcases cases_before hh with ⟨-, rfl⟩ | ⟨-, rfl⟩ | ⟨-, rfl⟩
      · rcases contains_full hslot with rfl | rfl
        · simp [hashed]
        · simp [hashed]
      · cases hslot
      · cases hslot
    · rcases cases_after hh with ⟨-, rfl⟩ | ⟨-, rfl⟩
      · rw [contains_thinned hslot]
        simp [hashed]
      · cases hslot

theorem collisionFree : CollisionFree (before.Involved after touched) := by
  refine collisionFree_of_nodup (fun b => mem_hashed) ?_
  simp only [hashed, storageEncoding, clearedLeaf, encodingBefore, innerEncoding, encodingAfter,
    accountLeaf, keptLeaf, plainRecord, fullRecord, thinRecord, twinEncoding, digest_eq]
  decide +kernel

/-! ### Covering the change -/

theorem covers : touched.Covers before after where
  account {a} hdiff := by
    refine containsAccount_touched.2 (by_contra fun ha => hdiff ?_)
    rw [not_or] at ha
    have hfind : before.find? a = after.find? a := by
      rw [find?_before, find?_after, if_neg ha.1, if_neg ha.1, if_neg ha.2]
    simp [World.account?_commit, World.records, Table.find?_map, hfind]
  slot {a x} _ ha hdiff := by
    refine containsSlot_touched.2 (by_contra fun hnot => hdiff ?_)
    have hword : ∀ w : World, w.commit.word a x =
        ((w.find? a).bind fun h => h.storage.find? x).getD .zero := fun _ => rfl
    rw [hword, hword]
    rcases contains_after ha with rfl | rfl
    · have hx : x ≠ slot := fun hx => hnot ⟨rfl, hx⟩
      have hbefore : before.find? owner = some full := find?_before owner
      have hafter : after.find? owner = some thinned := find?_after owner
      rw [hbefore, hafter, Option.bind_some, Option.bind_some, find?_full, find?_thinned, if_neg hx]
    · rfl

theorem proper_before : before.Proper := fun a h x ha hx => by
  rcases cases_before ha with ⟨-, rfl⟩ | ⟨-, rfl⟩ | ⟨-, rfl⟩
  · rw [find?_full] at hx
    split at hx
    · exact absurd (Option.some.inj hx) (by decide)
    · split at hx
      · exact absurd (Option.some.inj hx) (by decide)
      · cases hx
  · cases hx
  · cases hx

theorem proper_after : after.Proper := fun a h x ha hx => by
  rcases cases_after ha with ⟨-, rfl⟩ | ⟨-, rfl⟩
  · rw [find?_thinned] at hx
    split at hx
    · exact absurd (Option.some.inj hx) (by decide)
    · cases hx
  · cases hx

theorem keys_apart : ∀ i ∈ [ownerHash, bystanderHash, closedHash, slotHash, keptHash],
    ∀ j ∈ [ownerHash, bystanderHash, closedHash, slotHash, keptHash],
      (Path.ofWord i).toList.take (maxNibbles - 1) = (Path.ofWord j).toList.take (maxNibbles - 1) →
        i = j := by
  decide

theorem spread : before.Spread where
  accounts ha hb := by
    have hkey : ∀ {a}, before.contains a = true →
        hashedAddress a ∈ [ownerHash, bystanderHash, closedHash, slotHash, keptHash] := fun ha => by
      rcases contains_before ha with rfl | rfl | rfl
      · simp [hashedAddress_owner]
      · simp [hashedAddress_bystander]
      · simp [hashedAddress_closed]
    exact keys_apart _ (hkey ha) _ (hkey hb)
  storage ha hx hy := by
    have hkey : ∀ {x}, full.storage.contains x = true →
        hashedSlot x ∈ [ownerHash, bystanderHash, closedHash, slotHash, keptHash] := fun hx => by
      rcases contains_full hx with rfl | rfl
      · simp [hashedSlot_kept]
      · simp [hashedSlot_slot]
    rcases cases_before ha with ⟨-, rfl⟩ | ⟨-, rfl⟩ | ⟨-, rfl⟩
    · exact keys_apart _ (hkey hx) _ (hkey hy)
    · cases hx
    · cases hx

theorem account?_before : before.commit.account? owner = some fullRecord := by
  rw [World.account?_commit, World.records, Table.find?_map, find?_before owner, if_pos rfl,
    Option.map_some, account_full]

theorem account?_after : after.commit.account? owner = some thinRecord := by
  rw [World.account?_commit, World.records, Table.find?_map, find?_after owner, if_pos rfl,
    Option.map_some, account_thinned]

end Closing

section

open Closing
open Clearing (slot word)

/-- The hypotheses hold of Keccak-256 and a state with three accounts: one clears one of two slots,
one is removed, and one is not listed. In both tries a branch collapses onto a leaf of which only an
orphan tells. In the tries that are opened the slot is cleared, filled again and cleared, and both
listed accounts are removed before the first one is put back. -/
theorem prepared_updates_closing :
    node.Honest 1 before after ∧ (1 : UInt64) ≠ 0 ∧ touched ≠ .empty ∧
    touched.Covers before after ∧ before.Proper ∧ after.Proper ∧ before.Spread ∧
    CollisionFree (before.Involved after touched) ∧
    ∃ p count store l l' m m', PreparedBlock.prepare node 1 touched = .ok p ∧
      p.writeNodes (NodeTable.write .empty) = .ok (count, store) ∧
      LocalTrie.make (.storage (hashedAddress owner)) (digest storageEncoding) store.source = .ok l ∧
      LocalTrie.inTurn LocalTrie.setStorage [(slot, .zero), (slot, word), (slot, .zero)] l =
        (.ok (), l') ∧
      l'.hash.1 = digest (keptLeaf 0) ∧
      LocalTrie.make .account (digest encodingBefore) store.source = .ok m ∧
      LocalTrie.inTurn LocalTrie.setAccount
        [(closed, none), (owner, none), (owner, some thinRecord)] m = (.ok (), m') ∧
      m'.hash.1 = digest encodingAfter := by
  have htouched : touched ≠ .empty := by decide
  have hslot : touched.containsSlot owner slot = true := containsSlot_touched.2 ⟨rfl, rfl⟩
  have howner : touched.containsAccount owner = true := containsAccount_touched.2 (Or.inl rfl)
  have hclosed : touched.containsAccount closed = true := containsAccount_touched.2 (Or.inr rfl)
  have hne : before.commit.storageTrie owner ≠ .empty := by
    rw [World.storageTrie_of_find? (find?_before owner)]
    exact storageTrie_full_ne_empty
  obtain ⟨p, count, store, hp, hwrite, hpre, hpost, hstorage, m, hm, haccounts⟩ :=
    prepared_updates honest (by decide) htouched covers proper_before proper_after spread
      collisionFree
  obtain ⟨l, hl, hwrites⟩ := hstorage owner fullRecord thinRecord howner
    (List.ne_nil_of_mem (AccessList.mem_slots_iff.2 hslot)) account?_before account?_after hne
  obtain ⟨l', hl', hroot⟩ := hwrites [(slot, .zero), (slot, word), (slot, .zero)]
    (by simp [hslot]) fun x hx => by
      rw [(containsSlot_touched.1 hx).2]
      exact overwrite_concat_self [(slot, .zero), (slot, word)] _ slot FixedBytes.zero
  obtain ⟨m', hm', hroot'⟩ := haccounts [(closed, none), (owner, none), (owner, some thinRecord)]
    (by simp [howner, hclosed]) fun a ha => by
      rcases containsAccount_touched.1 ha with rfl | rfl
      · rw [account?_after]
        exact overwrite_concat_self [(closed, none), (owner, none)] _ owner (some thinRecord)
      · rfl
  rw [hpre, root_before] at hm
  rw [hpost, root_after] at hroot'
  exact ⟨honest, by decide, htouched, covers, proper_before, proper_after, spread, collisionFree,
    p, count, store, l, l', m, m', hp, hwrite, hl, hl', hroot, hm, hm', hroot'⟩

end

end Stateless
