import Stateless.Proofs.Keccak
import Stateless.Proofs.NodeSet.Bridging
import Stateless.Proofs.Remote.Honest
import Stateless.Proofs.State.AccessList

/-!
# What a prepared block takes along

The nodes of a prepared block that attests to two states can be written, and the store then serves,
for the account trie and for every listed account with storage, a node set that bridges the
transition between the states. The main result is `PreparedBlock.Attests.writeNodes_eq_ok`.
-/

namespace Stateless

open Trie

section

variable [Hasher]

/-! ## What is hashed -/

/-- The byte strings that are hashed when the transition between two states is prepared and carried
out: those of the account trie and of the storage tries of the listed accounts, the addresses of all
accounts, and all slots of the listed ones. -/
inductive World.Involved (pre post : World) (list : AccessList) : Bytes → Prop
  | accounts {b : Bytes} (h : pre.commit.accounts.Hashed post.commit.accounts
      (list.addresses.map hashedAddress) b) : Involved pre post list b
  | storage {a : Address} {b : Bytes} (ha : list.containsAccount a = true)
      (h : (pre.commit.storageTrie a).Hashed (post.commit.storageTrie a)
        ((list.slots a).map hashedSlot) b) : Involved pre post list b
  | address {a : Address} (ha : list.containsAccount a = true ∨ pre.contains a = true ∨
      post.contains a = true) : Involved pre post list a.toBytes
  | listedSlot {a : Address} {slot : Word} (ha : list.containsSlot a slot = true) :
      Involved pre post list slot.toBytes
  | slot {a : Address} {h : Holding} {slot : Word} (ha : list.containsAccount a = true)
      (hh : pre.find? a = some h ∨ post.find? a = some h) (hslot : h.storage.contains slot = true) :
      Involved pre post list slot.toBytes

variable {pre post w : World} {list : AccessList} {S : Bytes → Prop} {ps : List AccountProof}
variable {p : AccountProof}

namespace World.Involved

variable {a : Address} {e : Bytes}

theorem emptyData : Involved pre post list Rlp.emptyData := .accounts (Or.inl rfl)

theorem accountsBefore (h : pre.commit.accounts.Encodes e) : Involved pre post list e :=
  .accounts (Or.inr (Or.inl h))

theorem accountsAfter (h : post.commit.accounts.Encodes e) : Involved pre post list e :=
  .accounts (Or.inr (Or.inr (Or.inl h)))

theorem storageBefore (ha : list.containsAccount a = true)
    (h : (pre.commit.storageTrie a).Encodes e) : Involved pre post list e :=
  .storage ha (Or.inr (Or.inl h))

theorem storageAfter (ha : list.containsAccount a = true)
    (h : (post.commit.storageTrie a).Encodes e) : Involved pre post list e :=
  .storage ha (Or.inr (Or.inr (Or.inl h)))

end World.Involved

/-! ## Proofs -/

/-- The proofs of some keys make up the stored nodes on their ways. -/
theorem Trie.mem_flatMap_prove {β : Type} {t : Trie} {ps : List β} {key : β → Word}
    {proof : β → List Bytes} (ht : t.Whole)
    (h : ∀ p ∈ ps, t.prove (.ofWord (key p)) = .ok (proof p)) (e : Bytes) :
    e ∈ ps.flatMap proof ↔ ∃ a ∈ ps.map key, ∃ l, t.Stored (Path.ofWord a).toList l e := by
  have hone : ∀ p ∈ ps, e ∈ proof p ↔ ∃ l, t.Stored (Path.ofWord (key p)).toList l e :=
    fun p hp => by
      obtain ⟨v, hv⟩ := ht.full.view (Path.ofWord (key p)).toList
      obtain ⟨blobs, hblobs, hmem⟩ := prove_complete ht.canonical hv
      rw [← hmem, Except.ok.inj (hblobs.symm.trans (h p hp))]
  simp only [List.mem_flatMap, List.mem_map, exists_exists_and_eq_and]
  exact exists_congr fun p => and_congr_right fun hp => hone p hp

/-- The proofs of accounts are verified all the way. -/
theorem verify_accounts (hatt : ∀ p ∈ ps, w.commit.Attests p) (hfree : CollisionFree S)
    (hempty : S Rlp.emptyData) (hS : ∀ e, w.commit.accounts.Encodes e → S e) :
    ∀ a ∈ (ps.map (·.address)).map hashedAddress, Complete w.commit.accounts .empty (.ofWord a)
      (verify w.commit.root (.ofWord a) (AccountProof.accountNodes ps).source) := by
  rw [List.map_map, CommittedWorld.root, ← w.whole_accounts.hash_eq_rootHash]
  exact verify_proven w.whole_accounts hfree hempty hS
    (mem_flatMap_prove w.whole_accounts fun p hp => (hatt p hp).accountProof)

/-- The proofs of the slots of an account are verified all the way. -/
theorem verify_slots (hatt : w.commit.Attests p) (hfree : CollisionFree S)
    (hempty : S Rlp.emptyData) (hS : ∀ e, (w.commit.storageTrie p.address).Encodes e → S e) :
    ∀ a ∈ p.slots.map hashedSlot, Complete (w.commit.storageTrie p.address) .empty (.ofWord a)
      (verify p.storageHash (.ofWord a) p.storageNodes.source) := by
  by_cases hne : w.commit.storageTrie p.address = .empty
  · rw [hne]
    exact fun a _ => verify_empty (hatt.isEmptyRoot_storageHash hne)
  · have ht := w.whole_storageTrie p.address
    rw [AccountProof.slots, List.map_map, hatt.storageHash_eq hne]
    exact verify_proven ht hfree hempty hS
      (mem_flatMap_prove ht fun q hq => hatt.slots hq hne)

/-! ## Node sets -/

/-- A set for an account with storage that satisfies a predicate, and none without storage. -/
def NodeSet.IfStorage (w : World) (a : Address) (P : NodeSet → Prop) (o : Option NodeSet) : Prop :=
  (w.commit.storageTrie a = .empty → o = none) ∧
    (w.commit.storageTrie a ≠ .empty →
      ∃ s, o = some s ∧ s.owner = .storage (hashedAddress a) ∧ P s)

/-- What the storage trie of an account and a set of it have in common. -/
def NodeSet.ShowsStorage (w : World) (a : Address) (slots : List Word) (s : NodeSet) : Prop :=
  Shows (w.commit.storageTrie a) s ∧ Covers (w.commit.storageTrie a) (slots.map hashedSlot) s

namespace NodeSet

theorem ifStorage_none {a : Address} {P : NodeSet → Prop} (h : w.commit.storageTrie a = .empty) :
    IfStorage w a P none :=
  ⟨fun _ => rfl, fun hne => absurd h hne⟩

theorem ifStorage_some {a : Address} {P : NodeSet → Prop} {s : NodeSet}
    (h : w.commit.storageTrie a ≠ .empty) (howner : s.owner = .storage (hashedAddress a)) (hs : P s) :
    IfStorage w a P (some s) :=
  ⟨fun hempty => absurd hempty h, fun _ => ⟨s, rfl, howner, hs⟩⟩

theorem IfStorage.of_some {a : Address} {P : NodeSet → Prop} {s : NodeSet}
    (h : IfStorage w a P (some s)) : s.owner = .storage (hashedAddress a) ∧ P s := by
  by_cases hempty : w.commit.storageTrie a = .empty
  · cases h.1 hempty
  · obtain ⟨s', heq, hs'⟩ := h.2 hempty
    rwa [Option.some.inj heq]

/-- The proofs of accounts fill a set of the account trie. -/
theorem ofAccountProofs_shows (hatt : ∀ p ∈ ps, w.commit.Attests p) (hfree : CollisionFree S)
    (hempty : S Rlp.emptyData) (hS : ∀ e, w.commit.accounts.Encodes e → S e) :
    ∃ s, ofAccountProofs w.commit.root ps = .ok s ∧ s.owner = .account ∧
      Shows w.commit.accounts s ∧
      Covers w.commit.accounts ((ps.map (·.address)).map hashedAddress) s :=
  addKeys_shows .account (verify_accounts hatt hfree hempty hS)

/-- The proofs of slots fill a set for every account with storage. -/
theorem ofStorageProofs_shows (hatt : ∀ p ∈ ps, w.commit.Attests p) (hfree : CollisionFree S)
    (hempty : S Rlp.emptyData) (hS : ∀ p ∈ ps, ∀ e, (w.commit.storageTrie p.address).Encodes e → S e)
    (hnodup : (ps.map (·.address)).Nodup) :
    ∃ sets, ofStorageProofs ps = .ok sets ∧
      (∀ p ∈ ps, IfStorage w p.address (ShowsStorage w p.address p.slots)
        (sets.find? p.address)) ∧
      ∀ a, a ∉ ps.map (·.address) → sets.find? a = none := by
  rw [ofStorageProofs]
  refine Table.foldlM_local (t := .empty) (fun _ o => o = none)
    (fun p o => IfStorage w p.address (ShowsStorage w p.address p.slots) o)
    (fun p hp sets hnone => ?_) hnodup fun _ _ => rfl
  have hverified := verify_slots (hatt p hp) hfree hempty (hS p hp)
  by_cases hne : w.commit.storageTrie p.address = .empty
  · -- whatever spelling of the empty root is claimed, the proof is passed over
    refine ⟨sets, if_pos ((hatt p hp).isEmptyRoot_storageHash hne), ?_, fun _ _ => rfl⟩
    rw [hnone]
    exact ifStorage_none hne
  · have ht := w.whole_storageTrie p.address
    have hroot : ¬ isEmptyRoot p.storageHash = true := by
      rw [(hatt p hp).storageHash_eq hne, ht.isEmptyRoot_hash hfree hempty (hS p hp)]
      exact hne
    obtain ⟨s, hadd, howner, hshows⟩ :=
      addKeys_shows (.storage (hashedAddress p.address)) hverified
    refine ⟨sets.insert p.address s, ?_, ?_, fun a ha => ?_⟩
    · rw [if_neg hroot, hnone]
      have hadd' : (empty (.storage (hashedAddress p.address))).addSlots p.storageHash
          p.storageNodes.source p.slots = .ok s := hadd
      simp [hadd', bind, Except.bind, pure, Except.pure]
    · rw [Table.find?_insert, if_pos rfl]
      exact ifStorage_some hne howner hshows
    · rw [Table.find?_insert, if_neg ha]

/-- The proofs of the same slots after a transition make sets that bridge it. -/
theorem addStorageOrphans_bridges {sets : Table Address NodeSet}
    (hatt : ∀ p ∈ ps, post.commit.Attests p) (hfree : CollisionFree S) (hempty : S Rlp.emptyData)
    (hS : ∀ p ∈ ps, ∀ e, (post.commit.storageTrie p.address).Encodes e → S e)
    (hnodup : (ps.map (·.address)).Nodup)
    (hsets : ∀ p ∈ ps, IfStorage pre p.address (ShowsStorage pre p.address p.slots)
      (sets.find? p.address)) :
    ∃ sets', ps.foldlM addStorageOrphans sets = .ok sets' ∧
      (∀ p ∈ ps, IfStorage pre p.address (Bridges (pre.commit.storageTrie p.address)
        (post.commit.storageTrie p.address) (p.slots.map hashedSlot)) (sets'.find? p.address)) ∧
      ∀ a, a ∉ ps.map (·.address) → sets'.find? a = sets.find? a := by
  refine Table.foldlM_local
    (fun p o => IfStorage pre p.address (ShowsStorage pre p.address p.slots) o)
    (fun p o => IfStorage pre p.address (Bridges (pre.commit.storageTrie p.address)
      (post.commit.storageTrie p.address) (p.slots.map hashedSlot)) o)
    (fun p hp sets hbefore => ?_) hnodup hsets
  by_cases hne : pre.commit.storageTrie p.address = .empty
  · -- storage that is only there afterwards has no orphans to offer
    have hnone := hbefore.1 hne
    refine ⟨sets, by rw [addStorageOrphans, hnone], ?_, fun _ _ => rfl⟩
    rw [hnone]
    exact ifStorage_none hne
  · obtain ⟨s, hsome, howner, hshows, hcovers⟩ := hbefore.2 hne
    obtain ⟨s', count, hadd, howner', hbridges⟩ := addOrphans_bridges
      (post.whole_storageTrie p.address) hshows hcovers
      (verify_slots (hatt p hp) hfree hempty (hS p hp))
    refine ⟨sets.insert p.address s', ?_, ?_, fun a ha => ?_⟩
    · have hadd' : s.addSlotOrphans p.storageHash p.storageNodes.source p.slots =
        .ok (s', count) := hadd
      rw [addStorageOrphans, hsome]
      simp [hadd', bind, Except.bind, pure, Except.pure]
    · rw [Table.find?_insert, if_pos rfl]
      exact ifStorage_some hne (howner'.trans howner) hbridges
    · rw [Table.find?_insert, if_neg ha]

end NodeSet

/-! ## Stores -/

/-- A source has what it takes to carry out the transition between two states that an access list
covers: it serves a set that bridges the transition of the account trie, and one for every listed
account with storage. -/
structure NodeSource.Carries (source : NodeSource) (list : AccessList) (pre post : World) :
    Prop where
  accounts : ∃ s, Bridges pre.commit.accounts post.commit.accounts
    (list.addresses.map hashedAddress) s ∧ s.Served (pre.Involved post list) source
  storage {a : Address} : list.containsAccount a = true → pre.commit.storageTrie a ≠ .empty →
    ∃ s, Bridges (pre.commit.storageTrie a) (post.commit.storageTrie a)
      ((list.slots a).map hashedSlot) s ∧ s.Served (pre.Involved post list) source

namespace NodeSource

variable {source : NodeSource} {a : Address}

/-- What a source carries of the account trie is rebuilt. -/
theorem Carries.rebuild_accounts (h : source.Carries list pre post)
    (hfree : CollisionFree (pre.Involved post list)) (hlist : list.addresses ≠ []) :
    rebuild pre.commit.root source = .ok (pre.commit.accounts.knownTo source) := by
  obtain ⟨s, hbridges, hserved⟩ := h.accounts
  rw [CommittedWorld.root, ← pre.whole_accounts.hash_eq_rootHash]
  exact hbridges.rebuild_eq hserved pre.whole_accounts (by simpa using hlist) hfree
    .emptyData fun e he => .accountsBefore he

/-- What a source carries of the storage trie of an account with listed slots is rebuilt. -/
theorem Carries.rebuild_storage (h : source.Carries list pre post)
    (hfree : CollisionFree (pre.Involved post list)) (ha : list.containsAccount a = true)
    (hslots : list.slots a ≠ []) (hne : pre.commit.storageTrie a ≠ .empty) :
    rebuild (pre.commit.storageTrie a).rootHash source =
      .ok ((pre.commit.storageTrie a).knownTo source) := by
  obtain ⟨s, hbridges, hserved⟩ := h.storage ha hne
  rw [← (pre.whole_storageTrie a).hash_eq_rootHash]
  exact hbridges.rebuild_eq hserved (pre.whole_storageTrie a) (by simpa using hslots) hfree
    .emptyData fun e he => .storageBefore ha he

end NodeSource

/-- The owners of a set of the account trie and of sets of storage tries are different. -/
theorem nodup_owners {accounts : NodeSet} {storage : Table Address NodeSet}
    (haccounts : accounts.owner = .account)
    (hstorage : ∀ a s, storage.find? a = some s → s.owner = .storage (hashedAddress a))
    (hinj : ∀ a b s s', storage.find? a = some s → storage.find? b = some s' →
      hashedAddress a = hashedAddress b → a = b) :
    ((accounts :: storage.values).map NodeSet.owner).Nodup := by
  have hmap : storage.values.map NodeSet.owner =
      storage.entries.map fun e => .storage (hashedAddress e.1) := by
    rw [Table.values, List.map_map]
    exact List.map_congr_left fun e he => hstorage e.1 e.2 (Table.find?_eq_some_iff.2 he)
  have hkeys : storage.entries.Nodup := storage.nodup_keys.of_map _
  rw [List.map_cons, hmap, haccounts, List.nodup_cons]
  refine ⟨fun hmem => ?_, hkeys.map_on fun x hx y hy heq => ?_⟩
  · obtain ⟨e, -, he⟩ := List.mem_map.1 hmem
    cases he
  · have hx' := Table.find?_eq_some_iff.2 hx
    have hy' := Table.find?_eq_some_iff.2 hy
    have hfst := hinj _ _ _ _ hx' hy' (TrieOwner.storage.inj heq)
    exact Prod.ext hfst (Option.some.inj (hx'.symm.trans (hfst ▸ hy')))

namespace PreparedBlock

variable {p : PreparedBlock}

omit [Hasher] in
/-- Where the proofs have the keys of an access list, their addresses are the listed ones. -/
theorem map_address_eq (h : ps.map (fun q => (q.address, q.slots)) = list.toList) :
    ps.map (·.address) = list.addresses := by
  rw [← list.map_fst_toList, ← h, List.map_map]
  rfl

omit [Hasher] in
/-- Where the proofs have the keys of an access list, each is one of a listed account and its listed
slots. -/
theorem listed_of_mem {q : AccountProof}
    (h : ps.map (fun q => (q.address, q.slots)) = list.toList) (hq : q ∈ ps) :
    list.containsAccount q.address = true ∧ q.slots = list.slots q.address := by
  rw [← AccessList.mem_toList_iff, ← h]
  exact List.mem_map_of_mem hq

/-- The sets that the proofs of a prepared block fill bridge the transition. -/
theorem Attests.sets (h : p.Attests list pre post) (hfree : CollisionFree (pre.Involved post list)) :
    ∃ accounts storage, p.nodeSet =
        Attempt.mapError .nodeSet (MergedNodeSet.ofSets accounts storage) ∧
      accounts.owner = .account ∧
      Bridges pre.commit.accounts post.commit.accounts (list.addresses.map hashedAddress) accounts ∧
      (∀ a, list.containsAccount a = true → NodeSet.IfStorage pre a
        (Bridges (pre.commit.storageTrie a) (post.commit.storageTrie a)
          ((list.slots a).map hashedSlot)) (storage.find? a)) ∧
      ∀ a s, storage.find? a = some s → list.containsAccount a = true := by
  have hpre := map_address_eq h.preKeys
  have hpost := map_address_eq h.postKeys
  obtain ⟨s, hs, howner, hshows, hcovers⟩ := NodeSet.ofAccountProofs_shows
    (fun q hq => h.preProofs hq) hfree .emptyData fun e he => .accountsBefore he
  obtain ⟨sets, hsets, hfilled, hnone⟩ := NodeSet.ofStorageProofs_shows
    (fun q hq => h.preProofs hq) hfree .emptyData
    (fun q hq e he => .storageBefore (listed_of_mem h.preKeys hq).1 he) (hpre ▸ list.nodup_addresses)
  obtain ⟨accounts, count, haccounts, howner', hbridges⟩ := NodeSet.addOrphans_bridges
    post.whole_accounts hshows (hpre ▸ hcovers) (hpost ▸ verify_accounts
      (fun q hq => h.postProofs hq) hfree .emptyData
      fun e he => .accountsAfter he)
  -- every proof after the block has one before it with the same keys
  have hlisted : ∀ q ∈ p.postProofs, NodeSet.IfStorage pre q.address
      (NodeSet.ShowsStorage pre q.address q.slots) (sets.find? q.address) := fun q hq => by
    obtain ⟨q', hq', heq⟩ : ∃ q' ∈ p.preProofs, (q'.address, q'.slots) = (q.address, q.slots) :=
      List.mem_map.1 (by rw [h.preKeys, ← h.postKeys]; exact List.mem_map_of_mem hq)
    obtain ⟨haddress, hslots⟩ := Prod.mk.inj heq
    have := hfilled q' hq'
    rwa [haddress, hslots] at this
  obtain ⟨storage, hstorages, hdone, hkeep⟩ := NodeSet.addStorageOrphans_bridges
    (fun q hq => h.postProofs hq) hfree .emptyData
    (fun q hq e he => .storageAfter (listed_of_mem h.postKeys hq).1 he)
    (hpost ▸ list.nodup_addresses) hlisted
  refine ⟨accounts, storage, ?_, howner'.trans howner, hbridges, fun a ha => ?_, fun a t hfind => ?_⟩
  · have haccounts' : s.addAccountOrphans post.commit.root
        (AccountProof.accountNodes p.postProofs).source (p.postProofs.map (·.address)) =
        .ok (accounts, count) := by
      rw [hpost]
      exact haccounts
    rw [nodeSet, MergedNodeSet.ofTransition, h.preRoot, h.postRoot, hs]
    simp only [bind, Except.bind, hsets, haccounts', hstorages]
  · rw [← AccessList.mem_addresses_iff, ← hpost] at ha
    obtain ⟨q, hq, rfl⟩ := List.mem_map.1 ha
    have := hdone q hq
    rwa [(listed_of_mem h.postKeys hq).2] at this
  · by_contra hnot
    rw [← AccessList.mem_addresses_iff] at hnot
    rw [hkeep a (hpost ▸ hnot), hnone a (hpre ▸ hnot)] at hfind
    cases hfind

/-- The nodes of a prepared block that attests to two states can be written into an empty store, and
the store has what it takes to carry out the transition. -/
theorem Attests.writeNodes_eq_ok (h : p.Attests list pre post)
    (hfree : CollisionFree (pre.Involved post list)) :
    ∃ count store, p.writeNodes (NodeTable.write .empty) = .ok (count, store) ∧
      store.source.Carries list pre post := by
  obtain ⟨accounts, storage, hset, howner, haccounts, hstorage, hlisted⟩ := h.sets hfree
  have hbridges : ∀ a s, storage.find? a = some s → s.owner = .storage (hashedAddress a) ∧
      Bridges (pre.commit.storageTrie a) (post.commit.storageTrie a)
        ((list.slots a).map hashedSlot) s := fun a s hfind => by
    have := hstorage a (hlisted a s hfind)
    rw [hfind] at this
    exact this.of_some
  -- two accounts with one hashed address would share an owner
  have hnodup := nodup_owners howner (fun a s hfind => (hbridges a s hfind).1)
    fun a b s s' ha hb heq => FixedBytes.ext
      (hfree.inj (.address (Or.inl (hlisted a s ha))) (.address (Or.inl (hlisted b s' hb))) heq)
  have haddressed : ∀ s ∈ accounts :: storage.values, ∀ path node,
      s.nodes.find? path = some node → digest node.blob = node.hash ∧
        pre.Involved post list node.blob := fun s hs path node hfind => by
    rcases List.mem_cons.1 hs with rfl | hs
    · obtain ⟨hdigest, hhashed⟩ := haccounts.addressed hfind
      exact ⟨hdigest, .accounts hhashed⟩
    · obtain ⟨a, ha⟩ := Table.mem_values_iff.1 hs
      obtain ⟨hdigest, hhashed⟩ := (hbridges a s ha).2.addressed hfind
      exact ⟨hdigest, .storage (hlisted a s ha) hhashed⟩
  obtain ⟨merged, count, store, hmerged, hflush, hserved⟩ :=
    MergedNodeSet.flush_addAll hfree hnodup haddressed
  refine ⟨count, store, ?_, ⟨accounts, haccounts, hserved _ List.mem_cons_self⟩, fun {a} ha hne => ?_⟩
  · rw [writeNodes, hset, MergedNodeSet.ofSets, hmerged]
    simp [Attempt.ofExcept, Attempt.mapError, Except.mapError, bind, Except.bind, hflush]
  · obtain ⟨s, hsome, -, hs⟩ := (hstorage a ha).2 hne
    exact ⟨s, hs, hserved s (List.mem_cons_of_mem _ (Table.mem_values_iff.2 ⟨a, hsome⟩))⟩

end PreparedBlock

end

/-! ## An instance -/

namespace Clearing

/-! An account clears its only slot. No two byte strings that are hashed along the way have the same
Keccak-256 hash. -/

theorem length_address : (List.replicate 20 1 : Bytes).length = 20 := rfl

theorem length_slot : (List.replicate 31 0 ++ [1] : Bytes).length = 32 := rfl

def address : Address := ⟨List.replicate 20 1, length_address⟩

def slot : Word := ⟨List.replicate 31 0 ++ [1], length_slot⟩

def word : Word := ⟨List.replicate 31 0 ++ [7], rfl⟩

/-- The account before the change. -/
def holder : Holding := ⟨1, 0, [], Table.empty.insert slot word⟩

/-- The account after the change. -/
def cleared : Holding := ⟨2, 0, [], .empty⟩

/-- The state before the change. -/
def before : World := Table.empty.insert address holder

/-- The state after the change. -/
def after : World := Table.empty.insert address cleared

/-- What the change touches. -/
def touched : AccessList := AccessList.empty.addSlot address slot

/-- A node that knows both states. -/
def node : RemoteNode := (Chain.ofWorlds 1 [before, after]).node

theorem honest : node.Honest 1 before after := Chain.honest (by decide) rfl rfl

theorem find?_before {a : Address} {h : Holding} :
    before.find? a = some h ↔ a = address ∧ h = holder := by
  rw [before, Table.find?_insert]
  split <;> simp_all [eq_comm]

theorem find?_after {a : Address} {h : Holding} :
    after.find? a = some h ↔ a = address ∧ h = cleared := by
  rw [after, Table.find?_insert]
  split <;> simp_all [eq_comm]

theorem contains_before {a : Address} : before.contains a = true ↔ a = address := by
  simp [Table.contains, Option.isSome_iff_exists, find?_before]

theorem contains_after {a : Address} : after.contains a = true ↔ a = address := by
  simp [Table.contains, Option.isSome_iff_exists, find?_after]

theorem slot_of_contains {x : Word} (h : holder.storage.contains x = true) : x = slot := by
  rw [holder, Table.contains, Table.find?_insert] at h
  by_contra hx
  rw [if_neg hx] at h
  cases h

theorem containsAccount_touched {a : Address} :
    touched.containsAccount a = true ↔ a = address := by
  rw [touched, AccessList.containsAccount_addSlot]
  exact or_iff_left nofun

theorem containsSlot_touched {a : Address} {x : Word} :
    touched.containsSlot a x = true ↔ a = address ∧ x = slot := by
  rw [touched, AccessList.containsSlot_addSlot]
  exact or_iff_left nofun

/-! The hashes of the keys, the roots of the storage and the hash of no code. -/

def addressHash : Word := ⟨[
  0xe9, 0x65, 0x4a, 0x4d, 0x19, 0x43, 0x18, 0xe8, 0xef, 0x7e, 0x64, 0xc6, 0xcb, 0xc3, 0x1c, 0x34,
  0x1c, 0x65, 0x0a, 0x6a, 0x03, 0x9e, 0xa4, 0x48, 0xfa, 0xf8, 0x10, 0x1a, 0xf4, 0x03, 0xda, 0x4d],
  rfl⟩

def slotHash : Word := ⟨[
  0xb1, 0x0e, 0x2d, 0x52, 0x76, 0x12, 0x07, 0x3b, 0x26, 0xee, 0xcd, 0xfd, 0x71, 0x7e, 0x6a, 0x32,
  0x0c, 0xf4, 0x4b, 0x4a, 0xfa, 0xc2, 0xb0, 0x73, 0x2d, 0x9f, 0xcb, 0xe2, 0xb7, 0xfa, 0x0c, 0xf6],
  rfl⟩

def fullRoot : Word := ⟨[
  0x2e, 0x78, 0x27, 0xdc, 0x2c, 0x61, 0xc3, 0x22, 0xf1, 0x3f, 0x77, 0xe6, 0xf2, 0x5d, 0xd1, 0x88,
  0x44, 0xcc, 0xc4, 0x84, 0x26, 0xdd, 0xe7, 0x03, 0x01, 0xd2, 0xd5, 0x7d, 0x13, 0x8f, 0xce, 0xd8],
  rfl⟩

def clearRoot : Word := ⟨[
  0x56, 0xe8, 0x1f, 0x17, 0x1b, 0xcc, 0x55, 0xa6, 0xff, 0x83, 0x45, 0xe6, 0x92, 0xc0, 0xf8, 0x6e,
  0x5b, 0x48, 0xe0, 0x1b, 0x99, 0x6c, 0xad, 0xc0, 0x01, 0x62, 0x2f, 0xb5, 0xe3, 0x63, 0xb4, 0x21],
  rfl⟩

def codeHash : Word := ⟨[
  0xc5, 0xd2, 0x46, 0x01, 0x86, 0xf7, 0x23, 0x3c, 0x92, 0x7e, 0x7d, 0xb2, 0xdc, 0xc7, 0x03, 0xc0,
  0xe5, 0x00, 0xb6, 0x53, 0xca, 0x82, 0x27, 0x3b, 0x7b, 0xfa, 0xd8, 0x04, 0x5d, 0x85, 0xa4, 0x70],
  rfl⟩

theorem hashedAddress_address : hashedAddress address = addressHash := by
  ext1
  rw [hashedAddress, digest_toBytes]
  decide +kernel

theorem hashedSlot_slot : hashedSlot slot = slotHash := by
  ext1
  rw [hashedSlot, digest_toBytes]
  decide +kernel

theorem digest_slotLeaf : digest (leafEncoding (.ofWord slotHash) [7]) = fullRoot :=
  digest_eq_iff.2 (by decide +kernel)

theorem digest_emptyData : digest Rlp.emptyData = clearRoot :=
  digest_eq_iff.2 (by decide +kernel)

theorem digest_nil : digest [] = codeHash :=
  digest_eq_iff.2 (by decide +kernel)

/-- The record of the account before the change. -/
def fullRecord : Account := ⟨1, 0, fullRoot, codeHash⟩

/-- The record of the account after the change. -/
def clearRecord : Account := ⟨2, 0, clearRoot, codeHash⟩

/-! ### The tries -/

theorem storageTrie_holder : ∃ m, holder.storageTrie = .leaf (.ofWord slotHash) [7] m := by
  have hencode : encodeStorage word = [7] := by decide +kernel
  have htrie : holder.storageTrie =
      (ofValues [(.ofWord (hashedSlot slot), encodeStorage word)]).memoize := rfl
  rw [htrie, hashedSlot_slot, hencode]
  exact memoize_leaf _ _ _

theorem storageTrie_cleared : cleared.storageTrie = .empty := rfl

theorem rootHash_holder : holder.storageTrie.rootHash = fullRoot := by
  obtain ⟨m, hm⟩ := storageTrie_holder
  have hc : holder.storageTrie.content = .ok (leafEncoding (.ofWord slotHash) [7]) := by
    rw [hm]
    rfl
  rw [← holder.whole_storageTrie.hash_eq_rootHash,
    hash_eq_digest holder.whole_storageTrie.sound hc, digest_slotLeaf]

theorem rootHash_cleared : cleared.storageTrie.rootHash = clearRoot := by
  have hc : cleared.storageTrie.content = .ok Rlp.emptyData := rfl
  rw [← cleared.whole_storageTrie.hash_eq_rootHash,
    hash_eq_digest cleared.whole_storageTrie.sound hc, digest_emptyData]

theorem account_holder : holder.account holder.storageTrie.rootHash = fullRecord := by
  rw [Holding.account, rootHash_holder]
  simp [Account.withCode, Account.new, holder, digest_nil, fullRecord]

theorem account_cleared : cleared.account cleared.storageTrie.rootHash = clearRecord := by
  rw [Holding.account, rootHash_cleared]
  simp [Account.withCode, Account.new, cleared, digest_nil, clearRecord]

theorem accounts_before :
    ∃ m, before.commit.accounts = .leaf (.ofWord addressHash) fullRecord.encode m := by
  have htrie : before.commit.accounts = (ofValues [(.ofWord (hashedAddress address),
      (holder.account holder.storageTrie.rootHash).encode)]).memoize := before.accounts_commit
  rw [htrie, hashedAddress_address, account_holder]
  exact memoize_leaf _ _ _

theorem accounts_after :
    ∃ m, after.commit.accounts = .leaf (.ofWord addressHash) clearRecord.encode m := by
  have htrie : after.commit.accounts = (ofValues [(.ofWord (hashedAddress address),
      (cleared.account cleared.storageTrie.rootHash).encode)]).memoize := after.accounts_commit
  rw [htrie, hashedAddress_address, account_cleared]
  exact memoize_leaf _ _ _

/-! ### What is hashed -/

/-- All byte strings that are hashed. The orphans are the last leaf with the front of its fragment
taken off. -/
def hashed : List Bytes :=
  Rlp.emptyData :: address.toBytes :: slot.toBytes :: leafEncoding (.ofWord slotHash) [7] ::
    leafEncoding (.ofWord addressHash) fullRecord.encode ::
      (List.range maxNibbles).map fun i =>
        leafEncoding ((Path.ofWord addressHash).drop i) clearRecord.encode

theorem leaf_mem_hashed {i : Nat} (hi : i < maxNibbles) :
    leafEncoding ((Path.ofWord addressHash).drop i) clearRecord.encode ∈ hashed := by
  have := List.mem_map_of_mem
    (f := fun i => leafEncoding ((Path.ofWord addressHash).drop i) clearRecord.encode)
    (List.mem_range.2 hi)
  simp [hashed, this]

theorem mem_hashed {b : Bytes} (h : before.Involved after touched b) : b ∈ hashed := by
  cases h with
  | accounts h =>
    obtain ⟨m, hm⟩ := accounts_before
    obtain ⟨m', hm'⟩ := accounts_after
    rw [hm, hm'] at h
    rcases h with rfl | h | h | ⟨path, node, h, rfl⟩
    · exact List.mem_cons_self
    · simp [hashed, encodes_leaf.1 h]
    · rw [encodes_leaf.1 h]
      exact leaf_mem_hashed (i := 0) (by decide)
    · obtain ⟨i, hi, hblob⟩ := shortens_leaf.1 h.shortens
      rw [hblob]
      exact leaf_mem_hashed (hi.trans_eq (Path.length_ofWord addressHash))
  | storage ha h =>
    obtain rfl := containsAccount_touched.1 ha
    obtain ⟨m, hm⟩ := storageTrie_holder
    rw [World.storageTrie_of_find? (find?_before.2 ⟨rfl, rfl⟩),
      World.storageTrie_of_find? (find?_after.2 ⟨rfl, rfl⟩), hm, storageTrie_cleared] at h
    rcases h with rfl | h | h | ⟨path, node, h, rfl⟩
    · exact List.mem_cons_self
    · simp [hashed, encodes_leaf.1 h]
    · rw [encodes_empty.1 h]
      exact List.mem_cons_self
    · exact absurd h.shortens not_shortens_empty
  | address ha =>
    rw [ha.elim containsAccount_touched.1 fun ha => ha.elim contains_before.1 contains_after.1]
    simp [hashed]
  | listedSlot ha =>
    obtain ⟨-, rfl⟩ := containsSlot_touched.1 ha
    simp [hashed]
  | slot ha hh hslot =>
    rcases hh with hh | hh
    · obtain ⟨-, rfl⟩ := find?_before.1 hh
      rw [slot_of_contains hslot]
      simp [hashed]
    · obtain ⟨-, rfl⟩ := find?_after.1 hh
      cases hslot

theorem collisionFree : CollisionFree (before.Involved after touched) := by
  refine collisionFree_of_nodup (fun b => mem_hashed) ?_
  simp only [digest_toNat]
  decide +kernel

end Clearing

end Stateless
