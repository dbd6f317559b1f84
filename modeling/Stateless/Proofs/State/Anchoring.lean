import Stateless.Proofs.NodeSet.Recording
import Stateless.Proofs.State.Prepared

/-!
# What the values of a state set are anchored in

The set that is made of the proofs of accounts and slots answers, for every account that was asked
for, what its proof shows against the state root. For a slot it answers what the proof of the slot
shows against the storage root that the proof of the account claims (`ofStateProofs_answers`). The
account that is found is not compared with what is claimed, so a claimed storage root need not be
that of the account, and words that the state does not have get into the set
(`ofStateProofs_forged`).
-/

namespace Stateless

open Trie

/-- The value that the set of a trie has for a key. -/
def MergedNodeSet.leaf? (m : MergedNodeSet) (owner : TrieOwner) (key : Word) : Option Bytes :=
  (m.sets.find? owner).bind fun s => s.leaves.find? (.ofWord key)

section

variable [Hasher]

namespace AccountProof

/-- The verification of the account of a proof, with the nodes of a list of proofs. -/
def verifyAccount (root : Word) (ps : List AccountProof) (p : AccountProof) : Verification :=
  verify root (.ofWord (hashedAddress p.address)) (accountNodes ps).source

/-- The verification of a slot against the storage root that the proof claims. -/
def verifySlot (p : AccountProof) (slot : Word) : Verification :=
  verify p.storageHash (.ofWord (hashedSlot slot)) p.storageNodes.source

end AccountProof

variable {root : Word} {ps : List AccountProof} {p q : AccountProof} {m : MergedNodeSet}

/-! ## Proofs of slots -/

/-- A byte string is a node in the proof of some slot. -/
def InSlotProof (ps : List AccountProof) (b : Bytes) : Prop :=
  ∃ p ∈ ps, ∃ q ∈ p.storageProof, b ∈ q.proof

theorem storageNodes_source (hfree : CollisionFree (InSlotProof ps)) (hp : p ∈ ps) {w : Word}
    {b : Bytes} (h : p.storageNodes.source w = some b) : InSlotProof ps b ∧ digest b = w := by
  have hblobs : ∀ b ∈ p.storageProof.flatMap (·.proof), InSlotProof ps b := by
    intro b hb
    obtain ⟨q, hq, hb⟩ := List.mem_flatMap.1 hb
    exact ⟨p, hp, q, hq, hb⟩
  obtain ⟨hmem, hdigest⟩ := (ofProof_source hfree hblobs w b).1 h
  exact ⟨hblobs b hmem, hdigest⟩

/-- Two proofs that claim one storage root show the same of a slot. -/
theorem verifySlot_eq (hfree : CollisionFree (InSlotProof ps)) (hp : p ∈ ps) (hq : q ∈ ps)
    (hroot : p.storageHash = q.storageHash) {x y : Word} (hslot : hashedSlot x = hashedSlot y)
    {d e : VerifiedPath} (hd : (p.verifySlot x).outcome = .ok d)
    (he : (q.verifySlot y).outcome = .ok e) : p.verifySlot x = q.verifySlot y := by
  rw [AccountProof.verifySlot, hroot, hslot] at hd ⊢
  refine verify_eq_of_agree (fun w b b' hb hb' => ?_) hd he
  obtain ⟨hin, hdigest⟩ := storageNodes_source hfree hp hb
  obtain ⟨hin', hdigest'⟩ := storageNodes_source hfree hq hb'
  exact hfree.inj hin hin' (hdigest.trans hdigest'.symm)

/-! ## The loop over the proofs -/

/-- A verification that shows a slot of a list of proofs. -/
def ShowsSlot (ps : List AccountProof) (v : Verification) : Prop :=
  ∃ p ∈ ps, isEmptyRoot p.storageHash = false ∧
    ∃ slot e, v = p.verifySlot slot ∧ v.outcome = .ok e

/-- The set of an account records the verification of a slot, which has succeeded. -/
def RecordsSlot (sets : Table Address NodeSet) (p : AccountProof) (slot : Word) : Prop :=
  ∃ s, sets.find? p.address = some s ∧ s.Records (p.verifySlot slot) ∧
    ∃ e, (p.verifySlot slot).outcome = .ok e

/-- Every set belongs to the storage trie of its account, and its values are justified. -/
def Filed (ps : List AccountProof) (sets : Table Address NodeSet) : Prop :=
  ∀ a s, sets.find? a = some s →
    s.owner = .storage (hashedAddress a) ∧ s.Justified (ShowsSlot ps)

/-- The set of an account, new if there is none. -/
def storageSet (sets : Table Address NodeSet) (a : Address) : NodeSet :=
  (sets.find? a).getD (.empty (.storage (hashedAddress a)))

theorem Filed.storageSet {sets : Table Address NodeSet} (h : Filed ps sets) (a : Address) :
    (storageSet sets a).owner = .storage (hashedAddress a) ∧
      (storageSet sets a).Justified (ShowsSlot ps) := by
  rw [Stateless.storageSet]
  cases hfind : sets.find? a with
  | none => exact ⟨rfl, NodeSet.justified_empty _⟩
  | some s => exact h a s hfind

/-- One step of the loop over the proofs. -/
def addStorage (sets : Table Address NodeSet) (p : AccountProof) :
    Attempt NodeSetError (Table Address NodeSet) :=
  if isEmptyRoot p.storageHash then .ok sets
  else do
    let s ← (storageSet sets p.address).addSlots p.storageHash p.storageNodes.source p.slots
    return sets.insert p.address s

theorem ofStorageProofs_eq (ps : List AccountProof) :
    NodeSet.ofStorageProofs ps = ps.foldlM addStorage .empty := rfl

/-- Every set of a table is extended by the set of the same account in another one. -/
def Grows (sets sets' : Table Address NodeSet) : Prop :=
  ∀ a s, sets.find? a = some s → ∃ s', sets'.find? a = some s' ∧ s.Extends s'

theorem RecordsSlot.mono {sets sets' : Table Address NodeSet} {slot : Word}
    (h : RecordsSlot sets p slot) (hgrows : Grows sets sets') : RecordsSlot sets' p slot := by
  obtain ⟨s, hs, hrec, hends⟩ := h
  obtain ⟨s', hs', hext⟩ := hgrows _ s hs
  exact ⟨s', hs', hrec.mono hext, hends⟩

theorem addStorage_records {sets sets' : Table Address NodeSet} (hp : p ∈ ps)
    (h : addStorage sets p = .ok sets') :
    Grows sets sets' ∧
    (isEmptyRoot p.storageHash = false → ∀ slot ∈ p.slots, RecordsSlot sets' p slot) ∧
    (Filed ps sets → Filed ps sets') := by
  rw [addStorage] at h
  split at h
  · next hempty =>
    obtain rfl := Except.ok.inj h
    refine ⟨fun a s hs => ⟨s, hs, .refl s⟩, fun hne => ?_, id⟩
    cases hempty.symm.trans hne
  · next hne =>
    rw [Bool.not_eq_true] at hne
    obtain ⟨s', hadd, h⟩ := exists_of_bind_eq_ok h
    obtain rfl := Except.ok.inj h
    obtain ⟨habsorbs, howner⟩ := NodeSet.addKeys_absorbs hadd
    have hfind : (sets.insert p.address s').find? p.address = some s' := by
      rw [Table.find?_insert, if_pos rfl]
    refine ⟨?_, ?_, ?_⟩
    · intro a s hs
      by_cases ha : a = p.address
      · have hgrows := habsorbs.grows
        rw [storageSet, ← ha, hs] at hgrows
        exact ⟨s', ha ▸ hfind, hgrows⟩
      · exact ⟨s, by rw [Table.find?_insert, if_neg ha, hs], .refl s⟩
    · intro _ slot hslot
      have hkey : hashedSlot slot ∈ p.slots.map hashedSlot := List.mem_map_of_mem hslot
      exact ⟨s', hfind, habsorbs.records hkey, habsorbs.ends hkey⟩
    · intro hfiled a s hs
      rw [Table.find?_insert] at hs
      split at hs
      · next ha =>
        obtain rfl := Option.some.inj hs
        obtain ⟨hbefore, hjust⟩ := hfiled.storageSet p.address
        rw [ha]
        refine ⟨howner.trans hbefore, habsorbs.justified hjust ?_⟩
        intro key hkey
        obtain ⟨e, he⟩ := habsorbs.ends hkey
        obtain ⟨slot, -, rfl⟩ := List.mem_map.1 hkey
        exact ⟨p, hp, hne, slot, e, rfl, he⟩
      · exact hfiled a s hs

theorem foldlM_addStorage_records {rest : List AccountProof} {sets sets' : Table Address NodeSet}
    (hrest : ∀ p ∈ rest, p ∈ ps) (h : rest.foldlM addStorage sets = .ok sets') :
    Grows sets sets' ∧
    (∀ p ∈ rest, isEmptyRoot p.storageHash = false → ∀ slot ∈ p.slots, RecordsSlot sets' p slot) ∧
    (Filed ps sets → Filed ps sets') := by
  induction rest generalizing sets with
  | nil =>
    obtain rfl := Except.ok.inj h
    exact ⟨fun a s hs => ⟨s, hs, .refl s⟩, fun p hp => absurd hp List.not_mem_nil, id⟩
  | cons p rest ih =>
    rw [List.foldlM_cons] at h
    obtain ⟨sets₁, hstep, h⟩ := exists_of_bind_eq_ok h
    obtain ⟨hgrows, hslots, hfiled⟩ := addStorage_records (hrest p List.mem_cons_self) hstep
    obtain ⟨hgrows', hslots', hfiled'⟩ := ih (fun q hq => hrest q (List.mem_cons_of_mem _ hq)) h
    refine ⟨?_, ?_, fun hs => hfiled' (hfiled hs)⟩
    · intro a s hs
      obtain ⟨s₁, hs₁, hext⟩ := hgrows a s hs
      obtain ⟨s₂, hs₂, hext'⟩ := hgrows' a s₁ hs₁
      exact ⟨s₂, hs₂, hext.trans hext'⟩
    · intro q hq hne slot hslot
      rcases List.mem_cons.1 hq with rfl | hq
      · exact (hslots hne slot hslot).mono hgrows'
      · exact hslots' q hq hne slot hslot

/-! ## The set of a state -/

/-- A verification that shows an account or a slot of a list of proofs. -/
def ShowsKey (root : Word) (ps : List AccountProof) : TrieOwner → Verification → Prop
  | .account, v => ∃ p ∈ ps, v = p.verifyAccount root ps
  | .storage _, v => ShowsSlot ps v

namespace MergedNodeSet

/-- What a state set records: all accounts and slots that were asked for, and nothing else. -/
theorem ofStateProofs_records (h : ofStateProofs root ps = .ok m) :
    m.Justified (ShowsKey root ps) ∧
    (∀ p ∈ ps, ∃ s, m.sets.find? .account = some s ∧ s.Records (p.verifyAccount root ps) ∧
      ∃ e, (p.verifyAccount root ps).outcome = .ok e) ∧
    ∀ p ∈ ps, isEmptyRoot p.storageHash = false → ∀ slot ∈ p.slots,
      ∃ s, m.sets.find? (.storage (hashedAddress p.address)) = some s ∧
        s.Records (p.verifySlot slot) ∧ ∃ e, (p.verifySlot slot).outcome = .ok e := by
  rw [ofStateProofs, Attempt.mapError_eq_ok_iff] at h
  obtain ⟨accounts, haccounts, h⟩ := exists_of_bind_eq_ok h
  obtain ⟨storage, hstorage, h⟩ := exists_of_bind_eq_ok h
  rw [ofSets, Attempt.ofExcept_eq_ok_iff] at h
  obtain ⟨habsorbs, howner⟩ := NodeSet.addKeys_absorbs haccounts
  rw [ofStorageProofs_eq] at hstorage
  obtain ⟨-, hslots, hfiled⟩ := foldlM_addStorage_records (fun p hp => hp) hstorage
  have hfiled : Filed ps storage := hfiled fun a s hs => by cases hs
  obtain ⟨hsets, -, hjust⟩ := addAll_records (Q := ShowsKey root ps) h
  refine ⟨hjust (fun owner s hs => by cases hs) ?_, ?_, ?_⟩
  · intro s hs
    rcases List.mem_cons.1 hs with rfl | hs
    · rw [howner]
      refine habsorbs.justified (NodeSet.justified_empty _) ?_
      intro key hkey
      obtain ⟨a, ha, rfl⟩ := List.mem_map.1 hkey
      obtain ⟨p, hp, rfl⟩ := List.mem_map.1 ha
      exact ⟨p, hp, rfl⟩
    · obtain ⟨a, ha⟩ := Table.mem_values_iff.1 hs
      obtain ⟨hs', hj⟩ := hfiled a s ha
      exact hs' ▸ hj
  · intro p hp
    have hkey : hashedAddress p.address ∈ (ps.map (·.address)).map hashedAddress :=
      List.mem_map_of_mem (List.mem_map_of_mem hp)
    obtain ⟨s, hs, hext⟩ := hsets accounts List.mem_cons_self
    exact ⟨s, by rwa [howner] at hs, (habsorbs.records hkey).mono hext, habsorbs.ends hkey⟩
  · intro p hp hne slot hslot
    obtain ⟨s, hs, hrec, hends⟩ := hslots p hp hne slot hslot
    obtain ⟨s', hs', hext⟩ :=
      hsets s (List.mem_cons_of_mem _ (Table.mem_values_iff.2 ⟨_, hs⟩))
    exact ⟨s', (hfiled _ s hs).1 ▸ hs', hrec.mono hext, hends⟩

/-- The set of a state answers for every account what its proof shows against the state root, and for
every slot what its proof shows against the storage root that the proof of the account claims. -/
theorem ofStateProofs_answers (hfree : CollisionFree (InSlotProof ps))
    (h : ofStateProofs root ps = .ok m) (hp : p ∈ ps) :
    (∃ e, (p.verifyAccount root ps).outcome = .ok e ∧
      m.leaf? .account (hashedAddress p.address) = e.value) ∧
    (isEmptyRoot p.storageHash = false → ∀ slot ∈ p.slots,
      ∃ e, (p.verifySlot slot).outcome = .ok e ∧
        m.leaf? (.storage (hashedAddress p.address)) (hashedSlot slot) = e.value) := by
  obtain ⟨hjust, haccounts, hslots⟩ := ofStateProofs_records h
  refine ⟨?_, ?_⟩
  · obtain ⟨s, hs, hrec, e, he⟩ := haccounts p hp
    refine ⟨e, he, ?_⟩
    rw [leaf?, hs, Option.bind_some]
    refine NodeSet.find?_of_records hrec (verify_leaf he) (hjust _ s hs) ?_
    -- another account with this key was verified in the same way
    rintro v b ⟨q, hq, rfl⟩ - hleaf
    obtain ⟨-, -, -, e', he'⟩ := haccounts q hq
    have hkey := Path.ofWord_inj (verify_key he' hleaf)
    rw [AccountProof.verifyAccount, AccountProof.verifyAccount, hkey]
  · intro hne slot hslot
    obtain ⟨s, hs, hrec, e, he⟩ := hslots p hp hne slot hslot
    refine ⟨e, he, ?_⟩
    rw [leaf?, hs, Option.bind_some]
    refine NodeSet.find?_of_records hrec (verify_leaf he) (hjust _ s hs) ?_
    rintro v b ⟨q, hq, hne', slot', e', rfl, he'⟩ hrec' hleaf
    have hkey := Path.ofWord_inj (verify_key he' hleaf)
    -- both walks have their first node at one place of the set
    obtain ⟨blob, hfirst⟩ := verify_first hne he
    obtain ⟨blob', hfirst'⟩ := verify_first hne' he'
    obtain ⟨node, hnode, hhash⟩ := hrec.nodes hfirst
    obtain ⟨node', hnode', hhash'⟩ := hrec'.nodes hfirst'
    obtain rfl := Option.some.inj (hnode.symm.trans hnode')
    rw [verifySlot_eq hfree hq hp (hhash'.symm.trans hhash) hkey.symm he' he]

end MergedNodeSet

/-! ## Claims -/

/-- What a proof claims is what a set has: the account is the one that is recorded under the hashed
address, up to the spelling of the root of no storage, an account that is not there has no storage,
and each word is the one that is recorded under the hashed slot. -/
structure MergedNodeSet.Confirms (m : MergedNodeSet) (p : AccountProof) : Prop where
  account {b : Bytes} : m.leaf? .account (hashedAddress p.address) = some b →
    ∃ claimed found, p.account = .ok claimed ∧ Account.decode b = .ok found ∧
      claimed = { found with storageRoot := claimed.storageRoot } ∧
      (claimed.storageRoot = found.storageRoot ∨
        isEmptyRoot claimed.storageRoot = true ∧ isEmptyRoot found.storageRoot = true)
  absent : m.leaf? .account (hashedAddress p.address) = none → isEmptyRoot p.storageHash = true
  word {q : StorageProof} : q ∈ p.storageProof → ∃ word, q.word? = some word ∧
    (m.leaf? (.storage (hashedAddress p.address)) (hashedSlot q.key)).elim (.ok .zero)
      decodeStorage = .ok word

end

/-! ## An instance -/

namespace Forged

open Clearing

/-! The account of `Clearing` is claimed to have other storage than it has. -/

/-- The only node of a storage trie that has another word in the slot. -/
def slotLeaf : Bytes := leafEncoding (.ofWord slotHash) [11]

def accountLeaf : Bytes := leafEncoding (.ofWord addressHash) fullRecord.encode

/-- The proof of the account, with a storage root that is not its own and a proof of the slot under
that root. -/
def proof : AccountProof where
  address := address
  accountProof := [accountLeaf]
  balance := .zero
  codeHash := codeHash
  nonce := .ofNat 1
  storageHash := digest slotLeaf
  storageProof := [⟨slot, .ofNat 11, [slotLeaf]⟩]

theorem root_before : before.commit.root = digest accountLeaf := by
  obtain ⟨m, hm⟩ := accounts_before
  refine World.root_eq_digest ?_
  rw [hm, accountLeaf]
  rfl

theorem collisionFree : CollisionFree (· ∈ [Rlp.emptyData, accountLeaf, slotLeaf,
    leafEncoding (.ofWord slotHash) [7]]) := by
  refine collisionFree_of_nodup (fun b => id) ?_
  simp only [digest_toNat]
  decide +kernel

theorem isEmptyRoot_leaf {b : Bytes} (hb : b ∈ [accountLeaf, slotLeaf]) :
    isEmptyRoot (digest b) = false := by
  refine isEmptyRoot_digest collisionFree List.mem_cons_self ?_ ?_
  · exact List.mem_cons_of_mem _ (List.mem_append_left [_] hb)
  · rintro rfl
    revert hb
    decide

/-- The sets of the account trie and of the storage trie that is claimed. -/
def accounts : NodeSet := .lone .account (digest accountLeaf) addressHash fullRecord.encode

def storage : NodeSet := .lone (.storage addressHash) (digest slotLeaf) slotHash [11]

/-- The set that is made of the proof. -/
def merged : MergedNodeSet :=
  ⟨(Table.empty.insert .account accounts).insert (.storage addressHash) storage⟩

theorem ofAccountProofs_proof :
    NodeSet.ofAccountProofs before.commit.root [proof] = .ok accounts := by
  have hnodes : AccountProof.accountNodes [proof] = .ofProof [accountLeaf] := by
    simp [AccountProof.accountNodes, proof]
  have hkeys : ([proof].map (·.address)).map hashedAddress = [addressHash] := by
    simp [proof, hashedAddress_address]
  rw [NodeSet.ofAccountProofs, NodeSet.addAccounts, hnodes, hkeys, root_before]
  exact NodeSet.addKeys_lone (isEmptyRoot_leaf (by simp)) fullRecord.encode_ne_nil (by decide)
    (ofProof_singleton accountLeaf)

theorem ofStorageProofs_proof :
    NodeSet.ofStorageProofs [proof] = .ok (Table.empty.insert address storage) := by
  have hnodes : proof.storageNodes = .ofProof [slotLeaf] := by
    simp [AccountProof.storageNodes, proof]
  have hkeys : proof.slots.map hashedSlot = [slotHash] := by
    simp [AccountProof.slots, proof, hashedSlot_slot]
  have hroot : isEmptyRoot proof.storageHash = false := isEmptyRoot_leaf (by simp)
  have hadd : (storageSet .empty proof.address).addSlots proof.storageHash
      proof.storageNodes.source proof.slots = .ok storage := by
    rw [NodeSet.addSlots, hnodes, hkeys, storage, ← hashedAddress_address]
    exact NodeSet.addKeys_lone hroot (by decide) (by decide) (ofProof_singleton slotLeaf)
  rw [ofStorageProofs_eq, List.foldlM_cons, addStorage, hroot, if_neg Bool.false_ne_true, hadd]
  rfl

theorem ofStateProofs_proof :
    MergedNodeSet.ofStateProofs before.commit.root [proof] = .ok merged := by
  rw [MergedNodeSet.ofStateProofs, ofAccountProofs_proof, ofStorageProofs_proof]
  rfl

theorem leaf?_account : merged.leaf? .account (hashedAddress address) = some fullRecord.encode := by
  rw [hashedAddress_address, MergedNodeSet.leaf?, merged, Table.find?_insert, if_neg nofun,
    Table.find?_insert, if_pos rfl, Option.bind_some, accounts, NodeSet.lone, Table.find?_insert,
    if_pos rfl]

theorem leaf?_slot :
    merged.leaf? (.storage (hashedAddress address)) (hashedSlot slot) = some [11] := by
  rw [hashedAddress_address, hashedSlot_slot, MergedNodeSet.leaf?, merged, Table.find?_insert,
    if_pos rfl, Option.bind_some, storage, NodeSet.lone, Table.find?_insert, if_pos rfl]

end Forged

open Forged Clearing in
/-- The hypothesis holds of Keccak-256 and a proof with a storage root that is not that of the
account. -/
theorem ofStateProofs_answers_forged :
    CollisionFree (InSlotProof [proof]) ∧
    MergedNodeSet.ofStateProofs before.commit.root [proof] = .ok merged ∧
    isEmptyRoot proof.storageHash = false ∧ slot ∈ proof.slots ∧
    ∃ e, (proof.verifySlot slot).outcome = .ok e ∧ e.value = some [11] := by
  have hfree : CollisionFree (InSlotProof [proof]) := by
    have hleaf : ∀ b, InSlotProof [proof] b → b = slotLeaf := by
      rintro b ⟨p, hp, q, hq, hb⟩
      obtain rfl := List.mem_singleton.1 hp
      obtain rfl := List.mem_singleton.1 hq
      exact List.mem_singleton.1 hb
    refine ⟨fun {a b} ha hb _ => (hleaf a ha).trans (hleaf b hb).symm, fun {a} ha => ?_⟩
    rw [hleaf a ha]
    exact collisionFree.ne_zero (by simp)
  have hroot : isEmptyRoot proof.storageHash = false := isEmptyRoot_leaf (by simp)
  have hslot : slot ∈ proof.slots := List.mem_singleton_self slot
  obtain ⟨-, hslots⟩ := MergedNodeSet.ofStateProofs_answers hfree ofStateProofs_proof
    (List.mem_singleton_self proof)
  obtain ⟨e, he, hvalue⟩ := hslots hroot slot hslot
  exact ⟨hfree, ofStateProofs_proof, hroot, hslot, e, he, hvalue.symm.trans leaf?_slot⟩

open Forged Clearing in
/-- A proof of an account with a storage root that is not that of the account is taken, with a word
in a slot where the state has another one. -/
theorem ofStateProofs_forged :
    ∃ m, MergedNodeSet.ofStateProofs before.commit.root [proof] = .ok m ∧
      m.leaf? .account (hashedAddress address) = some fullRecord.encode ∧
      proof.storageHash ≠ fullRecord.storageRoot ∧
      m.leaf? (.storage (hashedAddress address)) (hashedSlot slot) = some [11] ∧
      encodeStorage (before.commit.word address slot) = [7] ∧ ¬ m.Confirms proof := by
  have hroot : proof.storageHash ≠ fullRecord.storageRoot := by
    have hne : slotLeaf ≠ leafEncoding (.ofWord slotHash) [7] := by decide
    rw [fullRecord, ← digest_slotLeaf]
    exact mt (collisionFree.inj (by simp) (by simp)) hne
  refine ⟨merged, ofStateProofs_proof, leaf?_account, hroot, leaf?_slot, by decide +kernel, ?_⟩
  intro h
  obtain ⟨claimed, found, hclaimed, hfound, -, heq⟩ := h.account leaf?_account
  obtain rfl := Except.ok.inj ((fullRecord.decode_encode).symm.trans hfound)
  rw [← AccountProof.storageHash_eq hclaimed] at heq
  rcases heq with heq | ⟨hempty, -⟩
  · exact hroot heq
  · have hnot : isEmptyRoot (digest slotLeaf) = false := isEmptyRoot_leaf (by simp)
    cases hnot.symm.trans hempty

end Stateless
