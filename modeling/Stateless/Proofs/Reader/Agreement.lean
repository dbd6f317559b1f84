import Stateless.Proofs.Reader.Replay
import Stateless.Proofs.State.FullState
import Stateless.Proofs.State.Replay
import Stateless.Proofs.State.Snapshot

/-!
# Readers of one state

A remote node, a store with the proofs of an account and a slot, and a flat snapshot of one state are
read in three ways that have nothing in common. They answer the same word for the slot. For the
account the tries and the snapshot answer its record, whatever is in it; the node's answer is judged
by its fields, so an account that has nothing at all is not seen there. The main statement is
`readers_agree`, and `readers_part` is a state in which the answers differ.
-/

namespace Stateless

open Trie

section

variable [Hasher] {w : FullState} {a : Address} {slot : Word} {source : NodeSource}

/-! ## The remote node -/

/-- A node claims of an account and a slot what a state has. Of an account that does not exist it
claims that it has nothing. -/
structure RemoteNode.Reports (node : RemoteNode) (n : UInt64) (w : FullState) (a : Address)
    (slot : Word) : Prop where
  account : ∃ p, node.proofOf a [] n = .ok p ∧
    (∀ r, w.account? a = some r → p.account = .ok r) ∧
    (w.account? a = none → ∃ r, p.account = .ok r ∧ r.isEmpty = true)
  word : node.storageAt a slot n = .ok (w.word a slot)

variable {node : RemoteNode} {n : UInt64}

theorem RemoteNode.Reports.readAccount (h : node.Reports n w a slot) :
    node.readAccount n a = .ok ((w.account? a).filter fun r => !r.isEmpty) := by
  obtain ⟨p, hp, hpresent, habsent⟩ := h.account
  rw [RemoteNode.readAccount, hp]
  dsimp only
  cases ha : w.account? a with
  | none =>
    obtain ⟨r, hr, hempty⟩ := habsent ha
    simp [hr, hempty, Except.map]
  | some r =>
    rw [hpresent r ha]
    cases hempty : r.isEmpty <;> simp [hempty, Except.map, Option.filter]

theorem RemoteNode.Reports.readStorage (h : node.Reports n w a slot) :
    node.readStorage n a slot = .ok (w.word a slot) := by
  rw [RemoteNode.readStorage, h.word]
  rfl

theorem RemoteNode.Proves.reports {v : World} (h : node.Proves n v)
    (haccount : w.account? a = v.commit.account? a)
    (hword : node.storageAt a slot n = .ok (w.word a slot)) : node.Reports n w a slot where
  account := by
    obtain ⟨p, hp, hkey, hattests⟩ := h.proof a []
    obtain rfl : p.address = a := congrArg Prod.fst hkey
    rw [haccount]
    exact ⟨p, hp, fun r hr => hattests.present hr, hattests.absent⟩
  word := hword

/-! ## The tries -/

/-- A source gives all nodes of the proof of a key; no nodes are asked for of the empty trie. -/
def NodeSource.Gives (source : NodeSource) (t : Trie) (key : Word) : Prop :=
  t ≠ .empty → ∀ blobs, t.prove (.ofWord key) = .ok blobs →
    ∀ e ∈ blobs, source (digest e) = some e

namespace NodeSource

variable {t : Trie} {key : Word} {l : List Nibble} {e : Bytes}

theorem Gives.stored (h : source.Gives t key) (ht : t.Whole) (hne : t ≠ .empty)
    (hstored : t.Stored (Path.ofWord key).toList l e) : source (digest e) ≠ none := by
  obtain ⟨v, hv⟩ := ht.full.view (Path.ofWord key).toList
  obtain ⟨blobs, hblobs, hmem⟩ := prove_complete ht.canonical hv
  rw [h hne blobs hblobs e ((hmem e).2 ⟨l, hstored⟩)]
  exact Option.some_ne_none e

/-- From the proof of a key a trie is rebuilt that answers for the key what the trie does. -/
theorem Gives.rebuild (h : source.Gives t key) (ht : t.Whole) (haddr : source.Addressed)
    (hfree : CollisionFree (t.Involved source)) :
    ∃ p, Trie.rebuild t.hash.1 source = .ok p ∧
      p.view (Path.ofWord key).toList = t.view (Path.ofWord key).toList := by
  obtain ⟨e, hc⟩ := ht.full.content
  have hencodes : t.Encodes e := ⟨[], t, nodeAt_nil t, hc⟩
  have hroot : t ≠ .empty → source (digest e) ≠ none := by
    intro hne
    exact h.stored ht hne ⟨List.nil_prefix, t, nodeAt_nil t, hc, Or.inl rfl⟩
  refine ⟨t.knownTo source, ?_, ?_⟩
  · exact rebuild_eq ht.canonical ht.full ht.sound ht.fits hfree (Or.inl rfl) hc
      (Or.inr (Or.inl hencodes)) hroot (truthful_of_collisionFree haddr hfree)
  · refine view_knownTo ht.canonical ht.full ?_
    rintro l e hne hl ⟨s, hs, he, hlen⟩
    have hfilled : t ≠ .empty := by
      rintro rfl
      cases l with
      | nil => exact hne rfl
      | cons d l => cases hs
    exact h.stored ht hfilled ⟨hl, s, hs, he, Or.inr hlen⟩

end NodeSource

/-- A store that gives nothing under a wrong hash has the proofs of an account and a slot. -/
structure NodeTable.Proves (nodes : NodeTable) (w : FullState) (a : Address) (slot : Word) :
    Prop where
  addressed : nodes.source.Addressed
  account : nodes.source.Gives w.accountTrie (hashedAddress a)
  slot : nodes.source.Gives (w.storageTrie (hashedAddress a)) (hashedSlot slot)

theorem NodeTable.ofProof_proves {blobs accountProof slotProof : List Bytes}
    (haccount : w.accountTrie.prove (.ofWord (hashedAddress a)) = .ok accountProof)
    (hslot : (w.storageTrie (hashedAddress a)).prove (.ofWord (hashedSlot slot)) = .ok slotProof)
    (hmem : ∀ e ∈ accountProof ++ slotProof, e ∈ blobs) (hfree : CollisionFree (· ∈ blobs)) :
    (NodeTable.ofProof blobs).Proves w a slot := by
  have hsource := ofProof_source hfree fun b hb => hb
  refine ⟨fun h b hb => ((hsource h b).1 hb).2, ?_, ?_⟩
  · rintro - _ hprove e he
    obtain rfl := Except.ok.inj (haccount.symm.trans hprove)
    exact (hsource _ e).2 ⟨hmem e (List.mem_append_left _ he), rfl⟩
  · rintro - _ hprove e he
    obtain rfl := Except.ok.inj (hslot.symm.trans hprove)
    exact (hsource _ e).2 ⟨hmem e (List.mem_append_right _ he), rfl⟩

/-- The byte strings that matter when an account and its slots are read from a store: the encodings
of the nodes of both tries, and all that the store has. -/
def FullState.Involved (w : FullState) (a : Address) (source : NodeSource) (b : Bytes) : Prop :=
  w.accountTrie.Involved source b ∨ (w.storageTrie (hashedAddress a)).Involved source b

variable {nodes : NodeTable}

/-- A reader over the store answers for the account and the slot. -/
theorem NodeTable.Proves.make (h : nodes.Proves w a slot)
    (hfree : CollisionFree (w.Involved a nodes.source)) :
    ∃ r, TrieReader.make nodes w.root = .ok r ∧ r.readAccount a = .ok (w.account? a) ∧
      (r.readStorage a slot).1 = .ok (w.word a slot) := by
  have hfreeStorage : CollisionFree ((w.storageTrie (hashedAddress a)).Involved nodes.source) :=
    hfree.mono fun b hb => Or.inr hb
  have hstorage := w.storage (hashedAddress a)
  obtain ⟨accounts, haccounts, hview⟩ := h.account.rebuild w.accounts.whole h.addressed
    (hfree.mono fun b hb => Or.inl hb)
  obtain ⟨words, hwords, hwordsView⟩ := h.slot.rebuild hstorage.whole h.addressed hfreeStorage
  rw [w.accounts.view] at hview
  rw [hstorage.view] at hwordsView
  have hread : (TrieReader.mk nodes w.root accounts .empty).readAccount a =
      .ok (w.account? a) := by
    rw [TrieReader.readAccount, getProven_eq, hview, FullState.account?]
    cases w.records.find? (hashedAddress a) with
    | none => rfl
    | some r => simp [Except.mapError, Except.map]
  refine ⟨⟨nodes, w.root, accounts, .empty⟩, ?_, hread, ?_⟩
  · rw [TrieReader.make, FullState.root, haccounts]
  · rw [TrieReader.readStorage, hread]
    cases ha : w.account? a with
    | none => rw [FullState.word_of_empty (w.vacant ha)]
    | some r =>
      dsimp only
      have hiff := hstorage.whole.isEmptyRoot_hash hfreeStorage (Or.inl rfl)
        fun e he => Or.inr (Or.inl he)
      by_cases hempty : w.storageTrie (hashedAddress a) = .empty
      · have hroot : isEmptyRoot r.storageRoot = true := by
          rcases w.root_of_record ha with hroot | ⟨-, hroot⟩
          · rw [hroot]
            exact hiff.2 hempty
          · exact hroot
        rw [if_pos hroot, FullState.word_of_empty hempty]
      · have hroot := (w.root_of_record ha).resolve_right fun hne => hempty hne.1
        rw [hroot, if_neg (mt hiff.1 hempty), TrieReader.storageTrie, Table.find?_empty]
        dsimp only
        rw [hwords]
        dsimp only
        rw [getProven_eq, hwordsView, FullState.word]
        cases (w.words (hashedAddress a)).find? (hashedSlot slot) with
        | none => rfl
        | some v => simp [Except.mapError]

/-! ## All of them -/

variable {s : Snapshot}

/-- The readers of a state answer the same word for a slot. Those of the tries and of a snapshot
answer the record of an account; that of a remote node does, too, unless the record is empty, and
then it answers that there is no account. -/
theorem readers_agree (hnode : node.Reports n w a slot) (hnodes : nodes.Proves w a slot)
    (hsnapshot : s.Holds w.records w.words) (hfree : CollisionFree (w.Involved a nodes.source))
    (shared : Shared) :
    ∃ r, TrieReader.make nodes w.root = .ok r ∧
      ((Reader.tries r).account a shared).1 = .ok (w.account? a) ∧
      ((Reader.snapshot s).account a shared).1 = .ok (w.account? a) ∧
      ((Reader.remote node n w.root).account a shared).1 =
        .ok ((w.account? a).filter fun r => !r.isEmpty) ∧
      ((Reader.tries r).storage a slot shared).1 = .ok (w.word a slot) ∧
      ((Reader.snapshot s).storage a slot shared).1 = .ok (w.word a slot) ∧
      ((Reader.remote node n w.root).storage a slot shared).1 = .ok (w.word a slot) := by
  obtain ⟨r, hr, haccount, hword⟩ := hnodes.make hfree
  exact ⟨r, hr, haccount, hsnapshot.readAccount a, hnode.readAccount, hword,
    hsnapshot.readStorage a slot, hnode.readStorage⟩

end

/-! ## Instances -/

section

variable [Hasher] {a : Address} {r : Account} {slot : Word} {e : Bytes}
variable {T : Table Word Word} {t : Trie}
variable {ht : t.Tabulates encodeStorage T} {hroot : r.storageRoot = t.hash.1}

/-- The nodes of the state of a single account with at most one slot. -/
def leafNodes (a : Address) (r : Account) (e : Bytes) : List Bytes :=
  [leafEncoding (.ofWord (hashedAddress a)) r.encode, e]

theorem FullState.single_proves (hslot : t.prove (.ofWord (hashedSlot slot)) = .ok [e])
    (hfree : CollisionFree (· ∈ Rlp.emptyData :: leafNodes a r e)) :
    (NodeTable.ofProof (leafNodes a r e)).Proves (single a r ht hroot) a slot := by
  have haccount : (single a r ht hroot).accountTrie.prove (.ofWord (hashedAddress a)) =
      .ok [leafEncoding (.ofWord (hashedAddress a)) r.encode] := rfl
  have hslot : ((single a r ht hroot).storageTrie (hashedAddress a)).prove
      (.ofWord (hashedSlot slot)) = .ok [e] := by
    rw [storageTrie_single, hslot]
  refine NodeTable.ofProof_proves haccount hslot (by simp [leafNodes]) ?_
  exact hfree.mono fun b hb => List.mem_cons_of_mem _ hb

theorem FullState.single_collisionFree (hslots : ∀ b, t.Encodes b → b = e)
    (hfree : CollisionFree (· ∈ Rlp.emptyData :: leafNodes a r e)) :
    CollisionFree ((single a r ht hroot).Involved a
      (NodeTable.ofProof (leafNodes a r e)).source) := by
  have hstored : ∀ b, (∃ k, (NodeTable.ofProof (leafNodes a r e)).source k = some b) →
      b ∈ Rlp.emptyData :: leafNodes a r e := by
    rintro b ⟨k, hk⟩
    have hmem := (ofProof_source hfree (fun b hb => List.mem_cons_of_mem _ hb) k b).1 hk
    exact List.mem_cons_of_mem _ hmem.1
  refine hfree.mono fun b hb => ?_
  rw [Involved, storageTrie_single] at hb
  rcases hb with (rfl | hb | hb) | rfl | hb | hb
  · exact List.mem_cons_self
  · simp [leafNodes, encodes_leaf.1 hb]
  · exact hstored b hb
  · exact List.mem_cons_self
  · simp [leafNodes, hslots b hb]
  · exact hstored b hb

end

namespace Clearing

theorem account?_before : before.commit.account? address = some fullRecord := by
  rw [World.account?_commit, World.records, Table.find?_map, find?_before.2 ⟨rfl, rfl⟩,
    Option.map_some, account_holder]

theorem storageRoot_fullRecord : fullRecord.storageRoot =
    (Trie.leaf (.ofWord (hashedSlot slot)) (encodeStorage word) none).hash.1 := by
  have hencode : encodeStorage word = [7] := by decide +kernel
  have ht := tabulates_leaf storable_encodeStorage (hashedSlot slot) word
  have hc : (Trie.leaf (.ofWord (hashedSlot slot)) (encodeStorage word) none).content =
      .ok (leafEncoding (.ofWord (hashedSlot slot)) (encodeStorage word)) := rfl
  rw [hash_eq_digest ht.whole.sound hc, hencode, hashedSlot_slot, digest_slotLeaf]
  rfl

/-- The state before the change, as its tries. -/
def state : FullState :=
  .single address fullRecord (tabulates_leaf storable_encodeStorage (hashedSlot slot) word)
    storageRoot_fullRecord

def leaves : List Bytes :=
  leafNodes address fullRecord (leafEncoding (.ofWord (hashedSlot slot)) (encodeStorage word))

/-- A snapshot of it. -/
def snapshot : Snapshot :=
  (Snapshot.empty.insertAccount address fullRecord).insertStorage address slot word

theorem word_state : state.word address slot = word := by
  rw [FullState.word, state, FullState.words_single, Table.find?_insert, if_pos rfl]
  rfl

theorem reports_state : node.Reports (1 - 1) state address slot := by
  refine honest.before.reports ?_ ?_
  · rw [account?_before]
    exact FullState.account?_single
  · rw [storageAt, word_before, word_state]

theorem holds_snapshot : snapshot.Holds state.records state.words :=
  (Snapshot.holds_empty.insertAccount address fullRecord).insertStorage address slot word

theorem collisionFree_leaves : CollisionFree (· ∈ Rlp.emptyData :: leaves) := by
  refine collisionFree_of_nodup (fun b => id) ?_
  rw [leaves, leafNodes, hashedAddress_address, hashedSlot_slot]
  simp only [digest_toNat]
  decide +kernel

theorem proves_leaves : (NodeTable.ofProof leaves).Proves state address slot :=
  FullState.single_proves rfl collisionFree_leaves

theorem collisionFree_state :
    CollisionFree (state.Involved address (NodeTable.ofProof leaves).source) :=
  FullState.single_collisionFree (fun _ hb => encodes_leaf.1 hb) collisionFree_leaves

end Clearing

open Clearing in
/-- The hypotheses hold of Keccak-256, a node with a chain of two states and an account that has a
word in a slot. -/
theorem readers_agree_clearing :
    node.Reports (1 - 1) state address slot ∧
    (NodeTable.ofProof leaves).Proves state address slot ∧
    snapshot.Holds state.records state.words ∧
    CollisionFree (state.Involved address (NodeTable.ofProof leaves).source) ∧
    ∃ r, TrieReader.make (NodeTable.ofProof leaves) state.root = .ok r ∧
      ((Reader.tries r).account address .empty).1 = .ok (some fullRecord) ∧
      ((Reader.remote node (1 - 1) state.root).account address .empty).1 = .ok (some fullRecord) ∧
      ((Reader.tries r).storage address slot .empty).1 = .ok word := by
  have haccount : state.account? address = some fullRecord := FullState.account?_single
  obtain ⟨r, hr, htries, -, hremote, hword, -⟩ := readers_agree reports_state proves_leaves
    holds_snapshot collisionFree_state .empty
  rw [haccount] at htries hremote
  rw [word_state] at hword
  exact ⟨reports_state, proves_leaves, holds_snapshot, collisionFree_state, r, hr, htries, hremote,
    hword⟩

namespace Bare

open Clearing

/-! An account that has nothing is written to the tries. -/

/-- The state with the account. -/
def world : World := Table.empty.insert address Holding.empty

def node : RemoteNode := (Chain.ofWorlds 1 [world]).node

def record : Account := ⟨0, 0, clearRoot, codeHash⟩

theorem storageRoot_record : record.storageRoot = Trie.empty.hash.1 := digest_emptyData.symm

/-- The state as its tries. -/
def state : FullState := .single address record tabulates_empty storageRoot_record

def leaves : List Bytes := leafNodes address record Rlp.emptyData

/-- A snapshot of it. -/
def snapshot : Snapshot := Snapshot.empty.insertAccount address record

theorem account?_world : world.commit.account? address = some record := by
  have hroot : Holding.empty.storageTrie.rootHash = clearRoot := rootHash_cleared
  rw [World.account?_commit, World.records, Table.find?_map, world, Table.find?_insert, if_pos rfl,
    Option.map_some, Holding.account, hroot]
  simp [Account.withCode, Account.new, Holding.empty, digest_nil, record]

theorem reports_state : node.Reports 0 state address slot := by
  refine (Chain.ofWorlds_proves (w := world) rfl).reports ?_ ?_
  · rw [account?_world]
    exact FullState.account?_single
  · have hword : state.word address slot = .zero :=
      FullState.word_of_empty FullState.storageTrie_single slot
    rw [hword]
    exact Chain.ofWorlds_storageAt (w := world) rfl address slot

theorem holds_snapshot : snapshot.Holds state.records state.words := by
  have hwords : state.words = fun _ => .empty := by
    rw [state, FullState.single]
    exact Function.update_eq_self ..
  rw [hwords]
  exact Snapshot.holds_empty.insertAccount address record

theorem collisionFree_leaves : CollisionFree (· ∈ Rlp.emptyData :: leaves) := by
  have hleaves : ∀ b, b ∈ Rlp.emptyData :: leaves → b ∈ leaves := by
    simp [leaves, leafNodes]
  refine collisionFree_of_nodup hleaves ?_
  rw [leaves, leafNodes, hashedAddress_address]
  simp only [digest_toNat]
  decide +kernel

theorem proves_leaves : (NodeTable.ofProof leaves).Proves state address slot :=
  FullState.single_proves rfl collisionFree_leaves

theorem collisionFree_state :
    CollisionFree (state.Involved address (NodeTable.ofProof leaves).source) :=
  FullState.single_collisionFree (fun _ hb => encodes_empty.1 hb) collisionFree_leaves

end Bare

open Clearing in
/-- An account with nothing can be written, and then it is there for the readers of the tries and of
a snapshot, and not for the reader of a node. -/
theorem readers_part :
    LocalTrie.inTurn LocalTrie.setAccount [(address, some Bare.record)] ⟨.account, .empty⟩ =
      (.ok (), ⟨.account, Bare.state.accountTrie⟩) ∧
    Bare.node.Reports 0 Bare.state address slot ∧
    (NodeTable.ofProof Bare.leaves).Proves Bare.state address slot ∧
    Bare.snapshot.Holds Bare.state.records Bare.state.words ∧
    (∃ r, TrieReader.make (NodeTable.ofProof Bare.leaves) Bare.state.root = .ok r ∧
      ((Reader.tries r).account address .empty).1 = .ok (some Bare.record)) ∧
    ((Reader.snapshot Bare.snapshot).account address .empty).1 = .ok (some Bare.record) ∧
    ((Reader.remote Bare.node 0 Bare.state.root).account address .empty).1 = .ok none := by
  have haccount : Bare.state.account? address = some Bare.record := FullState.account?_single
  have hempty : Bare.record.isEmpty = true := by
    simp [Account.isEmpty, Bare.record, emptyCodeHash, digest_nil, isEmptyRoot, emptyRoot,
      digest_emptyData]
  obtain ⟨r, hr, htries, -⟩ := Bare.proves_leaves.make Bare.collisionFree_state
  have hsnapshot : Bare.snapshot.readAccount address = .ok (Bare.state.account? address) :=
    Bare.holds_snapshot.readAccount address
  have hremote := Bare.reports_state.readAccount
  rw [haccount] at htries hsnapshot
  rw [haccount, Option.filter_some, hempty] at hremote
  refine ⟨rfl, Bare.reports_state, Bare.proves_leaves, Bare.holds_snapshot, ⟨r, hr, htries⟩, ?_, ?_⟩
  · simp only [Reader.account, hsnapshot]
  · simp only [Reader.account, hremote]
    rfl

end Stateless
