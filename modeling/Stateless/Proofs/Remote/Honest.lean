import Stateless.Proofs.NodeSet.Orphans
import Stateless.Proofs.State.World
import Stateless.Remote.Chain
import Stateless.State.Prepared

/-!
# Honest nodes

A remote node is honest about a block if its answers are taken from the full tries of the state
after the block. Blocks are prepared from the answers of honest nodes without trouble
(`Honest.prepare_eq_ok`), and a chain that nothing disturbs is honest about all of its blocks
(`Chain.honest`).
-/

namespace Stateless

theorem AccountProof.storageHash_eq {p : AccountProof} {r : Account} (h : p.account = .ok r) :
    p.storageHash = r.storageRoot := by
  rw [account] at h
  split at h
  · cases h
  · cases h
  · rw [← Except.ok.inj h]

variable [Hasher]

theorem isEmptyRoot_emptyRoot : isEmptyRoot emptyRoot = true := by
  simp [isEmptyRoot]

theorem Account.isEmptyRoot_of_isEmpty {r : Account} (h : r.isEmpty = true) :
    isEmptyRoot r.storageRoot = true := by
  rw [isEmpty, Bool.and_eq_true] at h
  exact h.2

namespace World

variable {w : World} {a : Address} {r : Account}

theorem storageRoot_of_account? (h : w.commit.account? a = some r) :
    r.storageRoot = (w.commit.storageTrie a).rootHash := by
  rw [CommittedWorld.account?] at h
  obtain ⟨x, -, rfl⟩ := Option.map_eq_some_iff.1 h
  rfl

theorem storageTrie_of_account?_eq_none (h : w.commit.account? a = none) :
    w.commit.storageTrie a = .empty :=
  storageTrie_of_find?_eq_none (Option.map_eq_none_iff.1 h)

end World

/-! ## Proofs of accounts -/

/-- What a proof of an account and some of its slots must say to be taken from the tries of a state.
-/
structure CommittedWorld.Attests (c : CommittedWorld) (p : AccountProof) : Prop where
  /-- The way to the account is proven. -/
  accountProof : c.accounts.prove (.ofWord (hashedAddress p.address)) = .ok p.accountProof
  /-- The fields of an account that exists are those of its record. -/
  present {r : Account} : c.account? p.address = some r → p.account = .ok r
  /-- The fields of an account that does not exist are those of an empty one, in any spelling. -/
  absent : c.account? p.address = none → ∃ r, p.account = .ok r ∧ r.isEmpty = true
  /-- The ways to the slots are proven, if there is any storage. -/
  slots {q : StorageProof} : q ∈ p.storageProof → c.storageTrie p.address ≠ .empty →
    (c.storageTrie p.address).prove (.ofWord (hashedSlot q.key)) = .ok q.proof

namespace CommittedWorld

variable {w : World} {p : AccountProof}

/-- Without storage any spelling of the empty root may be claimed. -/
theorem Attests.isEmptyRoot_storageHash (h : w.commit.Attests p)
    (hempty : w.commit.storageTrie p.address = .empty) : isEmptyRoot p.storageHash = true := by
  cases ha : w.commit.account? p.address with
  | none =>
    obtain ⟨r, hr, hisEmpty⟩ := h.absent ha
    rw [AccountProof.storageHash_eq hr]
    exact Account.isEmptyRoot_of_isEmpty hisEmpty
  | some r =>
    rw [AccountProof.storageHash_eq (h.present ha), World.storageRoot_of_account? ha, hempty]
    exact isEmptyRoot_emptyRoot

/-- The root of storage that there is, is claimed. -/
theorem Attests.storageHash_eq (h : w.commit.Attests p)
    (hne : w.commit.storageTrie p.address ≠ .empty) :
    p.storageHash = (w.commit.storageTrie p.address).hash.1 := by
  cases ha : w.commit.account? p.address with
  | none => exact absurd (World.storageTrie_of_account?_eq_none ha) hne
  | some r =>
    rw [AccountProof.storageHash_eq (h.present ha), World.storageRoot_of_account? ha,
      (w.whole_storageTrie _).hash_eq_rootHash]

/-- In a trie that is whole every key can be proven. -/
theorem exists_prove {t : Trie} (ht : t.Whole) (k : Path) : ∃ blobs, t.prove k = .ok blobs := by
  obtain ⟨v, hv⟩ := ht.full.view k.toList
  obtain ⟨blobs, hblobs, -⟩ := Trie.prove_complete ht.canonical hv
  exact ⟨blobs, hblobs⟩

variable {a : Address} {r : Account} (slots : List Word)

theorem absentProof_attests (ha : w.commit.account? a = none) :
    ∃ p, w.commit.absentProof a slots = .ok p ∧ (p.address, p.slots) = (a, slots) ∧
      w.commit.Attests p := by
  obtain ⟨accountProof, haccount⟩ := exists_prove w.whole_accounts (.ofWord (hashedAddress a))
  let p : AccountProof := ⟨a, accountProof, .zero, .zero, .zero, .zero,
    slots.map fun slot => ⟨slot, .zero, []⟩⟩
  have hp : w.commit.absentProof a slots = .ok p := by
    simp [absentProof, haccount, bind, Except.bind, pure, Except.pure, p]
  have hslots : p.slots = slots := (List.map_map ..).trans (List.map_id slots)
  refine ⟨p, hp, Prod.ext rfl hslots, haccount, fun h => ?_, fun _ => ?_, fun _ hne => ?_⟩
  · cases ha.symm.trans h
  · exact ⟨⟨0, 0, .zero, .zero⟩, rfl, rfl⟩
  · exact absurd (World.storageTrie_of_account?_eq_none ha) hne

theorem presentProof_attests (ha : w.commit.account? a = some r) :
    ∃ p, w.commit.presentProof a slots r = .ok p ∧ (p.address, p.slots) = (a, slots) ∧
      w.commit.Attests p := by
  obtain ⟨accountProof, haccount⟩ := exists_prove w.whole_accounts (.ofWord (hashedAddress a))
  obtain ⟨storageProof, hstorage, hslots, hproofs⟩ := mapM_eq_ok_map
    (f := fun slot => do
      let proof ← (w.commit.storageTrie a).prove (.ofWord (hashedSlot slot))
      return (⟨slot, .ofNat (w.commit.word a slot).toNat, proof⟩ : StorageProof))
    (g := StorageProof.key) (l := slots)
    (P := fun q => (w.commit.storageTrie a).prove (.ofWord (hashedSlot q.key)) = .ok q.proof)
    fun slot _ => by
      obtain ⟨blobs, hblobs⟩ := exists_prove (w.whole_storageTrie a) (.ofWord (hashedSlot slot))
      exact ⟨_, by rw [hblobs]; rfl, rfl, hblobs⟩
  let p : AccountProof := ⟨a, accountProof, .ofNat r.balance.toNat, r.codeHash,
    .ofNat r.nonce.toNat, r.storageRoot, storageProof⟩
  have hp : w.commit.presentProof a slots r = .ok p := by
    simp only [presentProof, haccount, bind, Except.bind]
    simp only [bind, Except.bind] at hstorage
    rw [hstorage]
    rfl
  -- the numbers of a record fit in their fields, so the claimed ones are read back
  have hrecord : p.account = .ok r := by
    simp [AccountProof.account, p, Quantity.toUInt64?_ofNat, Quantity.toAmount?_ofNat]
  refine ⟨p, hp, Prod.ext rfl hslots, haccount, fun {r'} h => ?_, fun h => ?_, fun hq _ => ?_⟩
  · rw [hrecord, Option.some.inj (ha.symm.trans h)]
  · cases ha.symm.trans h
  · exact hproofs _ hq

/-- The proofs that a state gives attest to it. -/
theorem proof_attests (w : World) (a : Address) (slots : List Word) :
    ∃ p, w.commit.proof a slots = .ok p ∧ (p.address, p.slots) = (a, slots) ∧
      w.commit.Attests p := by
  rw [CommittedWorld.proof]
  cases ha : w.commit.account? a with
  | none => exact absentProof_attests slots ha
  | some r => exact presentProof_attests slots ha

end CommittedWorld

/-! ## Nodes -/

namespace RemoteNode

/-- The header and the proofs that a node gives for a block are those of a state. -/
structure Proves (node : RemoteNode) (n : UInt64) (w : World) : Prop where
  header : ∃ h, node.blockByNumber n = .ok (some h) ∧ h.number = n ∧
    h.stateRoot = w.commit.root
  proof (a : Address) (slots : List Word) : ∃ p, node.proofOf a slots n = .ok p ∧
    (p.address, p.slots) = (a, slots) ∧ w.commit.Attests p

/-- A node is honest about a block and the one before it, on which it builds. -/
structure Honest (node : RemoteNode) (n : UInt64) (pre post : World) : Prop where
  chainId : ∃ id, node.chainId = .ok id
  before : node.Proves (n - 1) pre
  after : node.Proves n post
  builds {parent header : BlockHeader} : node.blockByNumber (n - 1) = .ok (some parent) →
    node.blockByNumber n = .ok (some header) → header.parentHash = parent.hash

variable {node : RemoteNode} {n : UInt64} {w pre post : World}

/-- The proofs of everything in an access list attest to the state. -/
theorem Proves.proofs (h : node.Proves n w) (list : AccessList) :
    ∃ ps, node.proofs list n = .ok ps ∧
      ps.map (fun p => (p.address, p.slots)) = list.toList ∧ ∀ p ∈ ps, w.commit.Attests p :=
  mapM_eq_ok_map fun ⟨a, slots⟩ _ => by
    obtain ⟨p, hp, hkey, hattests⟩ := h.proof a slots
    exact ⟨p, by simp only [hp]; rfl, hkey, hattests⟩

end RemoteNode

/-- A prepared block has the roots of two states, and its proofs of everything in an access list
attest to them. -/
structure PreparedBlock.Attests (p : PreparedBlock) (list : AccessList) (pre post : World) :
    Prop where
  preRoot : p.preRoot = pre.commit.root
  postRoot : p.postRoot = post.commit.root
  preKeys : p.preProofs.map (fun q => (q.address, q.slots)) = list.toList
  postKeys : p.postProofs.map (fun q => (q.address, q.slots)) = list.toList
  preProofs {q : AccountProof} : q ∈ p.preProofs → pre.commit.Attests q
  postProofs {q : AccountProof} : q ∈ p.postProofs → post.commit.Attests q

/-- A block is prepared from the answers of an honest node. -/
theorem RemoteNode.Honest.prepare_eq_ok {node : RemoteNode} {n : UInt64} {pre post : World}
    (h : node.Honest n pre post) (hn : n ≠ 0) (list : AccessList) :
    ∃ p, PreparedBlock.prepare node n list = .ok p ∧ p.Attests list pre post := by
  obtain ⟨id, hid⟩ := h.chainId
  obtain ⟨parent, hparent, hnumber, hroot⟩ := h.before.header
  obtain ⟨header, hheader, hnumber', hroot'⟩ := h.after.header
  obtain ⟨ps, hps, hkeys, hattests⟩ := h.before.proofs list
  obtain ⟨ps', hps', hkeys', hattests'⟩ := h.after.proofs list
  refine ⟨⟨id, header, parent, ps, ps'⟩, ?_, hroot, hroot', hkeys, hkeys',
    fun hq => hattests _ hq, fun hq => hattests' _ hq⟩
  have hbuilds : ¬ header.parentHash ≠ parent.hash := not_not.2 (h.builds hparent hheader)
  rw [← hnumber] at hps
  rw [← hnumber'] at hps'
  simp [PreparedBlock.prepare, RemoteNode.header, hn, hid, hparent, hheader, hbuilds, hps, hps',
    Except.mapError, bind, Except.bind, pure, Except.pure]

/-! ## Chains -/

namespace Chain

variable {states : List CommittedWorld} {parentHash : Word} {number : UInt64} {i : Nat}

theorem headersFrom_getElem? {c : CommittedWorld} (number : UInt64) (parentHash : Word)
    (h : states[i]? = some c) :
    ∃ header, (headersFrom number parentHash states)[i]? = some header ∧
      header.number = number + UInt64.ofNat i ∧ header.stateRoot = c.root := by
  induction states generalizing number parentHash i with
  | nil => cases h
  | cons s states ih =>
    cases i with
    | zero =>
      obtain rfl := Option.some.inj h
      exact ⟨_, rfl, by simp, rfl⟩
    | succ i =>
      obtain ⟨header, hheader, hnumber, hroot⟩ :=
        ih (number + 1) (digest (parentHash.toBytes ++ s.root.toBytes)) h
      refine ⟨header, hheader, ?_, hroot⟩
      rw [hnumber, UInt64.ofNat_add, UInt64.add_assoc, UInt64.add_comm 1]
      rfl

theorem parentHash_headersFrom {parent header : BlockHeader}
    (hparent : (headersFrom number parentHash states)[i]? = some parent)
    (hheader : (headersFrom number parentHash states)[i + 1]? = some header) :
    header.parentHash = parent.hash := by
  induction states generalizing number parentHash i with
  | nil => cases hparent
  | cons s states ih =>
    cases i with
    | succ i => exact ih hparent hheader
    | zero =>
      obtain rfl := Option.some.inj hparent
      cases states with
      | nil => cases hheader
      | cons s' states => rw [← Option.some.inj hheader]

/-- A chain of states that nothing disturbs. -/
def ofWorlds (id : UInt64) (worlds : List World) : Chain :=
  ⟨id, worlds.map World.commit, [], [], [], []⟩

variable {worlds : List World} {id n : UInt64} {w pre post : World}

theorem ofWorlds_proves (h : worlds[n.toNat]? = some w) : (ofWorlds id worlds).node.Proves n w where
  header := by
    have hstate : (ofWorlds id worlds).states[n.toNat]? = some w.commit := by
      rw [ofWorlds, List.getElem?_map, h]
      rfl
    obtain ⟨header, hheader, hnumber, hroot⟩ := headersFrom_getElem? 0 .zero hstate
    refine ⟨header, congrArg Except.ok hheader, ?_, hroot⟩
    rw [hnumber, UInt64.zero_add, UInt64.ofNat_toNat]
  proof a slots := by
    obtain ⟨p, hp, hkey, hattests⟩ := CommittedWorld.proof_attests w a slots
    refine ⟨p, ?_, hkey, hattests⟩
    have hstate : (ofWorlds id worlds).stateAt n = .ok w.commit := by
      rw [stateAt, ofWorlds, List.getElem?_map, h]
      rfl
    have hproof : (ofWorlds id worlds).node.proofOf a slots n = (do
        let s ← (ofWorlds id worlds).stateAt n
        (s.proof a slots).mapError fun e => [e.message]) := rfl
    rw [hproof, hstate]
    simp [bind, Except.bind, hp, Except.mapError]

theorem ofWorlds_storageAt (h : worlds[n.toNat]? = some w) (a : Address) (slot : Word) :
    (ofWorlds id worlds).node.storageAt a slot n = .ok (w.commit.word a slot) := by
  have hstate : (ofWorlds id worlds).stateAt n = .ok w.commit := by
    rw [stateAt, ofWorlds, List.getElem?_map, h]
    rfl
  have hword : (ofWorlds id worlds).node.storageAt a slot n = (do
      let s ← (ofWorlds id worlds).stateAt n
      return s.word a slot) := rfl
  rw [hword, hstate]
  rfl

/-- A chain that nothing disturbs is honest about all of its blocks. -/
theorem honest (hn : n ≠ 0) (hpre : worlds[n.toNat - 1]? = some pre)
    (hpost : worlds[n.toNat]? = some post) : (ofWorlds id worlds).node.Honest n pre post := by
  have hpos : 0 < n.toNat := Nat.pos_of_ne_zero fun h => hn (UInt64.toNat_inj.1 h)
  have hpred : (n - 1).toNat = n.toNat - 1 :=
    UInt64.toNat_sub_of_le _ _ (UInt64.le_iff_toNat_le.2 hpos)
  refine ⟨⟨id, rfl⟩, ofWorlds_proves (by rwa [hpred]), ofWorlds_proves hpost, ?_⟩
  intro parent header hparent hheader
  have hparent' : (ofWorlds id worlds).ownHeaders[(n - 1).toNat]? = some parent :=
    Except.ok.inj hparent
  have hheader' : (ofWorlds id worlds).ownHeaders[n.toNat]? = some header :=
    Except.ok.inj hheader
  rw [show n.toNat = (n - 1).toNat + 1 by omega] at hheader'
  exact parentHash_headersFrom hparent' hheader'

end Chain

end Stateless
