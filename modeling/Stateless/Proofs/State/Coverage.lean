import Stateless.Proofs.Fault
import Stateless.Proofs.Remote.Honest
import Stateless.Remote.JsonRpc

/-!
# What a prepared block covers

A block is prepared from the answers of a node, and the node may answer anything. It is checked that
the block builds on the one before. Nothing else is compared with the request: not the numbers of the
headers, after which the proofs are even asked for, and not the addresses and slots of the proofs.
So a prepared block covers what it was asked for exactly if the node answered to the point
(`prepare_covers_iff`). Behind JSON-RPC the slots are those of the request, whatever the reply says,
but the address is that of the reply (`JsonRpc.proofOf_eq_ok`).
-/

namespace Stateless

/-! ## Replies -/

namespace JsonRpc

theorem withSlots_eq_ok {p q : AccountProof} {slots : List Word} (h : withSlots p slots = .ok q) :
    q.slots = slots ∧ q.address = p.address := by
  unfold withSlots at h
  split at h
  · next hlen =>
    obtain rfl := Except.ok.inj h
    refine ⟨?_, rfl⟩
    show (List.zipWith _ slots p.storageProof).map StorageProof.key = slots
    rw [List.map_zipWith, ← List.map_uncurry_zip_eq_zipWith]
    exact List.map_fst_zip hlen.ge
  · cases h

/-- A proof from a reply has the slots of the request, and the address that the reply says. -/
theorem proofOf_eq_ok {a : Address} {slots : List Word} {block : UInt64} {r : Reply}
    {q : AccountProof} (h : proofOf a slots block r = .ok q) :
    q.slots = slots ∧ ∃ j p, r = .result j ∧ accountProof? j = some p ∧ q.address = p.address := by
  unfold proofOf at h
  split at h
  · next p hp =>
    obtain ⟨hslots, haddress⟩ := withSlots_eq_ok h
    unfold receive at hp
    split at hp
    · next j =>
      split at hp
      · next p' hread =>
        obtain rfl := Except.ok.inj hp
        exact ⟨hslots, j, _, rfl, hread, haddress⟩
      · cases hp
    · cases hp
    · cases hp
  · cases h
  · cases h

end JsonRpc

/-! ## What a preparation asks for -/

namespace RemoteNode

variable {node : RemoteNode} {block : UInt64} {list : AccessList}

theorem header_eq_ok_iff {h : BlockHeader} :
    node.header block = .ok h ↔ node.blockByNumber block = .ok (some h) := by
  unfold header
  split <;> simp_all

theorem proofs_eq_ok_iff {ps : List AccountProof} :
    node.proofs list block = .ok ps ↔
      List.Forall₂ (fun e p => node.proofOf e.1 e.2 block = .ok p) list.toList ps := by
  unfold proofs
  rw [mapM_eq_ok_iff]
  simp only [mapError_eq_ok_iff]

/-- What a node answers about a block, the one before and what an access list lists is about what it
was asked for. -/
structure ToThePoint (node : RemoteNode) (block : UInt64) (list : AccessList) : Prop where
  header {b : UInt64} {h : BlockHeader} : b = block ∨ b = block - 1 →
    node.blockByNumber b = .ok (some h) → h.number = b
  proof {b : UInt64} {a : Address} {slots : List Word} {p : AccountProof} :
    b = block ∨ b = block - 1 → (a, slots) ∈ list.toList →
    node.proofOf a slots b = .ok p → (p.address, p.slots) = (a, slots)

/-- Proofs that are asked for in turn have the right addresses and slots if each answer has. -/
theorem keys_eq_iff {ps : List AccountProof} (h : node.proofs list block = .ok ps) :
    ps.map (fun p => (p.address, p.slots)) = list.toList ↔
      ∀ a slots p, (a, slots) ∈ list.toList → node.proofOf a slots block = .ok p →
        (p.address, p.slots) = (a, slots) := by
  rw [proofs_eq_ok_iff] at h
  generalize list.toList = entries at h ⊢
  induction h with
  | nil => simp
  | @cons e p es ps hp _ ih =>
    obtain ⟨a, slots⟩ := e
    rw [List.map_cons, List.cons.injEq, ih]
    constructor
    · rintro ⟨hkey, hrest⟩ a' slots' p' hmem hp'
      rcases List.mem_cons.1 hmem with heq | hmem
      · obtain ⟨rfl, rfl⟩ := Prod.mk.inj heq
        obtain rfl := Except.ok.inj (hp.symm.trans hp')
        exact hkey
      · exact hrest a' slots' p' hmem hp'
    · intro hall
      refine ⟨hall a slots p List.mem_cons_self hp, fun a' slots' p' hmem => ?_⟩
      exact hall a' slots' p' (List.mem_cons_of_mem _ hmem)

end RemoteNode

namespace PreparedBlock

variable {node : RemoteNode} {block : UInt64} {list : AccessList} {p : PreparedBlock}

/-- A prepared block is about a block and lists the accounts and slots of an access list. -/
structure Covers (p : PreparedBlock) (block : UInt64) (list : AccessList) : Prop where
  number : p.block.number = block
  parentNumber : p.parent.number = block - 1
  builds : p.block.parentHash = p.parent.hash
  preKeys : p.preProofs.map (fun q => (q.address, q.slots)) = list.toList
  postKeys : p.postProofs.map (fun q => (q.address, q.slots)) = list.toList

/-- All that is known of a block that was prepared. -/
theorem prepare_eq_ok_iff : prepare node block list = .ok p ↔
    block ≠ 0 ∧ node.chainId = .ok p.chainId ∧ node.blockByNumber block = .ok (some p.block) ∧
      node.blockByNumber (block - 1) = .ok (some p.parent) ∧
      p.block.parentHash = p.parent.hash ∧ node.proofs list p.parent.number = .ok p.preProofs ∧
      node.proofs list p.block.number = .ok p.postProofs := by
  constructor
  · intro h
    unfold prepare at h
    by_cases hblock : block = 0
    · rw [if_pos hblock] at h
      cases h
    · rw [if_neg hblock] at h
      obtain ⟨chainId, hid, h⟩ := exists_of_bind_eq_ok h
      obtain ⟨header, hheader, h⟩ := exists_of_bind_eq_ok h
      obtain ⟨parent, hparent, h⟩ := exists_of_bind_eq_ok h
      by_cases hbuilds : header.parentHash ≠ parent.hash
      · rw [if_pos hbuilds] at h
        cases h
      · rw [if_neg hbuilds] at h
        obtain ⟨pre, hpre, h⟩ := exists_of_bind_eq_ok h
        obtain ⟨post, hpost, h⟩ := exists_of_bind_eq_ok h
        obtain rfl := Except.ok.inj h
        exact ⟨hblock, mapError_eq_ok_iff.1 hid, RemoteNode.header_eq_ok_iff.1 hheader,
          RemoteNode.header_eq_ok_iff.1 hparent, not_not.1 hbuilds, hpre, hpost⟩
  · rintro ⟨hblock, hid, hheader, hparent, hbuilds, hpre, hpost⟩
    rw [← RemoteNode.header_eq_ok_iff] at hheader hparent
    unfold prepare
    rw [if_neg hblock, hid, hheader, hparent]
    show (if p.block.parentHash ≠ p.parent.hash then _ else _) = _
    rw [if_neg (not_not.2 hbuilds), hpre, hpost]
    rfl

/-- A block that was prepared builds on the one before, and it covers what was asked for exactly if
the node answered to the point. -/
theorem prepare_covers_iff (h : prepare node block list = .ok p) :
    p.block.parentHash = p.parent.hash ∧ (p.Covers block list ↔ node.ToThePoint block list) := by
  obtain ⟨-, -, hheader, hparent, hbuilds, hpre, hpost⟩ := prepare_eq_ok_iff.1 h
  refine ⟨hbuilds, fun hcovers => ⟨?_, ?_⟩, fun hpoint => ?_⟩
  · rintro b g (rfl | rfl) hg
    · obtain rfl := Option.some.inj (Except.ok.inj (hheader.symm.trans hg))
      exact hcovers.number
    · obtain rfl := Option.some.inj (Except.ok.inj (hparent.symm.trans hg))
      exact hcovers.parentNumber
  · -- the numbers are right, so these are the blocks at which the proofs were asked for
    rw [hcovers.parentNumber] at hpre
    rw [hcovers.number] at hpost
    rintro b a slots q (rfl | rfl) hmem hq
    · exact (RemoteNode.keys_eq_iff hpost).1 hcovers.postKeys a slots q hmem hq
    · exact (RemoteNode.keys_eq_iff hpre).1 hcovers.preKeys a slots q hmem hq
  · have hnumber := hpoint.header (Or.inl rfl) hheader
    have hparentNumber := hpoint.header (Or.inr rfl) hparent
    rw [hparentNumber] at hpre
    rw [hnumber] at hpost
    exact ⟨hnumber, hparentNumber, hbuilds,
      (RemoteNode.keys_eq_iff hpre).2 fun a slots q => hpoint.proof (Or.inr rfl),
      (RemoteNode.keys_eq_iff hpost).2 fun a slots q => hpoint.proof (Or.inl rfl)⟩

end PreparedBlock

/-- What an honest node says is to the point. -/
theorem RemoteNode.Honest.toThePoint [Hasher] {node : RemoteNode} {n : UInt64} {pre post : World}
    (h : node.Honest n pre post) (list : AccessList) : node.ToThePoint n list where
  header hb hg := by
    rcases hb with rfl | rfl
    · obtain ⟨g, hg', hnumber, -⟩ := h.after.header
      obtain rfl := Option.some.inj (Except.ok.inj (hg'.symm.trans hg))
      exact hnumber
    · obtain ⟨g, hg', hnumber, -⟩ := h.before.header
      obtain rfl := Option.some.inj (Except.ok.inj (hg'.symm.trans hg))
      exact hnumber
  proof {b a slots p} hb _ hp := by
    rcases hb with rfl | rfl
    · obtain ⟨q, hq, hkey, -⟩ := h.after.proof a slots
      obtain rfl := Except.ok.inj (hq.symm.trans hp)
      exact hkey
    · obtain ⟨q, hq, hkey, -⟩ := h.before.proof a slots
      obtain rfl := Except.ok.inj (hq.symm.trans hp)
      exact hkey

/-! ## Instances -/

namespace Stray

theorem length_address : (List.replicate 20 1 : Bytes).length = 20 := rfl

theorem length_elsewhere : (List.replicate 20 2 : Bytes).length = 20 := rfl

def address : Address := ⟨List.replicate 20 1, length_address⟩

def elsewhere : Address := ⟨List.replicate 20 2, length_elsewhere⟩

/-- What is asked for: one slot of one account. -/
def listed : AccessList := AccessList.empty.addSlot address .zero

/-- A proof about an account that nobody asked for. -/
def foreign : AccountProof := ⟨elsewhere, [], .zero, .zero, .zero, .zero, []⟩

def header (number : UInt64) : BlockHeader := ⟨number, .zero, .zero, .zero⟩

/-- A node that takes two blocks for each other and always proves the same account. -/
def node : RemoteNode where
  chainId := .ok 1
  blockByNumber n := .ok (some (header (1 - n)))
  proofOf _ _ _ := .ok foreign
  codeAt _ _ := .ok []
  storageAt _ _ _ := .ok .zero

def prepared : PreparedBlock := ⟨1, header 0, header 1, [foreign], [foreign]⟩

end Stray

/-- The hypothesis holds of two blocks of a chain, and the slot of an account is covered. -/
theorem PreparedBlock.prepare_covers_iff_listed :
    ∃ p, prepare (Chain.ofWorlds 1 [.empty, .empty]).node 1 Stray.listed = .ok p ∧
      p.Covers 1 Stray.listed := by
  have hhonest : (Chain.ofWorlds 1 [.empty, .empty]).node.Honest 1 .empty .empty :=
    Chain.honest (by decide) rfl rfl
  obtain ⟨p, hp, -⟩ := hhonest.prepare_eq_ok (by decide) Stray.listed
  exact ⟨p, hp, (prepare_covers_iff hp).2.2 (hhonest.toThePoint _)⟩

open Stray in
/-- Nothing that was asked for is covered: both headers have the numbers of other blocks, and the only
account is one that is not listed. -/
theorem PreparedBlock.prepare_stray :
    prepare node 1 listed = .ok prepared ∧ prepared.block.number ≠ 1 ∧
      prepared.parent.number ≠ 1 - 1 ∧ listed.toList = [(address, [.zero])] ∧
      prepared.preProofs.map (fun q => (q.address, q.slots)) = [(elsewhere, [])] ∧
      prepared.postProofs.map (fun q => (q.address, q.slots)) = [(elsewhere, [])] ∧
      ¬ prepared.Covers 1 listed := by
  refine ⟨rfl, by decide, by decide, rfl, rfl, rfl, fun h => ?_⟩
  exact absurd h.number (by decide)

end Stateless
