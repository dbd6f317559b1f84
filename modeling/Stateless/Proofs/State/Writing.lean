import Mathlib.Data.Finset.Card
import Stateless.Proofs.NodeSet.Provenance
import Stateless.Proofs.State.Anchoring

/-!
# Writing prepared blocks

A store is changed write by write, and a batch may hold a write that it refuses; a block is written
after all its proofs have been verified, the last of which may fail. `Changing` computations
change the store as they go, so that what they changed before a refusal stays changed. All writes of a
batch are checked before the first one is made, so nothing is ever half written
(`PreparedBlock.run_writeTo`). The sets that proofs build are taken by every store, hence a block
whose proofs hold is always written. The main result is `PreparedBlock.writeTo_all_or_nothing`.
-/

namespace Stateless

/-! ## The nodes of several sets -/

namespace MergedNodeSet

variable {m : MergedNodeSet} {h : Word} {b : Bytes}

/-- Whether a node is in one of the sets. -/
def Has (m : MergedNodeSet) (node : ProvedNode) : Prop :=
  ∃ s ∈ m.sets.values, ∃ path, s.nodes.find? path = some node

/-- The hashes of all nodes, as often as there are nodes. -/
def hashes (m : MergedNodeSet) : List Word := m.writes.map Prod.fst

theorem has_of_mem_batch (hmem : (h, b) ∈ m.batch) : m.Has ⟨h, b⟩ :=
  mem_writes_iff.1 (mem_writes_of_mem_batch hmem)

theorem mem_hashes_of_has (hb : m.Has ⟨h, b⟩) : h ∈ m.hashes :=
  List.mem_map.2 ⟨(h, b), mem_writes_iff.2 hb, rfl⟩

theorem mem_keys_batch_iff : h ∈ m.batch.map Prod.fst ↔ h ∈ m.hashes := by
  constructor
  · intro hmem
    obtain ⟨e, he, rfl⟩ := List.mem_map.1 hmem
    exact List.mem_map_of_mem (mem_writes_of_mem_batch he)
  · intro hmem
    obtain ⟨e, he, rfl⟩ := List.mem_map.1 hmem
    obtain ⟨b', hb'⟩ := exists_mem_batch he
    exact List.mem_map.2 ⟨(e.1, b'), hb', rfl⟩

/-- A batch has one write for each hash. -/
theorem length_batch (m : MergedNodeSet) : m.batch.length = m.hashes.toFinset.card := by
  have hnodup : (m.batch.map Prod.fst).Nodup := Table.nodup_keys _
  have hkeys : (m.batch.map Prod.fst).toFinset = m.hashes.toFinset := by
    ext h
    rw [List.mem_toFinset, List.mem_toFinset, mem_keys_batch_iff]
  rw [← hkeys, List.toFinset_card_of_nodup hnodup, List.length_map]

end MergedNodeSet

/-! ## Batches -/

namespace NodeTable

variable [Hasher]

/-- Refuses a write that is not under the hash of its encoding. -/
def check (e : Word × Bytes) : Changing NodeTable StoreError Unit := do
  let actual := digest e.2
  if actual = e.1 then return else throw (.hashMismatch e.1 actual)

/-- Checks all writes of a batch and then makes them, one after another. -/
def writeTo (batch : Batch) : Changing NodeTable StoreError Unit := do
  forM batch check
  forM batch fun e => modify fun t => t.insert e.1 e.2

theorem run_check (batch : Batch) (t : NodeTable) : Changing.run (forM batch check) t =
    match Batch.mismatch? batch with
    | some e => (.error e, t)
    | none => (.ok (), t) := by
  induction batch with
  | nil => rfl
  | cons e batch ih =>
    rw [List.forM_cons, Changing.run_bind, check, Batch.mismatch?, List.findSome?_cons]
    by_cases h : digest e.2 = e.1
    · simp only [if_pos h]
      exact ih
    · simp only [if_neg h]
      rfl

/-- A batch is written in place as a whole or not at all. -/
theorem run_writeTo (batch : Batch) (t : NodeTable) : Changing.run (writeTo batch) t =
    match t.write batch with
    | .ok t' => (.ok (), t')
    | .error e => (.error e, t) := by
  unfold writeTo write
  rw [Changing.run_bind, run_check]
  cases Batch.mismatch? batch with
  | some e => rfl
  | none => exact Changing.run_forM_modify batch (fun t e => t.insert e.1 e.2) t

end NodeTable

/-! ## Blocks -/

section

variable [Hasher] {p : PreparedBlock} {store store' : NodeTable} {m set : MergedNodeSet}

namespace PreparedBlock

/-- What is said if the node set of a block cannot be built. -/
def buildTrouble (p : PreparedBlock) (e : StateError) : Trouble :=
  ("building the node set of block " ++ toString p.block.number.toNat) :: e.message :: e.causes

/-- What is said if the store refuses the nodes. -/
def flushTrouble (e : StoreError) : Trouble := ["flushing the snapshot node set", e.message]

/-- Builds the node set of a block, writes its nodes in place in one batch and counts them. -/
def writeTo (p : PreparedBlock) : Changing NodeTable (Failure Trouble) Nat :=
  match p.nodeSet.mapError p.buildTrouble with
  | .error e => throw e
  | .ok set => do
    ExceptT.adapt (fun e => .error (flushTrouble e)) (NodeTable.writeTo set.batch)
    return set.batch.length

theorem writeNodes_eq {σ : Type} (p : PreparedBlock) (write : Batch → Except StoreError σ) :
    p.writeNodes write = p.nodeSet.mapError p.buildTrouble >>= fun set => Attempt.ofExcept
      (((write set.batch).map fun s => (set.batch.length, s)).mapError flushTrouble) := rfl

/-- A block is written in place as a whole or not at all. -/
theorem run_writeTo (p : PreparedBlock) (store : NodeTable) : Changing.run p.writeTo store =
    match p.writeNodes store.write with
    | .ok (count, store') => (.ok count, store')
    | .error e => (.error e, store) := by
  rw [writeTo, writeNodes_eq]
  cases p.nodeSet.mapError p.buildTrouble with
  | error e => rfl
  | ok set =>
    -- only the batch touches the store, and a refused batch leaves it alone
    dsimp only
    rw [Changing.run_bind, Changing.run_adapt, NodeTable.run_writeTo]
    dsimp only [bind, Except.bind]
    cases store.write set.batch <;> rfl

end PreparedBlock

/-! ## The node set of a block -/

/-- All sets in a table are built with sources that give nothing under a wrong hash. -/
def AllBuilt (sets : Table Address NodeSet) : Prop :=
  ∀ s ∈ sets.values, s.Built NodeSource.Addressed

variable {sets sets' : Table Address NodeSet} {proof : AccountProof} {ps : List AccountProof}

theorem AccountProof.addressed_accountNodes (ps : List AccountProof) :
    (accountNodes ps).source.Addressed :=
  (NodeTable.Kept.addProof _ .empty).addressed

theorem AccountProof.addressed_storageNodes (p : AccountProof) :
    p.storageNodes.source.Addressed :=
  (NodeTable.Kept.addProof _ .empty).addressed

theorem AllBuilt.insert (h : AllBuilt sets) {a : Address} {s : NodeSet}
    (hs : s.Built NodeSource.Addressed) : AllBuilt (sets.insert a s) := by
  intro t ht
  rcases Table.of_mem_values_insert ht with rfl | ht
  · exact hs
  · exact h t ht

theorem AllBuilt.find (h : AllBuilt sets) {a : Address} {s : NodeSet}
    (hs : sets.find? a = some s) : s.Built NodeSource.Addressed :=
  h s (Table.mem_values_iff.2 ⟨a, hs⟩)

theorem AllBuilt.addStorage (h : AllBuilt sets) (hadd : addStorage sets proof = .ok sets') :
    AllBuilt sets' := by
  unfold Stateless.addStorage at hadd
  split at hadd
  · exact Except.ok.inj hadd ▸ h
  · obtain ⟨s, hs, hadd⟩ := exists_of_bind_eq_ok hadd
    obtain rfl := Except.ok.inj hadd
    have hbefore : (storageSet sets proof.address).Built NodeSource.Addressed := by
      unfold storageSet
      cases hfind : sets.find? proof.address with
      | none => exact .empty _
      | some s => exact h.find hfind
    exact h.insert (.addKeys hbefore proof.addressed_storageNodes hs)

theorem AllBuilt.addStorageOrphans (h : AllBuilt sets)
    (hadd : NodeSet.addStorageOrphans sets proof = .ok sets') : AllBuilt sets' := by
  unfold NodeSet.addStorageOrphans at hadd
  split at hadd
  · exact Except.ok.inj hadd ▸ h
  · next s hfind =>
    obtain ⟨⟨s', count⟩, hs, hadd⟩ := exists_of_bind_eq_ok hadd
    obtain rfl := Except.ok.inj hadd
    exact h.insert (.addOrphans (h.find hfind) proof.addressed_storageNodes hs)

/-- Whatever proofs a transition is given, its sets are built with sources that give nothing under a
wrong hash: with the tables of the proofs. -/
theorem MergedNodeSet.ofTransition_built {preRoot postRoot : Word} {pre post : List AccountProof}
    (h : ofTransition preRoot postRoot pre post = .ok m) :
    ∀ s ∈ m.sets.values, s.Built NodeSource.Addressed := by
  rw [ofTransition, Attempt.mapError_eq_ok_iff] at h
  obtain ⟨accounts, haccounts, h⟩ := exists_of_bind_eq_ok h
  obtain ⟨storage, hstorage, h⟩ := exists_of_bind_eq_ok h
  obtain ⟨⟨accounts', count⟩, haccounts', h⟩ := exists_of_bind_eq_ok h
  obtain ⟨storage', hstorage', h⟩ := exists_of_bind_eq_ok h
  rw [ofSets, Attempt.ofExcept_eq_ok_iff] at h
  have hbuilt : accounts.Built NodeSource.Addressed :=
    .addKeys (.empty .account) (AccountProof.addressed_accountNodes pre) haccounts
  have hbuilt' : accounts'.Built NodeSource.Addressed :=
    .addOrphans hbuilt (AccountProof.addressed_accountNodes post) haccounts'
  have hempty : AllBuilt .empty := fun s hs => absurd hs List.not_mem_nil
  rw [ofStorageProofs_eq] at hstorage
  have hall : AllBuilt storage :=
    foldlM_keeps (fun _ _ _ _ hsets hadd => hsets.addStorage hadd) hempty hstorage
  have hall' : AllBuilt storage' :=
    foldlM_keeps (fun _ _ _ _ hsets hadd => hsets.addStorageOrphans hadd) hall hstorage'
  refine addAll_built (fun s hs => absurd hs List.not_mem_nil) ?_ h
  exact List.forall_mem_cons.2 ⟨hbuilt', hall'⟩

/-- Whatever proofs a transition is given, its nodes have their hashes. -/
theorem MergedNodeSet.ofTransition_addressed {preRoot postRoot h : Word} {b : Bytes}
    {pre post : List AccountProof} (hset : ofTransition preRoot postRoot pre post = .ok m)
    (hb : m.Has ⟨h, b⟩) : digest b = h := by
  obtain ⟨s, hs, path, hfind⟩ := hb
  exact (ofTransition_built hset s hs).addressed path _ hfind

namespace PreparedBlock

/-- A block whose node set cannot be built is not written. -/
theorem writeNodes_eq_error {e : Failure StateError} (hset : p.nodeSet = .error e)
    (write : Batch → Except StoreError NodeTable) : ∃ e', p.writeNodes write = .error e' := by
  rw [writeNodes_eq, hset]
  cases e with
  | fault f => exact ⟨.fault f, rfl⟩
  | error e => exact ⟨.error (p.buildTrouble e), rfl⟩

/-- A block whose node set can be built is written to any store. -/
theorem writeNodes_eq_ok (hset : p.nodeSet = .ok set) (store : NodeTable) :
    ∃ store', store.write set.batch = .ok store' ∧
      p.writeNodes store.write = .ok (set.batch.length, store') := by
  have hbatch : ∀ e ∈ set.batch, digest e.2 = e.1 := fun e he =>
    MergedNodeSet.ofTransition_addressed hset (MergedNodeSet.has_of_mem_batch he)
  have hwrite : store.write set.batch = .ok _ := NodeTable.write_eq_ok_iff.2 ⟨hbatch, rfl⟩
  refine ⟨_, hwrite, ?_⟩
  rw [writeNodes_eq, hset]
  dsimp only [Attempt.mapError, bind, Except.bind]
  rw [hwrite]
  rfl

end PreparedBlock

/-! ## What is written -/

/-- The hashes of the sets give nodes of the sets, and all others what they gave before. -/
theorem NodeTable.find?_of_write (hwrite : store.write m.batch = .ok store') (h : Word) :
    (∃ b, m.Has ⟨h, b⟩ ∧ store'.find? h = some b) ∨
      h ∉ m.hashes ∧ store'.find? h = store.find? h := by
  obtain ⟨-, rfl⟩ := NodeTable.write_eq_ok_iff.1 hwrite
  rcases Table.find?_foldl_insert m.batch store h with ⟨b, hb, hfind⟩ | ⟨hnone, hfind⟩
  · exact Or.inl ⟨b, MergedNodeSet.has_of_mem_batch hb, hfind⟩
  · refine Or.inr ⟨fun hmem => ?_, hfind⟩
    obtain ⟨e, he, heq⟩ := List.mem_map.1 (MergedNodeSet.mem_keys_batch_iff.2 hmem)
    exact hnone e he heq

/-- The byte strings of some sets and of a store. -/
def NodeTable.Blobs (store : NodeTable) (m : MergedNodeSet) : Set Bytes :=
  {b | (∃ h, m.Has ⟨h, b⟩) ∨ ∃ h, store.find? h = some b}

/-- If no two of the byte strings have one hash, a store has what it had and all nodes of the sets. -/
theorem NodeTable.find?_of_write_eq_some_iff (hwrite : store.write m.batch = .ok store')
    (haddressed : store.source.Addressed) (hnodes : ∀ h b, m.Has ⟨h, b⟩ → digest b = h)
    (hinj : Set.InjOn digest (store.Blobs m)) (h : Word) (b : Bytes) :
    store'.find? h = some b ↔ m.Has ⟨h, b⟩ ∨ store.find? h = some b := by
  rcases find?_of_write hwrite h with ⟨b', hb', hfind⟩ | ⟨hnone, hfind⟩
  · rw [hfind, Option.some.injEq]
    have hmem : b' ∈ store.Blobs m := Or.inl ⟨h, hb'⟩
    constructor
    · rintro rfl
      exact Or.inl hb'
    · rintro (hb | hb)
      · exact hinj hmem (Or.inl ⟨h, hb⟩) ((hnodes h b' hb').trans (hnodes h b hb).symm)
      · exact hinj hmem (Or.inr ⟨h, hb⟩) ((hnodes h b' hb').trans (haddressed h b hb).symm)
  · rw [hfind]
    exact (or_iff_right fun hb => hnone (MergedNodeSet.mem_hashes_of_has hb)).symm

/-! ## Calls -/

/-- What can be asked of a store: to write a batch, or the nodes of a block. -/
inductive StoreCall where
  | batch (batch : Batch)
  | block (p : PreparedBlock)

namespace StoreCall

/-- The store after a call, also if the call fails. -/
def after (store : NodeTable) : StoreCall → NodeTable
  | batch b => (Changing.run (NodeTable.writeTo b) store).2
  | block p => (Changing.run p.writeTo store).2

/-- The store after several calls, which is empty at first. -/
def stored (calls : List StoreCall) : NodeTable := calls.foldl after .empty

/-- A batch with a write that is not under its hash changes nothing. -/
theorem after_batch_of_ne {batch : Batch} {e : Word × Bytes} (he : e ∈ batch)
    (hne : digest e.2 ≠ e.1) : after store (.batch batch) = store := by
  rw [after, NodeTable.run_writeTo]
  cases hwrite : store.write batch with
  | error e' => rfl
  | ok store' => exact absurd ((NodeTable.write_eq_ok_iff.1 hwrite).1 e he) hne

theorem kept_after (h : store.Kept) (call : StoreCall) : (after store call).Kept := by
  cases call with
  | batch b =>
    rw [after, NodeTable.run_writeTo]
    cases hwrite : store.write b with
    | error e => exact h
    | ok store' => exact h.write hwrite
  | block p =>
    rw [after, PreparedBlock.run_writeTo]
    cases hset : p.nodeSet with
    | error e =>
      obtain ⟨e', hfails⟩ := PreparedBlock.writeNodes_eq_error hset store.write
      rw [hfails]
      exact h
    | ok set =>
      obtain ⟨store', hwrite, hnodes⟩ := PreparedBlock.writeNodes_eq_ok hset store
      rw [hnodes]
      exact h.write hwrite

theorem kept_stored (calls : List StoreCall) : (stored calls).Kept := by
  have hcalls : ∀ store : NodeTable, store.Kept → (calls.foldl after store).Kept := by
    induction calls with
    | nil => exact fun store h => h
    | cons call calls ih => exact fun store h => ih _ (kept_after h call)
  exact hcalls .empty .empty

end StoreCall

/-- A block is written to a store as a whole or not at all, whatever proofs it has and whatever has
been asked of the store before. The store has every node under its hash. If the node set of the
block cannot be built, the store is as it was. Otherwise the block is written, and the answer is how
many hashes its nodes have. Then these hashes give nodes of the set, and all others what they gave
before; hence, if no two of the byte strings have one hash, the store has what it had, all nodes of
the set, and nothing else. -/
theorem PreparedBlock.writeTo_all_or_nothing (calls : List StoreCall) (p : PreparedBlock) :
    let store := StoreCall.stored calls
    store.source.Addressed ∧
    ((∃ e e', p.nodeSet = .error e ∧ p.writeNodes store.write = .error e' ∧
      Changing.run p.writeTo store = (.error e', store)) ∨
    ∃ set count store', p.nodeSet = .ok set ∧ p.writeNodes store.write = .ok (count, store') ∧
      Changing.run p.writeTo store = (.ok count, store') ∧
      count = set.hashes.toFinset.card ∧ store'.source.Addressed ∧
      (∀ h, (∃ b, set.Has ⟨h, b⟩ ∧ store'.find? h = some b) ∨
        h ∉ set.hashes ∧ store'.find? h = store.find? h) ∧
      (Set.InjOn digest (store.Blobs set) → ∀ h b,
        store'.find? h = some b ↔ set.Has ⟨h, b⟩ ∨ store.find? h = some b)) := by
  intro store
  have hkept : store.Kept := StoreCall.kept_stored calls
  refine ⟨hkept.addressed, ?_⟩
  cases hset : p.nodeSet with
  | error e =>
    obtain ⟨e', hfails⟩ := writeNodes_eq_error hset store.write
    exact Or.inl ⟨e, e', rfl, hfails, by rw [run_writeTo, hfails]⟩
  | ok set =>
    obtain ⟨store', hwrite, hnodes⟩ := writeNodes_eq_ok hset store
    refine Or.inr ⟨set, set.batch.length, store', rfl, hnodes, ?_, set.length_batch,
      (hkept.write hwrite).addressed, NodeTable.find?_of_write hwrite, ?_⟩
    · rw [run_writeTo, hnodes]
    · exact NodeTable.find?_of_write_eq_some_iff hwrite hkept.addressed
        fun _ _ hb => MergedNodeSet.ofTransition_addressed hset hb

end

namespace Clearing

/-- A batch that is refused. -/
def refused : Batch := [(.zero, [])]

theorem stored_refused : StoreCall.stored [.batch refused] = .empty := by
  have hne : codeHash ≠ .zero := by decide
  rw [StoreCall.stored, List.foldl_cons, List.foldl_nil]
  exact StoreCall.after_batch_of_ne (List.mem_singleton_self _) (digest_nil.trans_ne hne)

end Clearing

open Clearing in
/-- A block is written after a batch has been refused. -/
theorem PreparedBlock.writeTo_clearing :
    ∃ p, PreparedBlock.prepare node 1 touched = .ok p ∧ ∃ set count store, p.nodeSet = .ok set ∧
      Changing.run p.writeTo (StoreCall.stored [.batch refused]) = (.ok count, store) ∧
      count = set.hashes.toFinset.card ∧ store.source.Addressed := by
  obtain ⟨p, hp, hattests⟩ := honest.prepare_eq_ok (by decide) touched
  obtain ⟨count, store, hnodes, -⟩ := hattests.writeNodes_eq_ok collisionFree
  refine ⟨p, hp, ?_⟩
  obtain ⟨-, h⟩ := writeTo_all_or_nothing [.batch refused] p
  rw [stored_refused] at h ⊢
  rcases h with ⟨e, e', -, hfails, -⟩ | ⟨set, count', store', hset, -, hrun, hcount, haddressed, -⟩
  · rw [hnodes] at hfails
    cases hfails
  · exact ⟨set, count', store', hset, hrun, hcount, haddressed⟩

end Stateless
