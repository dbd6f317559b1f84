import Mathlib.Data.Fintype.Card
import Mathlib.Data.Set.Finite.List
import Stateless.NodeStore
import Stateless.Proofs.Digest
import Stateless.Proofs.Table

/-!
# What a node table gives

Every source is that of a table (`NodeTable.source_surjective`). A table that was filled with
encodings under their own hashes gives, for a hash, exactly the encoding that has it, as long as no
two of the encodings collide.
-/

namespace Stateless

instance FixedBytes.finite {n : Nat} : Finite (FixedBytes n) := by
  have hbytes : Finite UInt8 := Finite.of_injective UInt8.toFin fun _ _ => UInt8.toFin_inj.1
  have hlists : Finite {l : Bytes | l.length = n} := List.finite_length_eq UInt8 n
  let bytes (a : FixedBytes n) : {l : Bytes | l.length = n} := ⟨a.toBytes, a.length_eq⟩
  exact Finite.of_injective bytes fun a b h => FixedBytes.ext (congrArg Subtype.val h)

/-- Every source is that of a table: there are finitely many hashes. -/
theorem NodeTable.source_surjective : Function.Surjective NodeTable.source := by
  intro source
  obtain ⟨hashes, -, hmem⟩ := Finite.exists_univ_list Word
  let entries := hashes.filterMap fun h => (source h).map (Prod.mk h)
  have hentry {h : Word} {b : Bytes} : (h, b) ∈ entries ↔ source h = some b := by
    simp [entries, hmem]
  refine ⟨Table.ofList entries, funext fun h => ?_⟩
  show (entries.foldl (fun t e => t.insert e.1 e.2) (Table.empty : NodeTable)).find? h = source h
  rcases Table.find?_foldl_insert entries .empty h with ⟨b, hb, hfind⟩ | ⟨hnone, hfind⟩
  · rw [hfind, hentry.1 hb]
  · rw [hfind, Table.find?_empty]
    cases hsource : source h with
    | none => rfl
    | some b => exact absurd rfl (hnone (h, b) (hentry.2 hsource))

variable [Hasher] {S : Bytes → Prop}

/-- Encodings under their own hashes are found again. -/
theorem find?_addressed {entries : List (Word × Bytes)} (hfree : CollisionFree S)
    (hentries : ∀ e ∈ entries, digest e.2 = e.1 ∧ S e.2) (h : Word) (b : Bytes) :
    (entries.foldl (fun t e => t.insert e.1 e.2) (Table.empty : NodeTable)).find? h = some b ↔
      (h, b) ∈ entries := by
  rcases Table.find?_foldl_insert entries .empty h with ⟨v, hmem, hfind⟩ | ⟨hnone, hfind⟩
  · rw [hfind, Option.some.injEq]
    constructor
    · rintro rfl
      exact hmem
    · intro hb
      obtain ⟨hv, hvS⟩ := hentries _ hmem
      obtain ⟨hb', hbS⟩ := hentries _ hb
      exact hfree.inj hvS hbS (hv.trans hb'.symm)
  · rw [hfind, Table.find?_empty]
    constructor
    · exact fun h => by cases h
    · exact fun hb => absurd rfl (hnone _ hb)

/-- The source of some proofs gives the encodings of the proofs, each for its hash. -/
theorem ofProof_source {blobs : List Bytes} (hfree : CollisionFree S) (hblobs : ∀ b ∈ blobs, S b)
    (h : Word) (b : Bytes) :
    (NodeTable.ofProof blobs).source h = some b ↔ b ∈ blobs ∧ digest b = h := by
  have hfold : NodeTable.ofProof blobs = (blobs.map fun b => (digest b, b)).foldl
      (fun t e => t.insert e.1 e.2) (Table.empty : NodeTable) := by
    rw [NodeTable.ofProof, NodeTable.addProof, List.foldl_map]
  rw [NodeTable.source, hfold, find?_addressed hfree]
  · simp only [List.mem_map, Prod.mk.injEq]
    constructor
    · rintro ⟨b', hb', hh, rfl⟩
      exact ⟨hb', hh⟩
    · rintro ⟨hb, hh⟩
      exact ⟨b, hb, hh, rfl⟩
  · intro e he
    obtain ⟨b', hb', rfl⟩ := List.mem_map.1 he
    exact ⟨rfl, hblobs b' hb'⟩

/-- The source of a single node gives it for its hash. -/
theorem ofProof_singleton (b : Bytes) : (NodeTable.ofProof [b]).source (digest b) = some b := by
  rw [NodeTable.source, NodeTable.ofProof, NodeTable.addProof, List.foldl_cons, List.foldl_nil,
    Table.find?_insert, if_pos rfl]

/-- A batch of encodings under their own hashes is written, and the store gives what was written. -/
theorem write_source {batch : Batch} (hfree : CollisionFree S)
    (hbatch : ∀ e ∈ batch, digest e.2 = e.1 ∧ S e.2) :
    ∃ store, NodeTable.write .empty batch = .ok store ∧
      ∀ h b, store.source h = some b ↔ (h, b) ∈ batch := by
  have hmatch : Batch.mismatch? batch = none := by
    refine List.findSome?_eq_none_iff.2 fun e he => ?_
    exact if_pos (hbatch e he).1
  exact ⟨_, by rw [NodeTable.write, hmatch], find?_addressed hfree hbatch⟩

end Stateless
