import Stateless.Proofs.Keccak
import Stateless.Proofs.NodeSet.Orphans

/-!
# Where the nodes of a set come from

A verification takes its nodes from a source, each under the hash that it looks up, and an orphan is
hashed when it is made. So each node of a set has the hash under which it is held, or some source
gave it for that hash (`Built.traced`). What a source gives is not hashed again: whether the nodes
of a set have their hashes is left to the sources. Tables of proofs and stores give nothing under a
wrong hash, and every store takes the sets that are built from such sources (`flush_of_built`). A
plain table may hold a node under any hash, and then it gets into a set that no store takes
(`flush_misplaced`).
-/

namespace Stateless

/-! ## What a verification visits -/

/-- Every visited node was given by the source for the hash under which it was looked up. -/
theorem walk_visited {source : NodeSource} {fuel : Nat} {w : Word} {matched remaining : Path}
    {visit : Visit} (h : visit ∈ (walk source fuel w matched remaining).visited) :
    source visit.digest = some visit.blob := by
  induction fuel generalizing w matched remaining with
  | zero => cases h
  | succ fuel ih =>
    rw [walk] at h
    cases hsrc : source w with
    | none => simp [hsrc] at h
    | some blob =>
      have hfirst : ∀ {v : Visit}, v = ⟨matched, w, blob⟩ → source v.digest = some v.blob := by
        rintro v rfl
        exact hsrc
      simp only [hsrc] at h
      split at h
      · exact hfirst (List.mem_singleton.1 h)
      · split at h
        · exact hfirst (List.mem_singleton.1 h)
        · exact hfirst (List.mem_singleton.1 h)
        · exact hfirst (List.mem_singleton.1 h)
        · exact hfirst (List.mem_singleton.1 h)
        · rcases List.mem_cons.1 h with h | h
          · exact hfirst h
          · exact ih h

section

variable [Hasher]

theorem verify_visited {root : Word} {key : Path} {source : NodeSource} {visit : Visit}
    (h : visit ∈ (verify root key source).visited) : source visit.digest = some visit.blob := by
  rw [verify] at h
  split at h
  · cases h
  · exact walk_visited h

namespace NodeSet

/-! ## Nodes of a kind -/

/-- All nodes of a set are of some kind. -/
def All (P : ProvedNode → Prop) (s : NodeSet) : Prop :=
  ∀ path node, s.nodes.find? path = some node → P node

section

variable {P : ProvedNode → Prop} {s s' t : NodeSet} {path : Path} {node : ProvedNode}

omit [Hasher]

theorem all_empty (owner : TrieOwner) : (empty owner).All P := fun _ _ h => nomatch h

theorem addNode_from (h : s.addNode path node = .ok s') {q : Path} {n : ProvedNode}
    (hq : s'.nodes.find? q = some n) : s.nodes.find? q = some n ∨ q = path ∧ n = node := by
  rw [addNode] at h
  split at h
  · obtain rfl := Except.ok.inj h
    rw [Table.find?_insert] at hq
    split at hq
    · next heq => exact Or.inr ⟨heq, (Option.some.inj hq).symm⟩
    · exact Or.inl hq
  · split at h
    · exact Or.inl (Except.ok.inj h ▸ hq)
    · cases h

theorem addLeaf_nodes {value : Bytes} (h : s.addLeaf path value = .ok s') :
    s'.nodes = s.nodes := by
  rw [addLeaf] at h
  split at h
  · exact Except.ok.inj h ▸ rfl
  · split at h
    · exact Except.ok.inj h ▸ rfl
    · cases h

theorem addVisits_from {visits : List Visit}
    (h : visits.foldlM (fun s v => s.addNode v.path ⟨v.digest, v.blob⟩) s = .ok s')
    (hfind : s'.nodes.find? path = some node) :
    s.nodes.find? path = some node ∨
      ∃ v ∈ visits, path = v.path ∧ node = ⟨v.digest, v.blob⟩ := by
  induction visits generalizing s with
  | nil => exact Or.inl (Except.ok.inj h ▸ hfind)
  | cons v visits ih =>
    rw [List.foldlM_cons] at h
    obtain ⟨s₁, hadd, hrest⟩ := exists_of_bind_eq_ok h
    rcases ih hrest with hheld | ⟨w, hw, hnode⟩
    · exact (addNode_from hadd hheld).imp_right fun hnew => ⟨v, List.mem_cons_self, hnew⟩
    · exact Or.inr ⟨w, List.mem_cons_of_mem _ hw, hnode⟩

theorem addVerification_from {v : Verification} (h : s.addVerification v = .ok s')
    (hfind : s'.nodes.find? path = some node) :
    s.nodes.find? path = some node ∨
      ∃ visit ∈ v.visited, path = visit.path ∧ node = ⟨visit.digest, visit.blob⟩ := by
  obtain ⟨s₁, hvisited, h⟩ := exists_of_bind_eq_ok h
  refine addVisits_from hvisited ?_
  split at h
  · exact Except.ok.inj h ▸ hfind
  · rwa [← addLeaf_nodes h]

theorem merge_eq_ok (h : s.merge t = .ok s') :
    s' = ⟨s.owner, s.nodes.union t.nodes, s.leaves.union t.leaves⟩ ∧
      s.nodeConflict? t = none ∧ s.leafConflict? t = none := by
  rw [merge] at h
  split at h
  · cases h
  · next hnodes =>
    split at h
    · cases h
    · next hleaves => exact ⟨(Except.ok.inj h).symm, hnodes, hleaves⟩

theorem merge_all (hs : s.All P) (ht : t.All P) (h : s.merge t = .ok s') : s'.All P := by
  obtain ⟨rfl, -, -⟩ := merge_eq_ok h
  intro path node hfind
  rw [Table.find?_union, Option.or_eq_some_iff] at hfind
  rcases hfind with hfind | ⟨-, hfind⟩
  · exact ht path node hfind
  · exact hs path node hfind

theorem fill_all {candidates : List (Path × ProvedNode)} (hs : s.All P)
    (hcandidates : ∀ c ∈ candidates, P c.2) : (s.fill candidates).1.All P := by
  intro path node hfind
  rcases (fill_find? s candidates).2.1 path node hfind with hheld | hmem
  · exact hs path node hheld
  · exact hcandidates _ hmem

end

/-! ## Building -/

/-- The sets that can be built with sources of some kind, from new ones. -/
inductive Built (Allowed : NodeSource → Prop) : NodeSet → Prop where
  /-- A new set. -/
  | empty (owner : TrieOwner) : Built Allowed (.empty owner)
  /-- The nodes of proofs are added. -/
  | addKeys {s s' : NodeSet} {root : Word} {source : NodeSource} {keys : List Word} :
      Built Allowed s → Allowed source → s.addKeys root source keys = .ok s' → Built Allowed s'
  /-- The orphans that proofs reveal are added. -/
  | addOrphans {s s' : NodeSet} {root : Word} {source : NodeSource} {keys : List Word}
      {count : Nat} : Built Allowed s → Allowed source →
      s.addOrphans root source keys = .ok (s', count) → Built Allowed s'
  /-- Another set is merged in. -/
  | merge {s t s' : NodeSet} :
      Built Allowed s → Built Allowed t → s.merge t = .ok s' → Built Allowed s'

/-- A node has the hash under which it is held, or an allowed source gave it for that hash. -/
def Traced (Allowed : NodeSource → Prop) (node : ProvedNode) : Prop :=
  digest node.blob = node.hash ∨ ∃ source, Allowed source ∧ source node.hash = some node.blob

variable {P : ProvedNode → Prop} {Allowed : NodeSource → Prop} {s s' : NodeSet} {root : Word}
variable {source : NodeSource} {keys : List Word}

theorem collect_from {path : Path} {node : ProvedNode} (h : collect root source keys s = .ok s')
    (hfind : s'.nodes.find? path = some node) :
    s.nodes.find? path = some node ∨ ∃ key ∈ keys,
      ∃ visit ∈ (verify root (.ofWord key) source).visited,
        path = visit.path ∧ node = ⟨visit.digest, visit.blob⟩ := by
  induction keys generalizing s with
  | nil => exact Or.inl (Except.ok.inj h ▸ hfind)
  | cons key keys ih =>
    rw [collect] at h
    obtain ⟨-, -, h⟩ := exists_of_bind_eq_ok h
    obtain ⟨s₁, hadd, hrest⟩ := exists_of_bind_eq_ok h
    rw [Attempt.ofExcept_eq_ok_iff] at hadd
    rcases ih hrest with hheld | ⟨key', hkey', hvisit⟩
    · exact (addVerification_from hadd hheld).imp_right fun hvisit =>
        ⟨key, List.mem_cons_self, hvisit⟩
    · exact Or.inr ⟨key', List.mem_cons_of_mem _ hkey', hvisit⟩

/-- A node that is held after the proofs of some keys were added was held before, or the proof of one
of the keys has visited it. -/
theorem addKeys_from {path : Path} {node : ProvedNode} (h : s.addKeys root source keys = .ok s')
    (hfind : s'.nodes.find? path = some node) :
    s.nodes.find? path = some node ∨ ∃ key ∈ keys,
      ∃ visit ∈ (verify root (.ofWord key) source).visited,
        path = visit.path ∧ node = ⟨visit.digest, visit.blob⟩ := by
  obtain ⟨staged, hcollect, h⟩ := exists_of_bind_eq_ok h
  rw [Attempt.ofExcept_eq_ok_iff] at h
  obtain ⟨rfl, -, -⟩ := merge_eq_ok h
  rw [Table.find?_union, Option.or_eq_some_iff] at hfind
  rcases hfind with hstaged | ⟨-, hheld⟩
  · exact Or.inr ((collect_from hcollect hstaged).resolve_left nofun)
  · exact Or.inl hheld

theorem addKeys_all (hs : s.All P) (hsource : ∀ h b, source h = some b → P ⟨h, b⟩)
    (h : s.addKeys root source keys = .ok s') : s'.All P := by
  intro path node hfind
  rcases addKeys_from h hfind with hheld | ⟨key, -, visit, hvisit, -, rfl⟩
  · exact hs path node hheld
  · exact hsource _ _ (verify_visited hvisit)

theorem digest_orphanCandidates {candidates : List (Path × ProvedNode)}
    (h : orphanCandidates root source keys = .ok candidates) :
    ∀ c ∈ candidates, digest c.2.blob = c.2.hash := by
  induction keys generalizing candidates with
  | nil =>
    obtain rfl := Except.ok.inj h
    exact fun c hc => absurd hc List.not_mem_nil
  | cons key keys ih =>
    rw [orphanCandidates] at h
    obtain ⟨p, -, h⟩ := exists_of_bind_eq_ok h
    obtain ⟨here, hhere, h⟩ := exists_of_bind_eq_ok h
    obtain ⟨rest, hrest, h⟩ := exists_of_bind_eq_ok h
    obtain rfl := Except.ok.inj h
    rw [Attempt.ofFault_eq_ok_iff, orphansAt] at hhere
    intro c hc
    rcases List.mem_append.1 hc with hc | hc
    · split at hhere
      · obtain rfl := Except.ok.inj hhere
        cases hc
      · obtain ⟨⟨off, node⟩, hmem, hnode⟩ := (mem_mapM_iff hhere).1 hc
        obtain ⟨place, -, hplace⟩ := exists_of_bind_eq_ok hnode
        obtain rfl := Except.ok.inj hplace
        obtain ⟨⟨off', t⟩, -, heq⟩ := List.mem_map.1 hmem
        obtain ⟨-, rfl⟩ := Prod.mk.inj heq
        rfl
    · exact ih hrest c hc

theorem addOrphans_all {count : Nat} (hs : s.All P)
    (hhashed : ∀ node : ProvedNode, digest node.blob = node.hash → P node)
    (h : s.addOrphans root source keys = .ok (s', count)) : s'.All P := by
  obtain ⟨candidates, hcandidates, h⟩ := exists_of_bind_eq_ok h
  have hfill : (s.fill candidates).1 = s' := congrArg Prod.fst (Except.ok.inj h)
  rw [← hfill]
  exact fill_all hs fun c hc => hhashed c.2 (digest_orphanCandidates hcandidates c hc)

/-- However a set was built, each of its nodes has its hash or was given for it by a source. -/
theorem Built.traced (h : Built Allowed s) : s.All (Traced Allowed) := by
  induction h with
  | empty owner => exact all_empty owner
  | addKeys _ hsource hadd ih =>
    exact addKeys_all ih (fun h b hb => Or.inr ⟨_, hsource, hb⟩) hadd
  | addOrphans _ _ hadd ih => exact addOrphans_all ih (fun node h => Or.inl h) hadd
  | merge _ _ hmerge ihs iht => exact merge_all ihs iht hmerge

theorem Built.addressed (h : Built NodeSource.Addressed s) :
    s.All fun node => digest node.blob = node.hash := fun path node hfind =>
  (h.traced path node hfind).elim id fun ⟨_, haddr, hnode⟩ => haddr _ _ hnode

end NodeSet

/-! ## Tables that give nothing under a wrong hash -/

namespace NodeTable

/-- The tables that are filled with proofs and as stores are. -/
inductive Kept : NodeTable → Prop where
  /-- Nothing. -/
  | empty : Kept .empty
  /-- The nodes of proofs are added. -/
  | addProof {t : NodeTable} (blobs : List Bytes) : Kept t → Kept (t.addProof blobs)
  /-- A batch is written. -/
  | write {t t' : NodeTable} {batch : Batch} : Kept t → t.write batch = .ok t' → Kept t'

variable {t t' : NodeTable} {batch : Batch}

theorem addressed_foldl_insert {entries : List (Word × Bytes)} (ht : t.source.Addressed)
    (hentries : ∀ e ∈ entries, digest e.2 = e.1) :
    (entries.foldl (fun t e => t.insert e.1 e.2) t : NodeTable).source.Addressed := by
  intro h b hb
  rcases Table.find?_foldl_insert entries t h with ⟨v, hmem, hfind⟩ | ⟨-, hfind⟩
  · obtain rfl := Option.some.inj (hfind.symm.trans hb)
    exact hentries _ hmem
  · exact ht h b (hfind.symm.trans hb)

theorem mismatch?_eq_none_iff :
    Batch.mismatch? batch = none ↔ ∀ e ∈ batch, digest e.2 = e.1 := by
  rw [Batch.mismatch?, List.findSome?_eq_none_iff]
  refine forall₂_congr fun e _ => ?_
  dsimp only
  split <;> simp_all

theorem write_eq_ok_iff : t.write batch = .ok t' ↔
    (∀ e ∈ batch, digest e.2 = e.1) ∧ batch.foldl (fun t e => t.insert e.1 e.2) t = t' := by
  rw [write, ← mismatch?_eq_none_iff]
  cases Batch.mismatch? batch <;> simp

theorem Kept.addressed (h : Kept t) : t.source.Addressed := by
  induction h with
  | empty => exact fun h b hb => nomatch hb
  | @addProof t blobs _ ih =>
    have hfold : t.addProof blobs =
        (blobs.map fun b => (digest b, b)).foldl (fun t e => t.insert e.1 e.2) t := by
      rw [NodeTable.addProof, List.foldl_map]
    rw [hfold]
    refine addressed_foldl_insert ih fun e he => ?_
    obtain ⟨b, -, rfl⟩ := List.mem_map.1 he
    rfl
  | write _ hwrite ih =>
    obtain ⟨hbatch, rfl⟩ := write_eq_ok_iff.1 hwrite
    exact addressed_foldl_insert ih hbatch

end NodeTable

/-! ## Flushing -/

namespace MergedNodeSet

variable {Allowed : NodeSource → Prop} {m m' : MergedNodeSet} {s : NodeSet} {sets : List NodeSet}

theorem add_built (hm : ∀ s ∈ m.sets.values, s.Built Allowed) (hs : s.Built Allowed)
    (h : m.add s = .ok m') : ∀ s ∈ m'.sets.values, s.Built Allowed := by
  have hinsert {t : NodeSet} (ht : t.Built Allowed) :
      ∀ s' ∈ (m.sets.insert s.owner t).values, s'.Built Allowed := by
    intro s' hs'
    rcases Table.of_mem_values_insert hs' with rfl | hs'
    · exact ht
    · exact hm s' hs'
  rw [add] at h
  split at h
  · exact Except.ok.inj h ▸ hinsert hs
  · next existing hfind =>
    have hexisting := hm existing (Table.mem_values_iff.2 ⟨s.owner, hfind⟩)
    cases hmerge : existing.merge s with
    | error e =>
      rw [hmerge] at h
      cases h
    | ok merged =>
      rw [hmerge] at h
      exact Except.ok.inj h ▸ hinsert (.merge hexisting hs hmerge)

theorem addAll_built (hm : ∀ s ∈ m.sets.values, s.Built Allowed)
    (hsets : ∀ s ∈ sets, s.Built Allowed) (h : m.addAll sets = .ok m') :
    ∀ s ∈ m'.sets.values, s.Built Allowed :=
  foldlM_keeps (P := fun m => ∀ s ∈ m.sets.values, s.Built Allowed)
    (fun _ s hs _ hm hadd => add_built hm (hsets s hs) hadd) hm h

theorem flush_eq_ok (hm : ∀ s ∈ m.sets.values, s.All fun node => digest node.blob = node.hash)
    (store : NodeTable) : ∃ count store', m.flush store.write = .ok (count, store') := by
  have hbatch : ∀ e ∈ m.batch, digest e.2 = e.1 := fun e he => by
    obtain ⟨s, hs, path, hfind⟩ := mem_writes_iff.1 (mem_writes_of_mem_batch he)
    exact hm s hs path _ hfind
  have hwrite : store.write m.batch = .ok _ := NodeTable.write_eq_ok_iff.2 ⟨hbatch, rfl⟩
  exact ⟨m.batch.length, _, by rw [flush, hwrite]; rfl⟩

end MergedNodeSet

/-- Sets that are built with sources that give nothing under a wrong hash hold every node under its
hash, and however they are merged, every store takes them. -/
theorem flush_of_built {sets : List NodeSet}
    (hsets : ∀ s ∈ sets, s.Built NodeSource.Addressed) :
    (∀ s ∈ sets, ∀ path node, s.nodes.find? path = some node → digest node.blob = node.hash) ∧
    ∀ m, MergedNodeSet.empty.addAll sets = .ok m → ∀ store : NodeTable,
      ∃ count store', m.flush store.write = .ok (count, store') := by
  refine ⟨fun s hs => (hsets s hs).addressed, fun m hm store => ?_⟩
  have hmerged := MergedNodeSet.addAll_built (fun s hs => absurd hs List.not_mem_nil) hsets hm
  exact m.flush_eq_ok (fun s hs => (hmerged s hs).addressed) store

end

/-! ## The trie of one key -/

namespace NodeSet

open Trie

/-- The set that holds the only node of a trie with one key under some hash. -/
def lone (owner : TrieOwner) (h key : Word) (value : Bytes) : NodeSet :=
  ⟨owner, Table.empty.insert .empty ⟨h, leafEncoding (.ofWord key) value⟩,
    Table.empty.insert (.ofWord key) value⟩

section

variable [Hasher] {h key : Word} {value : Bytes} {source : NodeSource}

/-- The proofs of all keys end at the node, whatever hash it has at a source. -/
theorem verify_lone (hroot : isEmptyRoot h = false) (hvalue : value ≠ [])
    (hlen : (leafEncoding (.ofWord key) value).length < 256 ^ 8 + 9)
    (hsource : source h = some (leafEncoding (.ofWord key) value)) (key' : Word) :
    verify h (.ofWord key') source =
      if Path.ofWord key = .ofWord key' then
        ⟨[⟨.empty, h, leafEncoding (.ofWord key) value⟩], some (.ofWord key, value),
          .ok ⟨some value, .empty, .leaf (.ofWord key) value none⟩⟩
      else ⟨[⟨.empty, h, leafEncoding (.ofWord key) value⟩], none,
        .ok ⟨none, .empty, .leaf (.ofWord key) value none⟩⟩ := by
  have hsound : Sound (.leaf (.ofWord key) value none) := memoHolds_of_memo_none rfl
  have hdecode : decode (leafEncoding (.ofWord key) value) =
      .ok (.leaf (.ofWord key) value none) :=
    decode_content (n := maxNibbles) (t := .leaf (.ofWord key) value none)
      ⟨(Path.length_ofWord key).le, hvalue⟩ hsound nofun rfl hlen
  have happend : Path.append .empty (.ofWord key) = .ok (.ofWord key) := by
    obtain ⟨r, hr, hlist⟩ := Path.append_eq_ok (p := .empty) (q := .ofWord key)
      (by rw [Path.length_ofWord]; decide)
    rw [hr, Path.ext hlist]
  have hroom : ¬ maxNibbles < Path.empty.length + (Path.ofWord key).length := by
    rw [Path.length_ofWord]
    decide
  rw [verify, hroot, lookupBound, walk, hsource]
  by_cases hkey : Path.ofWord key = .ofWord key'
  · simp only [hdecode, descend, if_neg hroom, if_pos hkey, happend]
    rfl
  · simp only [hdecode, descend, if_neg hroom, if_neg hkey]
    rfl

/-- Whatever hash the node has at a source, it is taken under that hash. -/
theorem addKeys_lone {owner : TrieOwner} (hroot : isEmptyRoot h = false) (hvalue : value ≠ [])
    (hlen : (leafEncoding (.ofWord key) value).length < 256 ^ 8 + 9)
    (hsource : source h = some (leafEncoding (.ofWord key) value)) :
    (empty owner).addKeys h source [key] = .ok (lone owner h key value) := by
  rw [addKeys, collect, verify_lone hroot hvalue hlen hsource, if_pos rfl]
  rfl

/-- The proof of another key reveals the orphans of the node, one below each place that its fragment
passes. -/
theorem addOrphans_lone (s : NodeSet) {key' : Word} (hroot : isEmptyRoot h = false)
    (hvalue : value ≠ []) (hlen : (leafEncoding (.ofWord key) value).length < 256 ^ 8 + 9)
    (hsource : source h = some (leafEncoding (.ofWord key) value))
    (hne : Path.ofWord key ≠ .ofWord key') :
    ∃ s' count, s.addOrphans h source [key'] = .ok (s', count) ∧ Keeps s s' ∧
      s'.leaves = s.leaves ∧ ∀ path : Path, 0 < path.length → path.length < maxNibbles →
        path.toList <+: (Path.ofWord key).toList → ∃ node, s'.nodes.find? path = some node := by
  have hcan : Canonical maxNibbles (.leaf (.ofWord key) value none) :=
    ⟨(Path.length_ofWord key).le, hvalue⟩
  have hsound : Sound (.leaf (.ofWord key) value none) := memoHolds_of_memo_none rfl
  have hview : view (.leaf (.ofWord key) value none) (Path.ofWord key').toList = .ok none := by
    rw [view_leaf_apply, if_neg fun hkey => hne (Path.ext hkey).symm]
  obtain ⟨hends, -⟩ := ends_here .empty hview fun l c hl _ hc => by
    cases l with
    | nil => exact absurd rfl hl
    | cons d l => cases hc
  obtain ⟨here, hhere, hmem⟩ := mem_orphansAt hcan hsound hends
  have hcandidates : orphanCandidates h source [key'] = .ok (here ++ []) := by
    rw [orphanCandidates, verify_lone hroot hvalue hlen hsource, if_neg hne]
    exact congrArg (fun x => Attempt.ofFault x >>= fun here => .ok (here ++ [])) hhere
  obtain ⟨hkeeps, -, hfilled⟩ := fill_find? s here
  refine ⟨(s.fill here).1, (s.fill here).2, ?_, hkeeps, (fill_counts s here).1,
    fun path hpos hshort hfront => ?_⟩
  · rw [addOrphans, hcandidates, List.append_nil]
    rfl
  · refine hfilled path ⟨digest _, _⟩ ((hmem path _).2 ⟨rfl, _, path.length, _, rfl, rfl, hpos,
      ?_, ?_, rfl, rfl⟩)
    · rwa [fragment, Path.length_ofWord]
    · rw [← Path.length_toList]
      exact List.prefix_iff_eq_take.1 hfront

end

end NodeSet

/-! ## Instances -/

namespace Misplaced

open Trie

def blob : Bytes := leafEncoding (.ofWord .zero) [7]

/-- A word that is not its hash. -/
def elsewhere : Word := ⟨List.replicate 32 0x11, rfl⟩

/-- The set that holds it under some hash. -/
def held (h : Word) : NodeSet := .lone .account h .zero [7]

theorem digest_ne : digest blob ≠ elsewhere ∧ digest Rlp.emptyData ≠ elsewhere ∧
    digest blob ≠ .zero ∧ digest blob ≠ digest Rlp.emptyData := by
  refine ⟨mt digest_eq_iff.1 ?_, mt digest_eq_iff.1 ?_, mt digest_eq_iff.1 ?_,
    mt digest_eq_digest_iff.1 ?_⟩ <;> decide +kernel

theorem addKeys_held {h : Word} {source : NodeSource} (hroot : isEmptyRoot h = false)
    (hsource : source h = some blob) :
    (NodeSet.empty .account).addKeys h source [.zero] = .ok (held h) :=
  NodeSet.addKeys_lone hroot nofun (by decide) hsource

/-- The proof of another key fills it with orphans. -/
theorem addOrphans_held {h : Word} {source : NodeSource} (hroot : isEmptyRoot h = false)
    (hsource : source h = some blob) :
    ∃ s count, (held h).addOrphans h source [elsewhere] = .ok (s, count) ∧ (held h).Keeps s ∧
      s.leaves = (held h).leaves ∧ ∃ node, s.nodes.find? (.single 0) = some node := by
  have hne : Path.ofWord .zero ≠ .ofWord elsewhere := by decide +kernel
  have hvalue : ([7] : Bytes) ≠ [] := nofun
  obtain ⟨s, count, horphans, hkeeps, hleaves, hplaces⟩ :=
    NodeSet.addOrphans_lone (held h) hroot hvalue (by decide) hsource hne
  exact ⟨s, count, horphans, hkeeps, hleaves,
    hplaces (.single 0) (by decide) (by decide) (by decide +kernel)⟩

/-- The set that was filled takes in what it was before. -/
theorem addAll_held {h : Word} {s : NodeSet} (hkeeps : (held h).Keeps s)
    (hleaves : s.leaves = (held h).leaves) :
    ∃ m, MergedNodeSet.empty.addAll [s, held h] = .ok m := by
  have hnodes : (held h).nodes.entries = [(.empty, ⟨h, blob⟩)] := rfl
  have hnode : s.nodeConflict? (held h) = none := by
    have hfind : s.nodes.find? .empty = some ⟨h, blob⟩ := hkeeps.nodes rfl
    rw [NodeSet.nodeConflict?, hnodes]
    simp [hfind]
  have hvalues : (held h).leaves.entries = [(.ofWord .zero, [7])] := rfl
  have hleaf : s.leafConflict? (held h) = none := by
    have hfind : s.leaves.find? (.ofWord .zero) = some [7] := by
      rw [hleaves, Table.find?_eq_some_iff, hvalues, List.mem_singleton]
    rw [NodeSet.leafConflict?, hvalues]
    simp [hfind]
  have hmerge : s.merge (held h) =
      .ok ⟨s.owner, s.nodes.union (held h).nodes, s.leaves.union (held h).leaves⟩ := by
    rw [NodeSet.merge, hnode, hleaf]
  have hfirst : MergedNodeSet.empty.addAll [s, held h] =
      MergedNodeSet.add ⟨Table.empty.insert s.owner s⟩ (held h) := by
    show (MergedNodeSet.add ⟨Table.empty.insert s.owner s⟩ (held h) >>= pure) = _
    rw [bind_pure]
  have hsame : (Table.empty.insert s.owner s).find? (held h).owner = some s := by
    rw [Table.find?_insert, if_pos hkeeps.owner.symm]
  rw [hfirst, MergedNodeSet.add, hsame]
  dsimp only
  rw [hmerge]
  exact ⟨_, rfl⟩

end Misplaced

open Misplaced in
/-- The hypothesis holds of a set that is built with the proof of a key under its root and then filled
with the orphans that the proof of another key reveals, and of the set as it was before. The one is
merged with the other and written. -/
theorem flush_of_built_held :
    ∃ s count, (held (digest blob)).addOrphans (digest blob) (NodeTable.ofProof [blob]).source
        [elsewhere] = .ok (s, count) ∧
      (∀ t ∈ [s, held (digest blob)], t.Built NodeSource.Addressed) ∧
      (∃ node, s.nodes.find? (.single 0) = some node ∧ digest node.blob = node.hash) ∧
      ∃ m, MergedNodeSet.empty.addAll [s, held (digest blob)] = .ok m ∧
        ∃ count store, m.flush (NodeTable.write .empty) = .ok (count, store) := by
  obtain ⟨-, -, hne⟩ := digest_ne
  have hroot : isEmptyRoot (digest blob) = false := Trie.isEmptyRoot_eq_false_iff.2 hne
  have haddressed : (NodeTable.ofProof [blob]).source.Addressed :=
    (NodeTable.Kept.addProof [blob] .empty).addressed
  obtain ⟨s, count, horphans, hkeeps, hleaves, node, hnode⟩ :=
    addOrphans_held hroot (ofProof_singleton blob)
  have hbuilt : ∀ t ∈ [s, held (digest blob)], t.Built NodeSource.Addressed := by
    have hheld : (held (digest blob)).Built NodeSource.Addressed :=
      .addKeys (.empty .account) haddressed (addKeys_held hroot (ofProof_singleton blob))
    simp only [List.forall_mem_cons, List.not_mem_nil, false_imp_iff, implies_true, and_true]
    exact ⟨.addOrphans hheld haddressed horphans, hheld⟩
  obtain ⟨hhashes, hflush⟩ := flush_of_built hbuilt
  obtain ⟨m, hm⟩ := addAll_held hkeeps hleaves
  exact ⟨s, count, horphans, hbuilt, ⟨node, hnode, hhashes s List.mem_cons_self _ _ hnode⟩, m, hm,
    hflush m hm .empty⟩

open Misplaced in
/-- A plain table that has a node under another hash than its own gets the node into a set under that
hash, and no store takes the set. -/
theorem flush_misplaced :
    ∃ (table : NodeTable) (s : NodeSet), s.Built (· = table.source) ∧
      ∃ node, s.nodes.find? .empty = some node ∧ digest node.blob ≠ node.hash ∧
      ∃ m, MergedNodeSet.empty.addAll [s] = .ok m ∧ ∀ store : NodeTable,
        m.flush store.write = .error (.hashMismatch node.hash (digest node.blob)) := by
  obtain ⟨hblob, hempty, -⟩ := digest_ne
  have hroot : isEmptyRoot elsewhere = false :=
    Trie.isEmptyRoot_eq_false_iff.2 ⟨by decide, hempty.symm⟩
  have hadd : (NodeSet.empty .account).addKeys elsewhere
      (NodeTable.source (Table.empty.insert elsewhere blob)) [.zero] = .ok (held elsewhere) :=
    addKeys_held hroot (by rw [NodeTable.source, Table.find?_insert, if_pos rfl])
  refine ⟨_, held elsewhere, .addKeys (.empty .account) rfl hadd, ⟨elsewhere, blob⟩, rfl, hblob, _,
    rfl, fun store => ?_⟩
  have hmismatch : Batch.mismatch? [(elsewhere, blob)] =
      some (.hashMismatch elsewhere (digest blob)) := by
    simp [Batch.mismatch?, hblob]
  have hwrite : store.write [(elsewhere, blob)] =
      .error (.hashMismatch elsewhere (digest blob)) := by
    rw [NodeTable.write, hmismatch]
  -- the only write of the batch is that of the leaf
  exact congrArg (Except.map fun store' : NodeTable => (1, store')) hwrite

end Stateless
