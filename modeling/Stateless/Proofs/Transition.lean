import Stateless.Proofs.NodeSet.Bridging

/-!
# Transitions without the whole trie

The keys that a run of edits changes are proven before and after the run. From the nodes on their
ways before it, and from the orphans that their proofs after it reveal, a part of the trie is
rebuilt on which the run answers the same and ends in a trie with the same root hash. The main
result is `transition_closed`.
-/

namespace Stateless

open Trie

section

variable [Hasher]

namespace Trie

/-- The proofs of some keys. -/
def proveAll (t : Trie) (keys : List Word) : Except TrieError (List Bytes) := do
  return (← keys.mapM fun a => t.prove (.ofWord a)).flatten

variable {t t' : Trie} {keys : List Word} {blobs : List Bytes} {e : Bytes}

/-- All keys can be proven in a full trie. -/
theorem proveAll_complete (ht : Canonical maxNibbles t) (hfull : Full t) (keys : List Word) :
    ∃ blobs, t.proveAll keys = .ok blobs ∧
      ∀ e, e ∈ blobs ↔ ∃ a ∈ keys, ∃ l, t.Stored (Path.ofWord a).toList l e := by
  have hprove : ∀ a : Word, ∃ blobs, t.prove (.ofWord a) = .ok blobs ∧
      ∀ e, e ∈ blobs ↔ ∃ l, t.Stored (Path.ofWord a).toList l e := fun a => by
    obtain ⟨v, hv⟩ := hfull.view (Path.ofWord a).toList
    exact prove_complete ht hv
  obtain ⟨proofs, hproofs, hmem⟩ := mapM_eq_ok (f := fun a => t.prove (.ofWord a)) (l := keys)
    fun a _ => (hprove a).imp fun _ h => h.1
  refine ⟨proofs.flatten, by rw [proveAll, hproofs]; rfl, fun e => ?_⟩
  rw [List.mem_flatten]
  constructor
  · rintro ⟨blobs, hmem', he⟩
    obtain ⟨a, ha, hblobs⟩ := (hmem blobs).1 hmem'
    obtain ⟨blobs', hblobs', hall⟩ := hprove a
    obtain rfl := Except.ok.inj (hblobs'.symm.trans hblobs)
    exact ⟨a, ha, (hall e).1 he⟩
  · rintro ⟨a, ha, hstored⟩
    obtain ⟨blobs, hblobs, hall⟩ := hprove a
    exact ⟨blobs, (hmem blobs).2 ⟨a, ha, hblobs⟩, (hall e).2 hstored⟩

end Trie

variable {t t' : Trie} {keys : List Word}

/-- The proofs of some keys before and after a transition fill a node set that bridges it. -/
theorem bridges_complete (owner : TrieOwner) (keys : List Word) (ht : t.Whole) (ht' : t'.Whole)
    (hfree : CollisionFree (t.Hashed t' keys)) :
    ∃ blobs blobs' s₀ s count, t.proveAll keys = .ok blobs ∧
      (NodeSet.empty owner).addKeys t.hash.1 (NodeTable.ofProof blobs).source keys = .ok s₀ ∧
      t'.proveAll keys = .ok blobs' ∧
      s₀.addOrphans t'.hash.1 (NodeTable.ofProof blobs').source keys = .ok (s, count) ∧
      Bridges t t' keys s := by
  obtain ⟨blobs, hblobs, hmem⟩ := proveAll_complete ht.canonical ht.full keys
  obtain ⟨blobs', hblobs', hmem'⟩ := proveAll_complete ht'.canonical ht'.full keys
  obtain ⟨s₀, hadd, -, hshows, hcovers⟩ := NodeSet.addKeys_shows owner
    (verify_proven ht hfree (Or.inl rfl) (fun e he => Or.inr (Or.inl he)) hmem)
  obtain ⟨s, count, horphans, -, hbridges⟩ := NodeSet.addOrphans_bridges ht' hshows hcovers
    (verify_proven ht' hfree (Or.inl rfl) (fun e he => Or.inr (Or.inr (Or.inl he))) hmem')
  exact ⟨blobs, blobs', s₀, s, count, hblobs, hadd, hblobs', horphans, hbridges⟩

/-- A run of edits of some keys of a full trie whose keys are spread can be repeated on a part of
the trie that is rebuilt from the proofs of these keys before the run and from the orphans that
their proofs after it reveal. Every step succeeds, the answers are the same, and so is the last root
hash. -/
theorem transition_closed {edits ops : List Edit} {as : List (Option Bytes)} (owner : TrieOwner)
    (hputs : ∀ e ∈ edits, e.Puts Entry.Storable) (hrun : Edit.run edits .empty = .ok (as, t))
    (hspread : t.Spread) (hkeys : keys ≠ []) (hops : ∀ e ∈ ops, e.Changes keys)
    (hfree : ∀ answers t', Edit.run ops t = .ok (answers, t') → CollisionFree (t.Hashed t' keys)) :
    ∃ answers t' blobs blobs' s₀ s count merged written store p p',
      Edit.run ops t = .ok (answers, t') ∧
      t.proveAll keys = .ok blobs ∧
      (NodeSet.empty owner).addKeys t.hash.1 (NodeTable.ofProof blobs).source keys = .ok s₀ ∧
      t'.proveAll keys = .ok blobs' ∧
      s₀.addOrphans t'.hash.1 (NodeTable.ofProof blobs').source keys = .ok (s, count) ∧
      MergedNodeSet.empty.add s = .ok merged ∧
      merged.flush (NodeTable.write .empty) = .ok (written, store) ∧
      rebuild t.hash.1 store.source = .ok p ∧
      Edit.run ops p = .ok (answers, p') ∧ p'.hash.1 = t'.hash.1 := by
  have hknown : ∀ e ∈ edits, e.Puts Entry.Known :=
    fun e he => (hputs e he).mono Entry.Storable.known
  have hops' : ∀ e ∈ ops, e.Puts Entry.Known :=
    fun e he => (hops e he).puts.mono Entry.Storable.known
  obtain ⟨as', t₁, hrun₁, hholds⟩ := Edit.run_holds hknown holds_empty
  obtain ⟨-, rfl⟩ := Prod.mk.inj (Except.ok.inj (hrun.symm.trans hrun₁))
  obtain ⟨answers, t', hrun', hholds'⟩ := Edit.run_holds hops' hholds
  have ht : t.Whole := ⟨hholds.intact, run_fits hputs (by trivial) hrun⟩
  have ht' : t'.Whole := ⟨hholds'.intact, run_fits (fun e he => (hops e he).puts) ht.fits hrun'⟩
  have hfree' := hfree answers t' hrun'
  obtain ⟨blobs, blobs', s₀, s, count, hblobs, hadd, hblobs', horphans, hbridges⟩ :=
    bridges_complete owner keys ht ht' hfree'
  have hnodup : ([s].map NodeSet.owner).Nodup := List.nodup_singleton _
  obtain ⟨merged, written, store, hmerged, hflush, hserved⟩ :=
    MergedNodeSet.flush_addAll hfree' hnodup
      fun _ hs path node => List.mem_singleton.1 hs ▸ hbridges.addressed
  have hadded : MergedNodeSet.empty.add s = .ok merged := by
    rw [← hmerged, MergedNodeSet.addAll, List.foldlM_cons]
    rfl
  have hp := hbridges.rebuild_eq (hserved s (List.mem_singleton_self s)) ht hkeys hfree' (Or.inl rfl)
    fun e he => Or.inr (Or.inl he)
  obtain ⟨p', hp', hroot⟩ := hbridges.replay (hserved s (List.mem_singleton_self s)) ht hspread
    ht'.sound hops hrun' rfl
  exact ⟨answers, t', blobs, blobs', s₀, s, count, merged, written, store, _, p', hrun', hblobs,
    hadd, hblobs', horphans, hadded, hflush, hp, hp', hroot⟩

end

/-! ## An instance -/

namespace Pair

/-- The first key is removed. -/
def ops : List Edit := [.remove (.ofWord (key 0x00))]

/-- What remains is the second leaf, with the nibble that led to it. -/
def rest : Trie := .leaf (.ofWord (key 0x10)) [8] none

theorem run_ops : Edit.run ops trie = .ok ([some [7]], rest) := rfl

theorem spread : trie.Spread := by
  obtain ⟨as, t, hrun, hholds⟩ := Edit.run_holds
    (fun e he => (edits_storable e he).mono Entry.Storable.known) holds_empty
  obtain ⟨-, rfl⟩ := Prod.mk.inj (Except.ok.inj (run_edits.symm.trans hrun))
  have hkeys : ∀ {k : Path}, trie.get k ≠ none →
      k = .ofWord (key 0x10) ∨ k = .ofWord (key 0x00) := fun {k} hk => by
    rw [Trie.get, lookup_eq_view, hholds.answers k] at hk
    by_contra hnot
    rw [not_or] at hnot
    simp [edits, Edit.record, Table.find?_insert, hnot] at hk
  refine ⟨fun {k} hk => ?_, fun {k k'} hk hk' htake => ?_⟩
  · rcases hkeys hk with rfl | rfl <;> rfl
  · rcases hkeys hk with rfl | rfl <;> rcases hkeys hk' with rfl | rfl <;>
      first | rfl | exact absurd htake (by decide)

/-- What is hashed when the first key is removed. The orphans are what remains with the front of its
fragment taken off, and one of them is the second leaf. -/
def hashedBlobs : List Bytes :=
  Rlp.emptyData :: leafEncoding fragment [7] :: encoding ::
    (List.range maxNibbles).map fun i => leafEncoding ((Path.ofWord (key 0x10)).drop i) [8]

theorem leaf_mem_hashedBlobs {i : Nat} (hi : i < maxNibbles) :
    leafEncoding ((Path.ofWord (key 0x10)).drop i) [8] ∈ hashedBlobs := by
  have := List.mem_map_of_mem (f := fun i => leafEncoding ((Path.ofWord (key 0x10)).drop i) [8])
    (List.mem_range.2 hi)
  simp [hashedBlobs, this]

theorem mem_hashedBlobs {b : Bytes} (h : trie.Hashed rest [key 0x00] b) : b ∈ hashedBlobs := by
  have hblobs : ∀ b ∈ blobs, b ∈ hashedBlobs := by
    have h₈ : leafEncoding fragment [8] ∈ hashedBlobs := leaf_mem_hashedBlobs (i := 1) (by decide)
    simp only [blobs, List.forall_mem_cons]
    exact ⟨List.mem_cons_self, by simp [hashedBlobs], h₈, by simp [hashedBlobs],
      List.forall_mem_nil _⟩
  rcases h with rfl | h | h | ⟨path, node, h, rfl⟩
  · exact List.mem_cons_self
  · exact hblobs b (encodes h)
  · rw [encodes_leaf.1 h]
    exact leaf_mem_hashedBlobs (i := 0) (by decide)
  · obtain ⟨i, hi, hblob⟩ := shortens_leaf.1 h.shortens
    rw [hblob]
    exact leaf_mem_hashedBlobs (hi.trans_eq (Path.length_ofWord (key 0x10)))

theorem collisionFree : CollisionFree (trie.Hashed rest [key 0x00]) := by
  refine collisionFree_of_nodup (fun b => mem_hashedBlobs) ?_
  simp only [digest_toNat]
  decide +kernel

theorem proveAll_first :
    trie.proveAll [key 0x00] = .ok [encoding, leafEncoding fragment [7]] := by
  have hleaf : proveFrom false (child 0) fragment = .ok [leafEncoding fragment [7]] := rfl
  have hkey : (Path.ofWord (key 0x00)).uncons = some (0, fragment) := rfl
  have hprove : trie.prove (.ofWord (key 0x00)) = .ok [encoding, leafEncoding fragment [7]] := by
    have hcontent : content (.branch child [] none) = .ok encoding := trie_content
    rw [prove, trie, proveFrom, hcontent]
    simp only [hkey, hleaf]
    rfl
  rw [proveAll, List.mapM_cons, hprove]
  rfl

end Pair

open Pair in
/-- The hypotheses hold of Keccak-256 and a trie with two keys, of which the first one is removed. The
branch then collapses onto the second leaf, which is not among the proofs before the removal: it is
an orphan of what remains. -/
theorem transition_closed_pair :
    (∀ e ∈ edits, e.Puts Entry.Storable) ∧ Edit.run edits .empty = .ok ([none, none], trie) ∧
    trie.Spread ∧ [key 0x00] ≠ [] ∧ (∀ e ∈ ops, e.Changes [key 0x00]) ∧
    (∀ answers t', Edit.run ops trie = .ok (answers, t') →
      CollisionFree (trie.Hashed t' [key 0x00])) ∧
    ∃ blobs' s₀ s count merged written store p p',
      Edit.run ops trie = .ok ([some [7]], rest) ∧
      trie.proveAll [key 0x00] = .ok [encoding, leafEncoding fragment [7]] ∧
      (NodeSet.empty .account).addKeys trie.hash.1
        (NodeTable.ofProof [encoding, leafEncoding fragment [7]]).source [key 0x00] = .ok s₀ ∧
      rest.proveAll [key 0x00] = .ok blobs' ∧
      s₀.addOrphans rest.hash.1 (NodeTable.ofProof blobs').source [key 0x00] = .ok (s, count) ∧
      MergedNodeSet.empty.add s = .ok merged ∧
      merged.flush (NodeTable.write .empty) = .ok (written, store) ∧
      rebuild trie.hash.1 store.source = .ok p ∧
      Edit.run ops p = .ok ([some [7]], p') ∧ p'.hash.1 = rest.hash.1 := by
  have hops : ∀ e ∈ ops, e.Changes [key 0x00] := by simp [ops, Edit.Changes]
  have hfree : ∀ answers t', Edit.run ops trie = .ok (answers, t') →
      CollisionFree (trie.Hashed t' [key 0x00]) := fun answers t' hrun => by
    obtain ⟨-, rfl⟩ := Prod.mk.inj (Except.ok.inj (run_ops.symm.trans hrun))
    exact collisionFree
  obtain ⟨answers, t', blobs₁, blobs', s₀, s, count, merged, written, store, p, p', hrun, hprove,
    hsteps⟩ := transition_closed .account edits_storable run_edits spread (List.cons_ne_nil _ _)
      hops hfree
  obtain ⟨rfl, rfl⟩ := Prod.mk.inj (Except.ok.inj (run_ops.symm.trans hrun))
  obtain rfl := Except.ok.inj (proveAll_first.symm.trans hprove)
  exact ⟨edits_storable, run_edits, spread, List.cons_ne_nil _ _, hops, hfree, blobs', s₀, s, count,
    merged, written, store, p, p', hrun, hprove, hsteps⟩

end Stateless
