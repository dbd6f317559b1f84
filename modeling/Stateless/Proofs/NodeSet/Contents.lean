import Stateless.NodeSet.Merged
import Stateless.Proofs.NodeStore
import Stateless.Proofs.Trie.Completeness

/-!
# What node sets hold

A node set that was filled from the proofs of one trie holds nodes and values of that trie only, so
its proofs never conflict. It holds every stored node on the way of every proven key, and its
orphans are added where nothing is held yet. The main statements are `addKeys_shows` and
`fill_find?`.
-/

namespace Stateless

namespace NodeSet

section

variable {s s' s'' : NodeSet}

/-- A set has the owner of another and holds the nodes of the other at the same places. -/
structure Keeps (s s' : NodeSet) : Prop where
  owner : s'.owner = s.owner
  nodes {path : Path} {node : ProvedNode} :
    s.nodes.find? path = some node → s'.nodes.find? path = some node

theorem Keeps.refl (s : NodeSet) : Keeps s s := ⟨rfl, id⟩

theorem Keeps.trans (h : Keeps s s') (h' : Keeps s' s'') : Keeps s s'' :=
  ⟨h'.owner.trans h.owner, fun hp => h'.nodes (h.nodes hp)⟩

/-- Filling keeps what is held, adds nothing but candidates, and leaves no candidate's place empty.
-/
theorem fill_find? (s : NodeSet) (candidates : List (Path × ProvedNode)) :
    Keeps s (s.fill candidates).1 ∧
    (∀ path node, (s.fill candidates).1.nodes.find? path = some node →
      s.nodes.find? path = some node ∨ (path, node) ∈ candidates) ∧
    ∀ path node, (path, node) ∈ candidates →
      ∃ node', (s.fill candidates).1.nodes.find? path = some node' := by
  rw [fill]
  generalize 0 = count
  induction candidates generalizing s count with
  | nil =>
    exact ⟨.refl s, fun path node h => Or.inl h, fun path node h => absurd h List.not_mem_nil⟩
  | cons c candidates ih =>
    obtain ⟨q, c⟩ := c
    rw [List.foldl_cons]
    cases hq : s.nodes.find? q with
    | some held =>
      have hcontains : s.nodes.contains q = true := by simp [Table.contains, hq]
      simp only [hcontains, if_true]
      obtain ⟨hk, honly, hall⟩ := ih s count
      refine ⟨hk, fun path node h => (honly path node h).imp_right (List.mem_cons_of_mem _), ?_⟩
      intro path node h
      rcases List.mem_cons.1 h with h | h
      · obtain ⟨rfl, rfl⟩ := Prod.mk.inj h
        exact ⟨held, hk.nodes hq⟩
      · exact hall path node h
    | none =>
      have hcontains : s.nodes.contains q = false := by simp [Table.contains, hq]
      simp only [hcontains, Bool.false_eq_true, if_false]
      obtain ⟨hk, honly, hall⟩ := ih { s with nodes := s.nodes.insert q c } (count + 1)
      have hk₁ : Keeps s { s with nodes := s.nodes.insert q c } := by
        refine ⟨rfl, fun {p n} hp => ?_⟩
        rw [Table.find?_insert, if_neg (fun h => by simp [h, hq] at hp), hp]
      refine ⟨hk₁.trans hk, fun path node h => ?_, fun path node h => ?_⟩
      · rcases honly path node h with h | h
        · rw [Table.find?_insert] at h
          split at h
          · next hp =>
            rw [hp, Option.some.inj h]
            exact Or.inr List.mem_cons_self
          · exact Or.inl h
        · exact Or.inr (List.mem_cons_of_mem _ h)
      · rcases List.mem_cons.1 h with h | h
        · obtain ⟨rfl, rfl⟩ := Prod.mk.inj h
          exact ⟨node, hk.nodes (by rw [Table.find?_insert, if_pos rfl])⟩
        · exact hall path node h

/-- Filling changes no value and counts the nodes that it adds. -/
theorem fill_counts (s : NodeSet) (candidates : List (Path × ProvedNode)) :
    (s.fill candidates).1.leaves = s.leaves ∧
      (s.fill candidates).1.nodes.size = s.nodes.size + (s.fill candidates).2 := by
  -- the count goes up from wherever it starts
  suffices h : (s.fill candidates).1.leaves = s.leaves ∧
      (s.fill candidates).1.nodes.size + 0 = s.nodes.size + (s.fill candidates).2 from h
  unfold fill
  generalize 0 = count
  induction candidates generalizing s count with
  | nil => exact ⟨rfl, rfl⟩
  | cons c candidates ih =>
    rw [List.foldl_cons]
    dsimp only
    split
    · exact ih s count
    · next hnew =>
      have hnone : s.nodes.find? c.1 = none := by
        rw [Table.contains] at hnew
        exact Option.not_isSome_iff_eq_none.1 hnew
      obtain ⟨hleaves, hsize⟩ := ih { s with nodes := s.nodes.insert c.1 c.2 } (count + 1)
      refine ⟨hleaves, ?_⟩
      rw [Table.size_insert hnone, Nat.add_right_comm] at hsize
      exact Nat.succ.inj hsize

/-- Filling adds nothing where all places are taken. -/
theorem fill_full {candidates : List (Path × ProvedNode)}
    (h : ∀ c ∈ candidates, s.nodes.contains c.1 = true) : s.fill candidates = (s, 0) := by
  unfold fill
  induction candidates with
  | nil => rfl
  | cons c candidates ih =>
    have hheld : s.nodes.contains c.1 = true := h c List.mem_cons_self
    rw [List.foldl_cons]
    dsimp only
    rw [if_pos hheld]
    exact ih fun c' hc' => h c' (List.mem_cons_of_mem c hc')

theorem fill_again (s : NodeSet) (candidates : List (Path × ProvedNode)) :
    (s.fill candidates).1.fill candidates = ((s.fill candidates).1, 0) := by
  refine fill_full fun c hc => ?_
  obtain ⟨node, hnode⟩ := (fill_find? s candidates).2.2 c.1 c.2 hc
  exact Table.contains_of_find? hnode

end

variable [Hasher] {t : Trie} {s s' s'' : NodeSet}

/-- An encoding under its hash is that of the node of a trie at a place. -/
def IsNode (t : Trie) (path : Path) (node : ProvedNode) : Prop :=
  ∃ c e, t.nodeAt path.toList = some c ∧ c.content = .ok e ∧ node = ⟨digest e, e⟩

/-- All nodes and values of a set are those of a trie. -/
structure Shows (t : Trie) (s : NodeSet) : Prop where
  nodes {path : Path} {node : ProvedNode} : s.nodes.find? path = some node → IsNode t path node
  leaves {key : Path} {v : Bytes} :
    s.leaves.find? key = some v → t.view key.toList = .ok (some v)

theorem IsNode.unique {path : Path} {a b : ProvedNode} (ha : IsNode t path a)
    (hb : IsNode t path b) : a = b := by
  obtain ⟨c, e, hc, he, rfl⟩ := ha
  obtain ⟨c', e', hc', he', rfl⟩ := hb
  obtain rfl := Option.some.inj (hc.symm.trans hc')
  rw [Except.ok.inj (he.symm.trans he')]

/-! ## Adding -/

theorem addNode_shows {path : Path} {node : ProvedNode} (hs : Shows t s)
    (hnode : IsNode t path node) :
    ∃ s', s.addNode path node = .ok s' ∧ Shows t s' ∧ Keeps s s' ∧
      s'.nodes.find? path = some node := by
  rw [addNode]
  cases hfind : s.nodes.find? path with
  | some existing =>
    obtain rfl := (hs.nodes hfind).unique hnode
    exact ⟨s, if_pos rfl, hs, .refl s, hfind⟩
  | none =>
    refine ⟨_, rfl, ⟨fun {p n} hp => ?_, hs.leaves⟩, ⟨rfl, fun {p n} hp => ?_⟩, ?_⟩
    · rw [Table.find?_insert] at hp
      split at hp
      · next h => exact h ▸ Option.some.inj hp ▸ hnode
      · exact hs.nodes hp
    · rw [Table.find?_insert, if_neg (fun h => by simp [h, hfind] at hp), hp]
    · rw [Table.find?_insert, if_pos rfl]

theorem addLeaf_shows {key : Path} {v : Bytes} (hs : Shows t s)
    (hv : t.view key.toList = .ok (some v)) :
    ∃ s', s.addLeaf key v = .ok s' ∧ Shows t s' ∧ Keeps s s' := by
  rw [addLeaf]
  cases hfind : s.leaves.find? key with
  | some existing =>
    obtain rfl := Option.some.inj (Except.ok.inj ((hs.leaves hfind).symm.trans hv))
    exact ⟨s, if_pos rfl, hs, .refl s⟩
  | none =>
    refine ⟨_, rfl, ⟨hs.nodes, fun {k w} hk => ?_⟩, ⟨rfl, id⟩⟩
    rw [Table.find?_insert] at hk
    split at hk
    · next h => exact h ▸ Option.some.inj hk ▸ hv
    · exact hs.leaves hk

theorem addVisits_shows {visits : List Visit} (hs : Shows t s)
    (hvisits : ∀ v ∈ visits, IsNode t v.path ⟨v.digest, v.blob⟩) :
    ∃ s', visits.foldlM (fun s v => s.addNode v.path ⟨v.digest, v.blob⟩) s = .ok s' ∧
      Shows t s' ∧ Keeps s s' ∧
      ∀ v ∈ visits, s'.nodes.find? v.path = some ⟨v.digest, v.blob⟩ := by
  induction visits generalizing s with
  | nil => exact ⟨s, rfl, hs, .refl s, fun v hv => absurd hv List.not_mem_nil⟩
  | cons v visits ih =>
    obtain ⟨s₁, hadd, hs₁, hk₁, hfind⟩ := addNode_shows hs (hvisits v List.mem_cons_self)
    obtain ⟨s₂, hrest, hs₂, hk₂, hall⟩ := ih hs₁ fun w hw => hvisits w (List.mem_cons_of_mem _ hw)
    refine ⟨s₂, ?_, hs₂, hk₁.trans hk₂, fun w hw => ?_⟩
    · rw [List.foldlM_cons, hadd]
      exact hrest
    · rcases List.mem_cons.1 hw with rfl | hw
      · exact hk₂.nodes hfind
      · exact hall w hw

theorem isNode_of_visit {k : Path} {v : Verification} {visit : Visit}
    (hv : Trie.Complete t .empty k v) (hmem : visit ∈ v.visited) :
    IsNode t visit.path ⟨visit.digest, visit.blob⟩ := by
  obtain ⟨-, l, e, ⟨-, c, hc, he, -⟩, hpath, hdigest, hblob⟩ := (hv.visits visit).1 hmem
  have hpath' : visit.path.toList = l := hpath
  exact ⟨c, e, by rw [hpath', hc], he, by rw [hdigest, hblob]⟩

/-- A complete verification can be added, and all stored nodes on its way are held afterwards. -/
theorem addVerification_shows {k : Path} {v : Verification} (hs : Shows t s)
    (hv : Trie.Complete t .empty k v) :
    ∃ s', s.addVerification v = .ok s' ∧ Shows t s' ∧ Keeps s s' ∧
      ∀ visit ∈ v.visited, s'.nodes.find? visit.path = some ⟨visit.digest, visit.blob⟩ := by
  obtain ⟨s₁, hvisits, hs₁, hk₁, hall⟩ :=
    addVisits_shows hs fun visit hmem => isNode_of_visit hv hmem
  rw [addVerification, hvisits]
  cases hleaf : v.leaf with
  | none => exact ⟨s₁, rfl, hs₁, hk₁, hall⟩
  | some p =>
    obtain ⟨key, value⟩ := p
    obtain ⟨hkey, hvalue⟩ := (hv.leaf key value).1 hleaf
    have hkey' : key.toList = k.toList := hkey
    obtain ⟨s₂, hadd, hs₂, hk₂⟩ := addLeaf_shows hs₁ (hkey' ▸ hvalue)
    exact ⟨s₂, hadd, hs₂, hk₁.trans hk₂, fun visit hmem => hk₂.nodes (hall visit hmem)⟩

/-- All stored nodes on the ways of some keys are held. -/
def Covers (t : Trie) (keys : List Word) (s : NodeSet) : Prop :=
  ∀ a ∈ keys, ∀ l e, t ≠ .empty → t.Stored (Path.ofWord a).toList l e →
    ∃ path : Path, path.toList = l ∧ s.nodes.find? path = some ⟨digest e, e⟩

theorem Covers.mono {keys : List Word} (h : Covers t keys s) (hk : Keeps s s') :
    Covers t keys s' := fun a ha l e hne hstored => by
  obtain ⟨path, hpath, hfind⟩ := h a ha l e hne hstored
  exact ⟨path, hpath, hk.nodes hfind⟩

/-- The proofs of some keys can be collected if each of them is complete. -/
theorem collect_shows {root : Word} {source : NodeSource} {keys : List Word}
    (hs : Shows t s)
    (hkeys : ∀ a ∈ keys, Trie.Complete t .empty (.ofWord a) (verify root (.ofWord a) source)) :
    ∃ s', collect root source keys s = .ok s' ∧ Shows t s' ∧ Keeps s s' ∧ Covers t keys s' := by
  induction keys generalizing s with
  | nil => exact ⟨s, rfl, hs, .refl s, fun a ha => absurd ha List.not_mem_nil⟩
  | cons a keys ih =>
    have hv := hkeys a List.mem_cons_self
    obtain ⟨p, hp, -⟩ := hv.ends
    obtain ⟨s₁, hadd, hs₁, hk₁, hall⟩ := addVerification_shows hs hv
    obtain ⟨s₂, hrest, hs₂, hk₂, hcov⟩ := ih hs₁ fun b hb => hkeys b (List.mem_cons_of_mem _ hb)
    refine ⟨s₂, ?_, hs₂, hk₁.trans hk₂, fun b hb l e hne hstored => ?_⟩
    · rw [collect, hp, hadd]
      exact hrest
    · rcases List.mem_cons.1 hb with rfl | hb
      · obtain ⟨c, hc, -⟩ := hstored.2
        have hle := (List.IsPrefix.length_le hstored.1).trans (Path.length_le _)
        refine ⟨⟨l, hle⟩, rfl, hk₂.nodes (hall ⟨⟨l, hle⟩, digest e, e⟩ ?_)⟩
        exact (hv.visits _).2 ⟨hne, l, e, hstored, rfl, rfl, rfl⟩
      · exact hcov b hb l e hne hstored

/-- A new set takes the proofs of some keys if each of them is complete. -/
theorem addKeys_shows (owner : TrieOwner) {root : Word} {source : NodeSource} {keys : List Word}
    (hkeys : ∀ a ∈ keys, Trie.Complete t .empty (.ofWord a) (verify root (.ofWord a) source)) :
    ∃ s, (empty owner).addKeys root source keys = .ok s ∧ s.owner = owner ∧ Shows t s ∧
      Covers t keys s := by
  have hempty : Shows t (empty owner) := ⟨(fun h => by cases h), (fun h => by cases h)⟩
  obtain ⟨s, hcollect, hs, hk, hcov⟩ := collect_shows hempty hkeys
  have hnode : (empty owner).nodeConflict? s = none :=
    List.findSome?_eq_none_iff.2 fun e _ => rfl
  have hleaf : (empty owner).leafConflict? s = none :=
    List.findSome?_eq_none_iff.2 fun e _ => rfl
  have hunion : ∀ {α : Type} (u : Table Path α) k, (Table.empty.union u).find? k = u.find? k :=
    fun u k => by rw [Table.find?_union, Table.find?_empty, Option.or_none]
  have hmerge : (empty owner).merge s = .ok
      ⟨owner, Table.empty.union s.nodes, Table.empty.union s.leaves⟩ := by
    rw [merge, hnode, hleaf]
    rfl
  have hadd : (empty owner).addKeys root source keys =
      .ok ⟨owner, Table.empty.union s.nodes, Table.empty.union s.leaves⟩ := by
    have hcollect' : collect root source keys (empty (empty owner).owner) = .ok s := hcollect
    rw [addKeys, hcollect']
    simp [bind, Except.bind, hmerge, Attempt.ofExcept]
  refine ⟨_, hadd, rfl, ?_, ?_⟩
  · exact ⟨fun h => hs.nodes (by rwa [hunion] at h), fun h => hs.leaves (by rwa [hunion] at h)⟩
  · exact hcov.mono ⟨hk.owner.symm, fun h => by rwa [hunion]⟩

end NodeSet

/-- A source has all nodes of a set, and whatever it has for a hash is a byte string of some kind
that has the hash. -/
structure NodeSet.Served [Hasher] (s : NodeSet) (S : Bytes → Prop) (source : NodeSource) : Prop where
  held {path : Path} {node : ProvedNode} :
    s.nodes.find? path = some node → source node.hash = some node.blob
  addressed {w : Word} {b : Bytes} : source w = some b → digest b = w ∧ S b

namespace MergedNodeSet

variable {m : MergedNodeSet} {sets : List NodeSet} {w : Word} {b : Bytes}

/-- Sets of different tries are kept side by side. -/
theorem addAll_apart (hnodup : (sets.map NodeSet.owner).Nodup)
    (hnew : ∀ s ∈ sets, m.sets.find? s.owner = none) :
    ∃ merged, m.addAll sets = .ok merged ∧
      ∀ s, s ∈ merged.sets.values ↔ s ∈ sets ∨ s ∈ m.sets.values := by
  induction sets generalizing m with
  | nil => exact ⟨m, rfl, by simp⟩
  | cons s sets ih =>
    rw [List.map_cons, List.nodup_cons] at hnodup
    obtain ⟨hnot, hnodup⟩ := hnodup
    have hnone := hnew s List.mem_cons_self
    obtain ⟨merged, hmerged, hvalues⟩ := ih (m := ⟨m.sets.insert s.owner s⟩) hnodup
      fun s' hs' => by
        have hne : s'.owner ≠ s.owner := fun heq => hnot (heq ▸ List.mem_map_of_mem hs')
        rw [Table.find?_insert, if_neg hne]
        exact hnew s' (List.mem_cons_of_mem _ hs')
    refine ⟨merged, ?_, fun s' => ?_⟩
    · have hadd : m.add s = .ok ⟨m.sets.insert s.owner s⟩ := by rw [add, hnone]
      rw [addAll, List.foldlM_cons, hadd]
      exact hmerged
    · rw [hvalues, Table.mem_values_iff, Table.mem_values_iff, List.mem_cons]
      constructor
      · rintro (h | ⟨o, ho⟩)
        · exact Or.inl (Or.inr h)
        · rw [Table.find?_insert] at ho
          split at ho
          · exact Or.inl (Or.inl (Option.some.inj ho).symm)
          · exact Or.inr ⟨o, ho⟩
      · rintro ((rfl | h) | ⟨o, ho⟩)
        · exact Or.inr ⟨s'.owner, by rw [Table.find?_insert, if_pos rfl]⟩
        · exact Or.inl h
        · refine Or.inr ⟨o, ?_⟩
          rw [Table.find?_insert, if_neg (fun h => by simp [h, hnone] at ho), ho]

/-- The writes of all nodes, set by set; a hash may be written several times. -/
def writes (m : MergedNodeSet) : Batch :=
  m.sets.values.flatMap fun s => s.nodes.values.map fun n => (n.hash, n.blob)

theorem mem_writes_iff : (w, b) ∈ m.writes ↔
    ∃ s ∈ m.sets.values, ∃ path, s.nodes.find? path = some ⟨w, b⟩ := by
  constructor
  · intro hmem
    obtain ⟨s, hs, hmem⟩ := List.mem_flatMap.1 hmem
    obtain ⟨node, hnode, heq⟩ := List.mem_map.1 hmem
    obtain ⟨rfl, rfl⟩ := Prod.mk.inj heq
    exact ⟨s, hs, Table.mem_values_iff.1 hnode⟩
  · rintro ⟨s, hs, hnode⟩
    exact List.mem_flatMap.2 ⟨s, hs, List.mem_map.2 ⟨⟨w, b⟩, Table.mem_values_iff.2 hnode, rfl⟩⟩

theorem mem_batch_iff : (w, b) ∈ m.batch ↔ (Table.ofList m.writes).find? w = some b :=
  Table.find?_eq_some_iff.symm

/-- Whatever is in a batch is one of the writes. -/
theorem mem_writes_of_mem_batch (h : (w, b) ∈ m.batch) : (w, b) ∈ m.writes := by
  rw [mem_batch_iff, Table.ofList] at h
  rcases Table.find?_foldl_insert m.writes .empty w with ⟨v, hmem, hfind⟩ | ⟨-, hfind⟩
  · obtain rfl := Option.some.inj (hfind.symm.trans h)
    exact hmem
  · cases hfind.symm.trans h

/-- Every hash that is written is in the batch. -/
theorem exists_mem_batch (h : (w, b) ∈ m.writes) : ∃ b', (w, b') ∈ m.batch := by
  rcases Table.find?_foldl_insert m.writes .empty w with ⟨b', -, hfind⟩ | ⟨hnone, -⟩
  · exact ⟨b', mem_batch_iff.2 hfind⟩
  · exact absurd rfl (hnone _ h)

variable [Hasher] {S : Bytes → Prop}

/-- If all nodes have the hashes under which they are held, the batch has exactly these nodes. -/
theorem mem_batch (hfree : CollisionFree S) (hs : ∀ s ∈ m.sets.values, ∀ path node,
      s.nodes.find? path = some node → digest node.blob = node.hash ∧ S node.blob) :
    (w, b) ∈ m.batch ↔ ∃ s ∈ m.sets.values, ∃ path, s.nodes.find? path = some ⟨w, b⟩ := by
  rw [mem_batch_iff, Table.ofList, find?_addressed hfree, mem_writes_iff]
  intro e he
  obtain ⟨s, hmem, path, hpath⟩ := mem_writes_iff.1 he
  exact hs s hmem path _ hpath

/-- Sets of different tries whose nodes have the hashes under which they are held can be flushed
together, and the store then serves all of them. -/
theorem flush_addAll (hfree : CollisionFree S) (hnodup : (sets.map NodeSet.owner).Nodup)
    (hs : ∀ s ∈ sets, ∀ path node, s.nodes.find? path = some node →
      digest node.blob = node.hash ∧ S node.blob) :
    ∃ merged count store, empty.addAll sets = .ok merged ∧
      merged.flush (NodeTable.write .empty) = .ok (count, store) ∧
      ∀ s ∈ sets, s.Served S store.source := by
  obtain ⟨merged, hmerged, hvalues⟩ := addAll_apart (m := empty) hnodup fun s _ => rfl
  have hsets : ∀ s, s ∈ merged.sets.values ↔ s ∈ sets := fun s => by
    rw [hvalues]
    exact or_iff_left List.not_mem_nil
  have hbatch : ∀ w b, (w, b) ∈ merged.batch ↔
      ∃ s ∈ sets, ∃ path, s.nodes.find? path = some ⟨w, b⟩ := fun w b => by
    simp only [mem_batch hfree fun s h => hs s ((hsets s).1 h), hsets]
  have haddr : ∀ e ∈ merged.batch, digest e.2 = e.1 ∧ S e.2 := fun e he => by
    obtain ⟨s, hmem, path, hpath⟩ := (hbatch e.1 e.2).1 he
    exact hs s hmem path _ hpath
  obtain ⟨store, hwrite, hsource⟩ := write_source hfree haddr
  refine ⟨merged, merged.batch.length, store, hmerged, by rw [flush, hwrite]; rfl, fun s hmem => ?_⟩
  exact ⟨fun {path node} hfind => (hsource _ _).2 ((hbatch _ _).2 ⟨s, hmem, path, hfind⟩),
    fun hsome => haddr _ ((hsource _ _).1 hsome)⟩

end MergedNodeSet

end Stateless
