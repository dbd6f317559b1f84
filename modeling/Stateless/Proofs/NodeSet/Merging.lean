import Mathlib.Data.Set.Function
import Stateless.Proofs.NodeSet.Provenance

/-!
# Merging sets in any order

Sets of one trie can be merged if they agree: no two of them hold different hashes at a place or
different values under a key. Merging goes through a list of sets and checks each against what has
been merged so far, which is their union (`Unites`). A set conflicts with the union exactly if it
conflicts with one of the sets, so the order does not matter. The main statement is `addAll_perm`.
-/

namespace Stateless

/-- Whether a refusal reports two sources that disagree. -/
def NodeSetError.IsConflict : NodeSetError → Prop
  | .proof .. => False
  | .nodeConflict .. | .leafConflict .. => True

namespace NodeSet

/-- Where two sets both hold a node, it has the same hash, and where both have a value, it is the
same. -/
structure Agrees (s t : NodeSet) : Prop where
  nodes {path : Path} {node node' : ProvedNode} : s.nodes.find? path = some node →
    t.nodes.find? path = some node' → node.hash = node'.hash
  leaves {key : Path} {value value' : Bytes} : s.leaves.find? key = some value →
    t.leaves.find? key = some value' → value = value'

variable {s s' t u : NodeSet}

theorem Agrees.refl (s : NodeSet) : s.Agrees s where
  nodes h h' := congrArg ProvedNode.hash (Option.some.inj (h.symm.trans h'))
  leaves h h' := Option.some.inj (h.symm.trans h')

theorem Agrees.symm (h : s.Agrees t) : t.Agrees s where
  nodes hn hn' := (h.nodes hn' hn).symm
  leaves hl hl' := (h.leaves hl' hl).symm

theorem nodeConflict?_eq (s t : NodeSet) : s.nodeConflict? t = Table.report? (fun path n n' =>
    if n.hash = n'.hash then none else some (.nodeConflict s.owner path n.hash n'.hash))
    s.nodes t.nodes := by
  unfold nodeConflict? Table.report?
  congr 1
  funext ⟨path, node⟩
  dsimp only
  cases s.nodes.find? path <;> rfl

theorem leafConflict?_eq (s t : NodeSet) : s.leafConflict? t = Table.report? (fun key v v' =>
    if v = v' then none else some (.leafConflict s.owner key)) s.leaves t.leaves := by
  unfold leafConflict? Table.report?
  congr 1
  funext ⟨key, value⟩
  dsimp only
  cases s.leaves.find? key <;> rfl

theorem nodeConflict?_eq_none_iff : s.nodeConflict? t = none ↔
    ∀ path node node', s.nodes.find? path = some node → t.nodes.find? path = some node' →
      node.hash = node'.hash := by
  rw [nodeConflict?_eq, Table.report?_eq_none_iff]
  simp only [ite_eq_left_iff, reduceCtorEq, imp_false, not_not]

theorem leafConflict?_eq_none_iff : s.leafConflict? t = none ↔
    ∀ key value value', s.leaves.find? key = some value → t.leaves.find? key = some value' →
      value = value' := by
  rw [leafConflict?_eq, Table.report?_eq_none_iff]
  simp only [ite_eq_left_iff, reduceCtorEq, imp_false, not_not]

theorem isConflict_of_nodeConflict? {e : NodeSetError} (h : s.nodeConflict? t = some e) :
    e.IsConflict := by
  rw [nodeConflict?_eq] at h
  obtain ⟨path, node, node', -, -, he⟩ := Table.exists_of_report? h
  split at he
  · cases he
  · exact Option.some.inj he ▸ trivial

theorem isConflict_of_leafConflict? {e : NodeSetError} (h : s.leafConflict? t = some e) :
    e.IsConflict := by
  rw [leafConflict?_eq] at h
  obtain ⟨key, value, value', -, -, he⟩ := Table.exists_of_report? h
  split at he
  · cases he
  · exact Option.some.inj he ▸ trivial

/-- Sets that agree are merged into their union, and others are refused as a conflict. -/
theorem merge_cases (s t : NodeSet) :
    (s.Agrees t ∧ s.merge t = .ok ⟨s.owner, s.nodes.union t.nodes, s.leaves.union t.leaves⟩) ∨
    (¬ s.Agrees t ∧ ∃ e, s.merge t = .error e ∧ e.IsConflict) := by
  cases hnode : s.nodeConflict? t with
  | some e =>
    refine Or.inr ⟨fun hagree => ?_, e, by rw [merge, hnode], isConflict_of_nodeConflict? hnode⟩
    have hnone := nodeConflict?_eq_none_iff.2 fun _ _ _ => hagree.nodes
    cases hnode.symm.trans hnone
  | none =>
    cases hleaf : s.leafConflict? t with
    | some e =>
      refine Or.inr ⟨fun hagree => ?_, e, by rw [merge, hnode, hleaf],
        isConflict_of_leafConflict? hleaf⟩
      have hnone := leafConflict?_eq_none_iff.2 fun _ _ _ => hagree.leaves
      cases hleaf.symm.trans hnone
    | none =>
      refine Or.inl ⟨⟨?_, ?_⟩, by rw [merge, hnode, hleaf]⟩
      · exact nodeConflict?_eq_none_iff.1 hnode _ _ _
      · exact leafConflict?_eq_none_iff.1 hleaf _ _ _

end NodeSet

namespace MergedNodeSet

/-- No two sets of one trie disagree. -/
def Compatible (sets : List NodeSet) : Prop :=
  ∀ s ∈ sets, ∀ t ∈ sets, s.owner = t.owner → s.Agrees t

/-- Nodes of some sets that have the same hash are the same. -/
def Unambiguous (sets : List NodeSet) : Prop :=
  ∀ s ∈ sets, ∀ t ∈ sets, ∀ path path' node node', s.nodes.find? path = some node →
    t.nodes.find? path' = some node' → node.hash = node'.hash → node = node'

/-- For each trie that has one of some sets, the union of all its sets is there, and nothing else. -/
structure Unites (m : MergedNodeSet) (sets : List NodeSet) : Prop where
  /-- A trie has a set exactly if one of the sets belongs to it. -/
  tries (o : TrieOwner) : (∃ u, m.sets.find? o = some u) ↔ ∃ s ∈ sets, s.owner = o
  owner {o : TrieOwner} {u : NodeSet} : m.sets.find? o = some u → u.owner = o
  nodes {o : TrieOwner} {u : NodeSet} : m.sets.find? o = some u → ∀ path node,
    u.nodes.find? path = some node ↔ ∃ s ∈ sets, s.owner = o ∧ s.nodes.find? path = some node
  leaves {o : TrieOwner} {u : NodeSet} : m.sets.find? o = some u → ∀ key value,
    u.leaves.find? key = some value ↔ ∃ s ∈ sets, s.owner = o ∧ s.leaves.find? key = some value

variable {m m' : MergedNodeSet} {s : NodeSet} {sets done l : List NodeSet}

theorem Compatible.mono (h : Compatible l) (hsub : sets ⊆ l) : Compatible sets :=
  fun s hs t ht => h s (hsub hs) t (hsub ht)

theorem Unambiguous.mono (h : Unambiguous l) (hsub : sets ⊆ l) : Unambiguous sets :=
  fun s hs t ht => h s (hsub hs) t (hsub ht)

/-- Sets whose nodes have the hashes under which they are held are unambiguous if these do not
collide. -/
theorem unambiguous_of_injOn [Hasher]
    (hsets : ∀ s ∈ sets, ∀ path node, s.nodes.find? path = some node →
      digest node.blob = node.hash)
    (hinj : Set.InjOn digest
      {b | ∃ s ∈ sets, ∃ path node, s.nodes.find? path = some node ∧ node.blob = b}) :
    Unambiguous sets := by
  intro s hs t ht path path' node node' hnode hnode' heq
  have hblob : node.blob = node'.blob := by
    refine hinj ⟨s, hs, path, node, hnode, rfl⟩ ⟨t, ht, path', node', hnode', rfl⟩ ?_
    rw [hsets s hs path node hnode, hsets t ht path' node' hnode', heq]
  cases node
  cases node'
  congr

theorem Unites.congr (h : m.Unites sets) (hmem : ∀ s, s ∈ sets ↔ s ∈ l) : m.Unites l where
  tries o := by simp only [h.tries, hmem]
  owner := h.owner
  nodes hu path node := by simp only [h.nodes hu, hmem]
  leaves hu key value := by simp only [h.leaves hu, hmem]

/-- There is only one union. -/
theorem Unites.unique (h : m.Unites sets) (h' : m'.Unites sets) : m = m' := by
  have hsub : ∀ {m m' : MergedNodeSet}, m.Unites sets → m'.Unites sets → ∀ o u,
      m.sets.find? o = some u → m'.sets.find? o = some u := by
    intro m m' h h' o u hu
    obtain ⟨u', hu'⟩ := (h'.tries o).2 ((h.tries o).1 ⟨u, hu⟩)
    have hnodes : u.nodes = u'.nodes := Table.eq_of_find?_eq fun path => by
      ext1 node
      rw [h.nodes hu, h'.nodes hu']
    have hleaves : u.leaves = u'.leaves := Table.eq_of_find?_eq fun key => by
      ext1 value
      rw [h.leaves hu, h'.leaves hu']
    have howner : u.owner = u'.owner := (h.owner hu).trans (h'.owner hu').symm
    rw [hu']
    cases u
    cases u'
    congr
    · exact howner.symm
    · exact hnodes.symm
    · exact hleaves.symm
  have hsets : m.sets = m'.sets := Table.eq_of_find?_eq fun o => by
    ext1 u
    exact ⟨hsub h h' o u, hsub h' h o u⟩
  cases m
  cases m'
  congr

theorem unites_empty : empty.Unites [] where
  tries o := by simp [empty]
  owner h := nomatch h
  nodes h := nomatch h
  leaves h := nomatch h

/-- A set agrees with a union exactly if it agrees with every set that was united. -/
theorem Unites.agrees_iff (h : m.Unites done) {u : NodeSet}
    (hu : m.sets.find? s.owner = some u) :
    u.Agrees s ↔ ∀ t ∈ done, t.owner = s.owner → t.Agrees s := by
  constructor
  · intro hagree t ht howner
    exact ⟨fun hn => hagree.nodes ((h.nodes hu _ _).2 ⟨t, ht, howner, hn⟩),
      fun hl => hagree.leaves ((h.leaves hu _ _).2 ⟨t, ht, howner, hl⟩)⟩
  · intro hall
    constructor
    · intro path node node' hn hn'
      obtain ⟨t, ht, howner, hn⟩ := (h.nodes hu _ _).1 hn
      exact (hall t ht howner).nodes hn hn'
    · intro key value value' hl hl'
      obtain ⟨t, ht, howner, hl⟩ := (h.leaves hu _ _).1 hl
      exact (hall t ht howner).leaves hl hl'

/-- What is held after a set was put in the place of its trie. -/
theorem Unites.insert (h : m.Unites done) {u : NodeSet} (howner : u.owner = s.owner)
    (hnodes : ∀ path node, u.nodes.find? path = some node ↔
      ∃ t ∈ s :: done, t.owner = s.owner ∧ t.nodes.find? path = some node)
    (hleaves : ∀ key value, u.leaves.find? key = some value ↔
      ∃ t ∈ s :: done, t.owner = s.owner ∧ t.leaves.find? key = some value) :
    Unites ⟨m.sets.insert s.owner u⟩ (s :: done) := by
  have hother : ∀ {o : TrieOwner}, o ≠ s.owner → ∀ P : NodeSet → Prop,
      (∃ t ∈ s :: done, t.owner = o ∧ P t) ↔ ∃ t ∈ done, t.owner = o ∧ P t := by
    intro o ho P
    rw [List.exists_mem_cons_iff]
    exact or_iff_right fun hs => ho hs.1.symm
  have hfind : ∀ {o : TrieOwner} {v : NodeSet}, (m.sets.insert s.owner u).find? o = some v →
      (o = s.owner ∧ v = u) ∨ (o ≠ s.owner ∧ m.sets.find? o = some v) := by
    intro o v hv
    rw [Table.find?_insert] at hv
    split at hv
    · next ho => exact Or.inl ⟨ho, (Option.some.inj hv).symm⟩
    · next ho => exact Or.inr ⟨ho, hv⟩
  constructor
  · intro o
    dsimp only
    rw [Table.find?_insert]
    by_cases ho : o = s.owner
    · rw [if_pos ho]
      exact ⟨fun _ => ⟨s, List.mem_cons_self, ho.symm⟩, fun _ => ⟨u, rfl⟩⟩
    · rw [if_neg ho, h.tries]
      have := hother ho fun _ => True
      simpa using this.symm
  · intro o v hv
    rcases hfind hv with ⟨rfl, rfl⟩ | ⟨-, hv⟩
    · exact howner
    · exact h.owner hv
  · intro o v hv path node
    rcases hfind hv with ⟨rfl, rfl⟩ | ⟨ho, hv⟩
    · exact hnodes path node
    · rw [h.nodes hv, hother ho]
  · intro o v hv key value
    rcases hfind hv with ⟨rfl, rfl⟩ | ⟨ho, hv⟩
    · exact hleaves key value
    · rw [h.leaves hv, hother ho]

/-- One step: a set that agrees with all sets before it is taken in, and another one is refused. -/
theorem Unites.add (h : m.Unites done) (hclear : Unambiguous (s :: done)) :
    ((∀ t ∈ done, t.owner = s.owner → t.Agrees s) ∧
      ∃ m', m.add s = .ok m' ∧ m'.Unites (s :: done)) ∨
    ((¬ ∀ t ∈ done, t.owner = s.owner → t.Agrees s) ∧
      ∃ e, m.add s = .error e ∧ e.IsConflict) := by
  cases hu : m.sets.find? s.owner with
  | none =>
    have hnone : ∀ t ∈ done, t.owner ≠ s.owner := by
      intro t ht howner
      obtain ⟨u, hu'⟩ := (h.tries s.owner).2 ⟨t, ht, howner⟩
      cases hu.symm.trans hu'
    have honly : ∀ P : NodeSet → Prop, P s ↔ ∃ t ∈ s :: done, t.owner = s.owner ∧ P t := by
      intro P
      rw [List.exists_mem_cons_iff]
      constructor
      · exact fun hs => Or.inl ⟨rfl, hs⟩
      · rintro (⟨-, hs⟩ | ⟨t, ht, howner, -⟩)
        · exact hs
        · exact absurd howner (hnone t ht)
    have hunites := h.insert rfl (fun path node => honly fun t => t.nodes.find? path = some node)
      fun key value => honly fun t => t.leaves.find? key = some value
    exact Or.inl ⟨fun t ht howner => absurd howner (hnone t ht), _, by rw [MergedNodeSet.add, hu],
      hunites⟩
  | some u =>
    have hadd : m.add s = (u.merge s).map fun merged => ⟨m.sets.insert s.owner merged⟩ := by
      rw [MergedNodeSet.add, hu]
    rw [← h.agrees_iff hu, hadd]
    rcases u.merge_cases s with ⟨hagree, hmerge⟩ | ⟨hnot, e, hmerge, he⟩
    · have hunites : Unites ⟨m.sets.insert s.owner
          ⟨u.owner, u.nodes.union s.nodes, u.leaves.union s.leaves⟩⟩ (s :: done) := by
        have howner : u.owner = s.owner := h.owner hu
        refine h.insert howner (fun path node => ?_) fun key value => ?_
        · -- where both hold a node, it is the same one
          have hsame : ∀ n n', u.nodes.find? path = some n → s.nodes.find? path = some n' → n = n' := by
            intro n n' hn hn'
            have hhash := hagree.nodes hn hn'
            obtain ⟨t, ht, -, hnode⟩ := (h.nodes hu path n).1 hn
            exact hclear t (List.mem_cons_of_mem s ht) s List.mem_cons_self path path n n' hnode hn'
              hhash
          rw [Table.find?_union_eq_some_iff hsame, List.exists_mem_cons_iff, h.nodes hu]
          exact or_congr_left (and_iff_right rfl).symm
        · rw [Table.find?_union_eq_some_iff fun _ _ => hagree.leaves, List.exists_mem_cons_iff,
            h.leaves hu]
          exact or_congr_left (and_iff_right rfl).symm
      exact Or.inl ⟨hagree, _, by rw [hmerge]; rfl, hunites⟩
    · exact Or.inr ⟨hnot, e, by rw [hmerge]; rfl, he⟩

/-- A run: sets that are merged with a union give the union with them, unless some disagree. -/
theorem Unites.addAll (h : m.Unites done) (hdone : Compatible done)
    (hclear : Unambiguous (sets ++ done)) :
    (Compatible (sets ++ done) → ∃ m', m.addAll sets = .ok m' ∧ m'.Unites (sets ++ done)) ∧
    (¬ Compatible (sets ++ done) → ∃ e, m.addAll sets = .error e ∧ e.IsConflict) := by
  induction sets generalizing m done with
  | nil => exact ⟨fun _ => ⟨m, rfl, h⟩, fun hnot => absurd hdone hnot⟩
  | cons s sets ih =>
    have hperm : (s :: sets ++ done).Perm (sets ++ s :: done) := List.perm_middle.symm
    have hmem : ∀ t, t ∈ s :: sets ++ done ↔ t ∈ sets ++ s :: done := fun t => hperm.mem_iff
    have hrun : ∀ r, m.add s = r → m.addAll (s :: sets) = r >>= fun m' => m'.addAll sets := by
      rintro r rfl
      rfl
    have hcompat : Compatible (s :: sets ++ done) ↔ Compatible (sets ++ s :: done) :=
      ⟨fun h => h.mono fun t => (hmem t).2, fun h => h.mono fun t => (hmem t).1⟩
    have hclear' : Unambiguous (sets ++ s :: done) := hclear.mono fun t => (hmem t).2
    rcases h.add (hclear'.mono (List.subset_append_right _ _)) with
      ⟨hagree, m₁, hadd, h₁⟩ | ⟨hnot, e, hadd, he⟩
    · have hdone' : Compatible (s :: done) := by
        intro t ht t' ht' howner
        rcases List.mem_cons.1 ht with heq | ht
        · rcases List.mem_cons.1 ht' with heq' | ht'
          · rw [heq, heq']
            exact .refl s
          · rw [heq] at howner ⊢
            exact (hagree t' ht' howner.symm).symm
        · rcases List.mem_cons.1 ht' with heq' | ht'
          · rw [heq'] at howner ⊢
            exact hagree t ht howner
          · exact hdone t ht t' ht' howner
      obtain ⟨hok, herror⟩ := ih h₁ hdone' hclear'
      rw [hrun _ hadd, hcompat]
      refine ⟨fun hc => ?_, herror⟩
      obtain ⟨m', hm', hunites⟩ := hok hc
      exact ⟨m', hm', hunites.congr fun t => (hmem t).symm⟩
    · rw [hrun _ hadd, hcompat]
      refine ⟨fun hc => absurd (fun t ht howner => ?_) hnot, fun _ => ⟨e, rfl, he⟩⟩
      exact hc t (by simp [ht]) s (by simp) howner

/-- Sets are merged into their union, unless some of one trie disagree. -/
theorem addAll_unites (hclear : Unambiguous sets) :
    (Compatible sets → ∃ m, empty.addAll sets = .ok m ∧ m.Unites sets) ∧
    (¬ Compatible sets → ∃ e, empty.addAll sets = .error e ∧ e.IsConflict) := by
  have hnil : Compatible [] := fun s hs => absurd hs List.not_mem_nil
  rw [← List.append_nil sets] at hclear
  simpa only [List.append_nil] using unites_empty.addAll hnil hclear

/-- Two sets that agree can be merged in either order. -/
theorem addAll_pair {t : NodeSet} (hclear : Unambiguous [s, t]) (h : s.Agrees t) :
    ∃ m : MergedNodeSet,
      empty.addAll [s, t] = .ok m ∧ empty.addAll [t, s] = .ok m ∧ m.Unites [s, t] := by
  have hcompat : Compatible [s, t] := by
    simp only [Compatible, List.forall_mem_cons, List.not_mem_nil, false_imp_iff, implies_true,
      and_true]
    exact ⟨⟨fun _ => .refl s, fun _ => h⟩, fun _ => h.symm, fun _ => .refl t⟩
  have hperm : [t, s].Perm [s, t] := List.Perm.swap s t []
  obtain ⟨m, hm, hunites⟩ := (addAll_unites hclear).1 hcompat
  obtain ⟨m', hm', hunites'⟩ :=
    (addAll_unites (hclear.mono hperm.subset)).1 (hcompat.mono hperm.subset)
  refine ⟨m, hm, ?_, hunites⟩
  rw [hm', (hunites'.congr fun _ => hperm.mem_iff).unique hunites]

/-- Two sets of one trie that disagree cannot be merged. -/
theorem addAll_pair_error {t : NodeSet} (howner : s.owner = t.owner) (h : ¬ s.Agrees t) :
    ∃ e, empty.addAll [s, t] = .error e ∧ e.IsConflict := by
  rcases s.merge_cases t with ⟨hagree, -⟩ | ⟨-, e, hmerge, he⟩
  · exact absurd hagree h
  · have hfirst : empty.addAll [s, t] = add ⟨Table.empty.insert s.owner s⟩ t := by
      show (add ⟨Table.empty.insert s.owner s⟩ t >>= pure) = _
      rw [bind_pure]
    have hfind : (Table.empty.insert s.owner s).find? t.owner = some s := by
      rw [Table.find?_insert, if_pos howner.symm]
    refine ⟨e, ?_, he⟩
    rw [hfirst, add, hfind]
    dsimp only
    rw [hmerge]
    rfl

/-- Some sets can be merged exactly if no two of one trie disagree, in whatever order. The result
is the union of the sets of each trie, and the refusal reports a conflict. -/
theorem addAll_perm [Hasher] (hsets : ∀ s ∈ sets, ∀ path node, s.nodes.find? path = some node →
      digest node.blob = node.hash)
    (hinj : Set.InjOn digest
      {b | ∃ s ∈ sets, ∃ path node, s.nodes.find? path = some node ∧ node.blob = b}) :
    (Compatible sets →
      ∃ m, m.Unites sets ∧ ∀ l : List NodeSet, l.Perm sets → empty.addAll l = .ok m) ∧
    (¬ Compatible sets → ∀ l : List NodeSet, l.Perm sets →
      ∃ e, empty.addAll l = .error e ∧ e.IsConflict) := by
  have hclear : Unambiguous sets := unambiguous_of_injOn hsets hinj
  constructor
  · intro hc
    obtain ⟨m, -, hm⟩ := (addAll_unites hclear).1 hc
    refine ⟨m, hm, fun l hl => ?_⟩
    obtain ⟨m', hm', hunites⟩ := (addAll_unites (hclear.mono hl.subset)).1 (hc.mono hl.subset)
    rw [hm', (hunites.congr fun t => hl.mem_iff).unique hm]
  · intro hnot l hl
    refine (addAll_unites (hclear.mono hl.subset)).2 fun hc => hnot ?_
    exact hc.mono hl.symm.subset

end MergedNodeSet

/-! ## An instance -/

namespace Gathered

open Trie

def blob (v : UInt8) : Bytes := leafEncoding (.ofWord .zero) [v]

/-- The set of a trie with one key. -/
def set (owner : TrieOwner) (v : UInt8) : NodeSet := .lone owner (digest (blob v)) .zero [v]

/-- The last set is of the same trie as the first, but with another value. -/
def clashing : List NodeSet := [set .account 7, set (.storage .zero) 7, set .account 8]

/-- Two sets are the same, and one is of another trie. -/
def fitting : List NodeSet := [set .account 7, set (.storage .zero) 7, set .account 7]

theorem owner_set (owner : TrieOwner) (v : UInt8) : (set owner v).owner = owner := rfl

theorem find?_set {owner : TrieOwner} {v : UInt8} {path : Path} {node : ProvedNode}
    (h : (set owner v).nodes.find? path = some node) : node = ⟨digest (blob v), blob v⟩ := by
  unfold set NodeSet.lone at h
  dsimp only at h
  rw [Table.find?_insert] at h
  split at h
  · exact (Option.some.inj h).symm
  · cases h

theorem find?_empty (owner : TrieOwner) (v : UInt8) :
    (set owner v).nodes.find? .empty = some ⟨digest (blob v), blob v⟩ := by
  unfold set NodeSet.lone
  rw [Table.find?_insert, if_pos rfl]
  rfl

theorem digest_blob_ne : digest (blob 7) ≠ digest (blob 8) :=
  mt digest_eq_digest_iff.1 (by decide +kernel)

theorem addressed : ∀ s ∈ clashing, ∀ path node, s.nodes.find? path = some node →
    digest node.blob = node.hash := by
  intro s hs path node hnode
  have hset : ∃ owner v, s = set owner v := by
    simp only [clashing, List.mem_cons, List.not_mem_nil, or_false] at hs
    rcases hs with rfl | rfl | rfl <;> exact ⟨_, _, rfl⟩
  obtain ⟨owner, v, rfl⟩ := hset
  rw [find?_set hnode]

theorem injOn : Set.InjOn digest
    {b | ∃ s ∈ clashing, ∃ path node, s.nodes.find? path = some node ∧ node.blob = b} := by
  have hblob : ∀ b, (∃ s ∈ clashing, ∃ path node,
      s.nodes.find? path = some node ∧ node.blob = b) → b = blob 7 ∨ b = blob 8 := by
    rintro b ⟨s, hs, path, node, hnode, rfl⟩
    simp only [clashing, List.mem_cons, List.not_mem_nil, or_false] at hs
    rcases hs with rfl | rfl | rfl
    · exact Or.inl (by rw [find?_set hnode])
    · exact Or.inl (by rw [find?_set hnode])
    · exact Or.inr (by rw [find?_set hnode])
  intro a ha b hb heq
  rcases hblob a ha with rfl | rfl <;> rcases hblob b hb with rfl | rfl
  · rfl
  · exact absurd heq digest_blob_ne
  · exact absurd heq.symm digest_blob_ne
  · rfl

theorem fitting_subset : fitting ⊆ clashing := by
  simp [fitting, clashing]

theorem compatible : MergedNodeSet.Compatible fitting := by
  intro s hs t ht howner
  simp only [fitting, List.mem_cons, List.not_mem_nil, or_false] at hs ht
  rcases hs with rfl | rfl | rfl <;> rcases ht with rfl | rfl | rfl <;>
    first | exact .refl _ | cases howner

theorem not_compatible : ¬ MergedNodeSet.Compatible clashing := by
  intro h
  have howner : (set .account 7).owner = (set .account 8).owner := by
    rw [owner_set, owner_set]
  have hagree := h (set .account 7) (by simp [clashing]) (set .account 8) (by simp [clashing]) howner
  exact digest_blob_ne (hagree.nodes (find?_empty _ _) (find?_empty _ _))

end Gathered

open Gathered in
/-- The hypotheses hold of sets that can be merged and of sets that cannot. -/
theorem MergedNodeSet.addAll_perm_gathered :
    (∀ s ∈ clashing, ∀ path node, s.nodes.find? path = some node →
      digest node.blob = node.hash) ∧
    Set.InjOn digest
      {b | ∃ s ∈ clashing, ∃ path node, s.nodes.find? path = some node ∧ node.blob = b} ∧
    (∀ l : List NodeSet, l.Perm clashing → ∃ e, empty.addAll l = .error e ∧ e.IsConflict) ∧
    (∀ s ∈ fitting, ∀ path node, s.nodes.find? path = some node → digest node.blob = node.hash) ∧
    Set.InjOn digest
      {b | ∃ s ∈ fitting, ∃ path node, s.nodes.find? path = some node ∧ node.blob = b} ∧
    ∃ m : MergedNodeSet, m.Unites fitting ∧
      ∀ l : List NodeSet, l.Perm fitting → empty.addAll l = .ok m := by
  have haddressed : ∀ s ∈ fitting, ∀ path node, s.nodes.find? path = some node →
      digest node.blob = node.hash := fun s hs => addressed s (fitting_subset hs)
  have hinj : Set.InjOn digest
      {b | ∃ s ∈ fitting, ∃ path node, s.nodes.find? path = some node ∧ node.blob = b} := by
    refine injOn.mono ?_
    rintro b ⟨s, hs, hb⟩
    exact ⟨s, fitting_subset hs, hb⟩
  exact ⟨addressed, injOn, (addAll_perm addressed injOn).2 not_compatible, haddressed, hinj,
    (addAll_perm haddressed hinj).1 compatible⟩

end Stateless
