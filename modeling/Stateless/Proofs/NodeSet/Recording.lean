import Stateless.Proofs.NodeSet.Merging

/-!
# What node sets record

A node set records the verifications that it was filled with: it keeps a node under the hash of
every visited one, at its place, and the value that was found. Two walks from one place of a set
start at the same hash, so walks through sources that agree find the same. Whatever a set answers for
a key is therefore what some verification that it records has found (`Justified`). Merging keeps all
this (`addAll_records`).
-/

namespace Stateless

/-! ## Walks that end -/

/-- Where the way through a node leads, what was passed and what remains make up some nibbles. -/
def Descent.Spells (l : List Nibble) : Descent → Prop
  | .lookUp _ matched remaining => matched.toList ++ remaining.toList = l
  | .found key _ _ _ => key.toList = l
  | .absent _ _ | .tooLong _ _ => True

theorem Trie.descend_spells {t : Trie} {matched remaining : Path} {d : Descent}
    (h : t.descend matched remaining = .ok d) :
    d.Spells (matched.toList ++ remaining.toList) := by
  induction t generalizing matched remaining with
  | empty =>
    cases h
    trivial
  | hidden w =>
    cases h
    rfl
  | leaf f v m =>
    rw [descend] at h
    split at h
    · cases h
      trivial
    · split at h
      · next hf =>
        obtain ⟨key, hkey, h⟩ := exists_of_bind_eq_ok h
        cases h
        rw [← hf]
        exact Path.toList_append hkey
      · cases h
        trivial
  | extension f c m ih =>
    rw [descend] at h
    split at h
    · cases h
      trivial
    · split at h
      · next hst =>
        obtain ⟨passed, hpassed, h⟩ := exists_of_bind_eq_ok h
        have hspells := ih h
        rwa [Path.toList_append hpassed, List.append_assoc,
          Path.append_drop_of_startsWith hst] at hspells
      · cases h
        trivial
  | branch cs v m ih =>
    rw [descend] at h
    split at h
    · next hu =>
      split at h
      · cases h
        trivial
      · cases h
        rw [Path.uncons_eq_none_iff.1 hu, List.append_nil]
        rfl
    · next i rest hu =>
      split at h
      · cases h
        trivial
      · obtain ⟨passed, hpassed, h⟩ := exists_of_bind_eq_ok h
        have hspells := ih i h
        rwa [Path.toList_push hpassed, List.append_assoc, List.singleton_append,
          ← Path.uncons_eq_some_iff.1 hu] at hspells

section

variable {source source' : NodeSource} {fuel : Nat} {h : Word} {matched remaining key : Path}
variable {p p' : VerifiedPath}

theorem walk_first (hw : (walk source fuel h matched remaining).outcome = .ok p) :
    ∃ blob, ⟨matched, h, blob⟩ ∈ (walk source fuel h matched remaining).visited := by
  cases fuel with
  | zero => cases hw
  | succ fuel =>
    rw [walk] at hw ⊢
    cases hsrc : source h with
    | none =>
      simp only [hsrc] at hw
      cases hw
    | some blob =>
      refine ⟨blob, ?_⟩
      dsimp only
      split
      · exact List.mem_cons_self
      · split <;> exact List.mem_cons_self

/-- A walk that ends reports the value that it answers, under the key that it was made for. -/
theorem walk_leaf (hkey : matched.toList ++ remaining.toList = key.toList)
    (hw : (walk source fuel h matched remaining).outcome = .ok p) :
    (walk source fuel h matched remaining).leaf = p.value.map fun v => (key, v) := by
  induction fuel generalizing h matched remaining with
  | zero => cases hw
  | succ fuel ih =>
    rw [walk] at hw ⊢
    cases hsrc : source h with
    | none =>
      simp only [hsrc] at hw
      cases hw
    | some blob =>
      simp only [hsrc] at hw ⊢
      split at hw
      · cases hw
      · next node hnode =>
        split at hw
        · cases hw
        · cases hw
        · cases hw
          rfl
        · next found v m last hdesc =>
          cases hw
          have hspells : found.toList = matched.toList ++ remaining.toList :=
            Trie.descend_spells hdesc
          rw [Path.ext (hspells.trans hkey)]
          rfl
        · next next m rest hdesc =>
          have hspells : m.toList ++ rest.toList = matched.toList ++ remaining.toList :=
            Trie.descend_spells hdesc
          exact ih (hspells.trans hkey) hw

/-- Walks that end are the same if the sources agree where both have a node. -/
theorem walk_eq_of_agree
    (hagree : ∀ w b b', source w = some b → source' w = some b' → b = b')
    (hw : (walk source fuel h matched remaining).outcome = .ok p)
    (hw' : (walk source' fuel h matched remaining).outcome = .ok p') :
    walk source fuel h matched remaining = walk source' fuel h matched remaining := by
  induction fuel generalizing h matched remaining with
  | zero => cases hw
  | succ fuel ih =>
    obtain ⟨b, hb⟩ := walk_first hw
    obtain ⟨b', hb'⟩ := walk_first hw'
    have hsrc : source h = some b := walk_visited hb
    have hsrc' : source' h = some b' := walk_visited hb'
    obtain rfl := hagree h b b' hsrc hsrc'
    rw [walk] at hw hw' ⊢
    rw [walk]
    simp only [hsrc, hsrc'] at hw hw' ⊢
    split
    · rfl
    · next node hnode =>
      simp only [hnode] at hw hw'
      split
      · rfl
      · rfl
      · rfl
      · rfl
      · next next m rest hdesc =>
        simp only [hdesc] at hw hw'
        rw [ih hw hw']

end

section

variable [Hasher] {root : Word} {key : Path} {source source' : NodeSource} {p p' : VerifiedPath}

theorem verify_first (hroot : isEmptyRoot root = false)
    (h : (verify root key source).outcome = .ok p) :
    ∃ blob, ⟨.empty, root, blob⟩ ∈ (verify root key source).visited := by
  rw [verify, hroot] at h ⊢
  exact walk_first h

theorem verify_leaf (h : (verify root key source).outcome = .ok p) :
    (verify root key source).leaf = p.value.map fun v => (key, v) := by
  rw [verify] at h ⊢
  split at h
  · next hroot =>
    cases h
    rw [if_pos hroot]
    rfl
  · next hroot =>
    rw [if_neg hroot]
    exact walk_leaf (List.nil_append _) h

theorem verify_key {found : Path} {value : Bytes} (h : (verify root key source).outcome = .ok p)
    (hleaf : (verify root key source).leaf = some (found, value)) : found = key := by
  rw [verify_leaf h, Option.map_eq_some_iff] at hleaf
  obtain ⟨v, -, heq⟩ := hleaf
  exact (Prod.mk.inj heq).1.symm

/-- Proofs that hold show the same if the sources agree where both have a node. -/
theorem verify_eq_of_agree
    (hagree : ∀ w b b', source w = some b → source' w = some b' → b = b')
    (h : (verify root key source).outcome = .ok p)
    (h' : (verify root key source').outcome = .ok p') :
    verify root key source = verify root key source' := by
  rw [verify] at h h' ⊢
  rw [verify]
  split
  · rfl
  · next hroot =>
    rw [if_neg hroot] at h h'
    exact walk_eq_of_agree hagree h h'

end

namespace NodeSet

/-! ## Growing sets -/

/-- A set holds a node with the same hash wherever another one holds a node, and all its values. -/
structure Extends (s s' : NodeSet) : Prop where
  nodes {path : Path} {node : ProvedNode} : s.nodes.find? path = some node →
    ∃ node', s'.nodes.find? path = some node' ∧ node'.hash = node.hash
  leaves {key : Path} {value : Bytes} :
    s.leaves.find? key = some value → s'.leaves.find? key = some value

/-- A set holds a node under the hash of every one that was visited, and the value that was found. -/
structure Records (s : NodeSet) (v : Verification) : Prop where
  nodes {visit : Visit} : visit ∈ v.visited →
    ∃ node, s.nodes.find? visit.path = some node ∧ node.hash = visit.digest
  leaf {key : Path} {value : Bytes} :
    v.leaf = some (key, value) → s.leaves.find? key = some value

/-- Every value of a set was found by a verification of some kind that the set records. -/
def Justified (Q : Verification → Prop) (s : NodeSet) : Prop :=
  ∀ key value, s.leaves.find? key = some value →
    ∃ v, Q v ∧ s.Records v ∧ v.leaf = some (key, value)

variable {s s' s'' t : NodeSet} {path key : Path} {node : ProvedNode} {value : Bytes}
variable {v : Verification} {Q : Verification → Prop}

theorem Extends.refl (s : NodeSet) : s.Extends s := ⟨fun h => ⟨_, h, rfl⟩, id⟩

theorem Extends.trans (h : s.Extends s') (h' : s'.Extends s'') : s.Extends s'' where
  nodes hnode := by
    obtain ⟨n, hn, heq⟩ := h.nodes hnode
    obtain ⟨n', hn', heq'⟩ := h'.nodes hn
    exact ⟨n', hn', heq'.trans heq⟩
  leaves hleaf := h'.leaves (h.leaves hleaf)

theorem Records.mono (h : s.Records v) (hs : s.Extends s') : s'.Records v where
  nodes hvisit := by
    obtain ⟨n, hn, heq⟩ := h.nodes hvisit
    obtain ⟨n', hn', heq'⟩ := hs.nodes hn
    exact ⟨n', hn', heq'.trans heq⟩
  leaf hleaf := hs.leaves (h.leaf hleaf)

theorem justified_empty (owner : TrieOwner) : (empty owner).Justified Q := fun _ _ h => nomatch h

/-- A set in which every value is one of a set with justified values, or was just found, has
justified values. -/
theorem Justified.extend (hs : s.Justified Q) (hext : s.Extends s')
    (hnew : ∀ key value, s'.leaves.find? key = some value →
      s.leaves.find? key = some value ∨ ∃ v, Q v ∧ s'.Records v ∧ v.leaf = some (key, value)) :
    s'.Justified Q := by
  intro key value hfind
  rcases hnew key value hfind with hold | hnew
  · obtain ⟨v, hv, hrec, hleaf⟩ := hs key value hold
    exact ⟨v, hv, hrec.mono hext, hleaf⟩
  · exact hnew

/-- What a set with justified values answers for a key is what a verification has found there that it
records, if no verification that it records has found anything else. -/
theorem find?_of_records {answer : Option Bytes} (hrec : s.Records v)
    (hleaf : v.leaf = answer.map fun b => (key, b)) (hs : s.Justified Q)
    (hsame : ∀ v' b, Q v' → s.Records v' → v'.leaf = some (key, b) → v'.leaf = v.leaf) :
    s.leaves.find? key = answer := by
  cases answer with
  | some b => exact hrec.leaf hleaf
  | none =>
    refine Option.eq_none_iff_forall_ne_some.2 fun b hb => ?_
    obtain ⟨v', hQ, hrec', hleaf'⟩ := hs key b hb
    have hnone : v'.leaf = none := (hsame v' b hQ hrec' hleaf').trans hleaf
    cases hleaf'.symm.trans hnone

/-! ## Adding -/

theorem addNode_extends (h : s.addNode path node = .ok s') :
    s.Extends s' ∧ s'.leaves = s.leaves ∧
      ∃ node', s'.nodes.find? path = some node' ∧ node'.hash = node.hash := by
  rw [addNode] at h
  split at h
  · next hnone =>
    obtain rfl := Except.ok.inj h
    refine ⟨⟨fun {q n} hq => ⟨n, ?_, rfl⟩, id⟩, rfl, node, ?_, rfl⟩
    · rw [Table.find?_insert, if_neg (fun heq => by simp [heq, hnone] at hq), hq]
    · rw [Table.find?_insert, if_pos rfl]
  · next existing hfind =>
    split at h
    · next heq =>
      obtain rfl := Except.ok.inj h
      exact ⟨.refl s, rfl, existing, hfind, heq⟩
    · cases h

theorem addLeaf_extends (h : s.addLeaf key value = .ok s') :
    s.Extends s' ∧ s'.leaves.find? key = some value ∧ ∀ k w, s'.leaves.find? k = some w →
      s.leaves.find? k = some w ∨ (key, value) = (k, w) := by
  rw [addLeaf] at h
  split at h
  · next hnone =>
    obtain rfl := Except.ok.inj h
    refine ⟨⟨fun hn => ⟨_, hn, rfl⟩, fun {k w} hk => ?_⟩, ?_, fun k w hk => ?_⟩
    · rw [Table.find?_insert, if_neg (fun heq => by simp [heq, hnone] at hk), hk]
    · rw [Table.find?_insert, if_pos rfl]
    · rw [Table.find?_insert] at hk
      split at hk
      · next heq => exact Or.inr (Prod.ext heq.symm (Option.some.inj hk))
      · exact Or.inl hk
  · next existing hfind =>
    split at h
    · next heq =>
      obtain rfl := Except.ok.inj h
      exact ⟨.refl s, heq ▸ hfind, fun k w hk => Or.inl hk⟩
    · cases h

theorem addVisits_extends {visits : List Visit}
    (h : visits.foldlM (fun s v => s.addNode v.path ⟨v.digest, v.blob⟩) s = .ok s') :
    s.Extends s' ∧ s'.leaves = s.leaves ∧ ∀ visit ∈ visits,
      ∃ node, s'.nodes.find? visit.path = some node ∧ node.hash = visit.digest := by
  induction visits generalizing s with
  | nil =>
    obtain rfl := Except.ok.inj h
    exact ⟨.refl s, rfl, fun visit hvisit => absurd hvisit List.not_mem_nil⟩
  | cons visit visits ih =>
    rw [List.foldlM_cons] at h
    obtain ⟨s₁, hadd, hrest⟩ := exists_of_bind_eq_ok h
    obtain ⟨hext₁, hleaves₁, node, hnode, heq⟩ := addNode_extends hadd
    obtain ⟨hext₂, hleaves₂, hall⟩ := ih hrest
    refine ⟨hext₁.trans hext₂, hleaves₂.trans hleaves₁, fun w hw => ?_⟩
    rcases List.mem_cons.1 hw with rfl | hw
    · obtain ⟨n, hn, heq'⟩ := hext₂.nodes hnode
      exact ⟨n, hn, heq'.trans heq⟩
    · exact hall w hw

theorem addVerification_records (h : s.addVerification v = .ok s') :
    s.Extends s' ∧ s'.Records v ∧ ∀ k w, s'.leaves.find? k = some w →
      s.leaves.find? k = some w ∨ v.leaf = some (k, w) := by
  obtain ⟨s₁, hvisits, h⟩ := exists_of_bind_eq_ok h
  obtain ⟨hext₁, hleaves, hall⟩ := addVisits_extends hvisits
  split at h
  · next hleaf =>
    obtain rfl := Except.ok.inj h
    refine ⟨hext₁, ⟨hall _, fun hsome => ?_⟩, fun k w hk => Or.inl (hleaves ▸ hk)⟩
    cases hleaf.symm.trans hsome
  · next key value hleaf =>
    obtain ⟨hext₂, hfind, hnew⟩ := addLeaf_extends h
    refine ⟨hext₁.trans hext₂, ⟨fun hvisit => ?_, fun hsome => ?_⟩, fun k w hk => ?_⟩
    · obtain ⟨n, hn, heq⟩ := hall _ hvisit
      obtain ⟨n', hn', heq'⟩ := hext₂.nodes hn
      exact ⟨n', hn', heq'.trans heq⟩
    · obtain ⟨rfl, rfl⟩ := Prod.mk.inj (Option.some.inj (hleaf.symm.trans hsome))
      exact hfind
    · rw [hleaf, ← hleaves]
      exact (hnew k w hk).imp_right (congrArg some)

theorem merge_extends (h : s.merge t = .ok s') :
    s.Extends s' ∧ t.Extends s' ∧ ∀ k w, s'.leaves.find? k = some w →
      s.leaves.find? k = some w ∨ t.leaves.find? k = some w := by
  rcases s.merge_cases t with ⟨hagree, hmerge⟩ | ⟨-, e, hmerge, -⟩
  · obtain rfl := Except.ok.inj (h.symm.trans hmerge)
    refine ⟨⟨fun {path node} hn => ?_, fun {key value} hk => ?_⟩,
      ⟨fun {path node} hn => ⟨node, ?_, rfl⟩, fun {key value} hk => ?_⟩, fun k w hk => ?_⟩
    · cases ht : t.nodes.find? path with
      | none => exact ⟨node, by rw [Table.find?_union, ht, hn]; rfl, rfl⟩
      | some node' =>
        exact ⟨node', by rw [Table.find?_union, ht]; rfl, (hagree.nodes hn ht).symm⟩
    · rw [Table.find?_union_eq_some_iff fun _ _ => hagree.leaves]
      exact Or.inr hk
    · rw [Table.find?_union, hn, Option.some_or]
    · rw [Table.find?_union, hk, Option.some_or]
    · rw [Table.find?_union_eq_some_iff fun _ _ => hagree.leaves] at hk
      exact hk.symm
  · cases h.symm.trans hmerge

theorem merge_justified (hs : s.Justified Q) (ht : t.Justified Q) (h : s.merge t = .ok s') :
    s'.Justified Q := by
  obtain ⟨hext, hext', hleaves⟩ := merge_extends h
  refine hs.extend hext fun key value hfind => (hleaves key value hfind).imp_right fun hnew => ?_
  obtain ⟨v, hv, hrec, hleaf⟩ := ht key value hnew
  exact ⟨v, hv, hrec.mono hext', hleaf⟩

variable [Hasher] {root : Word} {source : NodeSource} {keys : List Word}

/-- What is left of a set after the proofs of some keys were added to it: it is extended, all the
proofs hold and are recorded, and no other values got in. -/
structure Absorbs (s s' : NodeSet) (root : Word) (source : NodeSource) (keys : List Word) :
    Prop where
  grows : s.Extends s'
  ends {key : Word} : key ∈ keys → ∃ p, (verify root (.ofWord key) source).outcome = .ok p
  records {key : Word} : key ∈ keys → s'.Records (verify root (.ofWord key) source)
  justified {Q : Verification → Prop} : s.Justified Q →
    (∀ key ∈ keys, Q (verify root (.ofWord key) source)) → s'.Justified Q

theorem collect_absorbs (h : collect root source keys s = .ok s') :
    s.Absorbs s' root source keys := by
  induction keys generalizing s with
  | nil =>
    obtain rfl := Except.ok.inj h
    exact ⟨.refl s, fun hkey => absurd hkey List.not_mem_nil,
      fun hkey => absurd hkey List.not_mem_nil, fun hs _ => hs⟩
  | cons key keys ih =>
    rw [collect] at h
    obtain ⟨p, hp, h⟩ := exists_of_bind_eq_ok h
    obtain ⟨s₁, hadd, hrest⟩ := exists_of_bind_eq_ok h
    rw [Attempt.mapError_eq_ok_iff] at hp
    rw [Attempt.ofExcept_eq_ok_iff] at hadd
    obtain ⟨hext, hrec, hnew⟩ := addVerification_records hadd
    have hih := ih hrest
    refine ⟨hext.trans hih.grows, fun hkey => ?_, fun hkey => ?_, fun hs hQ => ?_⟩
    · rcases List.mem_cons.1 hkey with rfl | hkey
      · exact ⟨p, hp⟩
      · exact hih.ends hkey
    · rcases List.mem_cons.1 hkey with rfl | hkey
      · exact hrec.mono hih.grows
      · exact hih.records hkey
    · have hs₁ : s₁.Justified _ := hs.extend hext fun k w hk =>
        (hnew k w hk).imp_right fun hleaf => ⟨_, hQ key List.mem_cons_self, hrec, hleaf⟩
      exact hih.justified hs₁ fun k hk => hQ k (List.mem_cons_of_mem _ hk)

theorem addKeys_absorbs (h : s.addKeys root source keys = .ok s') :
    s.Absorbs s' root source keys ∧ s'.owner = s.owner := by
  obtain ⟨staged, hcollect, h⟩ := exists_of_bind_eq_ok h
  rw [Attempt.ofExcept_eq_ok_iff] at h
  have hstaged := collect_absorbs hcollect
  obtain ⟨hext, hext', -⟩ := merge_extends h
  refine ⟨⟨hext, hstaged.ends, fun hkey => (hstaged.records hkey).mono hext', fun hs hQ => ?_⟩, ?_⟩
  · exact merge_justified hs (hstaged.justified (justified_empty _) hQ) h
  · obtain ⟨rfl, -, -⟩ := merge_eq_ok h
    rfl

end NodeSet

namespace MergedNodeSet

/-! ## Merged sets -/

variable {m m' : MergedNodeSet} {s t : NodeSet} {sets : List NodeSet}
variable {Q : TrieOwner → Verification → Prop}

/-- The set of every trie has justified values. -/
def Justified (Q : TrieOwner → Verification → Prop) (m : MergedNodeSet) : Prop :=
  ∀ owner s, m.sets.find? owner = some s → s.Justified (Q owner)

theorem add_records (h : m.add s = .ok m') :
    (∃ s', m'.sets.find? s.owner = some s' ∧ s.Extends s') ∧
      ∀ owner t, m.sets.find? owner = some t →
        ∃ t', m'.sets.find? owner = some t' ∧ t.Extends t' := by
  rw [add] at h
  split at h
  · next hnone =>
    obtain rfl := Except.ok.inj h
    refine ⟨⟨s, by rw [Table.find?_insert, if_pos rfl], .refl s⟩, fun owner t ht => ?_⟩
    refine ⟨t, ?_, .refl t⟩
    rw [Table.find?_insert, if_neg (fun heq => by simp [heq, hnone] at ht), ht]
  · next existing hfind =>
    cases hmerge : existing.merge s with
    | error e =>
      rw [hmerge] at h
      cases h
    | ok merged =>
      rw [hmerge] at h
      obtain rfl := Except.ok.inj h
      obtain ⟨hold, hnew, -⟩ := NodeSet.merge_extends hmerge
      refine ⟨⟨merged, by rw [Table.find?_insert, if_pos rfl], hnew⟩, fun owner t ht => ?_⟩
      by_cases howner : owner = s.owner
      · obtain rfl := Option.some.inj (hfind.symm.trans (howner ▸ ht))
        exact ⟨merged, by rw [Table.find?_insert, if_pos howner], hold⟩
      · exact ⟨t, by rw [Table.find?_insert, if_neg howner, ht], .refl t⟩

theorem add_justified (hm : m.Justified Q) (hs : s.Justified (Q s.owner)) (h : m.add s = .ok m') :
    m'.Justified Q := by
  have hinsert : ∀ {t : NodeSet}, t.Justified (Q s.owner) →
      Justified Q ⟨m.sets.insert s.owner t⟩ := by
    intro t ht owner u hu
    rw [Table.find?_insert] at hu
    split at hu
    · next howner => exact howner ▸ Option.some.inj hu ▸ ht
    · exact hm owner u hu
  rw [add] at h
  split at h
  · exact Except.ok.inj h ▸ hinsert hs
  · next existing hfind =>
    cases hmerge : existing.merge s with
    | error e =>
      rw [hmerge] at h
      cases h
    | ok merged =>
      rw [hmerge] at h
      have hmerged := NodeSet.merge_justified (hm s.owner existing hfind) hs hmerge
      exact Except.ok.inj h ▸ hinsert hmerged

/-- However sets are merged, each is extended by the one of its trie, and no other values get in. -/
theorem addAll_records (h : m.addAll sets = .ok m') :
    (∀ s ∈ sets, ∃ s', m'.sets.find? s.owner = some s' ∧ s.Extends s') ∧
    (∀ owner t, m.sets.find? owner = some t →
      ∃ t', m'.sets.find? owner = some t' ∧ t.Extends t') ∧
    (m.Justified Q → (∀ s ∈ sets, s.Justified (Q s.owner)) → m'.Justified Q) := by
  induction sets generalizing m with
  | nil =>
    obtain rfl := Except.ok.inj h
    exact ⟨fun s hs => absurd hs List.not_mem_nil, fun owner t ht => ⟨t, ht, .refl t⟩,
      fun hm _ => hm⟩
  | cons s sets ih =>
    rw [addAll, List.foldlM_cons] at h
    obtain ⟨m₁, hadd, hrest⟩ := exists_of_bind_eq_ok h
    obtain ⟨⟨s₁, hs₁, hext₁⟩, hold⟩ := add_records hadd
    obtain ⟨hsets, hkeep, hjust⟩ := ih hrest
    refine ⟨fun u hu => ?_, fun owner t ht => ?_, fun hm hall => ?_⟩
    · rcases List.mem_cons.1 hu with rfl | hu
      · obtain ⟨s₂, hs₂, hext₂⟩ := hkeep _ s₁ hs₁
        exact ⟨s₂, hs₂, hext₁.trans hext₂⟩
      · exact hsets u hu
    · obtain ⟨t₁, ht₁, hext⟩ := hold owner t ht
      obtain ⟨t₂, ht₂, hext'⟩ := hkeep owner t₁ ht₁
      exact ⟨t₂, ht₂, hext.trans hext'⟩
    · exact hjust (add_justified hm (hall s List.mem_cons_self) hadd)
        fun u hu => hall u (List.mem_cons_of_mem _ hu)

end MergedNodeSet

end Stateless
