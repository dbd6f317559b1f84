import Stateless.Proofs.NodeSet.Provenance
import Stateless.Proofs.Trie.Confined
import Stateless.Proofs.Trie.Fragment
import Stateless.Proofs.Trie.InStep
import Stateless.Proofs.Trie.Recovery

/-!
# Which rebuilt tries are safe to edit

A trie is rebuilt from whatever can be decoded, so fragments below each other may lead further than
the longest key. If no node that is reached from the root does so (`InReach`), then the rebuilt trie
is confined to the longest key, and nothing that is done with it, or with a trie that edits make of
it, stops with a fault (`rebuilt_faultless`). A source that tells the truth about a trie is such a
source, whatever else it has (`inReach_of_run`). Without the bound a removal may join fragments to
more nibbles than a path can have (`rebuilt_overlong`).
-/

namespace Stateless

open Attempt

namespace Trie

/-- The nodes to which a root leads in a source, each with the number of nibbles on the way to it. -/
inductive Reached (source : NodeSource) (root : Word) : Nat → Trie → Prop
  /-- The root is known by its hash. -/
  | start : Reached source root 0 (.hidden root)
  /-- A hash leads to the node that the source has for it. -/
  | lookUp {n : Nat} {w : Word} {blob : Bytes} {t : Trie} :
    Reached source root n (.hidden w) → source w = some blob → decode blob = .ok t →
      Reached source root n t
  /-- An extension leads to its child. -/
  | extension {n : Nat} {f : Path} {c : Trie} {memo : Option Word} :
    Reached source root n (.extension f c memo) → Reached source root (n + f.length) c
  /-- A branch leads to the children that it has. -/
  | branch {n : Nat} {cs : Nibble → Trie} {v : Bytes} {memo : Option Word} {i : Nibble} :
    Reached source root n (.branch cs v memo) → cs i ≠ .empty → Reached source root (n + 1) (cs i)

/-- No node to which the root leads reaches beyond the longest key. -/
def InReach (source : NodeSource) (root : Word) : Prop :=
  ∀ n s, Reached source root n s → n + s.fragment.length ≤ maxNibbles

section

variable {source : NodeSource} {root w : Word} {s t c : Trie} {e : Bytes} {n : Nat}

/-! ## What is rebuilt -/

/-- What is put in place of the hidden parts of a node stays where it is reached. -/
theorem substitute_confined {reveal : Word → Except RebuildError Trie}
    (hreach : InReach source root) (hreveal : ∀ n w u, Reached source root n (.hidden w) →
      reveal w = .ok u → Confined (maxNibbles - n) u)
    (hs : Reached source root n s) (h : substitute reveal s = .ok t) :
    Confined (maxNibbles - n) t := by
  have hroom := hreach n s hs
  induction s generalizing n t with
  | empty =>
    obtain rfl := Except.ok.inj h
    trivial
  | hidden w => exact hreveal n w t hs h
  | leaf f v memo =>
    obtain rfl := Except.ok.inj h
    exact Nat.le_sub_of_add_le' hroom
  | extension f c memo ih =>
    obtain ⟨c', hc', h⟩ := exists_of_bind_eq_ok h
    obtain rfl := Except.ok.inj h
    have hbelow := ih hs.extension hc' (hreach _ c hs.extension)
    rw [Nat.sub_add_eq] at hbelow
    exact ⟨Nat.le_sub_of_add_le' hroom, hbelow⟩
  | branch cs v memo ih =>
    obtain ⟨row, hrow, h⟩ := exists_of_bind_eq_ok h
    obtain rfl := Except.ok.inj h
    intro i hi
    have hchild := Children.gather_eq_ok.1 hrow i
    have hne : cs i ≠ .empty := by
      intro he
      rw [he] at hchild
      exact hi (Except.ok.inj hchild).symm
    have hroom' := hreach _ (cs i) (hs.branch hne)
    have hbelow := ih i (hs.branch hne) hchild hroom'
    rw [Nat.sub_add_eq] at hbelow
    exact ⟨by omega, hbelow⟩

theorem reveal_confined (hreach : InReach source root) (fuel : Nat)
    (hw : Reached source root n (.hidden w)) (h : reveal source fuel w = .ok t) :
    Confined (maxNibbles - n) t := by
  induction fuel generalizing n w t with
  | zero => cases h
  | succ fuel ih =>
    rw [reveal] at h
    cases hsrc : source w with
    | none =>
      simp only [hsrc] at h
      obtain rfl := Except.ok.inj h
      trivial
    | some blob =>
      simp only [hsrc] at h
      obtain ⟨s, hs, h⟩ := exists_of_bind_eq_ok h
      exact substitute_confined hreach (fun _ _ _ hw hu => ih hw hu)
        (hw.lookUp hsrc (mapError_eq_ok_iff.1 hs)) h

/-- If all that is reached is in reach, then so is all that is rebuilt. -/
theorem rebuild_confined [Hasher] (hreach : InReach source root)
    (h : rebuild root source = .ok t) : Confined maxNibbles t := by
  rw [rebuild] at h
  split at h
  · obtain rfl := Except.ok.inj h
    trivial
  · cases hsrc : source root with
    | none =>
      simp only [hsrc] at h
      cases h
    | some blob =>
      simp only [hsrc] at h
      obtain ⟨s, hs, h⟩ := exists_of_bind_eq_ok h
      exact substitute_confined hreach (fun _ _ _ => reveal_confined hreach depthBound)
        (Reached.start.lookUp hsrc (mapError_eq_ok_iff.1 hs)) h

/-! ## Sources in reach -/

variable [Hasher]

/-- A parent shows a child that is not hidden as its outline or its hash. -/
theorem curtain_cases (hfull : Full c) (hs : Sound c) :
    c.curtain = c.outline ∨ ∃ b, c.content = .ok b ∧ c.curtain = .hidden (digest b) := by
  obtain ⟨b, hb⟩ := hfull.content
  by_cases hlen : hashLength ≤ b.length
  · exact Or.inr ⟨b, hb, curtain_of_long hb hlen⟩
  · rw [outline_of_short hs hb (Nat.not_le.1 hlen)]
    exact Or.inl (by simp [curtain, hb, hlen])

/-- What is reached from the root of a trie is the outline or the hash of a node of the trie, at its
place. -/
theorem Reached.node (ht : Canonical maxNibbles t) (hfull : Full t) (hs : Sound t) (hne : t ≠ .empty)
    (he : t.content = .ok e) (htrue : Truthful source t) (h : Reached source (digest e) n s) :
    ∃ l c, l.length = n ∧ t.nodeAt l = some c ∧ c ≠ .empty ∧
      (s = c.outline ∨ ∃ b, c.content = .ok b ∧ s = .hidden (digest b)) := by
  induction h with
  | start => exact ⟨[], t, rfl, nodeAt_nil t, hne, Or.inr ⟨e, he, rfl⟩⟩
  | @lookUp n w blob s _ hsrc hdec ih =>
    obtain ⟨l, c, hl, hc, hcne, houtline | ⟨b, hb, hw⟩⟩ := ih
    · cases c with
      | hidden w' => exact absurd (hfull.nodeAt hc) id
      | _ => cases houtline
    · obtain rfl : w = digest b := by injection hw
      obtain rfl := htrue b blob ⟨l, c, hc, hb⟩ hsrc
      exact ⟨l, c, hl, hc, hcne,
        Or.inl (outline_of_decode (ht.nodeAt hc).2 (hs.nodeAt hc) hcne hb hdec)⟩
  | @extension n f b memo _ ih =>
    obtain ⟨l, c, hl, hc, -, houtline | ⟨b', -, hw⟩⟩ := ih
    · cases c with
      | extension g c' m =>
        obtain ⟨rfl, rfl, -⟩ : f = g ∧ b = c'.curtain ∧ memo = none := by
          injection houtline with h1 h2 h3
          exact ⟨h1, h2, h3⟩
        obtain ⟨hf, -, hstem, -⟩ := (ht.nodeAt hc).2
        have hnode : t.nodeAt (l ++ f.toList) = some c' := by
          rw [nodeAt_append hc, nodeAt_extension m hf]
        exact ⟨_, c', by rw [List.length_append, hl, Path.length_toList], hnode, hstem.ne_empty,
          curtain_cases (hfull.nodeAt hnode) (hs.nodeAt hnode)⟩
      | _ => cases houtline
    · cases hw
  | @branch n cs v memo i _ hi ih =>
    obtain ⟨l, c, hl, hc, -, houtline | ⟨b', -, hw⟩⟩ := ih
    · cases c with
      | branch ds v' m =>
        obtain rfl : cs = fun i => (ds i).curtain := by injection houtline
        have hnode : t.nodeAt (l ++ [i]) = some (ds i) := by
          rw [nodeAt_append hc, nodeAt_branch_cons, nodeAt_nil]
        exact ⟨_, ds i, by rw [List.length_append, hl, List.length_singleton], hnode,
          mt curtain_eq_empty_iff.2 hi, curtain_cases (hfull.nodeAt hnode) (hs.nodeAt hnode)⟩
      | _ => cases houtline
    · cases hw

/-- A source that gives nothing under a wrong hash tells the truth about a trie that was made by
putting values and removing keys, so what is reached from the root of the trie is in reach. -/
theorem inReach_of_run {edits : List Edit} {answers : List (Option Bytes)}
    (hknown : ∀ e ∈ edits, e.Puts Entry.Known) (hrun : Edit.run edits .empty = .ok (answers, t))
    (haddr : source.Addressed) (hfree : CollisionFree (t.Involved source)) (hne : t ≠ .empty) :
    InReach source t.hash.1 := by
  have hholds := Edit.holds_of_run hknown holds_empty hrun
  obtain ⟨e, he⟩ := hholds.full.content
  intro n s h
  rw [hash_eq_digest hholds.sound he] at h
  obtain ⟨l, c, rfl, hc, -, hs⟩ := h.node hholds.canonical hholds.full hholds.sound hne he
    (truthful_of_collisionFree haddr hfree)
  obtain ⟨hl, hcan⟩ := hholds.canonical.nodeAt hc
  have hfragment := fragment_length_le hcan
  rcases hs with rfl | ⟨b, -, rfl⟩
  · rw [outline_fragment]
    omega
  · exact hl

end

end Trie

open Trie

/-- Nothing that is done with a trie that was rebuilt from a root in reach, or with a trie that edits
make of it, stops with a fault. -/
theorem rebuilt_faultless [Hasher] {source : NodeSource} {root : Word} {t : Trie}
    (hbuild : rebuild root source = .ok t) (hreach : InReach source root) (edits : List Edit) :
    (∀ u : Use, Faultless (fun _ => True) (u.apply (Edit.after edits t)).1) ∧
      ∀ k, Faultless (fun _ => True) (Attempt.ofExcept ((Edit.after edits t).prove k)) := by
  have hconfined := Edit.after_confined (rebuild_confined hreach hbuild) edits
  have hofExcept : ∀ {α : Type} (x : Except TrieError α),
      Faultless (fun _ => True) (Attempt.ofExcept x) := fun x => by
    cases x <;> trivial
  constructor
  · intro u
    cases u with
    | read k => exact hofExcept _
    | edit e => exact (Edit.apply_confined hconfined e).1
  · intro k
    exact hofExcept _

/-! ## Instances -/

namespace Trie.Sheaf

theorem addressed : source.Addressed := fun _ _ hb => (source_eq_some_iff.1 hb).2

theorem collisionFree : CollisionFree (trie.Involved source) :=
  involved_nodup.mono fun _ hb => trie_involved hb

theorem edits_known : ∀ e ∈ edits, e.Puts Entry.Known := fun e he =>
  (edits_storable e he).mono Entry.Storable.known

/-- The trie is rebuilt with its first leaf hidden. -/
theorem rebuild_trie : rebuild trie.hash.1 source = .ok (.branch seen [] none) := by
  have hholds := Edit.holds_of_run edits_known holds_empty run_edits
  have hheld : source (digest encoding) ≠ none := by
    rw [source_eq_some_iff.2 ⟨List.mem_cons_self, rfl⟩]
    exact Option.some_ne_none _
  have hfits : Fits trie := run_fits edits_storable (by trivial) run_edits
  rw [← knownTo_trie]
  exact rebuild_eq hholds.canonical hholds.full hholds.sound hfits collisionFree (Or.inl rfl)
    trie_content (Or.inr (Or.inl ⟨[], trie, nodeAt_nil trie, trie_content⟩)) (fun _ => hheld)
    (truthful_of_collisionFree addressed collisionFree)

end Trie.Sheaf

open Trie.Sheaf in
/-- The hypotheses hold of a source that has some nodes of a trie and something else. Nothing that is
done with the rebuilt trie after a key was removed stops with a fault. -/
theorem rebuilt_faultless_sheaf :
    rebuild Sheaf.trie.hash.1 Sheaf.source = .ok (.branch Sheaf.seen [] none) ∧
      InReach Sheaf.source Sheaf.trie.hash.1 ∧
      ∀ u : Use, Faultless (fun _ => True)
        (u.apply (Edit.after [.remove (.ofList [2, 5])] (.branch Sheaf.seen [] none))).1 := by
  have hreach : InReach Sheaf.source Sheaf.trie.hash.1 :=
    inReach_of_run edits_known run_edits addressed collisionFree nofun
  exact ⟨rebuild_trie, hreach, (rebuilt_faultless rebuild_trie hreach _).1⟩

namespace Twig

/-- A run of nibbles that leaves room for two more. -/
def stem : Path := .ofList (List.replicate 62 0)

/-- The children of a branch: a leaf behind two nibbles, and one that ends at once. -/
def shoot (i : Nibble) : Trie :=
  if i = 1 then .leaf .empty [5] none else if i = 0 then .leaf (.ofList [1, 2]) [5] none else .empty

/-- The branch behind the run. -/
def trie : Trie := .extension stem (.branch shoot [] none) none

/-- The encoding of the branch. -/
def crown : Bytes :=
  branchEncoding (fun i => if i = 1 then leafEncoding .empty [5]
    else if i = 0 then leafEncoding (.ofList [1, 2]) [5] else Rlp.emptyData) []

/-- The encoding of the whole trie. -/
def blob : Bytes := extensionEncoding stem crown

theorem crown_content : (Trie.branch shoot [] none).content = .ok crown := by
  have hlong : (leafEncoding (.ofList [1, 2]) [5]).length < hashLength := by decide
  have hshort : (leafEncoding .empty [5]).length < hashLength := by decide
  have hitem : ∀ i, (shoot i).reference.item = if i = 1 then leafEncoding .empty [5]
      else if i = 0 then leafEncoding (.ofList [1, 2]) [5] else Rlp.emptyData := fun i => by
    rw [shoot]
    split
    · simp [reference, memo, content, Reference.ofContent, hshort, Reference.item]
    · split
      · simp [reference, memo, content, Reference.ofContent, hlong, Reference.item]
      · rfl
  rw [content_branch, crown]
  simp only [hitem]

theorem trie_content : trie.content = .ok blob := by
  have hshort : crown.length < hashLength := by decide
  rw [trie, content_extension, blob]
  simp [reference, memo, crown_content, Reference.ofContent, hshort, Reference.item]

/-- The trie has a key of 65 nibbles. -/
theorem trie_canonical : Canonical 65 trie := by
  refine ⟨by decide, by decide, isStem_branch _ _ _, by decide, ⟨0, nofun, Or.inr ⟨1, by decide, nofun⟩⟩,
    fun i => ?_⟩
  show Canonical 2 (shoot i)
  rw [shoot]
  split
  · exact ⟨by decide, by decide⟩
  · split
    · exact ⟨by decide, by decide⟩
    · trivial

theorem trie_sound : Sound trie := by
  have hshoot : ∀ i, Sound (shoot i) := fun i => by
    rw [shoot]
    split
    · exact memoHolds_of_memo_none rfl
    · split
      · exact memoHolds_of_memo_none rfl
      · trivial
  exact ⟨⟨hshoot, memoHolds_of_memo_none rfl⟩, memoHolds_of_memo_none rfl⟩

theorem decode_blob : decode blob = .ok trie := by
  have hshort : ¬ hashLength ≤ crown.length := by decide
  have hforget : ∀ i, (shoot i).forget = shoot i := fun i => by
    rw [shoot]
    split
    · rfl
    · split <;> rfl
  have houtline : trie.outline = trie := by
    simp [trie, outline, curtain, crown_content, hshort, forget_branch, hforget]
  rw [decode_content trie_canonical trie_sound (fun h => by cases h) trie_content (by decide), houtline]

theorem isEmptyRoot_digest_blob : isEmptyRoot (digest blob) = false := by
  refine isEmptyRoot_eq_false_iff.2 ⟨mt digest_eq_iff.1 ?_, mt digest_eq_digest_iff.1 ?_⟩ <;>
    decide +kernel

theorem rebuild_trie : rebuild (digest blob) (NodeTable.ofProof [blob]).source = .ok trie := by
  have hsubstitute : substitute (reveal (NodeTable.ofProof [blob]).source depthBound) trie =
      .ok trie := by
    refine substitute_extension (substitute_branch fun i => ?_)
    rw [shoot]
    split
    · rfl
    · split <;> rfl
  simp [rebuild, isEmptyRoot_digest_blob, ofProof_singleton, decodeStored, decode_blob,
    Except.mapError, bind, Except.bind, hsubstitute]

end Twig

open Twig in
/-- From a source that gives nothing under a wrong hash a trie is rebuilt from which a key cannot be
removed: the leaf that is left would get a fragment of 65 nibbles. -/
theorem rebuilt_overlong :
    ∃ (source : NodeSource) (root : Word) (t : Trie) (k : Path), source.Addressed ∧
      rebuild root source = .ok t ∧ (t.remove k).1 = .error (.fault .pathTooLong) :=
  ⟨(NodeTable.ofProof [blob]).source, digest blob, trie, .ofList (List.replicate 62 0 ++ [1]),
    (NodeTable.Kept.addProof [blob] .empty).addressed, rebuild_trie, rfl⟩

end Stateless
