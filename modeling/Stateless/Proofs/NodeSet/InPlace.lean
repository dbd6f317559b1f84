import Stateless.Proofs.NodeSet.Merging

/-!
# Changing sets in place

A node set is changed node by node, and a refusal may come after some of the nodes: a proof of one of
the keys does not hold, or two nodes conflict. `InPlace` is a computation that changes a set as it
goes, so that what it changed before a refusal stays changed. The nodes of proofs are staged in a
set of their own, and a merge checks all nodes before it takes the first one; therefore each of these
computations gives what the function of the library gives, and leaves the set as it was if it is
refused (`Change.run_make`). The main result is `Change.all_or_nothing`.
-/

namespace Stateless

namespace NodeSet

/-- A computation that changes a node set in place. -/
abbrev InPlace (α : Type) := ExceptT (Failure NodeSetError) (StateM NodeSet) α

namespace InPlace

variable {α β : Type} {s s' t : NodeSet}

/-- What a computation answers, and the set that it leaves, also if it fails. -/
def run (x : InPlace α) (s : NodeSet) : Attempt NodeSetError α × NodeSet :=
  StateT.run (ExceptT.run x) s

@[simp] theorem run_pure (a : α) (s : NodeSet) : run (pure a) s = (.ok a, s) := rfl

@[simp] theorem run_throw (e : Failure NodeSetError) (s : NodeSet) :
    run (throw e : InPlace α) s = (.error e, s) := rfl

@[simp] theorem run_set (s' s : NodeSet) : run (set s') s = (.ok (), s') := rfl

@[simp] theorem run_modify (f : NodeSet → NodeSet) (s : NodeSet) :
    run (modify f) s = (.ok (), f s) := rfl

@[simp] theorem run_get (s : NodeSet) : run get s = (.ok s, s) := rfl

theorem run_bind (x : InPlace α) (f : α → InPlace β) (s : NodeSet) :
    run (x >>= f) s = match run x s with
      | (.ok a, s') => run (f a) s'
      | (.error e, s') => (.error e, s') := by
  refine (Changing.run_bind x f s).trans ?_
  have hrun : run x s = Changing.run x s := rfl
  rw [hrun]
  rcases Changing.run x s with ⟨e | a, s'⟩ <;> rfl

/-! ## Nodes one by one -/

/-- Adds a node, unless another one is held at that place. -/
def putNode (path : Path) (node : ProvedNode) : InPlace Unit := do
  let s ← get
  match s.nodes.find? path with
  | none => set { s with nodes := s.nodes.insert path node }
  | some existing =>
    if existing.hash = node.hash then return
    else throw (.error (.nodeConflict s.owner path existing.hash node.hash))

/-- Adds a value, unless another one is held under that key. -/
def putLeaf (path : Path) (value : Bytes) : InPlace Unit := do
  let s ← get
  match s.leaves.find? path with
  | none => set { s with leaves := s.leaves.insert path value }
  | some existing =>
    if existing = value then return else throw (.error (.leafConflict s.owner path))

/-- Adds what a verification has visited and found. -/
def record (v : Verification) : InPlace Unit := do
  forM v.visited fun visit => putNode visit.path ⟨visit.digest, visit.blob⟩
  match v.leaf with
  | none => return
  | some (key, value) => putLeaf key value

/-- Adds everything that another set holds, after a check that nothing conflicts. -/
def mergeWith (t : NodeSet) : InPlace Unit := do
  let s ← get
  match s.nodeConflict? t with
  | some e => throw (.error e)
  | none =>
    match s.leafConflict? t with
    | some e => throw (.error e)
    | none =>
      forM t.nodes.entries fun e => modify fun s => { s with nodes := s.nodes.insert e.1 e.2 }
      forM t.leaves.entries fun e => modify fun s => { s with leaves := s.leaves.insert e.1 e.2 }

/-- Adds nodes at places where nothing is held yet, and goes on counting them. -/
def fillFrom : List (Path × ProvedNode) → Nat → InPlace Nat
  | [], count => return count
  | (path, node) :: rest, count => do
    let s ← get
    if s.nodes.contains path then fillFrom rest count
    else
      set { s with nodes := s.nodes.insert path node }
      fillFrom rest (count + 1)

/-- A computation does to a set what a function gives, but what it leaves of the set when it fails
is open. -/
def Gives (x : InPlace Unit) (s : NodeSet) (r : Attempt NodeSetError NodeSet) : Prop :=
  (∃ s', r = .ok s' ∧ run x s = (.ok (), s')) ∨ ∃ e s', r = .error e ∧ run x s = (.error e, s')

theorem gives_pure (s : NodeSet) : Gives (pure ()) s (.ok s) := Or.inl ⟨s, rfl, rfl⟩

theorem Gives.bind {x y : InPlace Unit} {r : Attempt NodeSetError NodeSet}
    {f : NodeSet → Attempt NodeSetError NodeSet} (hx : Gives x s r) (hy : ∀ s', Gives y s' (f s')) :
    Gives (x >>= fun _ => y) s (r >>= f) := by
  unfold Gives at hy ⊢
  rw [run_bind]
  rcases hx with ⟨s', rfl, hrun⟩ | ⟨e, s', rfl, hrun⟩
  · rw [hrun]
    exact hy s'
  · rw [hrun]
    exact Or.inr ⟨e, s', rfl, rfl⟩

theorem putNode_gives (path : Path) (node : ProvedNode) (s : NodeSet) :
    Gives (putNode path node) s (Attempt.ofExcept (s.addNode path node)) := by
  unfold Gives putNode addNode
  rw [run_bind, run_get]
  dsimp only
  cases s.nodes.find? path with
  | none => exact Or.inl ⟨_, rfl, rfl⟩
  | some existing =>
    by_cases h : existing.hash = node.hash
    · simp only [if_pos h]
      exact Or.inl ⟨s, rfl, rfl⟩
    · simp only [if_neg h]
      exact Or.inr ⟨_, s, rfl, rfl⟩

theorem putLeaf_gives (key : Path) (value : Bytes) (s : NodeSet) :
    Gives (putLeaf key value) s (Attempt.ofExcept (s.addLeaf key value)) := by
  unfold Gives putLeaf addLeaf
  rw [run_bind, run_get]
  dsimp only
  cases s.leaves.find? key with
  | none => exact Or.inl ⟨_, rfl, rfl⟩
  | some existing =>
    by_cases h : existing = value
    · simp only [if_pos h]
      exact Or.inl ⟨s, rfl, rfl⟩
    · simp only [if_neg h]
      exact Or.inr ⟨_, s, rfl, rfl⟩

theorem ofExcept_bind {ε : Type} (x : Except ε α) (f : α → Except ε β) :
    Attempt.ofExcept (x >>= f) = Attempt.ofExcept x >>= fun a => Attempt.ofExcept (f a) := by
  cases x <;> rfl

theorem forM_gives {steps : List β} {x : β → InPlace Unit}
    {f : NodeSet → β → Except NodeSetError NodeSet}
    (h : ∀ b s, Gives (x b) s (Attempt.ofExcept (f s b))) (s : NodeSet) :
    Gives (forM steps x) s (Attempt.ofExcept (steps.foldlM f s)) := by
  induction steps generalizing s with
  | nil => exact gives_pure s
  | cons b steps ih =>
    rw [List.forM_cons, List.foldlM_cons, ofExcept_bind]
    exact (h b s).bind ih

theorem record_gives (v : Verification) (s : NodeSet) :
    Gives (record v) s (Attempt.ofExcept (s.addVerification v)) := by
  unfold record addVerification
  rw [ofExcept_bind]
  refine (forM_gives (fun visit s => putNode_gives visit.path _ s) s).bind fun s' => ?_
  rcases v.leaf with _ | ⟨key, value⟩
  · exact gives_pure s'
  · exact putLeaf_gives key value s'

theorem run_forM_modify (steps : List β) (f : NodeSet → β → NodeSet) (s : NodeSet) :
    run (forM steps fun b => modify fun s => f s b) s = (.ok (), steps.foldl f s) :=
  Changing.run_forM_modify steps f s

/-- A merge in place gives what a merge gives, and changes nothing if it is refused. -/
theorem run_mergeWith (t s : NodeSet) : run (mergeWith t) s =
    match s.merge t with
    | .ok s' => (.ok (), s')
    | .error e => (.error (.error e), s) := by
  have hnodes : ∀ (entries : List (Path × ProvedNode)) (s : NodeSet),
      entries.foldl (fun s e => { s with nodes := s.nodes.insert e.1 e.2 }) s =
        { s with nodes := entries.foldl (fun t e => t.insert e.1 e.2) s.nodes } := by
    intro entries
    induction entries with
    | nil => exact fun s => rfl
    | cons e entries ih => exact fun s => ih _
  have hleaves : ∀ (entries : List (Path × Bytes)) (s : NodeSet),
      entries.foldl (fun s e => { s with leaves := s.leaves.insert e.1 e.2 }) s =
        { s with leaves := entries.foldl (fun t e => t.insert e.1 e.2) s.leaves } := by
    intro entries
    induction entries with
    | nil => exact fun s => rfl
    | cons e entries ih => exact fun s => ih _
  unfold mergeWith merge
  rw [run_bind, run_get]
  dsimp only
  cases s.nodeConflict? t with
  | some e => rfl
  | none =>
    cases s.leafConflict? t with
    | some e => rfl
    | none =>
      dsimp only
      rw [run_bind, run_forM_modify]
      dsimp only
      rw [run_forM_modify, hnodes, hleaves]
      rfl

/-- Filling in place gives what filling gives. -/
theorem run_fillFrom (candidates : List (Path × ProvedNode)) (s : NodeSet) :
    run (fillFrom candidates 0) s = (.ok (s.fill candidates).2, (s.fill candidates).1) := by
  unfold fill
  generalize 0 = count
  induction candidates generalizing s count with
  | nil => rfl
  | cons c candidates ih =>
    obtain ⟨path, node⟩ := c
    rw [fillFrom, run_bind, run_get, List.foldl_cons]
    dsimp only
    split
    · exact ih s count
    · rw [run_bind, run_set]
      exact ih _ (count + 1)

/-! ## The proofs of some keys -/

variable [Hasher] {root : Word} {source : NodeSource} {keys : List Word}

/-- Verifies the proofs of some keys in turn and adds what they show. -/
def stage (root : Word) (source : NodeSource) (keys : List Word) : InPlace Unit :=
  forM keys fun key => do
    let v := verify root (.ofWord key) source
    match v.outcome.mapError (.proof key root) with
    | .error e => throw e
    | .ok _ => record v

/-- Adds what the proofs of some keys show, which is staged in a set of its own. -/
def addKeysTo (root : Word) (source : NodeSource) (keys : List Word) : InPlace Unit := do
  let s ← get
  match run (stage root source keys) (empty s.owner) with
  | (.error e, _) => throw e
  | (.ok (), staged) => mergeWith staged

/-- Adds the orphans that the proofs of some keys after a change reveal, and counts them. -/
def addOrphansTo (root : Word) (source : NodeSource) (keys : List Word) : InPlace Nat :=
  match orphanCandidates root source keys with
  | .error e => throw e
  | .ok candidates => fillFrom candidates 0

theorem stage_gives (keys : List Word) (s : NodeSet) :
    Gives (stage root source keys) s (collect root source keys s) := by
  induction keys generalizing s with
  | nil => exact gives_pure s
  | cons key keys ih =>
    unfold stage at ih ⊢
    rw [List.forM_cons, collect]
    dsimp only
    cases hv : (verify root (.ofWord key) source).outcome.mapError (NodeSetError.proof key root) with
    | error e =>
      refine Or.inr ⟨e, s, rfl, ?_⟩
      rw [run_bind]
      rfl
    | ok p => exact (record_gives _ s).bind ih

theorem run_addKeysTo (s : NodeSet) : run (addKeysTo root source keys) s =
    match s.addKeys root source keys with
    | .ok s' => (.ok (), s')
    | .error e => (.error e, s) := by
  unfold addKeysTo addKeys
  rw [run_bind, run_get]
  dsimp only
  rcases stage_gives keys (empty s.owner) with ⟨staged, hcollect, hrun⟩ | ⟨e, left, hcollect, hrun⟩
  · rw [hrun, hcollect]
    show run (mergeWith staged) s = match Attempt.ofExcept (s.merge staged) with
      | .ok s' => (.ok (), s')
      | .error e => (.error e, s)
    rw [run_mergeWith]
    cases s.merge staged <;> rfl
  · rw [hrun, hcollect]
    rfl

theorem run_addOrphansTo (s : NodeSet) : run (addOrphansTo root source keys) s =
    match s.addOrphans root source keys with
    | .ok (s', count) => (.ok count, s')
    | .error e => (.error e, s) := by
  unfold addOrphansTo addOrphans
  cases orphanCandidates root source keys with
  | error e => rfl
  | ok candidates => exact run_fillFrom candidates s

end InPlace

/-! ## Repeating -/

section

variable {s s' t : NodeSet}

/-- A set that was merged in agrees with the result and adds nothing to it. -/
theorem merge_again (h : s.merge t = .ok s') : s'.merge t = .ok s' := by
  obtain ⟨rfl, -, -⟩ := merge_eq_ok h
  have hlast : ∀ {α : Type} (a b : Table Path α) {k : Path} {v w : α},
      (a.union b).find? k = some v → b.find? k = some w → v = w := by
    intro α a b k v w hv hw
    rw [Table.find?_union, hw] at hv
    exact (Option.some.inj hv).symm
  have hagain : ∀ {α : Type} (a b : Table Path α), (a.union b).union b = a.union b := by
    intro α a b
    refine Table.eq_of_find?_eq fun k => ?_
    rw [Table.find?_union, Table.find?_union]
    cases b.find? k <;> rfl
  rcases merge_cases ⟨s.owner, s.nodes.union t.nodes, s.leaves.union t.leaves⟩ t with
    ⟨-, hmerge⟩ | ⟨hnot, -⟩
  · rw [hmerge, hagain, hagain]
  · refine absurd ⟨fun hn hn' => ?_, fun hl hl' => hlast _ _ hl hl'⟩ hnot
    exact congrArg ProvedNode.hash (hlast _ _ hn hn')

end

variable [Hasher]

/-- What can be done to a node set. -/
inductive Change where
  /-- The nodes that the proofs of some keys show are added. -/
  | addKeys (root : Word) (source : NodeSource) (keys : List Word)
  /-- The orphans that the proofs of some keys reveal are added. -/
  | addOrphans (root : Word) (source : NodeSource) (keys : List Word)
  /-- Another set is merged in. -/
  | merge (other : NodeSet)

namespace Change

/-- The changed set as the library gives it, and how many orphans it has got. -/
def apply : Change → NodeSet → Attempt NodeSetError (NodeSet × Nat)
  | addKeys root source keys, s => do return (← s.addKeys root source keys, 0)
  | addOrphans root source keys, s => s.addOrphans root source keys
  | merge other, s => do return (← Attempt.ofExcept (s.merge other), 0)

/-- The change made in place. -/
def make : Change → InPlace Nat
  | addKeys root source keys => do
    InPlace.addKeysTo root source keys
    return 0
  | addOrphans root source keys => InPlace.addOrphansTo root source keys
  | merge other => do
    InPlace.mergeWith other
    return 0

variable {c : Change} {s s' : NodeSet} {count : Nat}

/-- A change that is made in place gives what the library gives, and leaves the set as it was if it is
refused. -/
theorem run_make (c : Change) (s : NodeSet) : InPlace.run c.make s =
    match c.apply s with
    | .ok (s', count) => (.ok count, s')
    | .error e => (.error e, s) := by
  cases c with
  | addKeys root source keys =>
    rw [make, apply, InPlace.run_bind, InPlace.run_addKeysTo]
    cases s.addKeys root source keys <;> rfl
  | addOrphans root source keys => exact InPlace.run_addOrphansTo s
  | merge other =>
    rw [make, apply, InPlace.run_bind, InPlace.run_mergeWith]
    cases s.merge other <;> rfl

/-- A change that was made changes nothing when it is repeated. -/
theorem apply_again (h : c.apply s = .ok (s', count)) : c.apply s' = .ok (s', 0) := by
  cases c with
  | addKeys root source keys =>
    obtain ⟨s₁, hadd, h⟩ := exists_of_bind_eq_ok h
    obtain ⟨rfl, rfl⟩ := Prod.mk.inj (Except.ok.inj h)
    obtain ⟨staged, hcollect, hmerge⟩ := exists_of_bind_eq_ok hadd
    rw [Attempt.ofExcept_eq_ok_iff] at hmerge
    have howner : s₁.owner = s.owner := by
      obtain ⟨rfl, -, -⟩ := merge_eq_ok hmerge
      rfl
    rw [apply, NodeSet.addKeys, howner, hcollect]
    show (Attempt.ofExcept (s₁.merge staged) >>= fun s => pure (s, 0)) = _
    rw [merge_again hmerge]
    rfl
  | addOrphans root source keys =>
    obtain ⟨candidates, hcandidates, h⟩ := exists_of_bind_eq_ok h
    have hfill : (s.fill candidates).1 = s' := congrArg Prod.fst (Except.ok.inj h)
    rw [apply, NodeSet.addOrphans, hcandidates]
    show Except.ok (s'.fill candidates) = _
    rw [← hfill, fill_again]
  | merge other =>
    obtain ⟨s₁, hmerge, h⟩ := exists_of_bind_eq_ok h
    obtain ⟨rfl, rfl⟩ := Prod.mk.inj (Except.ok.inj h)
    rw [Attempt.ofExcept_eq_ok_iff] at hmerge
    rw [apply, merge_again hmerge]
    rfl

/-- Orphans change neither a node nor a value that is held, and are counted. -/
theorem addOrphans_grows {root : Word} {source : NodeSource} {keys : List Word}
    (h : s.addOrphans root source keys = .ok (s', count)) :
    Keeps s s' ∧ s'.leaves = s.leaves ∧ s'.nodes.size = s.nodes.size + count := by
  obtain ⟨candidates, -, h⟩ := exists_of_bind_eq_ok h
  have hfill : s.fill candidates = (s', count) := Except.ok.inj h
  obtain ⟨hleaves, hsize⟩ := fill_counts s candidates
  have hkeeps := (fill_find? s candidates).1
  rw [hfill] at hleaves hsize hkeeps
  exact ⟨hkeeps, hleaves, hsize⟩

/-- A change of a node set that is made in place is made as a whole or not at all. If it is refused,
the set is as it was. If it is made, it gives what the library gives, and changes nothing when it is
repeated. Orphans are added to what is held and counted. -/
theorem all_or_nothing (c : Change) (s : NodeSet) :
    (∃ e, c.apply s = .error e ∧ InPlace.run c.make s = (.error e, s)) ∨
    ∃ s' count, c.apply s = .ok (s', count) ∧ InPlace.run c.make s = (.ok count, s') ∧
      InPlace.run c.make s' = (.ok 0, s') ∧
      ∀ root source keys, c = .addOrphans root source keys →
        (∀ path node, s.nodes.find? path = some node → s'.nodes.find? path = some node) ∧
        s'.owner = s.owner ∧ s'.leaves = s.leaves ∧ s'.nodes.size = s.nodes.size + count := by
  cases happly : c.apply s with
  | error e => exact Or.inl ⟨e, rfl, by rw [run_make, happly]⟩
  | ok r =>
    obtain ⟨s', count⟩ := r
    refine Or.inr ⟨s', count, rfl, ?_, ?_, ?_⟩
    · rw [run_make, happly]
    · rw [run_make, apply_again happly]
    · rintro root source keys rfl
      obtain ⟨hkeeps, hleaves, hsize⟩ := addOrphans_grows happly
      exact ⟨fun path node => hkeeps.nodes, hkeeps.owner, hleaves, hsize⟩

end Change

end NodeSet

end Stateless
