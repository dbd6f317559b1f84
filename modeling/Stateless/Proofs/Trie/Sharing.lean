import Mathlib.Logic.Relation
import Stateless.Proofs.Trie.Edits

/-!
# Tries that share nodes

The copies of a trie share its nodes, and a node of one trie can be set below the root of another.
Whoever computes a root hash leaves memos at the nodes on the way, and these then show in every trie
that has the nodes too. Which tries share which nodes is not recorded here. Instead, when a root hash
is computed, every node of every trie may get what hashing it leaves there (`Warmed`), and this
includes whatever sharing can bring about. All other steps change a single trie.

The main result is `memos_fresh`: whatever was done, each memo is the hash of its node computed
without any memos.
-/

namespace Stateless

namespace Trie

/-- The nodes of a trie, the root among them. -/
inductive Occurs (s : Trie) : Trie → Prop where
  | root : Occurs s s
  | extension {f : Path} {c : Trie} {m : Option Word} : Occurs s c → Occurs s (.extension f c m)
  | branch {cs : Nibble → Trie} {v : Bytes} {m : Option Word} (d : Nibble) :
    Occurs s (cs d) → Occurs s (.branch cs v m)

/-- A trie of which some nodes were hashed, here or wherever else they occur. -/
inductive Warmed [Hasher] : Trie → Trie → Prop where
  /-- None was. -/
  | refl (t : Trie) : Warmed t t
  /-- The root was, with all that its hash depends on. -/
  | root (t : Trie) : Warmed t t.memoize
  | extension {f : Path} {c c' : Trie} {m : Option Word} :
    Warmed c c' → Warmed (.extension f c m) (.extension f c' m)
  | branch {cs cs' : Nibble → Trie} {v : Bytes} {m : Option Word} :
    (∀ d, Warmed (cs d) (cs' d)) → Warmed (.branch cs v m) (.branch cs' v m)
  /-- One after the other. -/
  | trans {t t' t'' : Trie} : Warmed t t' → Warmed t' t'' → Warmed t t''

namespace Hereditary

variable {V : Bytes → Prop} {Q : Trie → Prop} {t c s : Trie}

/-! Changes keep a hereditary property, whether they succeed or not. -/

theorem put (hq : Hereditary V Q) {k : Path} {e : Entry} (he : Admits V Q e) (h : Q t) :
    Q (t.put k e).2 := by
  unfold Trie.put
  split
  · next t' hins => exact hq.insert h he hins
  · exact hq.forgetRoot h

theorem putAll (hq : Hereditary V Q) {entries : List (Path × Entry)}
    (he : ∀ x ∈ entries, Admits V Q x.2) (h : Q t) : Q (t.putAll entries).2 := by
  induction entries generalizing t with
  | nil => exact hq.forgetRoot h
  | cons x entries ih =>
    have hput : Q (t.put x.1 x.2).2 := hq.put (he x List.mem_cons_self) h
    unfold Trie.putAll
    split
    · next t' heq =>
      rw [heq] at hput
      exact ih (fun y hy => he y (List.mem_cons_of_mem _ hy)) hput
    · next r t' heq =>
      rw [heq] at hput
      exact hput

theorem remove (hq : Hereditary V Q) {k : Path} (h : Q t) : Q (t.remove k).2 := by
  unfold Trie.remove
  split
  · exact hq.forgetRoot h
  · exact hq.forgetRoot h
  · next t' v hdet =>
    split
    · exact hq.forgetRoot h
    · next t'' hset => exact hq.settle (hq.detach h hdet) hset

theorem setChild (hq : Hereditary V Q) {d : Nibble} (hc : Q c) (h : Q t) : Q (t.setChild d c) := by
  cases t with
  | branch cs v m => exact hq.fork_set (fun i _ => hq.children h i) hc (hq.branch_value h)
  | _ => exact hq.forgetRoot h

theorem setFragment (hq : Hereditary V Q) {f : Path} (h : Q t) : Q (t.setFragment f) := by
  cases t with
  | leaf g v m => exact hq.leaf (hq.leaf_value h)
  | extension g b m => exact hq.extension (hq.child h)
  | _ => exact hq.forgetRoot h

theorem occurs (hq : Hereditary V Q) (hs : Occurs s t) (h : Q t) : Q s := by
  induction hs with
  | root => exact h
  | extension _ ih => exact ih (hq.child h)
  | branch d _ ih => exact ih (hq.children h d)

end Hereditary

variable [Hasher] {t t' c c' : Trie}

/-! ## Warming -/

theorem Warmed.forget_eq (h : Warmed t t') : t'.forget = t.forget := by
  induction h with
  | refl t => rfl
  | root t => exact forget_memoize t
  | extension _ ih => rw [forget, forget, ih]
  | branch _ ih =>
    rw [forget_branch, forget_branch]
    simp only [ih]
  | trans _ _ ih ih' => exact ih'.trans ih

/-- What stands for a node in its parent does not depend on sound memos. -/
theorem Warmed.reference_eq (h : Warmed t t') (ht : Sound t) (ht' : Sound t') :
    t'.reference = t.reference := by
  rw [← reference_forget ht', h.forget_eq, reference_forget ht]

/-- The memo of a parent stays right when the nodes below it are hashed: they are referred to as
before, so the parent is encoded as before. -/
theorem Warmed.sound (h : Warmed t t') (ht : Sound t) : Sound t' := by
  induction h with
  | refl t => exact ht
  | root t => exact ht.memoize
  | @extension f c c' m hc ih =>
    have hsame : content (.extension f c' m) = content (.extension f c m) := by
      rw [content_extension, content_extension, hc.reference_eq ht.1 (ih ht.1)]
    refine ⟨ih ht.1, fun w hw => ?_⟩
    rw [hsame]
    exact ht.2 w hw
  | @branch cs cs' v m hcs ih =>
    have hsame : content (.branch cs' v m) = content (.branch cs v m) := by
      rw [content_branch, content_branch]
      simp only [fun d => (hcs d).reference_eq (ht.1 d) (ih d (ht.1 d))]
    refine ⟨fun d => ih d (ht.1 d), fun w hw => ?_⟩
    rw [hsame]
    exact ht.2 w hw
  | trans _ _ ih ih' => exact ih' (ih ht)

theorem hash_eq_rootHash_forget (ht : Sound t) : t.hash.1 = t.forget.rootHash := by
  rw [hash_eq_reference ht, rootHash, reference_forget ht]

end Trie

open Trie

/-! ## Pools -/

/-- Tries by their names. -/
abbrev Pool (ι : Type) := ι → Trie

namespace Pool

variable {ι : Type} {p q : Pool ι}

/-- What can be made of new nodes and of nodes that are in use. -/
inductive Assembled (p : Pool ι) : Trie → Prop where
  /-- A node that is in use, with all below it. -/
  | part {i : ι} {s : Trie} : Occurs s (p i) → Assembled p s
  | empty : Assembled p .empty
  | hidden (w : Word) : Assembled p (.hidden w)
  | leaf (f : Path) (v : Bytes) : Assembled p (.leaf f v none)
  | extension (f : Path) {c : Trie} : Assembled p c → Assembled p (.extension f c none)
  | branch {cs : Nibble → Trie} (v : Bytes) :
    (∀ d, Assembled p (cs d)) → Assembled p (.branch cs v none)

variable [Hasher] [DecidableEq ι]

/-- What can be done to tries that share nodes. -/
inductive Step : Pool ι → Pool ι → Prop where
  /-- A trie is made, or one is copied, or a part of one. -/
  | make {p : Pool ι} (i : ι) {t : Trie} : Assembled p t → Step p (Function.update p i t)
  | put {p : Pool ι} (i : ι) (k : Path) (e : Entry) :
    Step p (Function.update p i ((p i).put k e).2)
  | putAll {p : Pool ι} (i : ι) (entries : List (Path × Entry)) :
    Step p (Function.update p i ((p i).putAll entries).2)
  | remove {p : Pool ι} (i : ι) (k : Path) : Step p (Function.update p i ((p i).remove k).2)
  /-- The root is changed in place: another child. -/
  | setChild {p : Pool ι} (i : ι) (d : Nibble) {c : Trie} : Assembled p c →
    Step p (Function.update p i ((p i).setChild d c))
  /-- The root is changed in place: another fragment. -/
  | setFragment {p : Pool ι} (i : ι) (f : Path) :
    Step p (Function.update p i ((p i).setFragment f))
  /-- A root hash is computed. All nodes that were hashed on the way may occur in other tries and
  elsewhere in this one. -/
  | hash {p q : Pool ι} (i : ι) : Warmed (p i).hash.2 (q i) →
    (∀ j, j ≠ i → Warmed (p j) (q j)) → Step p q

omit [DecidableEq ι] in
theorem Assembled.sound {t : Trie} (h : Assembled p t) (hp : ∀ i, Sound (p i)) : Sound t := by
  induction h with
  | part hs => exact hereditary_sound.occurs hs (hp _)
  | empty => exact hereditary_sound.empty
  | hidden w => trivial
  | leaf f v => exact hereditary_sound.leaf trivial
  | extension f _ ih => exact hereditary_sound.extension ih
  | branch v _ ih => exact hereditary_sound.branch ih trivial

theorem sound_update {i : ι} {t : Trie} (hp : ∀ i, Sound (p i)) (ht : Sound t) (j : ι) :
    Sound (Function.update p i t j) := by
  by_cases hj : j = i
  · rw [hj, Function.update_self]
    exact ht
  · rw [Function.update_of_ne hj]
    exact hp j

omit [DecidableEq ι] in
theorem admits_sound (e : Entry) : Admits (fun _ => True) Sound e := by
  cases e <;> trivial

/-- Every step keeps all memos right. -/
theorem Step.sound (h : Step p q) (hp : ∀ i, Sound (p i)) : ∀ i, Sound (q i) := by
  cases h with
  | make i ht => exact sound_update hp (ht.sound hp)
  | put i k e => exact sound_update hp (hereditary_sound.put (admits_sound e) (hp i))
  | putAll i entries =>
    exact sound_update hp (hereditary_sound.putAll (fun x _ => admits_sound x.2) (hp i))
  | remove i k => exact sound_update hp (hereditary_sound.remove (hp i))
  | setChild i d hc => exact sound_update hp (hereditary_sound.setChild (hc.sound hp) (hp i))
  | setFragment i f => exact sound_update hp (hereditary_sound.setFragment (hp i))
  | hash i hi hothers =>
    intro j
    by_cases hj : j = i
    · subst hj
      exact hi.sound (hp j).memoize
    · exact (hothers j hj).sound (hp j)

theorem run_sound (h : Relation.ReflTransGen Step (fun _ => .empty) p) (i : ι) : Sound (p i) := by
  induction h generalizing i with
  | refl => trivial
  | tail _ hstep ih => exact hstep.sound ih i

/-- Whatever is done to tries that share nodes, starting from empty ones: each node of each trie has
no memo, or its memo is the hash of its encoding computed without memos, and so are the root hashes.
-/
theorem memos_fresh (h : Relation.ReflTransGen Step (fun _ => .empty) p) (i : ι) :
    (∀ s, Occurs s (p i) → s.memo = none ∨
      ∃ e, s.forget.content = .ok e ∧ hashLength ≤ e.length ∧ s.memo = some (digest e)) ∧
    (p i).hash.1 = (p i).forget.rootHash := by
  have hsound := run_sound h i
  refine ⟨fun s hs => ?_, hash_eq_rootHash_forget hsound⟩
  have hs := hereditary_sound.occurs hs hsound
  cases hmemo : s.memo with
  | none => exact Or.inl rfl
  | some w =>
    obtain ⟨e, he, hlen, rfl⟩ := hs.memoHolds w hmemo
    exact Or.inr ⟨e, by rw [content_forget hs, he], hlen, rfl⟩

end Pool

/-! ## An instance -/

namespace Twins

/-- A value that is as long as a hash. -/
def value : Bytes := List.replicate 32 7

def child (d : Nibble) : Trie :=
  if d = 1 then .leaf (.ofList [2]) value none
  else if d = 3 then .leaf .empty value none
  else .empty

/-- The trie that both start from. -/
def trie : Trie := .branch child [] none

/-- The other trie after a copy of it was hashed: its root was not visited, the nodes below were. -/
def warmed : Trie := .branch (fun d => (child d).memoize) [] none

/-- The child of both tries behind the nibble 1, after it was hashed. -/
def tip : Trie := .leaf (.ofList [2]) value (some (digest (leafEncoding (.ofList [2]) value)))

/-- The copy gets another value, and the hashed node is set at a second place of the other trie. -/
def pool : Pool Bool
  | true => (trie.hash.2.put (.ofList [5]) (.value [9])).2
  | false => warmed.setChild 3 tip

/-- One trie is made, then copied. -/
def copied : Pool Bool := Function.update (Function.update (fun _ => .empty) false trie) true trie

/-- The copy is hashed. -/
def hashed : Pool Bool
  | true => trie.hash.2
  | false => warmed

/-- The copy gets another value. -/
def edited : Pool Bool := Function.update hashed true (trie.hash.2.put (.ofList [5]) (.value [9])).2

theorem assembled_trie (p : Pool Bool) : Pool.Assembled p trie := by
  refine .branch _ fun d => ?_
  unfold child
  split
  · exact .leaf _ _
  · split
    · exact .leaf _ _
    · exact .empty

theorem reaches_copied : Relation.ReflTransGen Pool.Step (fun _ => .empty) copied := by
  have hmake := Pool.Step.make false (assembled_trie fun _ => .empty)
  exact (Relation.ReflTransGen.single hmake).tail (.make true (.part (i := false) .root))

theorem reaches : Relation.ReflTransGen Pool.Step (fun _ => .empty) pool := by
  have hhash : Pool.Step copied hashed := by
    refine .hash true (.refl _) fun j hj => ?_
    rw [Bool.eq_false_iff.2 hj]
    exact .branch fun d => .root (child d)
  have hput : Pool.Step hashed edited := .put true (.ofList [5]) (.value [9])
  -- the node is taken from the trie itself, where the hashing of the copy has left its memo
  have htip : Pool.Assembled edited tip := .part (i := false) (.branch 1 .root)
  have hpool : Function.update edited false (warmed.setChild 3 tip) = pool := by
    funext i
    cases i <;> rfl
  rw [← hpool]
  exact ((reaches_copied.tail hhash).tail hput).tail (.setChild false 3 htip)

theorem occurs_tip : Occurs tip (pool false) := by
  refine .branch 3 ?_
  rw [Children.get_set, if_pos rfl]
  exact .root

end Twins

open Twins in
/-- A trie with a node that was hashed in a copy of it, and that now stands at two places. -/
theorem Pool.memos_fresh_twins :
    Relation.ReflTransGen Step (fun _ : Bool => .empty) pool ∧
    Occurs tip (pool false) ∧
    (∃ e, tip.forget.content = .ok e ∧ hashLength ≤ e.length ∧ tip.memo = some (digest e)) ∧
    (pool false).hash.1 = (pool false).forget.rootHash ∧
    (pool true).hash.1 = (pool true).forget.rootHash := by
  obtain ⟨hnodes, hroot⟩ := memos_fresh reaches false
  obtain ⟨-, hroot'⟩ := memos_fresh reaches true
  exact ⟨reaches, occurs_tip, (hnodes tip occurs_tip).resolve_left nofun, hroot, hroot'⟩

end Stateless
