import Stateless.Json.Tries
import Stateless.Keccak
import Stateless.Proofs.Json.Forms
import Stateless.Proofs.Trie.Sharing
import Stateless.Proofs.Trie.Unique

/-!
# Tries that are read back

A trie nests as deep as its nodes do, and a text that is nested too deep is refused (`maxDepth`). So
`trieAt_trie` is an equation: it says what is read with any number of levels left, and whether there
are enough. Every other form is read back without such a condition, and `forms_read_back` puts them
side by side. A comb shows that the condition counts: with 30 branches in a row a trie is read back,
and with 31 it is not.
-/

namespace Stateless

namespace Trie

theorem forget_forget (t : Trie) : t.forget.forget = t.forget := by
  induction t with
  | empty => rfl
  | hidden h => rfl
  | leaf f v m => rfl
  | extension f c m ih => rw [forget, forget, ih]
  | branch cs v m ih =>
    rw [forget_branch, forget_branch]
    simp only [ih]

theorem sound_forget [Hasher] (t : Trie) : Sound t.forget := by
  induction t with
  | empty => trivial
  | hidden h => trivial
  | leaf f v m => exact memoHolds_of_memo_none rfl
  | extension f c m ih => exact ⟨ih, memoHolds_of_memo_none rfl⟩
  | branch cs v m ih =>
    rw [forget_branch]
    exact ⟨ih, memoHolds_of_memo_none rfl⟩

end Trie

namespace Json

/-! ## Depth -/

mutual

/-- How many arrays and objects lie around the innermost value. -/
def depth : Json → Nat
  | .array vs => depthItems vs + 1
  | .object es => depthEntries es + 1
  | _ => 0

/-- The same for several values. -/
def depthItems : List Json → Nat
  | [] => 0
  | v :: vs => max (depth v) (depthItems vs)

/-- The same for the values of an object. -/
def depthEntries : List (String × Json) → Nat
  | [] => 0
  | (_, v) :: es => max (depth v) (depthEntries es)

end

theorem depth_array_le_iff {vs : List Json} {d : Nat} :
    (array vs).depth ≤ d + 1 ↔ ∀ v ∈ vs, v.depth ≤ d := by
  rw [depth, Nat.add_le_add_iff_right]
  induction vs with
  | nil => simp [depthItems]
  | cons v vs ih => simp [depthItems, ih]

theorem depth_object_le_iff {es : List (String × Json)} {d : Nat} :
    (object es).depth ≤ d + 1 ↔ ∀ e ∈ es, e.2.depth ≤ d := by
  rw [depth, Nat.add_le_add_iff_right]
  induction es with
  | nil => simp [depthEntries]
  | cons e es ih => simp [depthEntries, ih]

theorem depth_numbers (b : Bytes) : (numbers b).depth = 1 := by
  have hle : (numbers b).depth ≤ 0 + 1 := by
    rw [numbers, depth_array_le_iff]
    intro v hv
    obtain ⟨d, -, rfl⟩ := List.mem_map.1 hv
    exact Nat.le_refl 0
  exact Nat.le_antisymm hle (Nat.succ_le_succ (Nat.zero_le _))

theorem depth_leaf (f : Path) (v : Bytes) (m : Option Word) : (trie (.leaf f v m)).depth = 4 := by
  simp [trie, trieRecord, node, depth, depthEntries, depth_numbers, path]

theorem depth_extension (f : Path) (c : Trie) (m : Option Word) :
    (trie (.extension f c m)).depth = (trie c).depth + 3 := by
  simp [trie, trieRecord, node, depth, depthEntries, path]

theorem depth_pos (t : Trie) : 0 < (trie t).depth := Nat.succ_pos _

theorem depth_branch_le_iff {cs : Nibble → Trie} {v : Bytes} {m : Option Word} {d : Nat} :
    (trie (.branch cs v m)).depth ≤ d + 4 ↔ ∀ i, (trie (cs i)).depth ≤ d := by
  have hvalue : (numbers v).depth ≤ d + 1 := by
    rw [depth_numbers]
    omega
  have hchildren : (array (Children.toList fun i => trieRecord (node (cs i)))).depth ≤ d + 1 ↔
      ∀ i, (trie (cs i)).depth ≤ d := by
    rw [depth_array_le_iff]
    simp [Children.toList, trie]
  simp only [trie, trieRecord, node, depth_object_le_iff, List.mem_cons, List.not_mem_nil, or_false,
    forall_eq, forall_eq_or_imp, hvalue, and_true] at hchildren ⊢
  exact hchildren

/-! ## Reading with a number of levels left -/

theorem trieAt_trieRecord (d : Nat) (n : Json) :
    trieAt (d + 2) (trieRecord n) = nodeAt (d + 1) n := by
  have hfields : fields? ["node"] (trieRecord n) = some [some n] :=
    fields?_zip _ [_] (by decide) rfl
  rw [trieAt, hfields]
  rfl

theorem trieAt_variant (d : Nat) (variant : String) (parts : Json) :
    trieAt (d + 3) (trieRecord (object [(variant, parts)])) = variantAt (d + 1) variant parts := by
  rw [trieAt_trieRecord, nodeAt]

theorem trieAt_variant_eq_none {d : Nat} (hd : d < 3) (variant : String) (parts : Json) :
    trieAt d (trieRecord (object [(variant, parts)])) = none := by
  match d with
  | 0 | 1 => rfl
  | 2 =>
    rw [trieAt_trieRecord]
    rfl

theorem trieAt_leaf (f : Path) (v : Bytes) (m : Option Word) (d : Nat) :
    trieAt (d + 1) (trie (.leaf f v m)) = if 4 ≤ d then some (.leaf f v none) else none := by
  have hfields : fields? ["nibbles", "value"] (object [("nibbles", path f), ("value", numbers v)]) =
      some [some (path f), some (numbers v)] :=
    fields?_zip _ [_, _] (by decide) rfl
  rw [trie, node]
  match d with
  | 0 | 1 => exact trieAt_variant_eq_none (by omega) _ _
  | 2 | 3 =>
    rw [trieAt_variant]
    rfl
  | d + 4 =>
    rw [if_pos (by omega), trieAt_variant, variantAt, hfields]
    simp [path?_path, numbers?_numbers]

theorem trieAt_extension (f : Path) (c : Trie) (m : Option Word) (d : Nat) :
    trieAt (d + 1) (trie (.extension f c m)) =
      if 3 ≤ d then (trieAt (d - 2) (trie c)).bind fun t => some (.extension f t none)
      else none := by
  have hfields : fields? ["nibbles", "child"]
      (object [("nibbles", path f), ("child", trie c)]) = some [some (path f), some (trie c)] :=
    fields?_zip _ [_, _] (by decide) rfl
  have hnode : node (.extension f c m) =
      object [("Extension", object [("nibbles", path f), ("child", trie c)])] := rfl
  rw [trie, hnode]
  match d with
  | 0 | 1 => exact trieAt_variant_eq_none (by omega) _ _
  | 2 =>
    rw [trieAt_variant]
    rfl
  | d + 3 =>
    rw [if_pos (by omega), trieAt_variant, variantAt, hfields]
    simp [path?_path]

theorem trieAt_branch (cs : Nibble → Trie) (v : Bytes) (m : Option Word) (d : Nat) :
    trieAt (d + 1) (trie (.branch cs v m)) =
      if 4 ≤ d then
        (listOf (trieAt (d - 3)) (array (Children.toList fun i => trie (cs i)))).bind fun ts =>
          (childrenOf ts).bind fun row => some (.branch row.get v none)
      else none := by
  have hfields : fields? ["children", "value"]
      (object [("children", array (Children.toList fun i => trie (cs i))), ("value", numbers v)]) =
      some [some (array (Children.toList fun i => trie (cs i))), some (numbers v)] :=
    fields?_zip _ [_, _] (by decide) rfl
  have hnode : node (.branch cs v m) = object [("Branch", object
      [("children", array (Children.toList fun i => trie (cs i))), ("value", numbers v)])] := rfl
  rw [trie, hnode]
  match d with
  | 0 | 1 => exact trieAt_variant_eq_none (by omega) _ _
  | 2 | 3 =>
    rw [trieAt_variant]
    rfl
  | d + 4 =>
    rw [if_pos (by omega), trieAt_variant, variantAt, hfields]
    simp [numbers?_numbers]

theorem mapM_eq_none {α β : Type} {f : α → Option β} {xs : List α} {x : α} (hx : x ∈ xs)
    (hf : f x = none) : xs.mapM f = none := by
  induction xs with
  | nil => exact absurd hx List.not_mem_nil
  | cons y xs ih =>
    rw [List.mapM_cons]
    rcases List.mem_cons.1 hx with rfl | hx
    · rw [hf]
      rfl
    · cases f y with
      | none => rfl
      | some z =>
        rw [ih hx]
        rfl

theorem childrenOf_toList (cs : Nibble → Trie) :
    childrenOf (Children.toList cs) = some (Children.tabulate cs) := by
  have hlen : (Children.toList cs).length = 16 := by simp [Children.toList]
  rw [childrenOf, dif_pos hlen]
  simp [Children.toList]

/-- A trie is read without its memos, unless it is nested too deep. -/
theorem trieAt_trie (t : Trie) (d : Nat) :
    trieAt (d + 1) (trie t) = if (trie t).depth ≤ d then some t.forget else none := by
  induction t generalizing d with
  | empty =>
    have hdepth : (trie .empty).depth = 1 := rfl
    rw [hdepth]
    match d with
    | 0 => rfl
    | d + 1 =>
      rw [if_pos (by omega)]
      exact trieAt_trieRecord d _
  | hidden h =>
    have hdepth : (trie (.hidden h)).depth = 2 := rfl
    rw [hdepth, trie, node]
    match d with
    | 0 | 1 => exact trieAt_variant_eq_none (by omega) _ _
    | d + 2 =>
      rw [if_pos (by omega), trieAt_variant, variantAt]
      simp [word?, fixed?_fixed, Trie.forget]
  | leaf f v m =>
    rw [depth_leaf, trieAt_leaf]
    rfl
  | extension f c m ih =>
    rw [depth_extension, trieAt_extension]
    have hpos := depth_pos c
    by_cases hd : 3 ≤ d
    · obtain ⟨e, rfl⟩ := Nat.exists_eq_add_of_le' hd
      have hchild : trieAt (e + 3 - 2) (trie c) = _ := ih e
      rw [if_pos hd, hchild]
      by_cases hle : (trie c).depth ≤ e
      · rw [if_pos hle, if_pos (by omega)]
        rfl
      · rw [if_neg hle, if_neg (by omega)]
        rfl
    · rw [if_neg hd, if_neg (by omega)]
  | branch cs v m ih =>
    rw [trieAt_branch]
    by_cases hd : 4 ≤ d
    · obtain ⟨e, rfl⟩ := Nat.exists_eq_add_of_le' hd
      rw [if_pos hd]
      show (listOf (trieAt (e + 1)) _).bind _ = _
      by_cases hall : ∀ i, (trie (cs i)).depth ≤ e
      · have hchildren : listOf (trieAt (e + 1)) (array (Children.toList fun i => trie (cs i))) =
            some (Children.toList fun i => (cs i).forget) :=
          mapM_map_eq_some fun i _ => (ih i e).trans (if_pos (hall i))
        rw [if_pos (depth_branch_le_iff.2 hall), hchildren, Option.bind_some, childrenOf_toList]
        rfl
      · obtain ⟨i, hi⟩ := not_forall.1 hall
        have hmem : trie (cs i) ∈ Children.toList fun i => trie (cs i) :=
          List.mem_map_of_mem (List.mem_finRange i)
        have hchildren : listOf (trieAt (e + 1)) (array (Children.toList fun i => trie (cs i))) =
            none := mapM_eq_none hmem ((ih i e).trans (if_neg hi))
        rw [if_neg (mt depth_branch_le_iff.1 hall), hchildren]
        rfl
    · -- even with empty children there are five levels
      have hlarge : ¬(trie (.branch cs v m)).depth ≤ 0 + 4 := by
        rw [depth_branch_le_iff]
        intro hall
        exact absurd (depth_pos (cs 0)) (Nat.not_lt.2 (hall 0))
      rw [if_neg hd, if_neg (by omega)]

theorem trie?_trie (t : Trie) :
    trie? (trie t) = if (trie t).depth < maxDepth then some t.forget else none := by
  rw [trie?, maxDepth, trieAt_trie]
  simp only [Nat.lt_succ_iff]

/-! ## All forms -/

theorem plain_trie (t : Trie) : Plain (trie t) := by
  have hrecord {j : Json} (h : Plain j) : Plain (trieRecord j) := by simpa [trieRecord] using h
  refine hrecord ?_
  induction t with
  | empty => exact plain_string _
  | hidden h => simp [node]
  | leaf f v m => simp [node, path]
  | extension f c m ih => simp [node, path, hrecord ih]
  | branch cs v m ih =>
    simp only [node, plain_object, List.forall_mem_cons, List.not_mem_nil, false_implies,
      implies_true, and_true, plain_numbers, plain_array, Children.toList]
    intro j hj
    obtain ⟨i, -, rfl⟩ := List.mem_map.1 hj
    exact hrecord (ih i)

section

variable [Hasher] {ι : Type} [DecidableEq ι]

/-- Prepared blocks, proofs of accounts, access lists and node sets are read back from their texts.
So are tries, without memos and with the same root hash, if they are not nested too deep; otherwise
their texts are refused. -/
theorem forms_read_back {p : Pool ι} (hp : Relation.ReflTransGen Pool.Step (fun _ => .empty) p) :
    (∀ x, ReadsBack preparedBlock preparedBlock? x) ∧
    (∀ x, ReadsBack accountProof accountProof? x) ∧
    (∀ x, ReadsBack accessList accessList? x) ∧
    (∀ x, ReadsBack nodeSet nodeSet? x) ∧
    ∀ i, Layout (trie (p i)) (render (trie (p i))) ∧ ∀ s, Layout (trie (p i)) s →
      ((trie (p i)).depth < maxDepth → ∃ t, (parse s).bind trie? = some t ∧
        t.same (p i) = true ∧ t.memo = none ∧ t.hash.1 = (p i).hash.1) ∧
      (maxDepth ≤ (trie (p i)).depth → (parse s).bind trie? = none) := by
  refine ⟨fun x => readsBack_of_plain (plain_preparedBlock x) (preparedBlock?_preparedBlock x),
    fun x => readsBack_of_plain (plain_accountProof x) (accountProof?_accountProof x),
    fun x => readsBack_of_plain (plain_accessList x) (accessList?_accessList x),
    fun x => readsBack_of_plain (plain_nodeSet x) (nodeSet?_nodeSet x),
    fun i => ⟨layout_render (plain_trie (p i)), fun s hs => ?_⟩⟩
  have hsound : Trie.Sound (p i) := Pool.run_sound hp i
  rw [parse_of_layout hs, Option.bind_some, trie?_trie]
  constructor
  · intro hdepth
    refine ⟨(p i).forget, if_pos hdepth, ?_, Trie.memo_forget _, ?_⟩
    · rw [Trie.same_iff_forget_eq, Trie.forget_forget]
    · rw [Trie.hash_eq_rootHash_forget (Trie.sound_forget _), Trie.forget_forget,
        Trie.hash_eq_rootHash_forget hsound]
  · intro hdepth
    exact if_neg (Nat.not_lt.2 hdepth)

end

/-! ## Combs -/

/-- A tooth of a comb. -/
def tooth : Trie := .leaf .empty [1] none

/-- Branches in a row, with a tooth beside each of them and one at the end. -/
def comb : Nat → Trie
  | 0 => tooth
  | n + 1 => .branch (fun i => if i = 0 then comb n else if i = 1 then tooth else .empty) [] none

theorem depth_comb (n : Nat) : (trie (comb n)).depth = 4 * n + 4 := by
  induction n with
  | zero => exact depth_leaf _ _ _
  | succ n ih =>
    have hiff (d : Nat) : (trie (comb (n + 1))).depth ≤ d + 4 ↔ 4 * n + 4 ≤ d := by
      rw [comb, depth_branch_le_iff]
      constructor
      · intro hall
        have := hall 0
        rwa [if_pos rfl, ih] at this
      · intro hle i
        have htooth : (trie tooth).depth = 4 := depth_leaf _ _ _
        have hempty : (trie .empty).depth = 1 := rfl
        split_ifs <;> omega
    have hle := (hiff (4 * n + 4)).2 (Nat.le_refl _)
    have hnot := mt (hiff (4 * n + 3)).1 (by omega)
    omega

theorem reaches_comb [Hasher] (n : Nat) :
    Relation.ReflTransGen Pool.Step (fun _ : Unit => .empty) (fun _ => comb n) := by
  have hassembled : Pool.Assembled (fun _ : Unit => .empty) (comb n) := by
    induction n with
    | zero => exact .leaf _ _
    | succ n ih =>
      refine .branch _ fun i => ?_
      split_ifs
      · exact ih
      · exact .leaf _ _
      · exact .empty
  have hmake := Pool.Step.make () hassembled
  have hupdate : Function.update (fun _ : Unit => Trie.empty) () (comb n) = fun _ => comb n := by
    funext u
    rfl
  rw [hupdate] at hmake
  exact .single hmake

/-- A trie with 30 branches in a row is read back. -/
theorem forms_read_back_comb :
    Relation.ReflTransGen Pool.Step (fun _ : Unit => .empty) (fun _ => comb 30) ∧
    ∃ t, (parse (render (trie (comb 30)))).bind trie? = some t ∧ t.same (comb 30) = true ∧
      t.memo = none ∧ t.hash.1 = (comb 30).hash.1 := by
  have hdepth : (trie (comb 30)).depth < maxDepth := by
    rw [depth_comb]
    decide
  obtain ⟨-, -, -, -, htries⟩ := forms_read_back (reaches_comb 30)
  obtain ⟨hlayout, hread⟩ := htries ()
  exact ⟨reaches_comb 30, (hread _ hlayout).1 hdepth⟩

/-- The text of a trie with 31 branches in a row is refused. -/
theorem comb_not_read_back :
    Relation.ReflTransGen Pool.Step (fun _ : Unit => .empty) (fun _ => comb 31) ∧
    ¬∃ t, (parse (render (trie (comb 31)))).bind trie? = some t := by
  refine ⟨reaches_comb 31, ?_⟩
  have hread : (parse (render (trie (comb 31)))).bind trie? = none := by
    rw [parse_of_layout (layout_render (plain_trie _)), Option.bind_some, trie?_trie, depth_comb]
    decide
  rw [hread]
  rintro ⟨t, ht⟩
  cases ht

end Json

end Stateless
