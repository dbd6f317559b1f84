import Stateless.Proofs.Trie.Canonical

/-!
# Removal

A removal from a canonical trie is refused exactly where a lookup of the same key runs into a hidden
part, and then names the same hash. Otherwise it answers what the lookup answers, the result is
canonical again, and of its answers only the one for the key has changed. In particular joining
fragments never meets an empty part and never makes a path too long.

While a removal goes on, an extension at the root may stand above any part that is not empty; such
a trie is `Unsettled`, and `settle` makes it canonical.
-/

namespace Stateless

namespace Children

theorem mem_positions {p : Nibble → Bool} {i : Nibble} : i ∈ positions p ↔ p i = true := by
  simp [positions]

theorem nodup_positions (p : Nibble → Bool) : (positions p).Nodup :=
  (List.nodup_finRange 16).filter _

end Children

namespace Trie

variable {t t' c : Trie} {k : Path} {n : Nat}

/-- Like `Canonical`, but an extension at the root may lead to any part that is not empty. -/
def Unsettled (n : Nat) : Trie → Prop
  | .extension f c _ => f.toList ≠ [] ∧ f.length ≤ n ∧ c ≠ .empty ∧ Canonical (n - f.length) c
  | t => Canonical n t

theorem Canonical.unsettled (h : Canonical n t) : Unsettled n t := by
  cases t with
  | extension f c m => exact ⟨h.1, h.2.1, h.2.2.1.ne_empty, h.2.2.2⟩
  | _ => exact h

/-! ## Removal step by step -/

/-- What a removal behind a run of nibbles answers. -/
theorem detach_extension_eq_ok_iff {f : Path} {m : Option Word} {r : Option (Trie × Bytes)} :
    (Trie.extension f c m).detach k = .ok r ↔
      (¬ k.startsWith f = true ∧ r = none) ∨
      (k.startsWith f = true ∧ c.detach (k.drop f.length) = .ok none ∧ r = none) ∨
      ∃ c' v t', k.startsWith f = true ∧ c.detach (k.drop f.length) = .ok (some (c', v)) ∧
        join f c' = .ok t' ∧ r = some (t', v) := by
  constructor
  · intro h
    rw [detach] at h
    split at h
    · next hst =>
      cases hd : c.detach (k.drop f.length) with
      | error e => simp [hd, bind, Except.bind] at h
      | ok o =>
        rw [hd] at h
        cases o with
        | none => exact Or.inr (Or.inl ⟨hst, rfl, (Except.ok.inj h).symm⟩)
        | some p =>
          obtain ⟨c', v⟩ := p
          cases hj : join f c' with
          | error e => simp [hj, bind, Except.bind] at h
          | ok t' =>
            simp only [hj, bind, Except.bind, pure, Except.pure, Except.ok.injEq] at h
            exact Or.inr (Or.inr ⟨c', v, t', hst, rfl, hj, h.symm⟩)
    · next hst => exact Or.inl ⟨hst, (Except.ok.inj h).symm⟩
  · rintro (⟨hst, rfl⟩ | ⟨hst, hd, rfl⟩ | ⟨c', v, t', hst, hd, hj, rfl⟩)
    · simp [detach, hst]
    · simp [detach, hst, hd, bind, Except.bind, pure, Except.pure]
    · simp [detach, hst, hd, hj, bind, Except.bind, pure, Except.pure]

/-- What a removal from a branch answers. -/
theorem detach_branch_eq_ok_iff {cs : Nibble → Trie} {v : Bytes} {m : Option Word}
    {r : Option (Trie × Bytes)} :
    (Trie.branch cs v m).detach k = .ok r ↔
      (k.toList = [] ∧ r = if v.isEmpty then none else some (unvalue cs, v)) ∨
      ∃ d rest, k.toList = d :: rest.toList ∧ (((cs d).detach rest = .ok none ∧ r = none) ∨
        ∃ c w t', (cs d).detach rest = .ok (some (c, w)) ∧ shrink cs v d c = .ok t' ∧
          r = some (t', w)) := by
  constructor
  · intro h
    rw [detach] at h
    cases hu : k.uncons with
    | none =>
      simp only [hu] at h
      exact Or.inl ⟨Path.uncons_eq_none_iff.1 hu, (Except.ok.inj h).symm⟩
    | some x =>
      obtain ⟨d, rest⟩ := x
      simp only [hu] at h
      refine Or.inr ⟨d, rest, Path.uncons_eq_some_iff.1 hu, ?_⟩
      cases hd : (cs d).detach rest with
      | error e => simp [hd, bind, Except.bind] at h
      | ok o =>
        rw [hd] at h
        cases o with
        | none => exact Or.inl ⟨rfl, (Except.ok.inj h).symm⟩
        | some p =>
          obtain ⟨c, w⟩ := p
          cases hs : shrink cs v d c with
          | error e => simp [hs, bind, Except.bind] at h
          | ok t' =>
            simp only [hs, bind, Except.bind, pure, Except.pure, Except.ok.injEq] at h
            exact Or.inr ⟨c, w, t', rfl, hs, h.symm⟩
  · rintro (⟨hk, rfl⟩ | ⟨d, rest, hk, ⟨hd, rfl⟩ | ⟨c, w, t', hd, hs, rfl⟩⟩)
    · rw [detach, Path.uncons_eq_none_iff.2 hk]
    · simp [detach, Path.uncons_eq_some_iff.2 hk, hd, bind, Except.bind, pure, Except.pure]
    · simp [detach, Path.uncons_eq_some_iff.2 hk, hd, hs, bind, Except.bind, pure, Except.pure]

/-! ## Joining fragments -/

/-- What may stand below an extension is left as it is, except for the memo of a branch. -/
theorem join_stem {f : Path} (hc : c.IsStem) :
    join f c = .ok (.extension f c.forgetRoot none) := by
  cases c with
  | hidden h => rfl
  | branch cs v memo => rfl
  | _ => simp [IsStem, kind] at hc

/-- Joining a run of nibbles with a canonical part. -/
theorem join_canonical {f : Path} {m : Nat} (hn : n ≤ maxNibbles) (hf : f.toList ≠ [])
    (hc : Canonical m c) (hne : c ≠ .empty) (hle : f.length + m ≤ n) :
    ∃ t, join f c = .ok t ∧ Canonical n t ∧ t.view = under f.toList c.view ∧ t ≠ .empty := by
  cases c with
  | empty => exact absurd rfl hne
  | hidden h =>
    exact ⟨_, rfl, ⟨hf, by omega, isStem_hidden h, trivial⟩, rfl, fun h => by cases h⟩
  | branch cs v memo =>
    exact ⟨_, rfl, ⟨hf, by omega, isStem_branch cs v none, (hc.withMemo none).mono (by omega)⟩,
      rfl, fun h => by cases h⟩
  | leaf g v memo =>
    obtain ⟨hg, hv⟩ := hc
    obtain ⟨fg, hfg, hl⟩ := Path.append_eq_ok (p := f) (q := g) (by omega)
    have hlen := congrArg List.length hl
    simp only [List.length_append, Path.length_toList] at hlen
    refine ⟨.leaf fg v none, by simp [join, hfg], ⟨by omega, hv⟩, ?_, fun h => by cases h⟩
    rw [view_leaf, view_leaf, hl, under_append]
  | extension g b memo =>
    obtain ⟨hg, hgl, hs, hb⟩ := hc
    obtain ⟨fg, hfg, hl⟩ := Path.append_eq_ok (p := f) (q := g) (by omega)
    have hlen := congrArg List.length hl
    simp only [List.length_append, Path.length_toList] at hlen
    refine ⟨.extension fg b.forgetRoot none, by simp [join, hfg, join_stem hs],
      ⟨by simp [hl, hf], by omega, hs.forgetRoot, (hb.withMemo none).mono (by omega)⟩, ?_,
      fun h => by cases h⟩
    rw [view_extension, view_extension, forgetRoot, withMemo_view, hl, under_append]

/-- Joining a run of nibbles with an unsettled part. -/
theorem join_unsettled {f : Path} {m : Nat} (hn : n ≤ maxNibbles) (hf : f.toList ≠ [])
    (hc : Unsettled m c) (hne : c ≠ .empty) (hle : f.length + m ≤ n) :
    ∃ t, join f c = .ok t ∧ Canonical n t ∧ t.view = under f.toList c.view ∧ t ≠ .empty := by
  cases c with
  | extension g b memo =>
    obtain ⟨hg, hgl, hbne, hb⟩ := hc
    obtain ⟨fg, hfg, hl⟩ := Path.append_eq_ok (p := f) (q := g) (by omega)
    have hlen := congrArg List.length hl
    simp only [List.length_append, Path.length_toList] at hlen
    obtain ⟨t, ht, hcan, hview, htne⟩ :=
      join_canonical (f := fg) hn (by simp [hl, hf]) hb hbne (by omega)
    refine ⟨t, by simp [join, hfg, ht], hcan, ?_, htne⟩
    rw [hview, view_extension, hl, under_append]
  | _ => exact join_canonical hn hf hc hne hle

theorem settle_unsettled (hn : n ≤ maxNibbles) (ht : Unsettled n t) :
    ∃ t', settle t = .ok t' ∧ Canonical n t' ∧ t'.view = t.view ∧ (t ≠ .empty → t' ≠ .empty) := by
  cases t with
  | extension f c memo =>
    obtain ⟨hf, hfl, hne, hc⟩ := ht
    obtain ⟨t', ht', hcan, hview, hne'⟩ := join_canonical hn hf hc hne (by omega)
    exact ⟨t', ht', hcan, hview, fun _ => hne'⟩
  | _ => exact ⟨_, rfl, ht, rfl, id⟩

/-! ## Branches that lose an occupant -/

/-- What is left of a branch whose child under `d` was changed. -/
theorem shrink_cases (cs : Nibble → Trie) (v : Bytes) (d : Nibble) (c : Trie) :
    (c = .empty ∧ (∀ i, i ≠ d → cs i = .empty) ∧ v = [] ∧ shrink cs v d c = .ok .empty) ∨
    (c = .empty ∧ (∀ i, i ≠ d → cs i = .empty) ∧ v ≠ [] ∧
      shrink cs v d c = .ok (.leaf .empty v none)) ∨
    (∃ i, i ≠ d ∧ c = .empty ∧ cs i ≠ .empty ∧ (∀ j, j ≠ d → j ≠ i → cs j = .empty) ∧ v = [] ∧
      shrink cs v d c = .ok (.extension (.single i) (cs i) none)) ∨
    ((c ≠ .empty ∨ ∃ i, i ≠ d ∧ cs i ≠ .empty ∧ (v ≠ [] ∨ ∃ j, j ≠ d ∧ j ≠ i ∧ cs j ≠ .empty)) ∧
      shrink cs v d c = (settle c).map fun c' => fork (Children.set cs d c') v) := by
  have hmem : ∀ i, i ∈ Children.positions (fun i => decide (i ≠ d) && !(cs i).isEmpty) ↔
      i ≠ d ∧ cs i ≠ .empty := by
    intro i
    rw [Children.mem_positions]
    simp [isEmpty_eq_false_iff]
  have hnd := Children.nodup_positions fun i => decide (i ≠ d) && !(cs i).isEmpty
  have hkeep : ∀ o : Attempt TrieError Trie,
      (do return fork (Children.set cs d (← o)) v) =
        o.map fun c' => fork (Children.set cs d c') v := by
    intro o
    cases o <;> rfl
  unfold shrink
  generalize Children.positions (fun i => decide (i ≠ d) && !(cs i).isEmpty) = others at hmem hnd
  by_cases hc : c = .empty
  · subst hc
    cases others with
    | nil =>
      have hnone : ∀ i, i ≠ d → cs i = .empty := fun i hi =>
        not_not.1 fun hne => List.not_mem_nil ((hmem i).2 ⟨hi, hne⟩)
      cases v with
      | nil => exact Or.inl ⟨rfl, hnone, rfl, rfl⟩
      | cons x v => exact Or.inr (Or.inl ⟨rfl, hnone, by simp, rfl⟩)
    | cons i others =>
      obtain ⟨hid, hi⟩ := (hmem i).1 List.mem_cons_self
      cases others with
      | nil =>
        cases v with
        | nil =>
          refine Or.inr (Or.inr (Or.inl ⟨i, hid, rfl, hi, fun j hjd hji => ?_, rfl, rfl⟩))
          exact not_not.1 fun hne => hji (List.mem_singleton.1 ((hmem j).2 ⟨hjd, hne⟩))
        | cons x v =>
          exact Or.inr (Or.inr (Or.inr ⟨Or.inr ⟨i, hid, hi, Or.inl (by simp)⟩, hkeep _⟩))
      | cons j others =>
        obtain ⟨hjd, hj⟩ := (hmem j).1 (List.mem_cons_of_mem _ List.mem_cons_self)
        have hij : j ≠ i := by
          rintro rfl
          simp at hnd
        exact Or.inr (Or.inr (Or.inr ⟨Or.inr ⟨i, hid, hi, Or.inr ⟨j, hjd, hij, hj⟩⟩, hkeep _⟩))
  · have he : c.isEmpty = false := isEmpty_eq_false_iff.2 hc
    rw [he]
    exact Or.inr (Or.inr (Or.inr ⟨Or.inl hc, hkeep _⟩))

/-- What is left of a branch that lost its value. -/
theorem unvalue_cases (cs : Nibble → Trie) :
    (∃ i, cs i ≠ .empty ∧ (∀ j, j ≠ i → cs j = .empty) ∧
      unvalue cs = .extension (.single i) (cs i) none) ∨
    ((∀ i, cs i = .empty) ∨ ∃ i j, j ≠ i ∧ cs i ≠ .empty ∧ cs j ≠ .empty) ∧
      unvalue cs = .branch cs [] none := by
  have hmem : ∀ i, i ∈ Children.positions (fun i => !(cs i).isEmpty) ↔ cs i ≠ .empty := by
    intro i
    rw [Children.mem_positions]
    simp [isEmpty_eq_false_iff]
  have hnd := Children.nodup_positions fun i => !(cs i).isEmpty
  unfold unvalue
  generalize Children.positions (fun i => !(cs i).isEmpty) = taken at hmem hnd
  cases taken with
  | nil =>
    have hnone : ∀ i, cs i = .empty := fun i => not_not.1 fun hne => List.not_mem_nil ((hmem i).2 hne)
    exact Or.inr ⟨Or.inl hnone, rfl⟩
  | cons i taken =>
    have hi := (hmem i).1 List.mem_cons_self
    cases taken with
    | nil =>
      refine Or.inl ⟨i, hi, fun j hji => ?_, rfl⟩
      exact not_not.1 fun hne => hji (List.mem_singleton.1 ((hmem j).2 hne))
    | cons j taken =>
      have hj := (hmem j).1 (List.mem_cons_of_mem _ List.mem_cons_self)
      have hij : j ≠ i := by
        rintro rfl
        simp at hnd
      exact Or.inr ⟨Or.inr ⟨i, j, hij, hi, hj⟩, rfl⟩

/-- A branch of which one child was replaced and that still has two occupants. -/
theorem canonical_shrunk {cs : Nibble → Trie} {v : Bytes} {m : Option Word} {d : Nibble}
    {c c' : Trie} (ht : Canonical n (.branch cs v m)) (hc' : Canonical (n - 1) c')
    (hne : c ≠ .empty → c' ≠ .empty)
    (hcrowd : c ≠ .empty ∨
      ∃ i, i ≠ d ∧ cs i ≠ .empty ∧ (v ≠ [] ∨ ∃ j, j ≠ d ∧ j ≠ i ∧ cs j ≠ .empty)) :
    Canonical n (fork (Children.set cs d c') v) := by
  rcases hcrowd with hc | ⟨i, hid, hi, hother⟩
  · exact canonical_fork_set ht hc' (hne hc)
  · refine ⟨ht.1, ⟨i, by simpa [hid] using hi, hother.imp_right ?_⟩, fun j => ?_⟩
    · rintro ⟨j, hjd, hji, hj⟩
      exact ⟨j, hji, by simpa [hjd] using hj⟩
    · rw [Children.get_set]
      split
      · exact hc'
      · exact ht.2.2 j

/-- The answers of a branch below one child of which nothing but a single other child is left. -/
theorem view_single_of_empty {cs : Nibble → Trie} {m : Option Word} {d i : Nibble}
    {l : List Nibble} (hid : i ≠ d)
    (hnone : Function.update (cs d).view l (.ok none) = fun _ => .ok none)
    (hothers : ∀ j, j ≠ d → j ≠ i → cs j = .empty) :
    under [i] (cs i).view = Function.update (branch cs [] m).view (d :: l) (.ok none) := by
  funext l'
  cases l' with
  | nil => simp [under]
  | cons j l' =>
    by_cases hji : j = i
    · subst hji
      simp [under, hid]
    · by_cases hjd : j = d
      · subst hjd
        have := congrFun hnone l'
        simpa [under, hji, Function.update_apply, eq_comm] using this
      · simp [under, hji, hjd, hothers j hjd hji]

/-- A branch that loses its value is still unsettled at worst. -/
theorem unvalue_canonical {cs : Nibble → Trie} {v : Bytes} {m : Option Word}
    (ht : Canonical n (.branch cs v m)) :
    Unsettled n (unvalue cs) ∧
      (unvalue cs).view = Function.update (branch cs v m).view [] (.ok none) ∧
      unvalue cs ≠ .empty := by
  obtain ⟨h1, ⟨i, hi, -⟩, hcs⟩ := ht
  rcases unvalue_cases cs with ⟨j, hj, hothers, hun⟩ | ⟨hcases, hun⟩
  · rw [hun]
    refine ⟨⟨by simp, by simpa using h1, hj, hcs j⟩, ?_, fun h => by cases h⟩
    funext l
    cases l with
    | nil => simp [view_extension, under]
    | cons j' l =>
      by_cases hjj : j' = j
      · simp [view_extension, under, hjj]
      · simp [view_extension, under, hjj, hothers j' hjj]
  · rw [hun]
    refine ⟨?_, ?_, fun h => by cases h⟩
    · rcases hcases with hnone | ⟨a, b, hba, ha, hb⟩
      · exact absurd (hnone i) hi
      · exact ⟨h1, ⟨a, ha, Or.inr ⟨b, hba, hb⟩⟩, hcs⟩
    · funext l
      cases l with
      | nil => simp
      | cons j' l => simp

/-- A branch whose child under `d` lost the answer to a list can be made smaller accordingly. -/
theorem shrink_canonical {cs : Nibble → Trie} {v : Bytes} {m : Option Word} {d : Nibble}
    {l : List Nibble} (hn : n ≤ maxNibbles) (ht : Canonical n (.branch cs v m))
    (hc : Unsettled (n - 1) c) (hview : c.view = Function.update (cs d).view l (.ok none)) :
    ∃ t', shrink cs v d c = .ok t' ∧ Unsettled n t' ∧
      t'.view = Function.update (branch cs v m).view (d :: l) (.ok none) ∧ t' ≠ .empty := by
  obtain ⟨h1, ⟨i, hi, hother⟩, hcs⟩ := id ht
  rcases shrink_cases cs v d c with ⟨hce, hnone, hv, hs⟩ | ⟨hce, hnone, hv, hs⟩ |
    ⟨j, hjd, hce, hj, hnone, hv, hs⟩ | ⟨hcrowd, hs⟩
  · -- a branch with nothing besides the child under `d` had only one occupant
    exfalso
    by_cases hid : i = d
    · rcases hother with hne | ⟨j, hji, hj⟩
      · exact hne hv
      · exact hj (hnone j (hid ▸ hji))
    · exact hi (hnone i hid)
  · refine ⟨_, hs, ⟨by simp [Path.empty, Path.length], hv⟩, ?_, fun h => by cases h⟩
    rw [hce] at hview
    funext l'
    cases l' with
    | nil => simp [view_leaf, onlyHere, hv]
    | cons i' l' =>
      by_cases hid : i' = d
      · subst hid
        have := congrFun hview l'
        simpa [view_leaf, onlyHere, Function.update_apply] using this
      · simp [view_leaf, onlyHere, hid, hnone i' hid]
  · refine ⟨_, hs, ⟨by simp, by simpa using h1, hj, hcs j⟩, ?_, fun h => by cases h⟩
    rw [hce] at hview
    subst hv
    exact view_single_of_empty hjd hview.symm hnone
  · obtain ⟨c', hset, hcan, hsview, hsne⟩ := settle_unsettled (by omega) hc
    rw [hset] at hs
    exact ⟨_, hs, (canonical_shrunk ht hcan hsne hcrowd).unsettled,
      view_fork_set (hsview.trans hview), fun h => by cases h⟩

/-- What a removal does, told by what a lookup answers. -/
theorem detach_answer (hn : n ≤ maxNibbles) (ht : Canonical n t) (k : Path) :
    match t.view k.toList with
    | .error h => t.detach k = .error (.error (.removeHidden h))
    | .ok none => t.detach k = .ok none
    | .ok (some v) => ∃ t', t.detach k = .ok (some (t', v)) ∧ Unsettled n t' ∧
        t'.view = Function.update t.view k.toList (.ok none) ∧ (t.IsStem → t' ≠ .empty) := by
  induction t generalizing n k with
  | empty => rfl
  | hidden h => rfl
  | leaf f v m =>
    rw [view_leaf_apply]
    by_cases hk : k = f
    · subst hk
      simp only [if_true]
      refine ⟨.empty, by simp [detach], trivial, ?_, fun hs => by simp [IsStem, kind] at hs⟩
      rw [view_leaf, onlyHere_eq_update, under_update, List.append_nil, Function.update_idem,
        under_none, update_none_of_eq rfl]
      rfl
    · have hl : k.toList ≠ f.toList := fun h => hk (Path.ext h)
      simp [hl, detach, Ne.symm hk]
  | extension f c m ih =>
    obtain ⟨hf, hfl, hs, hc⟩ := ht
    rw [view_extension]
    by_cases hst : k.startsWith f = true
    · rw [← Path.append_drop_of_startsWith hst, under_front]
      have hrec := ih (n := n - f.length) (by omega) hc (k.drop f.length)
      cases ha : c.view (k.drop f.length).toList with
      | error h =>
        rw [ha] at hrec
        simp [detach, hst, hrec, bind, Except.bind]
      | ok o =>
        rw [ha] at hrec
        cases o with
        | none => simp [detach, hst, hrec, bind, Except.bind, pure, Except.pure]
        | some v =>
          obtain ⟨c', hdet, hun, hview, hne⟩ := hrec
          obtain ⟨t', hjoin, hcan, hjview, hjne⟩ :=
            join_unsettled (f := f) hn hf hun (hne hs) (by omega)
          refine ⟨t', ?_, hcan.unsettled, ?_, fun _ => hjne⟩
          · simp [detach, hst, hdet, hjoin, bind, Except.bind, pure, Except.pure]
          · rw [hjview, hview, under_update]
    · rw [under_off _ (fun h => hst (Path.startsWith_iff.2 h))]
      simp [detach, hst]
  | branch cs v m ih =>
    cases hu : k.uncons with
    | none =>
      rw [Path.uncons_eq_none_iff.1 hu, view_branch_nil]
      by_cases hv : v = []
      · simp [detach, hu, hv]
      · have hve : v.isEmpty = false := by simpa using hv
        simp only [hve, Bool.false_eq_true, if_false]
        obtain ⟨hun, hview, hne⟩ := unvalue_canonical ht
        exact ⟨unvalue cs, by simp [detach, hu, hv], hun, hview, fun _ => hne⟩
    | some r =>
      obtain ⟨d, rest⟩ := r
      rw [Path.uncons_eq_some_iff.1 hu, view_branch_cons]
      have hrec := ih d (n := n - 1) (by omega) (ht.2.2 d) rest
      cases ha : (cs d).view rest.toList with
      | error h =>
        rw [ha] at hrec
        simp [detach, hu, hrec, bind, Except.bind]
      | ok o =>
        rw [ha] at hrec
        cases o with
        | none => simp [detach, hu, hrec, bind, Except.bind, pure, Except.pure]
        | some w =>
          obtain ⟨c, hdet, hun, hview, -⟩ := hrec
          obtain ⟨t', hs, hun', hview', hne⟩ := shrink_canonical hn ht hun hview
          refine ⟨t', ?_, hun', hview', fun _ => hne⟩
          simp [detach, hu, hdet, hs, bind, Except.bind, pure, Except.pure]

/-- What a removal leaves behind is canonical once it is settled. -/
theorem settle_canonical {v : Bytes} (hn : n ≤ maxNibbles) (ht : Canonical n t)
    (hdet : t.detach k = .ok (some (c, v))) (hset : settle c = .ok t') : Canonical n t' := by
  have hspec := detach_answer hn ht k
  rw [hdet] at hspec
  split at hspec
  · cases hspec
  · simp at hspec
  · obtain ⟨s, hs, hun, -⟩ := hspec
    obtain ⟨rfl, rfl⟩ := Prod.mk.inj (Option.some.inj (Except.ok.inj hs))
    obtain ⟨t'', hset', hcan, -⟩ := settle_unsettled hn hun
    obtain rfl := Except.ok.inj (hset'.symm.trans hset)
    exact hcan

/-- Removing a key answers what a lookup answers and takes the answer away. -/
theorem remove_answer (hn : n ≤ maxNibbles) (ht : Canonical n t) (k : Path) :
    match t.view k.toList with
    | .error h => (t.remove k).1 = .error (.error (.removeHidden h))
    | .ok a => ∃ t', t.remove k = (.ok a, t') ∧ Canonical n t' ∧
        t'.view = Function.update t.view k.toList (.ok none) := by
  have hspec := detach_answer hn ht k
  cases ha : t.view k.toList with
  | error h =>
    rw [ha] at hspec
    simp [remove, hspec]
  | ok a =>
    rw [ha] at hspec
    cases a with
    | none =>
      refine ⟨t.forgetRoot, by simp [remove, hspec], ht.withMemo none, ?_⟩
      rw [update_none_of_eq ha]
      exact withMemo_view t none
    | some v =>
      obtain ⟨s, hs, hun, hview, -⟩ := hspec
      obtain ⟨t', hset, hcan, hview', -⟩ := settle_unsettled hn hun
      exact ⟨t', by simp [remove, hs, hset], hcan, hview'.trans hview⟩

end Trie

end Stateless
