import Stateless.Proofs.Trie.Canonical

/-!
# Insertion

An insertion into a canonical trie is refused exactly where a lookup of the same key runs into a
hidden part, and then names the same hash. Otherwise the result is canonical again, and of its
answers only the one for the key has changed.
-/

namespace Stateless

namespace Trie

variable {t t' : Trie} {k : Path} {n : Nat}

theorem valueOf_eq_ok_iff {e : Entry} {v : Bytes} : valueOf e = .ok v ↔ e = .value v := by
  cases e <;> simp [valueOf]

/-- What insertion makes of a branch. -/
theorem insert_branch_eq_ok {cs : Nibble → Trie} {v : Bytes} {m : Option Word} {e : Entry}
    (h : (branch cs v m).insert k e = .ok t') :
    (k.toList = [] ∧ ∃ w, e = .value w ∧ t' = .branch cs w none) ∨
    ∃ d rest c, k.toList = d :: rest.toList ∧ (cs d).insert rest e = .ok c ∧
      t' = fork (Children.set cs d c) v := by
  rw [insert] at h
  cases hu : k.uncons with
  | none =>
    rw [hu] at h
    cases hw : valueOf e with
    | error r => simp [hw, bind, Except.bind] at h
    | ok w =>
      simp only [hw, bind, Except.bind, pure, Except.pure, Except.ok.injEq] at h
      exact Or.inl ⟨Path.uncons_eq_none_iff.1 hu, w, valueOf_eq_ok_iff.1 hw, h.symm⟩
  | some a =>
    obtain ⟨d, rest⟩ := a
    rw [hu] at h
    cases hc : (cs d).insert rest e with
    | error r => simp [hc, bind, Except.bind] at h
    | ok c =>
      simp only [hc, bind, Except.bind, pure, Except.pure, Except.ok.injEq] at h
      exact Or.inr ⟨d, rest, c, Path.uncons_eq_some_iff.1 hu, hc, h.symm⟩

/-- What insertion makes of a leaf or an extension whose fragment `f` goes on where the key ends or
parts from it; `part below` is what is left of the node behind the rest `below` of its fragment. -/
inductive Split (f k : Path) (e : Entry) (part : Path → Trie) : Trie → Prop where
  /-- The key ends within the fragment, so its value moves into a new branch. -/
  | stop (d : Nibble) (below : Path) (w : Bytes) (hf : f.toList = k.toList ++ d :: below.toList)
      (he : e = .value w) : Split f k e part (behind k (fork (only d (part below)) w))
  /-- The key parts from the fragment, so a new branch leads to both. -/
  | part (p : Path) (d : Nibble) (below : Path) (d' : Nibble) (rest : Path) (hd : d ≠ d')
      (hf : f.toList = p.toList ++ d :: below.toList)
      (hk : k.toList = p.toList ++ d' :: rest.toList) :
      Split f k e part
        (behind p (fork (Children.set (only d (part below)).get d' (plant rest e)) []))

/-- What insertion makes of a leaf. -/
theorem insert_leaf_eq_ok {f : Path} {v : Bytes} {m : Option Word} {e : Entry}
    (h : (leaf f v m).insert k e = .ok t') :
    (k = f ∧ ∃ w, e = .value w ∧ t' = .leaf f w none) ∨
    (∃ d rest, k.toList = f.toList ++ d :: rest.toList ∧
      t' = behind f (fork (only d (plant rest e)) v)) ∨
    Split f k e (fun below => .leaf below v none) t' := by
  rw [insert] at h
  rcases Path.meet_cases f k with ⟨hl, hcommon, hk⟩ | ⟨d, below, hl, hr, hcommon, hf⟩ |
    ⟨d, below, d', rest, hl, hr, hd, hf, hk⟩
  · cases hr : (f.meet k).right.uncons with
    | none =>
      rw [Path.uncons_eq_none_iff.1 hr, List.append_nil] at hk
      cases hw : valueOf e with
      | error r => simp [hl, hr, hw, bind, Except.bind] at h
      | ok w =>
        simp only [hl, hr, hw, bind, Except.bind, pure, Except.pure, Except.ok.injEq] at h
        exact Or.inl ⟨Path.ext hk, w, valueOf_eq_ok_iff.1 hw, h.symm⟩
    | some a =>
      obtain ⟨d, rest⟩ := a
      rw [Path.uncons_eq_some_iff.1 hr] at hk
      simp only [hl, hr, hcommon, Except.ok.injEq] at h
      exact Or.inr (Or.inl ⟨d, rest, hk, h.symm⟩)
  · cases hw : valueOf e with
    | error r => simp [hl, hr, hw, bind, Except.bind] at h
    | ok w =>
      simp only [hl, hr, hw, hcommon, bind, Except.bind, pure, Except.pure, Except.ok.injEq] at h
      subst h
      exact Or.inr (Or.inr (.stop d below w hf (valueOf_eq_ok_iff.1 hw)))
  · simp only [hl, hr, Except.ok.injEq] at h
    subst h
    exact Or.inr (Or.inr (.part _ d below d' rest hd hf hk))

/-- What insertion makes of an extension. -/
theorem insert_extension_eq_ok {f : Path} {c : Trie} {m : Option Word} {e : Entry}
    (h : (extension f c m).insert k e = .ok t') :
    (∃ rest c', k.toList = f.toList ++ rest.toList ∧ c.insert rest e = .ok c' ∧
      t' = .extension f c' none) ∨
    Split f k e (fun below => behind below c) t' := by
  rw [insert] at h
  rcases Path.meet_cases f k with ⟨hl, hcommon, hk⟩ | ⟨d, below, hl, hr, hcommon, hf⟩ |
    ⟨d, below, d', rest, hl, hr, hd, hf, hk⟩
  · cases hc : c.insert (f.meet k).right e with
    | error r => simp [hl, hc, bind, Except.bind] at h
    | ok c' =>
      simp only [hl, hc, bind, Except.bind, pure, Except.pure, Except.ok.injEq] at h
      exact Or.inl ⟨_, c', hk, hc, h.symm⟩
  · cases hw : valueOf e with
    | error r => simp [hl, hr, hw, bind, Except.bind] at h
    | ok w =>
      simp only [hl, hr, hw, hcommon, bind, Except.bind, pure, Except.pure, Except.ok.injEq] at h
      subst h
      exact Or.inr (.stop d below w hf (valueOf_eq_ok_iff.1 hw))
  · simp only [hl, hr, Except.ok.injEq] at h
    subst h
    exact Or.inr (.part _ d below d' rest hd hf hk)

/-! ## The shape of the result -/

theorem Split.canonical {f : Path} {e : Entry} {part : Path → Trie} (h : Split f k e part t')
    (he : e.Solid) (hf : f.length ≤ n) (hk : k.length ≤ n)
    (hpart : ∀ p d below, f.toList = p ++ d :: below.toList →
      Canonical (n - p.length - 1) (part below) ∧ part below ≠ .empty) :
    Canonical n t' ∧ t' ≠ .empty := by
  cases h with
  | stop d below w hfk hw =>
    subst hw
    have hlen := congrArg List.length hfk
    simp only [List.length_append, List.length_cons, Path.length_toList] at hlen
    obtain ⟨hc, hne⟩ := hpart _ d below hfk
    simp only [Path.length_toList] at hc
    exact ⟨canonical_behind (canonical_fork_only hc hne he) (isStem_branch _ _ _) (by omega),
      behind_ne_empty (isStem_branch _ _ _).ne_empty⟩
  | part p d below d' rest hd hfp hkp =>
    have hlen := congrArg List.length hfp
    have hlenk := congrArg List.length hkp
    simp only [List.length_append, List.length_cons, Path.length_toList] at hlen hlenk
    obtain ⟨hc, hne⟩ := hpart _ d below hfp
    simp only [Path.length_toList] at hc
    have hplant : Canonical (n - p.length - 1) (plant rest e) := canonical_plant he (by omega)
    exact ⟨canonical_behind (canonical_fork_pair hd hc hne hplant (plant_ne_empty rest e))
      (isStem_branch _ _ _) (by omega), behind_ne_empty (isStem_branch _ _ _).ne_empty⟩

/-- Insertion keeps canonical form, and what could stand below an extension still can. -/
theorem insert_canonical {e : Entry} (ht : Canonical n t) (hk : k.length ≤ n) (he : e.Solid)
    (h : t.insert k e = .ok t') :
    Canonical n t' ∧ t' ≠ .empty ∧ (t.IsStem → t'.IsStem) := by
  induction t generalizing k n t' with
  | empty =>
    obtain rfl := Except.ok.inj h
    exact ⟨canonical_plant he hk, plant_ne_empty k e, fun hs => absurd rfl hs.ne_empty⟩
  | hidden d => cases h
  | leaf f v m =>
    obtain ⟨hf, hv⟩ := ht
    have hstem : (leaf f v m).IsStem → t'.IsStem := fun hs => by simp [IsStem, kind] at hs
    rcases insert_leaf_eq_ok h with ⟨rfl, w, rfl, rfl⟩ | ⟨d, rest, hkf, rfl⟩ | hsplit
    · exact ⟨⟨hk, he⟩, (fun h => by cases h), hstem⟩
    · have hlen := congrArg List.length hkf
      simp only [List.length_append, List.length_cons, Path.length_toList] at hlen
      have hplant : Canonical (n - f.length - 1) (plant rest e) := canonical_plant he (by omega)
      exact ⟨canonical_behind (canonical_fork_only hplant (plant_ne_empty rest e) hv)
        (isStem_branch _ _ _) (by omega), behind_ne_empty (isStem_branch _ _ _).ne_empty, hstem⟩
    · obtain ⟨hc, hne⟩ := hsplit.canonical he hf hk fun p d below hfp => by
        have hlen := congrArg List.length hfp
        simp only [List.length_append, List.length_cons, Path.length_toList] at hlen
        exact ⟨⟨by omega, hv⟩, fun h => by cases h⟩
      exact ⟨hc, hne, hstem⟩
  | extension f c m ih =>
    obtain ⟨hne, hf, hs, hc⟩ := ht
    have hstem : (extension f c m).IsStem → t'.IsStem := fun hs => by simp [IsStem, kind] at hs
    rcases insert_extension_eq_ok h with ⟨rest, c', hkf, hins, rfl⟩ | hsplit
    · have hlen := congrArg List.length hkf
      simp only [List.length_append, Path.length_toList] at hlen
      obtain ⟨hc', -, hs'⟩ := ih hc (by omega) hins
      exact ⟨⟨hne, hf, hs' hs, hc'⟩, (fun h => by cases h), hstem⟩
    · obtain ⟨hc', hne'⟩ := hsplit.canonical he hf hk fun p d below hfp => by
        have hlen := congrArg List.length hfp
        simp only [List.length_append, List.length_cons, Path.length_toList] at hlen
        exact ⟨canonical_behind hc hs (by omega), behind_ne_empty hs.ne_empty⟩
      exact ⟨hc', hne', hstem⟩
  | branch cs v m ih =>
    rcases insert_branch_eq_ok h with ⟨-, w, rfl, rfl⟩ | ⟨d, rest, c, hkd, hins, rfl⟩
    · obtain ⟨h1, ⟨i, hi, -⟩, hcs⟩ := ht
      exact ⟨⟨h1, ⟨i, hi, Or.inl he⟩, hcs⟩, (fun h => by cases h), fun _ => isStem_branch _ _ _⟩
    · have hlen := congrArg List.length hkd
      simp only [List.length_cons, Path.length_toList] at hlen
      obtain ⟨hc, hne, -⟩ := ih d (ht.2.2 d) (by omega) hins
      exact ⟨canonical_fork_set ht hc hne, (fun h => by cases h), fun _ => isStem_branch _ _ _⟩

/-! ## The answers of the result -/

theorem view_fork_only {d : Nibble} {c : Trie} {w : Bytes} (hw : w ≠ []) :
    (fork (only d c) w).view = Function.update (under [d] c.view) [] (.ok (some w)) := by
  funext l
  cases l with
  | nil => simp [hw]
  | cons i l =>
    rw [fork_eq, view_branch_cons, only_get, Function.update_of_ne (by simp)]
    by_cases hi : i = d <;> simp [under, hi]

theorem view_fork_pair {d d' : Nibble} {c c' : Trie} {l : List Nibble} {a : Answer} (hd : d ≠ d')
    (hc' : c'.view = Function.update (fun _ => .ok none) l a) :
    (fork (Children.set (only d c).get d' c') []).view =
      Function.update (under [d] c.view) (d' :: l) a := by
  have hbase : (branch (only d c).get [] none).view = under [d] c.view := by
    funext l'
    cases l' with
    | nil => rfl
    | cons i l' =>
      rw [view_branch_cons, only_get]
      by_cases hi : i = d <;> simp [under, hi]
  rw [← hbase]
  refine view_fork_set ?_
  rw [hc', only_get, if_neg hd.symm]
  rfl

theorem Split.view {f : Path} {w : Bytes} {part : Path → Trie}
    (h : Split f k (.value w) part t') (hw : w ≠ []) (answers : List Nibble → Answer)
    (hpart : ∀ below, (part below).view = under below.toList answers) :
    t'.view = Function.update (under f.toList answers) k.toList (.ok (some w)) := by
  cases h with
  | stop d below w' hfk he =>
    obtain rfl := Entry.value.inj he
    rw [view_behind, view_fork_only hw, under_update, List.append_nil, hpart, ← under_append,
      ← under_append, List.append_assoc, hfk]
    rfl
  | part p d below d' rest hd hfp hkp =>
    have hplant : (plant rest (.value w)).view =
        Function.update (fun _ => .ok none) rest.toList (.ok (some w)) := by
      rw [view_plant_value, onlyHere_eq_update, under_update, List.append_nil, under_none]
    rw [view_behind, view_fork_pair hd hplant, under_update, hpart, ← under_append,
      ← under_append, List.append_assoc, hfp, hkp]
    rfl

/-- After a value was inserted, its key answers with it and all else answers as before. -/
theorem insert_view {v : Bytes} (ht : Canonical n t) (hv : v ≠ [])
    (h : t.insert k (.value v) = .ok t') :
    t'.view = Function.update t.view k.toList (.ok (some v)) := by
  induction t generalizing k n t' with
  | empty =>
    obtain rfl := Except.ok.inj h
    rw [view_plant_value, onlyHere_eq_update, under_update, List.append_nil, under_none]
    rfl
  | hidden d => cases h
  | leaf f v' m =>
    rcases insert_leaf_eq_ok h with ⟨rfl, w, he, rfl⟩ | ⟨d, rest, hkf, rfl⟩ | hsplit
    · obtain rfl := Entry.value.inj he
      rw [view_leaf, view_leaf, onlyHere_eq_update, onlyHere_eq_update v', under_update,
        under_update, List.append_nil, Function.update_idem]
    · rw [view_behind, view_fork_only ht.2, view_leaf, hkf, ← under_update]
      congr 1
      funext l
      rw [view_plant_value, onlyHere_eq_update, under_update, under_none, List.append_nil]
      cases l with
      | nil => simp [onlyHere]
      | cons i l =>
        by_cases hi : i = d <;> simp [under, onlyHere, Function.update_apply, hi]
    · exact hsplit.view hv _ fun below => view_leaf below v' none
  | extension f c m ih =>
    rcases insert_extension_eq_ok h with ⟨rest, c', hkf, hins, rfl⟩ | hsplit
    · rw [view_extension, view_extension, hkf, ih ht.2.2.2 hins, under_update]
    · exact hsplit.view hv _ fun below => view_behind below c
  | branch cs v' m ih =>
    rcases insert_branch_eq_ok h with ⟨hk, w, he, rfl⟩ | ⟨d, rest, c, hkd, hins, rfl⟩
    · obtain rfl := Entry.value.inj he
      rw [hk]
      funext l
      cases l with
      | nil => simp [hv]
      | cons i l => simp
    · rw [hkd]
      exact view_fork_set (ih d (ht.2.2 d) hins)

/-- A value is refused exactly where a lookup runs into a hidden part. -/
theorem insert_value_answer (t : Trie) (k : Path) (v : Bytes) :
    match t.view k.toList with
    | .error h => t.insert k (.value v) = .error (.insertHidden h)
    | .ok _ => ∃ t', t.insert k (.value v) = .ok t' := by
  induction t generalizing k with
  | empty => exact ⟨_, rfl⟩
  | hidden h => rfl
  | leaf f v' m =>
    rw [view_leaf_apply, insert]
    rcases Path.meet_cases f k with ⟨hl, -⟩ | ⟨d, below, hl, hr, -⟩ |
      ⟨d, below, d', rest, hl, hr, -⟩
    · cases hr : (f.meet k).right.uncons with
      | none => simp [hl, valueOf, bind, Except.bind, pure, Except.pure]
      | some a => simp [hl]
    · simp [hl, hr, valueOf, bind, Except.bind, pure, Except.pure]
    · simp [hl, hr]
  | extension f c m ih =>
    rw [view_extension, insert]
    rcases Path.meet_cases f k with ⟨hl, -, hk⟩ | ⟨d, below, hl, hr, -, hf⟩ |
      ⟨d, below, d', rest, hl, hr, hd, hf, hk⟩
    · rw [hk, under_front]
      have hc := ih (f.meet k).right
      cases ha : c.view (f.meet k).right.toList with
      | error h =>
        rw [ha] at hc
        simp [hl, hc, bind, Except.bind]
      | ok a =>
        rw [ha] at hc
        obtain ⟨c', hc'⟩ := hc
        simp [hl, hc', bind, Except.bind, pure, Except.pure]
    · rw [under_off]
      · simp [hl, hr, valueOf, bind, Except.bind, pure, Except.pure]
      · intro hp
        have := hp.length_le
        rw [hf, List.length_append, List.length_cons] at this
        omega
    · rw [under_off]
      · simp [hl, hr]
      · intro hp
        rw [hf, hk, List.prefix_append_right_inj, List.cons_prefix_cons] at hp
        exact hd hp.1
  | branch cs v' m ih =>
    rw [insert]
    cases hu : k.uncons with
    | none =>
      rw [Path.uncons_eq_none_iff.1 hu]
      simp [valueOf, bind, Except.bind, pure, Except.pure]
    | some a =>
      obtain ⟨d, rest⟩ := a
      rw [Path.uncons_eq_some_iff.1 hu, view_branch_cons]
      have hc := ih d rest
      cases ha : (cs d).view rest.toList with
      | error h =>
        rw [ha] at hc
        simp [hc, bind, Except.bind]
      | ok a =>
        rw [ha] at hc
        obtain ⟨c', hc'⟩ := hc
        simp [hc', bind, Except.bind, pure, Except.pure]

/-- Putting a value is refused where the key is hidden; else the key answers with it afterwards. -/
theorem put_answer {v : Bytes} (ht : Canonical n t) (hk : k.length ≤ n) (hv : v ≠ []) :
    match t.view k.toList with
    | .error h => (t.put k (.value v)).1 = .error (.insertHidden h)
    | .ok _ => ∃ t', t.put k (.value v) = (.ok (), t') ∧ Canonical n t' ∧
        t'.view = Function.update t.view k.toList (.ok (some v)) := by
  have hspec := insert_value_answer t k v
  cases ha : t.view k.toList with
  | error h =>
    rw [ha] at hspec
    simp [put, hspec]
  | ok a =>
    rw [ha] at hspec
    obtain ⟨t', ht'⟩ := hspec
    have hcanon := (insert_canonical (e := .value v) ht hk hv ht').1
    exact ⟨t', by simp [put, ht'], hcanon, insert_view ht hv ht'⟩

end Trie

end Stateless
