import Stateless.Proofs.Trie.Veil

/-!
# Edits behind a veil

Edits of keys that no hidden part lies in the way of do the same to a trie and to the trie with
parts hidden: they answer the same, and the results are related again. The main results are
`Veiled.run` for runs of edits and `Veiled.reference_eq`: where no part is loose, related tries have
the same reference.
-/

namespace Stateless

open Trie

namespace Veil

variable [Hasher] {V : Veil} {m : List Nibble} {t t' p c c' : Trie} {f g k : Path} {v : Bytes}
variable {w : Word}

omit [Hasher] in
/-- A changed key leads to the place above the last nibble of a fragment on its way. -/
theorem touches_of_pass (hk : V.keys (m ++ k.toList)) (hp : f.toList <+: k.toList) :
    V.Touches m f :=
  ⟨_, hk, (List.prefix_append_right_inj m).2 ((List.dropLast_prefix _).trans hp)⟩

/-- A changed key never goes on behind the run of nibbles to a hidden part. -/
theorem Loose.not_pass (h : V.Loose m t g w) (hk : V.keys (m ++ k.toList)) :
    ¬ g.toList <+: k.toList := fun hp => by
  obtain ⟨f, -, hcon⟩ := h.rest
  exact hcon.untouched _ hk ((List.prefix_append_right_inj m).2 hp)

/-! ## Removal -/

/-- What related tries answer to a removal. -/
inductive SameAnswer (V : Veil) (m : List Nibble) :
    Option (Trie × Bytes) → Option (Trie × Bytes) → Prop
  | none : SameAnswer V m none none
  | some {t p : Trie} {v : Bytes} (h : V.Veiled m t p) : SameAnswer V m (some (t, v)) (some (p, v))

/-- A loose part does not have the changed key. -/
theorem Loose.detach {r : Option (Trie × Bytes)} (h : V.Loose m t g w)
    (hk : V.keys (m ++ k.toList)) (hdet : t.detach k = .ok r) : r = none := by
  have hnot := h.not_pass hk
  obtain ⟨f, hf, -⟩ := h.rest
  have hpre : g.toList <+: t.fragment.toList := hf ▸ List.prefix_append _ _
  rcases isShort_iff.1 h.short with ⟨f, v, a, rfl⟩ | ⟨f, c, a, rfl⟩
  · have hne : f ≠ k := fun hfk => hnot (hfk ▸ hpre)
    rw [Trie.detach, if_neg hne] at hdet
    exact (Except.ok.inj hdet).symm
  · have hst : ¬ k.startsWith f = true := fun hst => hnot (hpre.trans (Path.startsWith_iff.1 hst))
    rw [Trie.detach, if_neg hst] at hdet
    exact (Except.ok.inj hdet).symm

/-- A changed key is removed from related tries in the same way. -/
theorem Veiled.detach {r : Option (Trie × Bytes)} (h : V.Veiled m t p)
    (hk : V.keys (m ++ k.toList)) (hdet : t.detach k = .ok r) :
    ∃ r', p.detach k = .ok r' ∧ V.SameAnswer m r r' := by
  induction h generalizing k r with
  | empty =>
    obtain rfl := Except.ok.inj hdet
    exact ⟨_, rfl, .none⟩
  | @leaf m f v a b =>
    refine ⟨_, rfl, ?_⟩
    rw [Trie.detach] at hdet
    obtain rfl := Except.ok.inj hdet
    split
    · exact .some .empty
    · exact .none
  | @extension m f c c' a b hf hc hstem ih =>
    have hbelow : k.startsWith f = true → V.keys (m ++ f.toList ++ (k.drop f.length).toList) := by
      intro hst
      rwa [List.append_assoc, Path.append_drop_of_startsWith hst]
    rcases detach_extension_eq_ok_iff.1 hdet with
      ⟨hst, rfl⟩ | ⟨hst, hd, rfl⟩ | ⟨c₁, v, s, hst, hd, hj, rfl⟩
    · exact ⟨_, detach_extension_eq_ok_iff.2 (Or.inl ⟨hst, rfl⟩), .none⟩
    · obtain ⟨r', hd', hsame⟩ := ih (hbelow hst) hd
      cases hsame
      exact ⟨_, detach_extension_eq_ok_iff.2 (Or.inr (Or.inl ⟨hst, hd', rfl⟩)), .none⟩
    · obtain ⟨r', hd', hsame⟩ := ih (hbelow hst) hd
      cases hsame with
      | some hc₁ =>
        have htouch : V.Touches m f := touches_of_pass hk (Path.startsWith_iff.1 hst)
        obtain ⟨s', hj', hs⟩ := hc₁.join hf (Or.inr htouch) hj
        refine ⟨_, detach_extension_eq_ok_iff.2 (Or.inr (Or.inr ?_)), .some hs⟩
        exact ⟨_, v, s', hst, hd', hj', rfl⟩
  | @branch m cs cs' v a b hcs ih =>
    have hon : ∃ k, V.keys k ∧ m <+: k := ⟨_, hk, List.prefix_append _ _⟩
    rcases detach_branch_eq_ok_iff.1 hdet with ⟨hk₀, rfl⟩ | ⟨d, rest, hkd, hbelow⟩
    · refine ⟨_, detach_branch_eq_ok_iff.2 (Or.inl ⟨hk₀, rfl⟩), ?_⟩
      split
      · exact .none
      · exact .some (Veiled.unvalue hcs hon)
    · have hkey : V.keys (m ++ [d] ++ rest.toList) := by
        rwa [List.append_assoc, List.singleton_append, ← hkd]
      rcases hbelow with ⟨hd, rfl⟩ | ⟨c₁, w, s, hd, hs, rfl⟩
      · obtain ⟨r', hd', hsame⟩ := ih d hkey hd
        cases hsame
        exact ⟨_, detach_branch_eq_ok_iff.2 (Or.inr ⟨d, rest, hkd, Or.inl ⟨hd', rfl⟩⟩), .none⟩
      · obtain ⟨r', hd', hsame⟩ := ih d hkey hd
        cases hsame with
        | some hc₁ =>
          obtain ⟨s', hs', hveil⟩ := Veiled.shrink hcs hc₁ hon hs
          refine ⟨_, detach_branch_eq_ok_iff.2 (Or.inr ⟨d, rest, hkd, Or.inr ?_⟩), .some hveil⟩
          exact ⟨_, w, s', hd', hs', rfl⟩
  | @hidden m t w h => exact absurd (List.prefix_append m k.toList) (h.untouched _ hk)
  | @loose m t g w a h =>
    obtain rfl := h.detach hk hdet
    have hst : ¬ k.startsWith g = true :=
      fun hst => h.not_pass hk (Path.startsWith_iff.1 hst)
    exact ⟨none, by simp [Trie.detach, hst], .none⟩

/-! ## Insertion -/

omit [Hasher] in
/-- What is touched behind a fragment is touched behind the rest of the fragment. -/
theorem touches_rest {front below : Path} {d : Nibble} (h : V.Touches m f)
    (hf : f.toList = front.toList ++ d :: below.toList) (hne : below.toList ≠ []) :
    V.Touches (m ++ front.toList ++ [d]) below := by
  obtain ⟨k, hk, hp⟩ := h
  refine ⟨k, hk, ?_⟩
  rw [hf, List.dropLast_append_of_ne_nil (List.cons_ne_nil _ _),
    List.dropLast_cons_of_ne_nil hne] at hp
  simpa using hp

/-- Related parts behind a run of nibbles, which may be empty. -/
theorem Veiled.behind (h : V.Veiled (m ++ f.toList) c c')
    (hside : f.toList ≠ [] → c.IsStem ∨ V.Touches m f) :
    V.Veiled m (behind f c) (behind f c') := by
  unfold Trie.behind
  split
  · next hf =>
    rw [Path.isEmpty_iff.1 hf, List.append_nil] at h
    exact h
  · next hf =>
    have hne : f.toList ≠ [] := fun he => hf (Path.isEmpty_iff.2 he)
    exact .extension hne h (hside hne)

/-- Branches with a single child each. -/
theorem Veiled.fork_only {d : Nibble} (h : V.Veiled (m ++ [d]) c c') :
    V.Veiled m (fork (only d c) v) (fork (only d c') v) := by
  refine .branch fun i => ?_
  rw [only_get, only_get]
  split
  · next hi => exact hi ▸ h
  · exact .empty

/-- What an insertion leaves of related tries behind a part of the second one's fragment. -/
theorem Veiled.remnant {front below : Path} {d : Nibble} (h : V.Veiled m t p)
    (hshort : p.isShort = true)
    (hf : p.fragment.toList = front.toList ++ d :: below.toList) :
    t.isShort = true ∧ ∃ below' : Path,
      t.fragment.toList = front.toList ++ d :: below'.toList ∧
      V.Veiled (m ++ front.toList ++ [d]) (t.remnant below') (p.remnant below) := by
  cases h with
  | empty => cases hshort
  | branch => cases hshort
  | hidden => cases hshort
  | leaf => exact ⟨rfl, below, hf, .leaf⟩
  | @extension m f c c' a b hne hc hstem =>
    have hf' : f.toList = front.toList ++ d :: below.toList := hf
    refine ⟨rfl, below, hf, Veiled.behind ?_ fun hb => ?_⟩
    · rw [hf'] at hc
      simpa using hc
    · exact hstem.imp_right fun h => touches_rest h hf' hb
  | @loose m t g w a h =>
    obtain ⟨r, hr, hcon⟩ := h.rest
    have hg : g.toList = front.toList ++ d :: below.toList := hf
    have hrne : r.toList ≠ [] := by
      obtain ⟨hshort', hfragment⟩ := isShort_setFragment h.short r
      have := hcon.fragment hshort'
      rwa [hfragment] at this
    by_cases hb : below.toList = []
    · refine ⟨h.short, r, by rw [hr, hg, hb]; simp, ?_⟩
      rw [remnant_eq_setFragment h.short hrne, Trie.remnant, Trie.behind,
        if_pos (Path.isEmpty_iff.2 hb)]
      rw [hg, hb, ← List.append_assoc] at hcon
      exact .hidden hcon
    · have hlist : (t.fragment.drop (front.length + 1)).toList = below.toList ++ r.toList := by
        rw [Path.toList_drop, hr, hg, List.append_assoc, ← Path.length_toList, List.drop_append,
          List.drop_eq_nil_of_le (Nat.le_succ _)]
        simp
      obtain ⟨hshort', hfragment⟩ :=
        isShort_setFragment h.short (t.fragment.drop (front.length + 1))
      have hlne : (t.fragment.drop (front.length + 1)).toList ≠ [] := fun he =>
        hb (List.append_eq_nil_iff.1 (hlist.symm.trans he)).1
      refine ⟨h.short, t.fragment.drop (front.length + 1), by rw [hlist, hr, hg]; simp, ?_⟩
      rw [remnant_eq_setFragment h.short hlne, Trie.remnant, Trie.behind,
        if_neg fun he => hb (Path.isEmpty_iff.1 he)]
      refine .loose ⟨hshort', hb, ⟨r, by rw [hfragment, hlist], ?_⟩, touches_rest h.touched hg hb⟩
      rw [setFragment_setFragment, List.append_assoc, List.append_assoc, List.singleton_append,
        ← hg]
      exact hcon

/-- A changed key is inserted into related tries in the same way where it does not pass the fragment
of the second one. -/
theorem Veiled.insert_split (h : V.Veiled m t p) (hshort : p.isShort = true)
    (hnot : ¬ p.fragment.toList <+: k.toList) (hins : t.insert k (.value v) = .ok t') :
    ∃ p', p.insert k (.value v) = .ok p' ∧ V.Veiled m t' p' := by
  rcases Path.meet_cases p.fragment k with ⟨-, -, hk⟩ | ⟨d, below, -, -, -, hf⟩ |
    ⟨d, below, d', rest, -, -, hd, hf, hk⟩
  · exact absurd (hk ▸ List.prefix_append _ _) hnot
  · obtain ⟨hshort', below', hf', hrem⟩ := h.remnant hshort hf
    rw [insert_stop v hshort' hf'] at hins
    refine ⟨_, insert_stop v hshort hf, ?_⟩
    rw [← Except.ok.inj hins]
    exact Veiled.behind hrem.fork_only fun _ => Or.inl (isStem_branch _ _ _)
  · obtain ⟨hshort', below', hf', hrem⟩ := h.remnant hshort hf
    rw [insert_part v hshort' hd hf' hk] at hins
    refine ⟨_, insert_part v hshort hd hf hk, ?_⟩
    rw [← Except.ok.inj hins]
    refine Veiled.behind (Veiled.fork_set (fun i => ?_) .leaf) fun _ => Or.inl (isStem_branch _ _ _)
    rw [only_get, only_get]
    split
    · next hi => exact hi ▸ hrem
    · exact .empty

/-- A value is inserted under a changed key into related tries in the same way. -/
theorem Veiled.insert (h : V.Veiled m t p) (hk : V.keys (m ++ k.toList))
    (hins : t.insert k (.value v) = .ok t') :
    ∃ p', p.insert k (.value v) = .ok p' ∧ V.Veiled m t' p' := by
  induction h generalizing k t' with
  | empty =>
    obtain rfl := Except.ok.inj hins
    exact ⟨_, rfl, .leaf⟩
  | @leaf m f u a b =>
    rcases insert_leaf_eq_ok hins with ⟨rfl, w, he, rfl⟩ | ⟨d, rest, hkf, rfl⟩ | hsplit
    · exact ⟨.leaf k w none, hins, .leaf⟩
    · exact ⟨_, hins, Veiled.behind (Veiled.fork_only .leaf) fun _ => Or.inl (isStem_branch _ _ _)⟩
    · exact Veiled.insert_split .leaf rfl hsplit.not_pass hins
  | @extension m f c c' a b hf hc hstem ih =>
    rcases insert_extension_eq_ok hins with ⟨rest, c₁, hkf, hins₁, rfl⟩ | hsplit
    · obtain ⟨c₂, hins₂, hc₁⟩ := ih (by rwa [List.append_assoc, ← hkf]) hins₁
      refine ⟨_, insert_pass hkf hins₂, .extension hf hc₁ (Or.inr ?_)⟩
      exact touches_of_pass hk (hkf ▸ List.prefix_append _ _)
    · exact Veiled.insert_split (.extension hf hc hstem) rfl hsplit.not_pass hins
  | @branch m cs cs' u a b hcs ih =>
    rcases insert_branch_eq_ok hins with ⟨hk₀, w, he, rfl⟩ | ⟨d, rest, c, hkd, hins₁, rfl⟩
    · refine ⟨.branch cs' w none, ?_, .branch hcs⟩
      obtain rfl := Entry.value.inj he
      rw [Trie.insert, Path.uncons_eq_none_iff.2 hk₀]
      rfl
    · obtain ⟨c', hins₂, hc⟩ := ih d (by
        rwa [List.append_assoc, List.singleton_append, ← hkd]) hins₁
      refine ⟨fork (Children.set cs' d c') u, ?_, Veiled.fork_set hcs hc⟩
      rw [Trie.insert, Path.uncons_eq_some_iff.2 hkd]
      simp [hins₂, bind, Except.bind, pure, Except.pure]
  | @hidden m t w h => exact absurd (List.prefix_append m k.toList) (h.untouched _ hk)
  | @loose m t g w a h => exact Veiled.insert_split (.loose h) rfl (h.not_pass hk) hins

/-! ## Runs of edits -/

/-- Whether an edit puts a value under a changed key or removes a changed key. -/
def Changes (V : Veil) : Edit → Prop
  | .put k (.value _) => V.keys k.toList
  | .remove k => V.keys k.toList
  | _ => False

/-- An edit of a changed key does the same to related tries. -/
theorem Veiled.apply {e : Edit} {a : Option Bytes} (h : V.Veiled [] t p) (he : V.Changes e)
    (hap : e.apply t = (.ok a, t')) : ∃ p', e.apply p = (.ok a, p') ∧ V.Veiled [] t' p' := by
  rcases Edit.apply_eq_ok hap with ⟨k, x, rfl, hins, rfl⟩ | ⟨k, rfl, rfl, hdet, rfl⟩ |
    ⟨k, v, s, rfl, rfl, hdet, hset⟩ | ⟨rfl, -, -⟩
  · cases x with
    | hidden d => exact absurd he id
    | value v =>
      obtain ⟨p', hins', hp'⟩ := h.insert he hins
      exact ⟨p', by simp [Edit.apply, Trie.put, hins'], hp'⟩
  · obtain ⟨r, hdet', hsame⟩ := h.detach he hdet
    cases hsame
    exact ⟨p.forgetRoot, by simp [Edit.apply, Trie.remove, hdet'], h.forgetRoot⟩
  · obtain ⟨r, hdet', hsame⟩ := h.detach he hdet
    cases hsame with
    | some hs =>
      obtain ⟨p', hset', hp'⟩ := hs.settle hset
      exact ⟨p', by simp [Edit.apply, Trie.remove, hdet', hset'], hp'⟩
  · exact absurd he id

/-- A run of edits of changed keys does the same to related tries. -/
theorem Veiled.run {ops : List Edit} {answers : List (Option Bytes)} (h : V.Veiled [] t p)
    (hops : ∀ e ∈ ops, V.Changes e) (hrun : Edit.run ops t = .ok (answers, t')) :
    ∃ p', Edit.run ops p = .ok (answers, p') ∧ V.Veiled [] t' p' := by
  induction ops generalizing t p answers with
  | nil =>
    obtain ⟨rfl, rfl⟩ := Prod.mk.inj (Except.ok.inj hrun)
    exact ⟨p, rfl, h⟩
  | cons e ops ih =>
    obtain ⟨a, s, as, hap, hrest, rfl⟩ := Edit.run_cons_eq_ok hrun
    obtain ⟨s', hap', hs⟩ := h.apply (hops e List.mem_cons_self) hap
    obtain ⟨p', hrest', hp'⟩ := ih hs (fun e he => hops e (List.mem_cons_of_mem _ he)) hrest
    refine ⟨p', ?_, hp'⟩
    rw [Edit.run, hap']
    simp [hrest', Except.map]

/-! ## References -/

/-- Where no part is loose, parents refer to related tries in the same way. -/
theorem Veiled.reference_eq (h : V.Veiled m t p) (ht : Sound t) (hp : Sound p)
    (htight : ∀ l s g w, t.nodeAt l = some s → ¬ V.Loose (m ++ l) s g w) :
    p.reference = t.reference := by
  rw [hp.memoHolds.reference_eq, ht.memoHolds.reference_eq]
  induction h with
  | empty => rfl
  | leaf => rfl
  | @extension m f c c' a b hf hc hstem ih =>
    have hchild := ih ht.1 hp.1 fun l s g w hs hloose => htight (f.toList ++ l) s g w
      (by rw [nodeAt_extension_append hf, hs]) (by rwa [← List.append_assoc])
    rw [content_extension, content_extension, hp.1.memoHolds.reference_eq,
      ht.1.memoHolds.reference_eq, hchild]
  | @branch m cs cs' v a b hcs ih =>
    have hchild : ∀ i, (cs' i).reference = (cs i).reference := fun i => by
      rw [(hp.1 i).memoHolds.reference_eq, (ht.1 i).memoHolds.reference_eq]
      exact ih i (ht.1 i) (hp.1 i) fun l s g w hs hloose => htight (i :: l) s g w hs
        (by rwa [List.append_assoc, List.singleton_append] at hloose)
    rw [content_branch, content_branch]
    simp only [hchild]
  | @hidden m t w h =>
    obtain ⟨e, he, hlen, rfl⟩ := h.content
    simp [Trie.content, he, Reference.ofContent, Nat.not_lt.2 hlen]
  | @loose m t g w a h =>
    exact absurd (by rwa [List.append_nil]) (htight [] t g w (nodeAt_nil t))

end Veil

end Stateless
