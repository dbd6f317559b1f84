import Stateless.Proofs.Trie.Pruned
import Stateless.Proofs.Trie.Root

/-!
# The shape of a canonical trie

A canonical full trie has the shape that its answers call for: a branch stands exactly where keys
part, an extension leads there, and a leaf holds what is left of a single key. So the answers tell
what stands where, and two canonical full tries with the same answers have the same nodes
(`forget_eq_of_view_eq`).

A pruned trie is seen through its answers as well. The main statement is `Shows.pruned`: a
canonical trie that answers nothing but what the whole trie answers, and that hides only what stands
there, is the whole trie with parts hidden.
-/

namespace Stateless

namespace Trie

variable {t s c : Trie} {l m f : List Nibble} {n : Nat}

/-! ## Where keys part -/

/-- Keys part at a place. -/
def Forks (answers : List Nibble → Answer) (m : List Nibble) : Prop :=
  Diverges fun l => answers (m ++ l)

/-- Keys that part have no common front part. -/
theorem Diverges.front_eq_nil {answers : List Nibble → Answer} (h : Diverges answers)
    (hf : ∀ l v, answers l = .ok (some v) → f <+: l) : f = [] := by
  obtain ⟨i, l, v, l', v', hl, hl', hnot⟩ := h
  cases f with
  | nil => rfl
  | cons d f =>
    obtain ⟨rfl, -⟩ := List.cons_prefix_cons.1 (hf _ _ hl)
    exact absurd ((List.prefix_append [d] f).trans (hf _ _ hl')) hnot

/-- A front part that all keys share ends above the place where they part. -/
theorem Forks.front_prefix {answers : List Nibble → Answer} (h : Forks answers m)
    (hf : ∀ l v, answers l = .ok (some v) → f <+: l) : f <+: m := by
  obtain ⟨i, l, v, -, -, hl, -⟩ := id h
  rcases List.prefix_or_prefix_of_prefix (hf _ _ hl) (List.prefix_append m (i :: l)) with hfm | hmf
  · exact hfm
  · obtain ⟨r, rfl⟩ := hmf
    have hr : r = [] := Diverges.front_eq_nil h fun l v hl =>
      (List.prefix_append_right_inj m).1 (hf _ _ hl)
    simp [hr]

/-- Where keys part there are two of them. -/
theorem Diverges.two_keys {answers : List Nibble → Answer} (h : Diverges answers) :
    ∃ l v l' v', l ≠ l' ∧ answers l = .ok (some v) ∧ answers l' = .ok (some v') := by
  obtain ⟨i, l, v, l', v', hl, hl', hnot⟩ := h
  exact ⟨i :: l, v, l', v', fun heq => hnot (heq ▸ List.prefix_append [i] l), hl, hl'⟩

/-- A leaf has one key only. -/
theorem key_of_view_leaf {f : Path} {v w : Bytes} {a : Option Word}
    (h : view (.leaf f v a) l = .ok (some w)) : l = f.toList ∧ w = v := by
  rw [view_leaf_apply] at h
  by_cases hl : l = f.toList
  · rw [if_pos hl] at h
    exact ⟨hl, (Option.some.inj (Except.ok.inj h)).symm⟩
  · simp [hl] at h

theorem not_forks_leaf {f : Path} {v : Bytes} {a : Option Word} :
    ¬ Forks (view (.leaf f v a)) m := by
  intro h
  obtain ⟨l, w, l', w', hne, hl, hl'⟩ := Diverges.two_keys h
  have hkeys := (key_of_view_leaf hl).1.trans (key_of_view_leaf hl').1.symm
  exact hne (List.append_cancel_left hkeys)

/-- All keys of an extension start with its fragment. -/
theorem prefix_of_view_extension {g : Path} {a : Option Word} {v : Bytes}
    (h : view (.extension g c a) l = .ok (some v)) : g.toList <+: l := by
  by_contra hp
  rw [view_extension, under_off _ hp] at h
  cases h

/-- A branch is the only canonical trie whose keys part at its root. -/
theorem branch_of_diverges (ht : Canonical n t) (hfull : Full t) (h : Diverges t.view) :
    ∃ cs v a, t = .branch cs v a := by
  cases t with
  | empty =>
    obtain ⟨i, l, v, -, -, hl, -⟩ := h
    cases hl
  | hidden w => exact absurd hfull id
  | leaf f v a => exact absurd h (not_forks_leaf (m := []))
  | extension g c a => exact absurd (h.front_eq_nil fun l v => prefix_of_view_extension) ht.1
  | branch cs v a => exact ⟨cs, v, a, rfl⟩

/-- The child of an extension in a canonical full trie is a branch, so its keys part. -/
theorem diverges_below {g : Path} {a : Option Word} (ht : Canonical n (.extension g c a))
    (hfull : Full (.extension g c a)) : Diverges c.view := by
  obtain ⟨-, -, hstem, hc⟩ := ht
  cases c with
  | branch cs v b => exact diverges_branch hc hfull
  | hidden w => exact absurd hfull id
  | _ => simp [IsStem, kind] at hstem

/-- Where keys part there stands a branch. -/
theorem nodeAt_of_forks (ht : Canonical n t) (hfull : Full t) (h : Forks t.view m) :
    ∃ s, t.nodeAt m = some s ∧ s.kind = .branch := by
  induction t generalizing n m with
  | empty =>
    obtain ⟨i, l, v, -, -, hl, -⟩ := h
    cases hl
  | hidden w => exact absurd hfull id
  | leaf f v a => exact absurd h not_forks_leaf
  | extension g c a ih =>
    obtain ⟨r, rfl⟩ := h.front_prefix fun l v => prefix_of_view_extension
    have hc : Forks c.view r := by
      simpa only [Forks, List.append_assoc, view_extension, under_front] using h
    rw [nodeAt_extension_append ht.1]
    exact ih ht.2.2.2 hfull hc
  | branch cs v a ih =>
    cases m with
    | nil => exact ⟨_, rfl, rfl⟩
    | cons d m => exact ih d (ht.2.2 d) (hfull.1 d) h

/-- The only node above all keys below a place is the extension that leads there. -/
theorem extension_of_front (ht : Canonical n t) (hfull : Full t) (hc : t.nodeAt f = some c)
    (hf : f ≠ []) (hkeys : ∀ l v, t.view l = .ok (some v) → f <+: l) :
    ∃ g a, g.toList = f ∧ t = .extension g c a := by
  obtain ⟨d, f, rfl⟩ := List.exists_cons_of_ne_nil hf
  cases t with
  | empty => cases hc
  | hidden w => cases hc
  | leaf g v a => cases hc
  | extension g c' a =>
    have hbelow : Forks (view (.extension g c' a)) g.toList := by
      simpa only [Forks, view_extension, under_front] using diverges_below ht hfull
    obtain ⟨r, hr⟩ := hbelow.front_prefix hkeys
    rw [nodeAt] at hc
    split at hc
    · next hp =>
      have hg : g.toList = d :: f := hp.eq_of_length_le (hr ▸ by simp)
      have hlen : g.length = (d :: f).length := by rw [← hg, Path.length_toList]
      rw [hlen, List.drop_length, nodeAt_nil] at hc
      exact ⟨g, a, hg, by rw [Option.some.inj hc]⟩
    · cases hc
  | branch cs v a => exact absurd ((diverges_branch ht hfull).front_eq_nil hkeys) hf

/-! ## Where nodes stand -/

/-- A node stands at the root, where keys part, or one nibble below such a place. -/
def Rooted (answers : List Nibble → Answer) (m : List Nibble) : Prop :=
  m = [] ∨ Forks answers m ∨ ∃ r d, m = r ++ [d] ∧ Forks answers r

theorem Rooted.below (front : List Nibble) {answers answers' : List Nibble → Answer}
    (heq : ∀ l, answers' (front ++ l) = answers l) (hfront : m = [] → Rooted answers' front)
    (h : Rooted answers m) : Rooted answers' (front ++ m) := by
  have hforks : ∀ {r}, Forks answers r → Forks answers' (front ++ r) := by
    intro r hr
    simpa only [Forks, List.append_assoc, heq] using hr
  rcases h with rfl | hm | ⟨r, d, rfl, hr⟩
  · rw [List.append_nil]
    exact hfront rfl
  · exact Or.inr (Or.inl (hforks hm))
  · exact Or.inr (Or.inr ⟨front ++ r, d, (List.append_assoc _ _ _).symm, hforks hr⟩)

/-- The nodes of a canonical full trie stand where its answers call for them. -/
theorem rooted_of_nodeAt (ht : Canonical n t) (hfull : Full t) (h : t.nodeAt m = some s) :
    Rooted t.view m := by
  refine nodeAt_induction (motive := fun t m => ∀ n, Canonical n t → Full t → Rooted t.view m)
    (fun _ _ _ => Or.inl rfl) ?_ ?_ h n ht hfull
  · intro g c a m _ ih n ht hfull
    refine (ih _ ht.2.2.2 hfull).below g.toList (fun l => under_front _ _ _) fun _ => ?_
    refine Or.inr (Or.inl ?_)
    simpa only [Forks, view_extension, under_front] using diverges_below ht hfull
  · intro cs v a d m _ ih n ht hfull
    refine (ih _ (ht.2.2 d) (hfull.1 d)).below [d] (fun l => rfl) fun _ => ?_
    exact Or.inr (Or.inr ⟨[], d, rfl, diverges_branch ht hfull⟩)

/-- Where its answers call for a node, a canonical full trie has one. -/
theorem nodeAt_of_rooted (ht : Canonical n t) (hfull : Full t) (h : Rooted t.view m) :
    ∃ s, t.nodeAt m = some s := by
  rcases h with rfl | hm | ⟨r, d, rfl, hr⟩
  · exact ⟨t, nodeAt_nil t⟩
  · obtain ⟨s, hs, -⟩ := nodeAt_of_forks ht hfull hm
    exact ⟨s, hs⟩
  · obtain ⟨s, hs, hkind⟩ := nodeAt_of_forks ht hfull hr
    cases s with
    | branch cs v a => exact ⟨cs d, by rw [nodeAt_append hs, nodeAt_branch_cons, nodeAt_nil]⟩
    | _ => cases hkind

/-! ## Pruned tries through their answers -/

section

variable [Hasher] {K : Kind → Prop} {p : Trie} {k : Nat}

/-- A trie shows what is below a place of a canonical full trie: it answers nothing else, and where
it hides something, there stands a node with that hash. -/
structure Shows (K : Kind → Prop) (t : Trie) (m : List Nibble) (p : Trie) : Prop where
  answers : ∀ l a, p.view l = .ok a → t.view (m ++ l) = .ok a
  hidden : ∀ l w, p.nodeAt l = some (.hidden w) → Hideable K t (m ++ l) w

theorem Shows.below {g : Path} {a : Option Word} (hg : g.toList ≠ [])
    (h : Shows K t m (.extension g p a)) : Shows K t (m ++ g.toList) p where
  answers l b hb := by
    rw [List.append_assoc]
    exact h.answers _ b (by rwa [view_extension, under_front])
  hidden l w hw := by
    rw [List.append_assoc]
    exact h.hidden _ w (by rwa [nodeAt_extension_append hg])

theorem Shows.child {cs : Nibble → Trie} {v : Bytes} {a : Option Word}
    (h : Shows K t m (.branch cs v a)) (d : Nibble) : Shows K t (m ++ [d]) (cs d) where
  answers l b hb := by
    rw [List.append_assoc]
    exact h.answers (d :: l) b hb
  hidden l w hw := by
    rw [List.append_assoc]
    exact h.hidden (d :: l) w hw

omit [Hasher] in
/-- In a canonical trie that is not empty there is a key or a hidden part. -/
theorem exists_key_or_hidden (hp : Canonical k p) (hne : p ≠ .empty) :
    (∃ l v, p.view l = .ok (some v)) ∨ ∃ l w, p.nodeAt l = some (.hidden w) := by
  induction p generalizing k with
  | empty => exact absurd rfl hne
  | hidden w => exact Or.inr ⟨[], w, rfl⟩
  | leaf f v a => exact Or.inl ⟨f.toList, v, by rw [view_leaf_apply, if_pos rfl]⟩
  | extension f c a ih =>
    obtain ⟨hf, -, hstem, hc⟩ := hp
    rcases ih hc hstem.ne_empty with ⟨l, v, hl⟩ | ⟨l, w, hl⟩
    · exact Or.inl ⟨f.toList ++ l, v, by rw [view_extension, under_front, hl]⟩
    · exact Or.inr ⟨f.toList ++ l, w, by rw [nodeAt_extension_append hf, hl]⟩
  | branch cs v a ih =>
    obtain ⟨-, ⟨i, hi, -⟩, hcs⟩ := hp
    rcases ih i (hcs i) hi with ⟨l, v, hl⟩ | ⟨l, w, hl⟩
    · exact Or.inl ⟨i :: l, v, hl⟩
    · exact Or.inr ⟨i :: l, w, hl⟩

/-- Where something is shown, the whole trie has a key. -/
theorem Shows.exists_key (ht : Canonical n t) (hfull : Full t) (hp : Canonical k p)
    (hne : p ≠ .empty) (h : Shows K t m p) : ∃ l v, t.view (m ++ l) = .ok (some v) := by
  rcases exists_key_or_hidden hp hne with ⟨l, v, hl⟩ | ⟨l, w, hl⟩
  · exact ⟨l, v, h.answers l _ hl⟩
  · obtain ⟨s, e, hs, -, he, hlen, -⟩ := h.hidden l w hl
    obtain ⟨-, hcan⟩ := ht.nodeAt hs
    obtain ⟨r, v, hr⟩ := Trie.exists_key hcan (hfull.nodeAt hs) (ne_empty_of_long_content he hlen)
    exact ⟨l ++ r, v, by rw [← List.append_assoc, view_nodeAt hs, hr]⟩

/-- Where a branch is shown, keys part. -/
theorem Shows.forks {cs : Nibble → Trie} {v : Bytes} {a : Option Word} (ht : Canonical n t)
    (hfull : Full t) (hp : Canonical k (.branch cs v a)) (h : Shows K t m (.branch cs v a)) :
    Forks t.view m := by
  obtain ⟨-, ⟨i, hi, hother⟩, hcs⟩ := hp
  obtain ⟨l, w, hl⟩ := (h.child i).exists_key ht hfull (hcs i) hi
  rw [List.append_assoc] at hl
  rcases hother with hv | ⟨j, hji, hj⟩
  · refine ⟨i, l, w, [], v, hl, h.answers [] _ (by simp [hv]), by simp⟩
  · obtain ⟨l', w', hl'⟩ := (h.child j).exists_key ht hfull (hcs j) hj
    rw [List.append_assoc] at hl'
    refine ⟨i, l, w, j :: l', w', hl, hl', fun hp => hji ?_⟩
    exact (List.cons_prefix_cons.1 hp).1.symm

/-- A canonical trie that shows what is below a place of a canonical full trie is the node that
stands there with parts hidden. -/
theorem Shows.pruned (ht : Canonical n t) (hfull : Full t) (hp : Canonical k p)
    (h : Shows K t m p) (hs : t.nodeAt m = some s) : Pruned K s p := by
  obtain ⟨-, hcan⟩ := ht.nodeAt hs
  have hsfull := hfull.nodeAt hs
  have hview : ∀ l, t.view (m ++ l) = s.view l := view_nodeAt hs
  induction p generalizing k m s with
  | empty =>
    have hnone : s = .empty := by
      by_contra hne
      obtain ⟨l, v, hl⟩ := Trie.exists_key hcan hsfull hne
      have := h.answers l none rfl
      rw [hview, hl] at this
      cases this
    rw [hnone]
    exact .empty
  | hidden w =>
    obtain ⟨s', e, hs', hk, he, hlen, rfl⟩ := h.hidden [] w rfl
    rw [List.append_nil, hs] at hs'
    obtain rfl := Option.some.inj hs'
    exact .hidden hk he hlen
  | leaf f v a =>
    have hleaf : ∀ l, s.view l = view (.leaf f v a) l := by
      intro l
      rw [← hview, view_leaf_apply]
      exact h.answers l _ (view_leaf_apply f v a l)
    have hkey : s.view f.toList = .ok (some v) := by rw [hleaf, view_leaf_apply, if_pos rfl]
    cases s with
    | empty => cases hkey
    | hidden w => exact absurd hsfull id
    | leaf g u b =>
      obtain ⟨hfg, rfl⟩ := key_of_view_leaf hkey
      rw [Path.ext hfg]
      exact .leaf
    | extension g c b =>
      refine absurd ?_ (not_forks_leaf (f := f) (v := v) (a := a) (m := g.toList))
      have hbelow := diverges_below hcan hsfull
      simpa only [Forks, ← hleaf, view_extension, under_front] using hbelow
    | branch cs u b =>
      refine absurd ?_ (not_forks_leaf (f := f) (v := v) (a := a) (m := []))
      simpa only [Forks, ← hleaf, List.nil_append] using diverges_branch hcan hsfull
  | extension f c a ih =>
    obtain ⟨hf, -, hstem, hc⟩ := hp
    have hshown := h.below hf
    -- the child is seen as it is or hidden, and either way a node stands behind the fragment
    obtain ⟨c', hc'⟩ : ∃ c', t.nodeAt (m ++ f.toList) = some c' := by
      cases c with
      | hidden w =>
        obtain ⟨c', -, hc', -⟩ := hshown.hidden [] w rfl
        exact ⟨c', by rwa [List.append_nil] at hc'⟩
      | branch cs v b =>
        obtain ⟨c', hc', -⟩ := nodeAt_of_forks ht hfull (hshown.forks ht hfull hc)
        exact ⟨c', hc'⟩
      | _ => simp [IsStem, kind] at hstem
    have hchild := hc'
    rw [nodeAt_append hs] at hchild
    obtain ⟨g, b, hg, rfl⟩ := extension_of_front hcan hsfull hchild hf fun l v hl => by
      by_contra hoff
      have hnone := h.answers l none (by rw [view_extension, under_off _ hoff])
      rw [hview, hl] at hnone
      cases hnone
    obtain rfl := Path.ext hg
    obtain ⟨-, hcan'⟩ := ht.nodeAt hc'
    exact .extension (ih hc hshown hc' hcan' (hfull.nodeAt hc') (view_nodeAt hc'))
  | branch cs v a ih =>
    have hforks : Diverges s.view := by
      simpa only [Forks, hview] using h.forks ht hfull hp
    obtain ⟨cs', v', b, rfl⟩ := branch_of_diverges hcan hsfull hforks
    have hvalue : v' = v := by
      have := h.answers [] _ (view_branch_nil cs v a)
      rw [hview, view_branch_nil] at this
      by_cases hv : v = [] <;> by_cases hv' : v' = [] <;> simp_all
    subst hvalue
    refine .branch fun i => ?_
    have hi : t.nodeAt (m ++ [i]) = some (cs' i) := by
      rw [nodeAt_append hs, nodeAt_branch_cons, nodeAt_nil]
    obtain ⟨-, hcan'⟩ := ht.nodeAt hi
    exact ih i (hp.2.2 i) (h.child i) hi hcan' (hfull.nodeAt hi) (view_nodeAt hi)

/-- Canonical full tries with the same answers have the same nodes. -/
theorem forget_eq_of_view_eq {t' : Trie} (ht : Canonical n t) (hfull : Full t)
    (ht' : Canonical k t') (hfull' : Full t') (hview : t'.view = t.view) :
    t'.forget = t.forget := by
  have hshows : Shows (fun _ => False) t [] t' := by
    refine ⟨fun l a ha => by rw [← ha, hview, List.nil_append], fun l w hw => ?_⟩
    exact absurd (hfull'.nodeAt hw) id
  exact (hshows.pruned ht hfull ht' (nodeAt_nil t)).forget_eq hfull'

end

end Trie

end Stateless
