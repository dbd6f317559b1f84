import Mathlib.Data.Option.Basic
import Stateless.Proofs.Trie.Fragment

/-!
# Changing a trie of which parts are hidden

A trie is compared with itself where parts that no change will ever enter are hidden. The two are
changed in the same way by the same edits, with one difference: where a branch collapses onto a
hidden leaf or extension, the fragments cannot be joined, and the hidden part stays behind an
extension of its own. Such a part is `Loose`. It may become whole again when a later insertion
splits the extension.

The relation `Veiled` allows for loose parts, and insertion and removal preserve it
(`Veiled.insert`, `Veiled.detach`). Where no part is loose, related tries have the same reference
(`Veiled.reference_eq`).
-/

namespace Stateless

open Trie

/-- Which keys may be changed, and which hashes stand for hidden parts at which places. -/
structure Veil where
  /-- The keys. -/
  keys : List Nibble → Prop
  /-- The places and hashes of hidden parts. -/
  hides : List Nibble → Word → Prop

namespace Veil

variable [Hasher]

/-- A part at a place that is hidden by its hash: no changed key leads there. -/
structure Conceals (V : Veil) (m : List Nibble) (t : Trie) (w : Word) : Prop where
  ne_empty : t ≠ .empty
  fragment : t.isShort = true → t.fragment.toList ≠ []
  canonical : ∃ n, Canonical n t
  full : Full t
  sound : Sound t
  content : ∃ e, t.content = .ok e ∧ hashLength ≤ e.length ∧ w = digest e
  hides : V.hides m w
  untouched : ∀ k, V.keys k → ¬ m <+: k

/-- A changed key leads to the branch above the last nibble of a fragment. -/
def Touches (V : Veil) (m : List Nibble) (f : Path) : Prop :=
  ∃ k, V.keys k ∧ m ++ f.toList.dropLast <+: k

/-- A leaf or an extension whose fragment was joined from `g` and that of a part that is hidden. -/
structure Loose (V : Veil) (m : List Nibble) (t : Trie) (g : Path) (w : Word) : Prop where
  short : t.isShort = true
  front : g.toList ≠ []
  rest : ∃ f : Path, t.fragment.toList = g.toList ++ f.toList ∧
    V.Conceals (m ++ g.toList) (t.setFragment f) w
  touched : V.Touches m g

/-- A trie at a place, and the same trie with parts hidden. -/
inductive Veiled (V : Veil) : List Nibble → Trie → Trie → Prop
  /-- Nothing is seen as nothing. -/
  | empty {m : List Nibble} : Veiled V m .empty .empty
  /-- A leaf is seen as it is. -/
  | leaf {m : List Nibble} {f : Path} {v : Bytes} {a b : Option Word} :
    Veiled V m (.leaf f v a) (.leaf f v b)
  /-- An extension leads to a branch, or it has just been made where a changed key leads. -/
  | extension {m : List Nibble} {f : Path} {c c' : Trie} {a b : Option Word} (hf : f.toList ≠ [])
    (hc : Veiled V (m ++ f.toList) c c') (hstem : c.IsStem ∨ V.Touches m f) :
    Veiled V m (.extension f c a) (.extension f c' b)
  /-- A branch is seen with its children. -/
  | branch {m : List Nibble} {cs cs' : Nibble → Trie} {v : Bytes} {a b : Option Word}
    (hcs : ∀ i, Veiled V (m ++ [i]) (cs i) (cs' i)) :
    Veiled V m (.branch cs v a) (.branch cs' v b)
  /-- A hidden part is seen as its hash. -/
  | hidden {m : List Nibble} {t : Trie} {w : Word} (h : V.Conceals m t w) :
    Veiled V m t (.hidden w)
  /-- A loose part is seen as its hash behind an extension. -/
  | loose {m : List Nibble} {t : Trie} {g : Path} {w : Word} {a : Option Word}
    (h : V.Loose m t g w) : Veiled V m t (.extension g (.hidden w) a)

variable {V : Veil} {m : List Nibble} {t t' p c c' : Trie} {f g k : Path} {v : Bytes} {w : Word}
variable {n : Nat}

/-! ## Hidden parts -/

/-- Below a concealed extension is what may stand there. -/
theorem Conceals.stem {b : Option Word} (h : V.Conceals m (.extension f c b) w) : c.IsStem := by
  obtain ⟨n, -, -, hs, -⟩ := h.canonical
  exact hs

/-- A part is concealed whatever its memos are. -/
theorem Conceals.of_forget_eq (h : V.Conceals m t w) (ht' : Sound t')
    (heq : t'.forget = t.forget) : V.Conceals m t' w where
  ne_empty hempty := h.ne_empty (by
    rw [← forget_eq_empty_iff, ← heq, hempty]
    rfl)
  fragment hshort := by
    rw [← fragment_forget t', heq, fragment_forget]
    exact h.fragment (by rwa [← isShort_forget t, ← heq, isShort_forget])
  canonical := by
    obtain ⟨n, hn⟩ := h.canonical
    exact ⟨n, by rwa [← canonical_forget, heq, canonical_forget]⟩
  full := by
    have hfull : Full t := h.full
    rwa [Full, ← within_forget, ← heq, within_forget] at hfull
  sound := ht'
  content := by
    rw [← content_forget ht', heq, content_forget h.sound]
    exact h.content
  hides := h.hides
  untouched := h.untouched

theorem Conceals.forgetRoot (h : V.Conceals m t w) : V.Conceals m t.forgetRoot w :=
  h.of_forget_eq (hereditary_sound.forgetRoot h.sound) (forget_withMemo t none)

/-- The memos of a loose part are sound, except perhaps that of its root. -/
theorem Loose.sound (h : V.Loose m t g w) : Sound t.forgetRoot := by
  obtain ⟨f, -, hcon⟩ := h.rest
  have hsound := hcon.sound.setFragment t.fragment
  rwa [setFragment_setFragment, setFragment_self h.short] at hsound

/-- A part is loose whatever its memos are. -/
theorem Loose.of_forget_eq (h : V.Loose m t g w) (ht' : Sound t') (heq : t'.forget = t.forget) :
    V.Loose m t' g w := by
  obtain ⟨f, hf, hcon⟩ := h.rest
  refine ⟨by rw [← isShort_forget, heq, isShort_forget, h.short], h.front, ⟨f, ?_, ?_⟩, h.touched⟩
  · rw [← fragment_forget, heq, fragment_forget, hf]
  · exact hcon.of_forget_eq (ht'.setFragment f)
      (by rw [forget_setFragment, heq, forget_setFragment])

theorem Veiled.forgetRoot (h : V.Veiled m t p) : V.Veiled m t.forgetRoot p.forgetRoot := by
  cases h with
  | empty => exact .empty
  | leaf => exact .leaf
  | extension hf hc hstem => exact .extension hf hc hstem
  | branch hcs => exact .branch hcs
  | hidden h => exact .hidden h.forgetRoot
  | loose h => exact .loose (h.of_forget_eq h.sound (forget_withMemo t none))

theorem Veiled.empty_iff (h : V.Veiled m t p) : t = .empty ↔ p = .empty := by
  cases h with
  | empty => simp
  | hidden h => simp [h.ne_empty]
  | loose h =>
    have := h.short
    cases t <;> simp_all [isShort, kind]
  | _ => simp

theorem Veiled.isEmpty_eq (h : V.Veiled m t p) : p.isEmpty = t.isEmpty := by
  rw [Bool.eq_iff_iff, Trie.isEmpty_iff, Trie.isEmpty_iff, h.empty_iff]

/-! ## Joining fragments -/

omit [Hasher] in
theorem touches_append {q : List Nibble} (hq : q = m ++ f.toList) (h : V.Touches q g) {fg : Path}
    (hfg : fg.toList = f.toList ++ g.toList) : V.Touches m fg := by
  obtain ⟨k, hk, hpre⟩ := h
  have hdrop : fg.toList.dropLast <+: f.toList ++ g.toList.dropLast := by
    by_cases hg : g.toList = []
    · have hf : fg.toList = f.toList := by rw [hfg, hg, List.append_nil]
      rw [hf, hg]
      exact (List.dropLast_prefix _).trans (List.prefix_append _ _)
    · exact ⟨[], by rw [hfg, List.dropLast_append_of_ne_nil hg, List.append_nil]⟩
  refine ⟨k, hk, List.IsPrefix.trans ?_ hpre⟩
  rw [hq, List.append_assoc]
  exact (List.prefix_append_right_inj m).2 hdrop

/-- A part that was concealed on its own is loose behind the fragment with which it is joined. -/
theorem Conceals.join {q : List Nibble} (h : V.Conceals q t w) (hshort : t.isShort = true)
    (hq : q = m ++ f.toList) (hf : f.toList ≠ []) (htouch : V.Touches m f)
    (hj : join f t = .ok t') : V.Loose m t' f w := by
  obtain ⟨hshort', hfragment, hset, -⟩ := join_short hshort (fun g b a ht => by
    subst ht
    exact h.stem) hj
  refine ⟨hshort', hf, ⟨t.fragment, hfragment, ?_⟩, htouch⟩
  rw [← hq]
  refine h.of_forget_eq ((hereditary_sound.join h.sound hj).setFragment t.fragment) ?_
  rw [hset, setFragment_self hshort, Trie.forgetRoot, forget_withMemo]

/-- A loose part stays loose behind a longer fragment. -/
theorem Loose.join {q : List Nibble} (h : V.Loose q t g w) (hq : q = m ++ f.toList)
    (hj : join f t = .ok t') :
    ∃ fg, f.append g = .ok fg ∧ V.Loose m t' fg w := by
  obtain ⟨r, hr, hcon⟩ := h.rest
  obtain ⟨hshort', hfragment, hset, hroom⟩ := join_short h.short (fun g b a ht => by
    subst ht
    exact hcon.stem) hj
  have hlen := congrArg List.length hr
  rw [List.length_append, Path.length_toList, Path.length_toList] at hlen
  obtain ⟨fg, hfg, hlist⟩ := Path.append_eq_ok (p := f) (q := g) (by omega)
  refine ⟨fg, hfg, hshort', by simp [hlist, h.front], ⟨r, ?_, ?_⟩,
    touches_append hq h.touched hlist⟩
  · rw [hfragment, hr, hlist, List.append_assoc]
  · rw [hlist, ← List.append_assoc, ← hq]
    have hsound := hereditary_sound.join h.sound ((join_withMemo t none).trans hj)
    exact hcon.of_forget_eq (hsound.setFragment r) (hset r)

/-- Joining a run of nibbles with related parts. -/
theorem Veiled.join (h : V.Veiled (m ++ f.toList) c c') (hf : f.toList ≠ [])
    (hside : c.IsStem ∨ V.Touches m f) (hj : join f c = .ok t') :
    ∃ p', join f c' = .ok p' ∧ V.Veiled m t' p' := by
  generalize hq : m ++ f.toList = q at h
  induction h generalizing m f t' with
  | empty => cases hj
  | @leaf q g v a b =>
    rw [Trie.join] at hj ⊢
    cases hfg : f.append g with
    | error e => simp [hfg] at hj
    | ok fg =>
      simp only [hfg, Except.ok.injEq] at hj
      exact ⟨.leaf fg v none, rfl, hj ▸ .leaf⟩
  | @extension q g c c' a b hg hc hstem ih =>
    rw [Trie.join] at hj ⊢
    cases hfg : f.append g with
    | error e => simp [hfg] at hj
    | ok fg =>
      simp only [hfg] at hj ⊢
      have hlist := Path.toList_append hfg
      refine ih (m := m) (f := fg) (by simp [hlist, hf]) ?_ hj (by rw [hlist, ← hq, List.append_assoc])
      exact hstem.imp_right fun ht => touches_append hq.symm ht hlist
  | @branch q cs cs' v a b hcs ih =>
    obtain rfl := Except.ok.inj hj
    exact ⟨_, rfl, .extension hf (hq ▸ .branch hcs) (Or.inl (isStem_branch _ _ _))⟩
  | @hidden q t w h =>
    refine ⟨_, rfl, ?_⟩
    by_cases hshort : t.isShort = true
    · have hnot : ¬ t.IsStem := by
        rcases isShort_iff.1 hshort with ⟨g, v, a, rfl⟩ | ⟨g, b, a, rfl⟩ <;> simp [IsStem, kind]
      exact .loose (h.join hshort hq.symm hf (hside.resolve_left hnot) hj)
    · have hstem : t.IsStem := by
        have hne := h.ne_empty
        cases t with
        | empty => exact absurd rfl hne
        | hidden d => exact isStem_hidden d
        | branch cs v a => exact isStem_branch cs v a
        | _ => exact absurd rfl hshort
      rw [join_stem hstem] at hj
      obtain rfl := Except.ok.inj hj
      exact .extension hf (hq ▸ .hidden h.forgetRoot) (Or.inl hstem.forgetRoot)
  | @loose q t g w a h =>
    obtain ⟨fg, hfg, hloose⟩ := h.join hq.symm hj
    have hjoin : Trie.join f (.extension g (.hidden w) a) =
        .ok (.extension fg (.hidden w) none) := by
      rw [Trie.join, hfg]
      rfl
    exact ⟨_, hjoin, .loose hloose⟩

/-- Settling related tries. -/
theorem Veiled.settle (h : V.Veiled m t p) (hset : settle t = .ok t') :
    ∃ p', settle p = .ok p' ∧ V.Veiled m t' p' := by
  cases h with
  | empty => exact ⟨_, rfl, Except.ok.inj hset ▸ .empty⟩
  | leaf => exact ⟨_, rfl, Except.ok.inj hset ▸ .leaf⟩
  | extension hf hc hstem => exact hc.join hf hstem hset
  | branch hcs => exact ⟨_, rfl, Except.ok.inj hset ▸ .branch hcs⟩
  | hidden h =>
    refine ⟨_, rfl, .hidden (h.of_forget_eq (hereditary_sound.settle h.sound hset) ?_)⟩
    exact settle_forget (fun f c a ht => by
      subst ht
      exact h.stem) hset
  | @loose m t g w a h =>
    refine ⟨.extension g (.hidden w) none, rfl, .loose ?_⟩
    rcases isShort_iff.1 h.short with ⟨f, v, b, rfl⟩ | ⟨f, c, b, rfl⟩
    · exact Except.ok.inj hset ▸ h
    · obtain ⟨r, hr, hcon⟩ := h.rest
      exact h.of_forget_eq (hereditary_sound.join h.sound.1 hset) (settle_forget (fun f c a ht => by
        cases ht
        exact hcon.stem) hset)

/-! ## Branches that lose an occupant -/

theorem Veiled.fork_set {cs cs' : Nibble → Trie} {d : Nibble}
    (hcs : ∀ i, V.Veiled (m ++ [i]) (cs i) (cs' i)) (hc : V.Veiled (m ++ [d]) c c') :
    V.Veiled m (fork (Children.set cs d c) v) (fork (Children.set cs' d c') v) := by
  refine .branch fun i => ?_
  rw [Children.get_set, Children.get_set]
  split
  · next h => exact h ▸ hc
  · exact hcs i

/-- The extension to the only child that a branch is left with. -/
theorem Veiled.single {i : Nibble} (hc : V.Veiled (m ++ [i]) c c') (hk : ∃ k, V.keys k ∧ m <+: k) :
    V.Veiled m (.extension (.single i) c none) (.extension (.single i) c' none) := by
  obtain ⟨k, hk, hpre⟩ := hk
  exact .extension (by simp) hc (Or.inr ⟨k, hk, by simpa using hpre⟩)

theorem positions_eq {cs cs' : Nibble → Trie} (hcs : ∀ i, V.Veiled (m ++ [i]) (cs i) (cs' i))
    (p : Nibble → Bool) : Children.positions (fun i => p i && !(cs' i).isEmpty) =
      Children.positions fun i => p i && !(cs i).isEmpty := by
  simp only [(hcs _).isEmpty_eq]

/-- Related branches shrink in the same way. -/
theorem Veiled.shrink {cs cs' : Nibble → Trie} {d : Nibble}
    (hcs : ∀ i, V.Veiled (m ++ [i]) (cs i) (cs' i)) (hc : V.Veiled (m ++ [d]) c c')
    (hk : ∃ k, V.keys k ∧ m <+: k) (hs : shrink cs v d c = .ok t') :
    ∃ p', shrink cs' v d c' = .ok p' ∧ V.Veiled m t' p' := by
  -- the branch stays, with its child settled
  have hstays : (do return fork (Children.set cs d (← Trie.settle c)) v : Attempt TrieError Trie) =
      .ok t' → ∃ p', (do return fork (Children.set cs' d (← Trie.settle c')) v :
        Attempt TrieError Trie) = .ok p' ∧ V.Veiled m t' p' := fun h => by
    cases hset : Trie.settle c with
    | error e => simp [hset, bind, Except.bind] at h
    | ok c₁ =>
      simp only [hset, bind, Except.bind, pure, Except.pure, Except.ok.injEq] at h
      obtain ⟨c₁', hset', hc₁⟩ := hc.settle hset
      rw [← h, hset']
      exact ⟨_, rfl, Veiled.fork_set hcs hc₁⟩
  rw [Trie.shrink] at hs ⊢
  rw [hc.isEmpty_eq, positions_eq hcs]
  generalize c.isEmpty = gone at hs ⊢
  generalize Children.positions _ = others at hs ⊢
  cases gone with
  | false =>
    dsimp only at hs ⊢
    exact hstays hs
  | true =>
    match others with
    | [] =>
      cases hv : v.isEmpty with
      | true =>
        simp only [hv, Except.ok.injEq] at hs
        exact ⟨.empty, rfl, hs ▸ .empty⟩
      | false =>
        simp only [hv, Except.ok.injEq] at hs
        exact ⟨.leaf .empty v none, rfl, hs ▸ .leaf⟩
    | [i] =>
      cases hv : v.isEmpty with
      | true =>
        simp only [hv, Except.ok.injEq] at hs
        rw [← hs]
        exact ⟨_, rfl, (hcs i).single hk⟩
      | false =>
        simp only [hv] at hs
        exact hstays hs
    | i :: j :: others =>
      dsimp only at hs ⊢
      exact hstays hs

/-- Related branches lose their value in the same way. -/
theorem Veiled.unvalue {cs cs' : Nibble → Trie} (hcs : ∀ i, V.Veiled (m ++ [i]) (cs i) (cs' i))
    (hk : ∃ k, V.keys k ∧ m <+: k) : V.Veiled m (unvalue cs) (unvalue cs') := by
  have hpos := positions_eq hcs fun _ => true
  simp only [Bool.true_and] at hpos
  rw [Trie.unvalue, Trie.unvalue, hpos]
  split
  · next i _ => exact (hcs i).single hk
  · exact .branch hcs

end Veil

end Stateless
