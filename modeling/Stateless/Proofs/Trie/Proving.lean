import Stateless.Proofs.Trie.Soundness

/-!
# What a proof consists of

The proof of a key is made on the way of the key: from node to node, it takes the encoding of the
first node and those of all long nodes. `way_induction` says once how such a way goes on. The main
statements are `prove_complete`, which says what a proof consists of, and `prove_error`, which says
when there is none.
-/

namespace Stateless

namespace Trie

variable [Hasher]

/-- A place on the way of a list of nibbles with the encoding of the node that stands there, which
is stored by its hash: it is the root, or it is long. -/
def Stored (t : Trie) (k l : List Nibble) (e : Bytes) : Prop :=
  l <+: k ∧ ∃ s, t.nodeAt l = some s ∧ s.content = .ok e ∧ (l = [] ∨ hashLength ≤ e.length)

/-- The encoding of a node on the way that is long, or of the first node if it is the root. -/
def Shown (isRoot : Bool) (t : Trie) (k : List Nibble) (e : Bytes) : Prop :=
  ∃ l s, l <+: k ∧ t.nodeAt l = some s ∧ s.content = .ok e ∧
    ((isRoot = true ∧ l = []) ∨ hashLength ≤ e.length)

/-- What a proof takes of a node on the way itself. -/
def here (isRoot : Bool) (t : Trie) : List Bytes :=
  match t.content with
  | .error _ => []
  | .ok e => if isRoot || hashLength ≤ e.length then [e] else []

/-- What a proof takes of the nodes below. -/
def proveBelow : Trie → Path → Except TrieError (List Bytes)
  | .hidden h, _ => .error (.readHidden h)
  | .extension f c _, k => if k.startsWith f then proveFrom false c (k.drop f.length) else .ok []
  | .branch cs _ _, k =>
    match k.uncons with
    | none => .ok []
    | some (d, rest) => proveFrom false (cs d) rest
  | _, _ => .ok []

variable {t c s : Trie} {k r : Path} {p l : List Nibble} {e : Bytes} {n : Nat} {isRoot : Bool}
variable {a : Option Bytes} {w : Word}

theorem shown_root_iff : Shown true t k.toList e ↔ ∃ l, t.Stored k.toList l e := by
  simp only [Shown, Stored, true_and]
  constructor
  · rintro ⟨l, s, hl, hs, he, hlong⟩
    exact ⟨l, hl, s, hs, he, hlong⟩
  · rintro ⟨l, hl, s, hs, he, hlong⟩
    exact ⟨l, s, hl, hs, he, hlong⟩

/-- Where the way ends at a node, only that node can be shown. -/
theorem shown_end
    (hend : ∀ l s, l ≠ [] → l <+: k.toList → t.nodeAt l = some s → s = .empty) :
    Shown isRoot t k.toList e ↔
      t.content = .ok e ∧ (isRoot = true ∨ hashLength ≤ e.length) := by
  constructor
  · rintro ⟨l, s, hl, hs, he, hlong⟩
    by_cases hne : l = []
    · subst hne
      obtain rfl := Option.some.inj ((nodeAt_nil t).symm.trans hs)
      exact ⟨he, hlong.imp_left And.left⟩
    · obtain rfl := hend l s hne hl hs
      obtain rfl := Except.ok.inj he
      exact absurd (hlong.resolve_left fun h => hne h.2) (by decide)
  · rintro ⟨he, hlong⟩
    exact ⟨[], t, List.nil_prefix, nodeAt_nil t, he, hlong.imp_left fun h => ⟨h, rfl⟩⟩

/-- Where the way goes on to a child, all that is shown is the node and what is shown below. -/
theorem shown_step (hc : Leads t c p k) (hk : k.toList = p ++ r.toList) :
    Shown isRoot t k.toList e ↔
      (t.content = .ok e ∧ (isRoot = true ∨ hashLength ≤ e.length)) ∨
        Shown false c r.toList e := by
  constructor
  · rintro ⟨l, s, hl, hs, he, hlong⟩
    by_cases hne : l = []
    · subst hne
      obtain rfl := Option.some.inj ((nodeAt_nil t).symm.trans hs)
      exact Or.inl ⟨he, hlong.imp_left And.left⟩
    · obtain ⟨l', rfl⟩ := hc.only l s hne hl hs
      rw [hk, List.prefix_append_right_inj] at hl
      rw [nodeAt_append hc.node] at hs
      exact Or.inr ⟨l', s, hl, hs, he, Or.inr (hlong.resolve_left fun h => hne h.2)⟩
  · rintro (⟨he, hlong⟩ | ⟨l, s, hl, hs, he, hlong⟩)
    · exact ⟨[], t, List.nil_prefix, nodeAt_nil t, he, hlong.imp_left fun h => ⟨h, rfl⟩⟩
    · refine ⟨p ++ l, s, ?_, by rw [nodeAt_append hc.node, hs], he, Or.inr ?_⟩
      · rwa [hk, List.prefix_append_right_inj]
      · exact hlong.resolve_left fun h => by cases h.1

/-! ## The way of a key -/

theorem proveFrom_eq (isRoot : Bool) (t : Trie) (k : Path) :
    proveFrom isRoot t k = (proveBelow t k).map (here isRoot t ++ ·) := by
  have hend : (.ok (here isRoot t) : Except TrieError (List Bytes)) =
      (.ok [] : Except TrieError (List Bytes)).map (here isRoot t ++ ·) :=
    congrArg Except.ok (List.append_nil _).symm
  cases t with
  | hidden w => rfl
  | empty => exact hend
  | leaf f v m => exact hend
  | extension f c m =>
    rw [proveFrom, proveBelow]
    split
    · cases proveFrom false c (k.drop f.length) <;> rfl
    · exact hend
  | branch cs v m =>
    rw [proveFrom, proveBelow]
    cases k.uncons with
    | none => exact hend
    | some a =>
      obtain ⟨d, rest⟩ := a
      dsimp only
      cases proveFrom false (cs d) rest <;> rfl

/-- A way that does not run into a hidden part ends at a node, below which there is no other node on
the way, or goes on through one of the node's children. -/
theorem way_induction {motive : Trie → Path → Prop}
    (ends : ∀ {t k}, (∀ l s, l ≠ [] → l <+: k.toList → t.nodeAt l = some s → s = .empty) →
      proveBelow t k = .ok [] → motive t k)
    (step : ∀ {t c : Trie} {p : List Nibble} {k r : Path}, p ≠ [] → Leads t c p k →
      k.toList = p ++ r.toList → proveBelow t k = proveFrom false c r → motive c r → motive t k)
    (ht : Canonical n t) (ha : t.view k.toList = .ok a) : motive t k := by
  induction t generalizing n k with
  | hidden w => cases ha
  | empty =>
    refine ends (fun l s hne _ hs => ?_) rfl
    cases l with
    | nil => exact absurd rfl hne
    | cons d l => cases hs
  | leaf f v m =>
    refine ends (fun l s hne _ hs => ?_) rfl
    cases l with
    | nil => exact absurd rfl hne
    | cons d l => cases hs
  | extension f c m ih =>
    obtain ⟨hf, -, -, hc⟩ := ht
    by_cases hst : k.startsWith f = true
    · have hk := (Path.append_drop_of_startsWith hst).symm
      rw [hk, view_extension, under_front] at ha
      exact step hf (leads_extension hf k) hk (if_pos hst) (ih hc ha)
    · refine ends (fun l s hne hl hs => ?_) (if_neg hst)
      exact absurd (Path.startsWith_iff.2 ((prefix_of_nodeAt_extension hne hs).trans hl)) hst
  | branch cs v m ih =>
    obtain ⟨-, -, hcs⟩ := ht
    cases hu : k.uncons with
    | none =>
      refine ends (fun l s hne hl _ => ?_) (by rw [proveBelow, hu])
      exact absurd (List.prefix_nil.1 (Path.uncons_eq_none_iff.1 hu ▸ hl)) hne
    | some a =>
      obtain ⟨i, r⟩ := a
      have hk := Path.uncons_eq_some_iff.1 hu
      rw [hk, view_branch_cons] at ha
      exact step (List.cons_ne_nil _ _) (leads_branch hk) hk (by rw [proveBelow, hu]) (ih i (hcs i) ha)

/-! ## What is taken -/

theorem mem_here : e ∈ here isRoot t ↔
    t.content = .ok e ∧ (isRoot = true ∨ hashLength ≤ e.length) := by
  rw [here]
  cases hc : t.content with
  | error w => simp
  | ok e' =>
    dsimp only
    by_cases h : isRoot = true ∨ hashLength ≤ e'.length
    · have : (isRoot || decide (hashLength ≤ e'.length)) = true := by simpa using h
      rw [if_pos this, List.mem_singleton, Except.ok.injEq]
      constructor
      · rintro rfl
        exact ⟨rfl, h⟩
      · exact fun he => he.1.symm
    · have : ¬ (isRoot || decide (hashLength ≤ e'.length)) = true := by simpa using h
      rw [if_neg this]
      simp only [List.not_mem_nil, Except.ok.injEq, false_iff]
      rintro ⟨rfl, h'⟩
      exact h h'

theorem here_root (hc : t.content = .ok e) : here true t = [e] := by
  simp [here, hc]

theorem here_long (h : t.Long [] e) : here isRoot t = [e] := by
  obtain ⟨s, hs, hc, hlen⟩ := h
  obtain rfl := Option.some.inj ((nodeAt_nil t).symm.trans hs)
  simp [here, hc, hlen]

theorem here_short (h : ∀ e, ¬ t.Long [] e) : here false t = [] := by
  refine List.eq_nil_iff_forall_not_mem.2 fun e he => ?_
  obtain ⟨hc, hlen⟩ := mem_here.1 he
  exact h e ⟨t, nodeAt_nil t, hc, hlen.resolve_left Bool.false_ne_true⟩

/-- A proof of a key can be made and consists of what is to be shown. -/
theorem proveFrom_complete (ht : Canonical n t) (ha : t.view k.toList = .ok a) (isRoot : Bool) :
    ∃ blobs, proveFrom isRoot t k = .ok blobs ∧ ∀ e, e ∈ blobs ↔ Shown isRoot t k.toList e := by
  refine way_induction (motive := fun t k => ∀ isRoot, ∃ blobs, proveFrom isRoot t k = .ok blobs ∧
    ∀ e, e ∈ blobs ↔ Shown isRoot t k.toList e) ?_ ?_ ht ha isRoot
  · intro t k hend hbelow isRoot
    refine ⟨here isRoot t ++ [], by rw [proveFrom_eq, hbelow]; rfl, fun e => ?_⟩
    rw [List.append_nil, mem_here, shown_end hend]
  · intro t c p k r _ hleads hk hbelow ih isRoot
    obtain ⟨blobs, hblobs, hmem⟩ := ih false
    refine ⟨here isRoot t ++ blobs, by rw [proveFrom_eq, hbelow, hblobs]; rfl, fun e => ?_⟩
    rw [List.mem_append, mem_here, hmem, shown_step hleads hk]

/-- The proof of a key can be made and consists of the stored nodes on its way. -/
theorem prove_complete (ht : Canonical n t) (ha : t.view k.toList = .ok a) :
    ∃ blobs, t.prove k = .ok blobs ∧ ∀ e, e ∈ blobs ↔ ∃ l, t.Stored k.toList l e := by
  obtain ⟨blobs, hblobs, hmem⟩ := proveFrom_complete ht ha true
  exact ⟨blobs, hblobs, fun e => (hmem e).trans shown_root_iff⟩

/-- There is no proof of a key whose way runs into a hidden part. -/
theorem prove_error (h : t.view k.toList = .error w) : t.prove k = .error (.readHidden w) := by
  have hbelow : proveBelow t k = .error (.readHidden w) := by
    induction t generalizing k with
    | hidden d =>
      obtain rfl := Except.error.inj h
      rfl
    | extension f c m ih =>
      by_cases hst : k.startsWith f = true
      · rw [← Path.append_drop_of_startsWith hst, view_extension, under_front] at h
        rw [proveBelow, if_pos hst, proveFrom_eq, ih h]
        rfl
      · rw [view_extension, under_off _ (mt Path.startsWith_iff.2 hst)] at h
        cases h
    | branch cs v m ih =>
      cases hu : k.uncons with
      | none =>
        rw [Path.uncons_eq_none_iff.1 hu] at h
        cases h
      | some a =>
        obtain ⟨i, r⟩ := a
        rw [Path.uncons_eq_some_iff.1 hu, view_branch_cons] at h
        rw [proveBelow, hu]
        dsimp only
        rw [proveFrom_eq, ih i h]
        rfl
    | empty => cases h
    | leaf f v m =>
      rw [view_leaf_apply] at h
      cases h
  rw [prove, proveFrom_eq, hbelow]
  rfl

/-! ## From one long node to the next -/

/-- If no long node is further on the way, nothing is taken of the nodes below. -/
theorem proveBelow_end (ht : Canonical n t) (ha : t.view k.toList = .ok a)
    (hend : ∀ l e, l <+: k.toList → ¬ (l ≠ [] ∧ t.Long l e)) : proveBelow t k = .ok [] := by
  refine way_induction (motive := fun t k => (∀ l e, l <+: k.toList → ¬ (l ≠ [] ∧ t.Long l e)) →
    proveBelow t k = .ok []) ?_ ?_ ht ha hend
  · exact fun _ hbelow _ => hbelow
  · intro t c p k r hp hleads hk hbelow ih hend
    have hnot : ∀ l e, l <+: r.toList → ¬ c.Long l e := by
      rintro l e hl ⟨s, hs, hlong⟩
      refine hend (p ++ l) e ?_ ⟨by simp [hp], s, by rw [nodeAt_append hleads.node, hs], hlong⟩
      rwa [hk, List.prefix_append_right_inj]
    rw [hbelow, proveFrom_eq, ih fun l e hl hle => hnot l e hl hle.2,
      here_short fun e => hnot [] e List.nil_prefix]
    rfl

/-- The proof goes on with the next long node on the way. -/
theorem proveBelow_next (ht : Canonical n t) (ha : t.view k.toList = .ok a) (hl : l ≠ [])
    (hs : t.nodeAt l = some s) (hk : k.toList = l ++ r.toList) (hlong : t.Long l e)
    (hfirst : ∀ l' e', l' <+: k.toList → l' ≠ [] ∧ t.Long l' e' → l <+: l') :
    proveBelow t k = proveFrom true s r := by
  refine way_induction (motive := fun t k => ∀ l : List Nibble, l ≠ [] → t.nodeAt l = some s →
    k.toList = l ++ r.toList → t.Long l e →
    (∀ l' e', l' <+: k.toList → l' ≠ [] ∧ t.Long l' e' → l <+: l') →
    proveBelow t k = proveFrom true s r) ?_ ?_ ht ha l hl hs hk hlong hfirst
  · rintro t k hend - l hl hs hk ⟨s', hs', hc, hlen⟩ -
    obtain rfl := hend l s' hl (hk ▸ List.prefix_append _ _) hs'
    obtain rfl := Except.ok.inj hc
    exact absurd hlen (by decide)
  · intro t c p k q hp hleads hq hbelow ih l hl hs hk hlong hfirst
    obtain ⟨l, rfl⟩ := hleads.only l s hl (hk ▸ List.prefix_append _ _) hs
    have hlong' : c.Long l e := by
      obtain ⟨s', hs', hc⟩ := hlong
      exact ⟨s', by rwa [nodeAt_append hleads.node] at hs', hc⟩
    have hfirst' : ∀ l' e', l' <+: q.toList → c.Long l' e' → l <+: l' := by
      rintro l' e' hl' ⟨s', hs', hc⟩
      have hpre := hfirst (p ++ l') e' (by rwa [hq, List.prefix_append_right_inj])
        ⟨by simp [hp], s', by rw [nodeAt_append hleads.node, hs'], hc⟩
      exact (List.prefix_append_right_inj p).1 hpre
    have hrest : q.toList = l ++ r.toList := by
      rw [hq, List.append_assoc] at hk
      exact List.append_cancel_left hk
    rw [nodeAt_append hleads.node] at hs
    rw [hbelow]
    by_cases hne : l = []
    · subst hne
      obtain rfl := Option.some.inj ((nodeAt_nil c).symm.trans hs)
      obtain rfl : q = r := Path.ext hrest
      rw [proveFrom_eq, proveFrom_eq, here_long hlong', here_long hlong']
    · have hshort : ∀ e', ¬ c.Long [] e' := fun e' he' =>
        hne (List.prefix_nil.1 (hfirst' [] e' List.nil_prefix he'))
      rw [proveFrom_eq, here_short hshort,
        ih l hne hs hrest hlong' fun l' e' hl' hle' => hfirst' l' e' hl' hle'.2]
      cases proveFrom true s r <;> rfl

end Trie

end Stateless
