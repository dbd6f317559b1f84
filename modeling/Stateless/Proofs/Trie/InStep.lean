import Stateless.Proofs.Trie.PartialMap
import Stateless.Proofs.Trie.Unique

/-!
# Hidden parts do not show

A trie and a pruned copy of it are put to the same uses: keys are looked up, values are put, keys
are removed, root hashes are computed. The copy refuses a use that would have to enter a hidden
part, and stays as it is. In all other uses the two answer alike, and they have the same root hash
all the time: they stay `InStep`. This holds of all uses if only branches are hidden
(`inStep_of_branches_hidden`). If leaves or extensions are hidden as well it holds as long as
nothing is removed (`inStep_without_removals`), because a removal can merge them with a branch that
is left with nothing else.

The step lemma is `Mirrors.step`. It does not follow the operations through the two tries. After a
use the answers of both are known, and since answers tell where the nodes of a canonical trie stand,
what the copy hides afterwards is again a node of the other trie with the same encoding.
-/

namespace Stateless

namespace Trie

variable {t t' p p' s : Trie} {n k : Nat} {l m : List Nibble} {w : Word}

/-! ## Where parts are hidden -/

/-- A lookup that fails has met a hidden part on its way. -/
theorem exists_hidden_of_view (hp : Canonical k p) (h : p.view m = .error w) :
    ∃ l r, m = l ++ r ∧ p.nodeAt l = some (.hidden w) := by
  induction p generalizing k m with
  | empty => cases h
  | hidden d =>
    obtain rfl : d = w := Except.error.inj h
    exact ⟨[], m, rfl, rfl⟩
  | leaf f v a =>
    rw [view_leaf_apply] at h
    cases h
  | extension f c a ih =>
    obtain ⟨hf, -, -, hc⟩ := hp
    rw [view_extension] at h
    by_cases hfm : f.toList <+: m
    · obtain ⟨x, rfl⟩ := hfm
      rw [under_front] at h
      obtain ⟨l, r, rfl, hl⟩ := ih hc h
      exact ⟨f.toList ++ l, r, (List.append_assoc _ _ _).symm,
        by rw [nodeAt_extension_append hf, hl]⟩
    · rw [under_off _ hfm] at h
      cases h
  | branch cs v a ih =>
    cases m with
    | nil => cases h
    | cons d m =>
      obtain ⟨l, r, rfl, hl⟩ := ih d (hp.2.2 d) h
      exact ⟨d :: l, r, rfl, hl⟩

/-- Nothing stands below a hidden part. -/
theorem nil_of_below_hidden {r : List Nibble} (h : p.nodeAt m = some (.hidden w))
    (hs : p.nodeAt (m ++ r) = some s) : r = [] := by
  rw [nodeAt_append h] at hs
  cases r with
  | nil => rfl
  | cons d r => cases hs

/-- Tries that hide the answers for the same keys hide parts at the same places. -/
theorem nodeAt_hidden_of_view (hp : Canonical n p) (hp' : Canonical k p')
    (hhidden : ∀ l w, p'.view l = .error w ↔ p.view l = .error w)
    (h : p'.nodeAt m = some (.hidden w)) : p.nodeAt m = some (.hidden w) := by
  have hm : p.view m = .error w := by
    rw [← hhidden, ← List.append_nil m, view_nodeAt h, view_hidden]
  obtain ⟨l, r, rfl, hl⟩ := exists_hidden_of_view hp hm
  have hl' : p'.view l = .error w := by
    rw [hhidden, ← List.append_nil l, view_nodeAt hl, view_hidden]
  -- the part that hides the shorter list in the other trie stands above the one that is there
  obtain ⟨x, y, rfl, hx⟩ := exists_hidden_of_view hp' hl'
  have hnil : y ++ r = [] := by
    rw [List.append_assoc] at h
    exact nil_of_below_hidden hx h
  rw [(List.append_eq_nil_iff.1 hnil).2, List.append_nil]
  exact hl

/-! ## Keys and places -/

/-- Keys that part still do so when one more is put. -/
theorem Forks.put {answers : List Nibble → Answer} {v : Bytes} (h : Forks answers m)
    (l : List Nibble) : Forks (Function.update answers l (.ok (some v))) m := by
  have hkey : ∀ {x u}, answers x = .ok (some u) →
      ∃ u', Function.update answers l (.ok (some v)) x = .ok (some u') := by
    intro x u hx
    by_cases hxl : x = l
    · exact ⟨v, by rw [hxl, Function.update_self]⟩
    · exact ⟨u, by rw [Function.update_of_ne hxl, hx]⟩
  obtain ⟨i, x, u, y, u', hx, hy, hnot⟩ := h
  obtain ⟨z, hz⟩ := hkey hx
  obtain ⟨z', hz'⟩ := hkey hy
  exact ⟨i, x, z, y, z', hz, hz', hnot⟩

theorem Rooted.put {answers : List Nibble → Answer} {v : Bytes} (h : Rooted answers m)
    (l : List Nibble) : Rooted (Function.update answers l (.ok (some v))) m := by
  rcases h with hm | hm | ⟨r, d, hr, hforks⟩
  · exact Or.inl hm
  · exact Or.inr (Or.inl (hm.put l))
  · exact Or.inr (Or.inr ⟨r, d, hr, hforks.put l⟩)

variable [Hasher] {K : Kind → Prop}

/-! ## Pruned tries whose answers change -/

/-- A pruned trie is followed by one that hides the same answers and shows what the other trie
answers then, if the nodes that are hidden keep their places and their answers. -/
theorem Pruned.follow (h : Pruned K t p) (ht : t.Intact) (ht' : t'.Intact)
    (hp' : Canonical maxNibbles p')
    (hhidden : ∀ l w, p'.view l = .error w ↔ p.view l = .error w)
    (hanswers : ∀ l a, p'.view l = .ok a → t'.view l = .ok a)
    (hkeep : ∀ m s, t.nodeAt m = some s → K s.kind → (∀ r, ∃ w, p.view (m ++ r) = .error w) →
      Rooted t'.view m ∧ ∀ r, t'.view (m ++ r) = t.view (m ++ r)) : Pruned K t' p' := by
  have hshows : Shows K t' [] p' := by
    refine ⟨hanswers, fun m w hw => ?_⟩
    have hwp := nodeAt_hidden_of_view (h.canonical ht.canonical) hp' hhidden hw
    obtain ⟨s, e, hst, hk, he, hlen, hwe⟩ := h.hideable hwp
    obtain ⟨hroot, hsame⟩ := hkeep m s hst hk fun r => ⟨w, by rw [view_nodeAt hwp, view_hidden]⟩
    obtain ⟨s', hst'⟩ := nodeAt_of_rooted ht'.canonical ht'.full hroot
    have hview : s'.view = s.view := by
      funext r
      rw [← view_nodeAt hst', ← view_nodeAt hst, hsame]
    have hforget : s'.forget = s.forget :=
      forget_eq_of_view_eq (ht.canonical.nodeAt hst).2 (ht.full.nodeAt hst)
        (ht'.canonical.nodeAt hst').2 (ht'.full.nodeAt hst') hview
    have hkind : s'.kind = s.kind := by rw [← kind_forget, hforget, kind_forget]
    have hcontent : s'.content = s.content := by
      rw [← content_forget (ht'.sound.nodeAt hst'), hforget, content_forget (ht.sound.nodeAt hst)]
    exact ⟨s', e, hst', hkind ▸ hk, hcontent.trans he, hlen, hwe⟩
  exact hshows.pruned ht'.canonical ht'.full hp' (nodeAt_nil t')

/-- Tries that answer as before are pruned as before. -/
theorem Pruned.of_view_eq (h : Pruned K t p) (ht : t.Intact) (ht' : t'.Intact)
    (hp' : Canonical maxNibbles p') (htv : t'.view = t.view) (hpv : p'.view = p.view) :
    Pruned K t' p' := by
  refine h.follow ht ht' hp' (fun l w => by rw [hpv]) ?_ ?_
  · intro l a ha
    rw [hpv] at ha
    rw [htv, h.view ha]
  · intro m s hm _ _
    rw [htv]
    exact ⟨rooted_of_nodeAt ht.canonical ht.full hm, fun r => rfl⟩

/-- Tries of which one and the same answer is changed are pruned as before, if the nodes that may be
hidden keep their places. -/
theorem Pruned.of_view_update {a b : Option Bytes} (h : Pruned K t p) (ht : t.Intact)
    (ht' : t'.Intact) (hp' : Canonical maxNibbles p') (hl : p.view l = .ok b)
    (htv : t'.view = Function.update t.view l (.ok a))
    (hpv : p'.view = Function.update p.view l (.ok a))
    (hroot : ∀ m s, t.nodeAt m = some s → K s.kind → (∀ r, t'.view (m ++ r) = s.view r) →
      Rooted t'.view m) : Pruned K t' p' := by
  refine h.follow ht ht' hp' ?_ ?_ ?_
  · intro x w
    rw [hpv]
    by_cases hx : x = l
    · simp [hx, hl]
    · rw [Function.update_of_ne hx]
  · intro x c hc
    rw [hpv] at hc
    rw [htv]
    by_cases hx : x = l
    · rw [hx, Function.update_self] at hc ⊢
      exact hc
    · rw [Function.update_of_ne hx] at hc ⊢
      exact h.view hc
  · intro m s hm hk hbelow
    have hsame : ∀ r, t'.view (m ++ r) = t.view (m ++ r) := by
      intro r
      have hne : m ++ r ≠ l := by
        rintro rfl
        obtain ⟨w, hw⟩ := hbelow r
        rw [hw] at hl
        cases hl
      rw [htv, Function.update_of_ne hne]
    exact ⟨hroot m s hm hk fun r => by rw [hsame, view_nodeAt hm], hsame⟩

end Trie

open Trie

/-! ## Uses -/

/-- A use of a trie: a lookup or an edit. -/
inductive Use where
  /-- A key is looked up. -/
  | read (key : Path)
  /-- An edit is carried out. -/
  | edit (e : Edit)

namespace Use

/-- A use that has to enter a hidden part of the trie, and the refusal that names the part. -/
inductive Refused (t : Trie) : Use → TrieError → Prop
  /-- A key that is looked up is hidden. -/
  | read {k : Path} {w : Word} (h : t.lookup k = .error w) : Refused t (.read k) (.readHidden w)
  /-- The place for an entry is hidden. -/
  | put {k : Path} {w : Word} (e : Entry) (h : t.lookup k = .error w) :
    Refused t (.edit (.put k e)) (.insertHidden w)
  /-- A key to be removed is hidden. -/
  | remove {k : Path} {w : Word} (h : t.lookup k = .error w) :
    Refused t (.edit (.remove k)) (.removeHidden w)

/-- Whether the entry that is put, if one is, satisfies a predicate. -/
def Puts (P : Entry → Prop) : Use → Prop
  | read _ => True
  | edit e => e.Puts P

/-- A use that may be made of a trie of which only nodes of some kinds are hidden: values are put,
and keys are removed if no leaf and no extension is hidden. -/
def Suits (K : Kind → Prop) : Use → Prop
  | read _ => True
  | edit (.put _ e) => e.Known
  | edit (.remove _) => ∀ kind, K kind → kind = .branch
  | edit .hash => True

variable [Hasher]

/-- Makes use of a trie. -/
def apply : Use → Trie → Attempt TrieError (Option Bytes) × Trie
  | read k, t => (Attempt.ofExcept (t.getProven k), t)
  | edit e, t => e.apply t

/-- A use of a trie and its pruned copy. The copy refuses it because of a hidden part and stays as
it is, and the use is skipped, or both give the same answer. `R` says what holds afterwards. -/
def Follows (u : Use) (R : Trie → Trie → Prop) (t p : Trie) : Prop :=
  (∃ r p', u.apply p = (.error (.error r), p') ∧ u.Refused p r ∧ p'.same p = true ∧ R t p') ∨
  ∃ a t' p', u.apply p = (.ok a, p') ∧ u.apply t = (.ok a, t') ∧ R t' p'

theorem Follows.mono {u : Use} {R S : Trie → Trie → Prop} {t p : Trie} (h : u.Follows R t p)
    (hRS : ∀ {t p}, R t p → S t p) : u.Follows S t p := by
  rcases h with ⟨r, p', hp, hr, hsame, hR⟩ | ⟨a, t', p', hp, ht, hR⟩
  · exact Or.inl ⟨r, p', hp, hr, hsame, hRS hR⟩
  · exact Or.inr ⟨a, t', p', hp, ht, hRS hR⟩

end Use

namespace Trie

section

variable [Hasher] {K : Kind → Prop} {t t' p p' : Trie} {k : Path}

/-- The second trie is the first with parts hidden, and the two have the same root hash. -/
structure Agree (K : Kind → Prop) (t p : Trie) : Prop where
  pruned : Pruned K t p
  hash_eq : p.hash.1 = t.hash.1

/-- A trie and its pruned copy agree, and they still do after each of some uses. -/
def InStep (K : Kind → Prop) : List Use → Trie → Trie → Prop
  | [], t, p => Agree K t p
  | u :: uses, t, p => Agree K t p ∧ u.Follows (InStep K uses) t p

/-- An intact trie and a pruned copy of it. -/
structure Mirrors (K : Kind → Prop) (t p : Trie) : Prop where
  intact : t.Intact
  pruned : Pruned K t p
  sound : Sound p

namespace Mirrors

theorem canonical (h : Mirrors K t p) : Canonical maxNibbles p :=
  h.pruned.canonical h.intact.canonical

theorem agree (h : Mirrors K t p) : Agree K t p :=
  ⟨h.pruned, h.pruned.hash_eq h.intact.sound h.sound⟩

/-- A refused edit only costs the memo of the root. -/
theorem refused {e : Edit} {r : TrieError} (h : Mirrors K t p)
    (hap : e.apply p = (.error (.error r), p.forgetRoot)) (hr : (Use.edit e).Refused p r) :
    (Use.edit e).Follows (Mirrors K) t p := by
  have hsame : p.forgetRoot.same p = true := same_iff_forget_eq.2 (forget_withMemo p none)
  have hpruned := h.pruned.of_view_eq h.intact h.intact (h.canonical.withMemo none) rfl
    (withMemo_view p none)
  exact Or.inl ⟨r, p.forgetRoot, hap, hr, hsame, h.intact, hpruned,
    hereditary_sound.forgetRoot h.sound⟩

/-- An edit that both tries carry out. -/
theorem answered {e : Edit} {a : Option Bytes} (h : Mirrors K t p) (he : e.Puts Entry.Known)
    (hp : e.apply p = (.ok a, p')) (ht : e.apply t = (.ok a, t'))
    (hpruned : t'.Intact → Pruned K t' p') : (Use.edit e).Follows (Mirrors K) t p := by
  have ht' := Edit.apply_intact he h.intact ht
  have hp' := Edit.apply_hereditary hereditary_sound (fun _ => Sound.memoize)
    (Edit.Known.admits he).2 h.sound hp
  exact Or.inr ⟨a, t', p', hp, ht, ht', hpruned ht', hp'⟩

/-! ## One use -/

theorem read (h : Mirrors K t p) (k : Path) : (Use.read k).Follows (Mirrors K) t p := by
  have hread : ∀ s : Trie, (Use.read k).apply s =
      (Attempt.ofExcept ((s.view k.toList).mapError .readHidden), s) := by
    intro s
    rw [← getProven_eq]
    rfl
  cases ha : p.view k.toList with
  | error w =>
    have hp : (Use.read k).apply p = (.error (.error (.readHidden w)), p) := by rw [hread, ha]; rfl
    have hr : (Use.read k).Refused p (.readHidden w) := .read ((lookup_eq_view p k).trans ha)
    exact Or.inl ⟨_, p, hp, hr, same_iff_forget_eq.2 rfl, h⟩
  | ok a =>
    have hp : (Use.read k).apply p = (.ok a, p) := by rw [hread, ha]; rfl
    have ht : (Use.read k).apply t = (.ok a, t) := by rw [hread, h.pruned.view ha]; rfl
    exact Or.inr ⟨a, t, p, hp, ht, h⟩

/-- A value that is put adds a key at most, so all hidden nodes keep their places. -/
theorem put {v : Bytes} (h : Mirrors K t p) (k : Path) (hv : v ≠ []) :
    (Use.edit (.put k (.value v))).Follows (Mirrors K) t p := by
  have hput := put_answer h.canonical k.length_le_max hv
  cases ha : p.view k.toList with
  | error w =>
    have hins := insert_value_answer p k v
    rw [ha] at hins
    have hap : (Edit.put k (.value v)).apply p =
        (.error (.error (.insertHidden w)), p.forgetRoot) := by simp [Edit.apply, Trie.put, hins]
    exact h.refused hap (.put (.value v) ((lookup_eq_view p k).trans ha))
  | ok a =>
    have hput' := put_answer h.intact.canonical k.length_le_max hv
    rw [ha] at hput
    rw [h.pruned.view ha] at hput'
    obtain ⟨p', hp', hcan, hpv⟩ := hput
    obtain ⟨t', ht', -, htv⟩ := hput'
    have hap : (Edit.put k (.value v)).apply p = (.ok none, p') := by simp [Edit.apply, hp']
    have hat : (Edit.put k (.value v)).apply t = (.ok none, t') := by simp [Edit.apply, ht']
    refine h.answered hv hap hat ?_
    intro hintact
    refine h.pruned.of_view_update h.intact hintact hcan ha htv hpv ?_
    intro m s hm _ _
    rw [htv]
    exact (rooted_of_nodeAt h.intact.canonical h.intact.full hm).put k.toList

/-- The keys of a hidden branch part where it stands, whatever is removed elsewhere. -/
theorem remove (h : Mirrors K t p) (hK : ∀ kind, K kind → kind = .branch) (k : Path) :
    (Use.edit (.remove k)).Follows (Mirrors K) t p := by
  have hrem := remove_answer (Nat.le_refl _) h.canonical k
  cases ha : p.view k.toList with
  | error w =>
    have hdet := detach_answer (Nat.le_refl _) h.canonical k
    rw [ha] at hdet
    have hap : (Edit.remove k).apply p = (.error (.error (.removeHidden w)), p.forgetRoot) := by
      simp [Edit.apply, Trie.remove, hdet]
    exact h.refused hap (.remove ((lookup_eq_view p k).trans ha))
  | ok a =>
    have hrem' := remove_answer (Nat.le_refl _) h.intact.canonical k
    rw [ha] at hrem
    rw [h.pruned.view ha] at hrem'
    obtain ⟨p', hp', hcan, hpv⟩ := hrem
    obtain ⟨t', ht', -, htv⟩ := hrem'
    refine h.answered trivial (a := a) hp' ht' ?_
    intro hintact
    refine h.pruned.of_view_update h.intact hintact hcan ha htv hpv ?_
    intro m s hm hk hsame
    cases s with
    | branch cs v b =>
      have hforks := diverges_branch (h.intact.canonical.nodeAt hm).2 (h.intact.full.nodeAt hm)
      refine Or.inr (Or.inl ?_)
      simpa only [Forks, hsame] using hforks
    | _ => cases hK _ hk

theorem hash (h : Mirrors K t p) : (Use.edit .hash).Follows (Mirrors K) t p := by
  have hview : ∀ s : Trie, s.memoize.view = s.view := by
    intro s
    rw [← view_forget, forget_memoize, view_forget]
  refine h.answered trivial (a := none) rfl rfl ?_
  intro hintact
  exact h.pruned.of_view_eq h.intact hintact (Edit.canonical_memoize h.canonical) (hview t)
    (hview p)

/-- A use keeps a trie and its pruned copy in step. -/
theorem step {u : Use} (h : Mirrors K t p) (hu : u.Suits K) : u.Follows (Mirrors K) t p := by
  cases u with
  | read k => exact h.read k
  | edit e =>
    cases e with
    | put k x =>
      cases x with
      | value v => exact h.put k hu
      | hidden d => exact absurd hu id
    | remove k => exact h.remove hu k
    | hash => exact h.hash

/-- Uses keep a trie and its pruned copy in step. -/
theorem inStep {uses : List Use} (h : Mirrors K t p) (huses : ∀ u ∈ uses, u.Suits K) :
    InStep K uses t p := by
  induction uses generalizing t p with
  | nil => exact h.agree
  | cons u uses ih =>
    have hrest : ∀ u ∈ uses, u.Suits K := fun u hu => huses u (List.mem_cons_of_mem _ hu)
    exact ⟨h.agree, (h.step (huses u List.mem_cons_self)).mono fun h' => ih h' hrest⟩

end Mirrors

/-- A run from nothing makes an intact trie, of which pruned copies can be made. -/
theorem mirrors_of_run {edits : List Edit} {answers : List (Option Bytes)}
    (hknown : ∀ e ∈ edits, e.Puts Entry.Known) (hrun : Edit.run edits .empty = .ok (answers, t))
    (hp : Pruned K t p) (hs : Sound p) : Mirrors K t p := by
  have hholds := Edit.holds_of_run hknown holds_empty hrun
  exact ⟨hholds.intact, hp, hs⟩

/-- A trie that was made by putting values and removing keys, and a copy of it in which some
branches with long encodings are hidden, stay in step whatever is looked up, put, removed and
hashed. -/
theorem inStep_of_branches_hidden {edits : List Edit} {answers : List (Option Bytes)}
    {uses : List Use} (hknown : ∀ e ∈ edits, e.Puts Entry.Known)
    (hrun : Edit.run edits .empty = .ok (answers, t)) (hp : Pruned (· = .branch) t p)
    (hs : Sound p) (huses : ∀ u ∈ uses, u.Puts Entry.Known) : InStep (· = .branch) uses t p := by
  refine (mirrors_of_run hknown hrun hp hs).inStep ?_
  intro u hu
  have hputs := huses u hu
  cases u with
  | read k => trivial
  | edit e =>
    cases e with
    | put k x => exact hputs
    | remove k => exact fun kind hkind => hkind
    | hash => trivial

/-- A trie that was made by putting values and removing keys, and a copy of it in which some parts
of any kind with long encodings are hidden, stay in step whatever is looked up, put and hashed. -/
theorem inStep_without_removals {edits : List Edit} {answers : List (Option Bytes)}
    {uses : List Use} (hknown : ∀ e ∈ edits, e.Puts Entry.Known)
    (hrun : Edit.run edits .empty = .ok (answers, t)) (hp : Pruned (fun _ => True) t p)
    (hs : Sound p) (huses : ∀ u ∈ uses, u.Puts Entry.Known ∧ ∀ k, u ≠ .edit (.remove k)) :
    InStep (fun _ => True) uses t p := by
  refine (mirrors_of_run hknown hrun hp hs).inStep ?_
  intro u hu
  obtain ⟨hputs, hremove⟩ := huses u hu
  cases u with
  | read k => trivial
  | edit e =>
    cases e with
    | put k x => exact hputs
    | remove k => exact absurd rfl (hremove k)
    | hash => trivial

/-! ## Tries with a hidden part -/

namespace Crown

/-- A branch with some child and a leaf beside it. -/
def crown (c : Trie) : Trie :=
  .branch (Children.set (only 1 c).get 4 (.leaf .empty [7] none)).get [] none

theorem pruned_crown {c : Trie} {e : Bytes} (hk : K c.kind) (he : c.content = .ok e)
    (hlen : hashLength ≤ e.length) : Pruned K (crown c) (crown (.hidden (digest e))) := by
  refine .branch fun i => ?_
  rw [Children.get_set, Children.get_set, only_get, only_get]
  by_cases h4 : i = 4
  · rw [if_pos h4, if_pos h4]
    exact .leaf
  · rw [if_neg h4, if_neg h4]
    by_cases h1 : i = 1
    · rw [if_pos h1, if_pos h1]
      exact .hidden hk he hlen
    · rw [if_neg h1, if_neg h1]
      exact .empty

theorem sound_crown (w : Word) : Sound (crown (.hidden w)) := by
  refine ⟨fun i => ?_, memoHolds_of_memo_none rfl⟩
  rw [Children.get_set, only_get]
  by_cases h4 : i = 4
  · rw [if_pos h4]
    exact memoHolds_of_memo_none rfl
  · rw [if_neg h4]
    by_cases h1 : i = 1
    · rw [if_pos h1]
      trivial
    · rw [if_neg h1]
      trivial

end Crown

end

/-! ## Instances -/

namespace Crown

/-- The children of a branch with two leaves. -/
def buds : Nibble → Trie :=
  (Children.set (only 2 (.leaf .empty [1, 2, 3, 4, 5, 6, 7, 8] none)).get 3
    (.leaf .empty [8, 7, 6, 5, 4, 3, 2, 1] none)).get

/-- The encoding of that branch. -/
def budsEncoding : Bytes := branchEncoding (fun i => (buds i).reference.item) []

/-- Edits that leave two keys behind that branch and one beside it. -/
def branchEdits : List Edit :=
  [.put (.ofList [1, 2]) (.value [1, 2, 3, 4, 5, 6, 7, 8]),
    .put (.ofList [1, 3]) (.value [8, 7, 6, 5, 4, 3, 2, 1]), .put (.ofList [4]) (.value [7])]

/-- Uses of which the first three are refused while the branch is hidden. The others put a key, take
all keys away that stand beside the hidden branch, and put one where an extension leads to it. -/
def branchUses : List Use :=
  [.read (.ofList [1, 2]), .edit (.put (.ofList [1]) (.value [9])),
    .edit (.remove (.ofList [1, 2])), .edit (.put (.ofList [6]) (.value [9])), .edit .hash, .edit (.remove (.ofList [4])),
    .edit (.remove (.ofList [6])), .edit (.put .empty (.value [5])), .read (.ofList [4])]

/-- A value with as many bytes as a hash. -/
def long : Bytes := List.replicate 32 9

/-- Edits that leave the long value behind a nibble and a short one beside it. -/
def leafEdits : List Edit :=
  [.put (.ofList [1, 2]) (.value long), .put (.ofList [4]) (.value [7])]

/-- Uses of which the first two are refused while the leaf with the long value is hidden. -/
def leafUses : List Use :=
  [.read (.ofList [1, 2]), .edit (.put (.ofList [1, 3]) (.value [9])),
    .edit (.put (.ofList [4, 5]) (.value [9])), .edit .hash, .read (.ofList [4])]

end Crown

open Crown

/-- The hypotheses hold of Keccak-256 and a trie of which a branch is hidden. -/
theorem inStep_beside_hidden_branch :
    (∀ e ∈ branchEdits, e.Puts Entry.Known) ∧
    Edit.run branchEdits .empty = .ok ([none, none, none], crown (.branch buds [] none)) ∧
    Pruned (· = .branch) (crown (.branch buds [] none)) (crown (.hidden (digest budsEncoding))) ∧
    Sound (crown (.hidden (digest budsEncoding))) ∧ (∀ u ∈ branchUses, u.Puts Entry.Known) ∧
    InStep (· = .branch) branchUses (crown (.branch buds [] none))
      (crown (.hidden (digest budsEncoding))) := by
  have hknown : ∀ e ∈ branchEdits, e.Puts Entry.Known := by
    simp [branchEdits, Edit.Puts, Entry.Known]
  have hrun : Edit.run branchEdits .empty =
      .ok ([none, none, none], crown (.branch buds [] none)) := rfl
  have hpruned := pruned_crown (K := (· = .branch)) rfl (content_branch buds [] none) (by decide)
  have hsound := sound_crown (digest budsEncoding)
  have huses : ∀ u ∈ branchUses, u.Puts Entry.Known := by
    simp [branchUses, Use.Puts, Edit.Puts, Entry.Known]
  exact ⟨hknown, hrun, hpruned, hsound, huses,
    inStep_of_branches_hidden hknown hrun hpruned hsound huses⟩

/-- The hypotheses hold of Keccak-256 and a trie of which a leaf is hidden. -/
theorem inStep_beside_hidden_leaf :
    (∀ e ∈ leafEdits, e.Puts Entry.Known) ∧
    Edit.run leafEdits .empty = .ok ([none, none], crown (.leaf (.ofList [2]) long none)) ∧
    Pruned (fun _ => True) (crown (.leaf (.ofList [2]) long none))
      (crown (.hidden (digest (leafEncoding (.ofList [2]) long)))) ∧
    Sound (crown (.hidden (digest (leafEncoding (.ofList [2]) long)))) ∧
    (∀ u ∈ leafUses, u.Puts Entry.Known ∧ ∀ k, u ≠ .edit (.remove k)) ∧
    InStep (fun _ => True) leafUses (crown (.leaf (.ofList [2]) long none))
      (crown (.hidden (digest (leafEncoding (.ofList [2]) long)))) := by
  have hknown : ∀ e ∈ leafEdits, e.Puts Entry.Known := by
    simp [leafEdits, long, Edit.Puts, Entry.Known]
  have hrun : Edit.run leafEdits .empty =
      .ok ([none, none], crown (.leaf (.ofList [2]) long none)) := rfl
  have hcontent : (leaf (.ofList [2]) long none).content =
      .ok (leafEncoding (.ofList [2]) long) := rfl
  have hpruned := pruned_crown (K := fun _ => True) trivial hcontent (by decide)
  have hsound := sound_crown (digest (leafEncoding (.ofList [2]) long))
  have huses : ∀ u ∈ leafUses, u.Puts Entry.Known ∧ ∀ k, u ≠ .edit (.remove k) := by
    simp [leafUses, Use.Puts, Edit.Puts, Entry.Known]
  exact ⟨hknown, hrun, hpruned, hsound, huses,
    inStep_without_removals hknown hrun hpruned hsound huses⟩

end Trie

end Stateless
