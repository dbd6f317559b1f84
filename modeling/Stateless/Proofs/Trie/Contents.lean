import Stateless.Proofs.Table
import Stateless.Proofs.Trie.Edits

/-!
# What a full trie holds

A trie without hidden parts holds a finite map. Every edit of such a trie succeeds and does to the
map what its name says; `run_holds` follows the map through a whole run of edits.
-/

namespace Stateless

namespace Trie

/-- No part of the trie is hidden. -/
def Full (t : Trie) : Prop := Within (fun _ => True) (fun _ => False) t

theorem Full.view {t : Trie} (h : Full t) (l : List Nibble) : ∃ a, t.view l = .ok a := by
  have hunder : ∀ {f : List Nibble} {answers : List Nibble → Answer} (l : List Nibble),
      (∀ l, ∃ a, answers l = .ok a) → ∃ a, under f answers l = .ok a := fun {f answers} l ha => by
    by_cases hp : f <+: l
    · obtain ⟨r, rfl⟩ := hp
      rw [under_front]
      exact ha r
    · exact ⟨none, under_off answers hp⟩
  induction t generalizing l with
  | empty => exact ⟨none, rfl⟩
  | hidden w => exact absurd h id
  | leaf f v m => exact hunder l fun l => ⟨_, rfl⟩
  | extension f c m ih => exact hunder l (ih h)
  | branch cs v m ih =>
    cases l with
    | nil => exact ⟨_, rfl⟩
    | cons d l => exact ih d (h.1 d) l

/-- No key is longer than the bound of the canonical form. -/
theorem Canonical.length_le {t : Trie} {n : Nat} {l : List Nibble} {v : Bytes} (h : Canonical n t)
    (hl : t.view l = .ok (some v)) : l.length ≤ n := by
  induction t generalizing n l with
  | empty => simp at hl
  | hidden w => simp at hl
  | leaf f w m =>
    rw [view_leaf_apply] at hl
    by_cases hf : l = f.toList
    · rw [hf]
      exact h.1
    · simp [hf] at hl
  | extension f c m ih =>
    obtain ⟨-, hf, -, hc⟩ := h
    rw [view_extension] at hl
    by_cases hp : f.toList <+: l
    · obtain ⟨r, rfl⟩ := hp
      rw [under_front] at hl
      have := ih hc hl
      rw [List.length_append, Path.length_toList]
      omega
    · rw [under_off _ hp] at hl
      simp at hl
  | branch cs w m ih =>
    obtain ⟨h1, -, hcs⟩ := h
    cases l with
    | nil => simp
    | cons d l =>
      have := ih d (hcs d) hl
      rw [List.length_cons]
      omega

/-- A canonical full trie that is not empty has a key. -/
theorem exists_key {t : Trie} {n : Nat} (ht : Canonical n t) (hfull : Full t) (hne : t ≠ .empty) :
    ∃ l v, t.view l = .ok (some v) := by
  induction t generalizing n with
  | empty => exact absurd rfl hne
  | hidden w => exact absurd hfull id
  | leaf f v m => exact ⟨f.toList, v, by rw [view_leaf_apply, if_pos rfl]⟩
  | extension f c m ih =>
    obtain ⟨l, v, hl⟩ := ih ht.2.2.2 hfull ht.2.2.1.ne_empty
    exact ⟨f.toList ++ l, v, by rw [view_extension, under_front, hl]⟩
  | branch cs w m ih =>
    obtain ⟨-, ⟨i, hi, -⟩, hcs⟩ := ht
    obtain ⟨l, v, hl⟩ := ih i (hcs i) (hfull.1 i) hi
    exact ⟨i :: l, v, hl⟩

theorem within_forget {V : Bytes → Prop} {H : Word → Prop} {t : Trie} :
    Within V H t.forget ↔ Within V H t := by
  induction t with
  | empty => rfl
  | hidden h => rfl
  | leaf f v m => rfl
  | extension f c m ih => exact ih
  | branch cs v m ih => simp [Within, ih]

variable [Hasher]

theorem Within.memoize {V : Bytes → Prop} {H : Word → Prop} {t : Trie} (ht : Within V H t) :
    Within V H t.memoize := by
  rw [← within_forget, forget_memoize, within_forget]
  exact ht

/-- The trie is canonical, nothing is hidden, and its memos are sound. -/
structure Intact (t : Trie) : Prop where
  canonical : Canonical maxNibbles t
  full : Full t
  sound : Sound t

/-- The trie holds exactly the given map: it is canonical, nothing is hidden, its memos are sound,
and every path is answered as the map says. -/
structure Holds (t : Trie) (m : Table Path Bytes) : Prop where
  canonical : Canonical maxNibbles t
  full : Full t
  sound : Sound t
  answers : ∀ k : Path, t.view k.toList = .ok (m.find? k)

theorem Holds.intact {t : Trie} {m : Table Path Bytes} (h : t.Holds m) : t.Intact :=
  ⟨h.canonical, h.full, h.sound⟩

theorem holds_empty : Holds .empty .empty :=
  ⟨by trivial, by trivial, by trivial, fun _ => rfl⟩

end Trie

open Trie

namespace Edit

/-- What an edit does to the map that a trie holds. -/
def record : Edit → Table Path Bytes → Table Path Bytes
  | put k (.value v), m => m.insert k v
  | put _ (.hidden _), m => m
  | remove k, m => m.erase k
  | hash, m => m

/-- The map that is held after some edits of a trie that held nothing. -/
def contents (edits : List Edit) : Table Path Bytes :=
  edits.foldl (fun m e => e.record m) .empty

variable [Hasher] {t t' : Trie} {m : Table Path Bytes} {edits : List Edit}

theorem Known.admits {e : Edit} (h : e.Puts Entry.Known) :
    e.Puts (Admits (fun _ => True) Full) ∧ e.Puts (Admits (fun _ => True) Sound) := by
  cases e with
  | put k x =>
    cases x with
    | value v => exact ⟨trivial, trivial⟩
    | hidden d => exact absurd h id
  | remove k => exact ⟨trivial, trivial⟩
  | hash => exact ⟨trivial, trivial⟩

/-- Edits keep tries intact. -/
theorem apply_intact {e : Edit} {a : Option Bytes} (he : e.Puts Entry.Known) (ht : t.Intact)
    (h : e.apply t = (.ok a, t')) : t'.Intact := by
  obtain ⟨hfull, hsound⟩ := Known.admits he
  have hsolid : e.Puts Entry.Solid := by
    cases e with
    | put k x => exact Entry.Known.solid he
    | remove k => trivial
    | hash => trivial
  exact ⟨apply_canonical hsolid ht.canonical h,
    apply_hereditary (hereditary_within _ trivial) (fun _ => Within.memoize) hfull ht.full h,
    apply_hereditary hereditary_sound (fun _ => Sound.memoize) hsound ht.sound h⟩

/-- Runs keep memos sound. -/
theorem run_sound {answers : List (Option Bytes)} (hknown : ∀ e ∈ edits, e.Puts Entry.Known)
    (ht : Sound t) (h : run edits t = .ok (answers, t')) : Sound t' :=
  run_induction (fun e he _ _ _ ht hap => apply_hereditary hereditary_sound
    (fun _ => Sound.memoize) (Known.admits (hknown e he)).2 ht hap) ht h

/-- An edit of a full trie succeeds and changes the map accordingly. A removal answers the value
that the key had. -/
theorem apply_holds {e : Edit} (he : e.Puts Entry.Known) (ht : t.Holds m) :
    ∃ a t', e.apply t = (.ok a, t') ∧ t'.Holds (e.record m) := by
  have hkeeps : ∀ {a t'}, e.apply t = (.ok a, t') →
      (∀ k : Path, t'.view k.toList = .ok ((e.record m).find? k)) → t'.Holds (e.record m) :=
    fun h hview => by
      obtain ⟨hcan, hfull, hsound⟩ := apply_intact he ht.intact h
      exact ⟨hcan, hfull, hsound, hview⟩
  have hupdate : ∀ {k : Path} {a : Option Bytes} {s : Trie},
      s.view = Function.update t.view k.toList (.ok a) →
      ∀ k' : Path, s.view k'.toList = .ok (if k' = k then a else m.find? k') :=
    fun {k a s} hs k' => by
      by_cases hk : k' = k
      · rw [hs, hk, Function.update_self, if_pos rfl]
      · have hl : k'.toList ≠ k.toList := fun hl => hk (Path.ext hl)
        rw [hs, Function.update_of_ne hl, ht.answers k', if_neg hk]
  cases e with
  | put k x =>
    cases x with
    | hidden d => exact absurd he id
    | value v =>
      have hput := put_answer ht.canonical k.length_le_max he
      rw [ht.answers k] at hput
      obtain ⟨t', hput, -, hview⟩ := hput
      have hap : (put k (.value v)).apply t = (.ok none, t') := by simp [apply, hput]
      exact ⟨none, t', hap, hkeeps hap fun k' => by
        rw [hupdate hview, record, Table.find?_insert]⟩
  | remove k =>
    have hrem := remove_answer (Nat.le_refl _) ht.canonical k
    rw [ht.answers k] at hrem
    obtain ⟨t', hrem, -, hview⟩ := hrem
    have hap : (remove k).apply t = (.ok (m.find? k), t') := hrem
    exact ⟨_, t', hap, hkeeps hap fun k' => by
      rw [hupdate hview, record, Table.find?_erase]⟩
  | hash =>
    have hap : hash.apply t = (.ok none, t.memoize) := rfl
    exact ⟨none, _, hap, hkeeps hap fun k' => by
      rw [← view_forget, forget_memoize, view_forget, ht.answers k']
      rfl⟩

/-- A run of edits of a full trie succeeds and changes the map edit by edit. -/
theorem run_holds (hknown : ∀ e ∈ edits, e.Puts Entry.Known) (ht : t.Holds m) :
    ∃ answers t', run edits t = .ok (answers, t') ∧
      t'.Holds (edits.foldl (fun m e => e.record m) m) := by
  induction edits generalizing t m with
  | nil => exact ⟨[], t, rfl, ht⟩
  | cons e edits ih =>
    obtain ⟨a, s, hap, hs⟩ := apply_holds (hknown e List.mem_cons_self) ht
    obtain ⟨answers, t', hrun, ht'⟩ :=
      ih (fun e he => hknown e (List.mem_cons_of_mem _ he)) hs
    exact ⟨a :: answers, t', by simp [run, hap, hrun, Except.map], ht'⟩

/-- A run of edits that has ended has changed the map edit by edit. -/
theorem holds_of_run {answers : List (Option Bytes)} (hknown : ∀ e ∈ edits, e.Puts Entry.Known)
    (ht : t.Holds m) (h : run edits t = .ok (answers, t')) :
    t'.Holds (edits.foldl (fun m e => e.record m) m) := by
  obtain ⟨as, s, hrun, hs⟩ := run_holds hknown ht
  obtain ⟨-, rfl⟩ := Prod.mk.inj (Except.ok.inj (h.symm.trans hrun))
  exact hs

end Edit

end Stateless
