import Mathlib.Data.List.Sort
import Stateless.Table

/-!
# Tables as finite maps

A lookup finds exactly the entries of a table, no key occurs twice, and erasing a key takes its
entry away and keeps all others. A table is determined by what its lookups find.
-/

namespace Stateless.Table

variable {κ α : Type} [Ord κ] [Std.TransOrd κ]

theorem compare_self_ne_lt (k : κ) : compare k k ≠ .lt := by
  have h : compare k k = .eq := Std.ReflCmp.compare_self
  rw [h]
  exact nofun

theorem nodup_keys (t : Table κ α) : (t.entries.map Prod.fst).Nodup := by
  refine List.pairwise_map.2 (t.increasing.imp fun {a b} hab heq => ?_)
  rw [heq] at hab
  exact compare_self_ne_lt _ hab

variable [Std.LawfulEqOrd κ]

theorem lookup_eq_some_iff {entries : List (κ × α)} (h : Increasing entries) {k : κ} {v : α} :
    lookup k entries = some v ↔ (k, v) ∈ entries := by
  induction entries with
  | nil => simp [lookup]
  | cons a rest ih =>
    obtain ⟨k', v'⟩ := a
    obtain ⟨hfirst, hrest⟩ := List.pairwise_cons.1 h
    rw [lookup, List.mem_cons, Prod.mk.injEq]
    cases hc : compare k k' with
    | lt =>
      simp only [reduceCtorEq, false_iff, not_or, not_and]
      refine ⟨fun hk => absurd (hk ▸ hc) (compare_self_ne_lt k'), fun hmem => ?_⟩
      exact compare_self_ne_lt k (Std.TransCmp.lt_trans hc (hfirst (k, v) hmem))
    | eq =>
      obtain rfl := Std.LawfulEqCmp.eq_of_compare hc
      have hnot : (k, v) ∉ rest := fun hmem => compare_self_ne_lt k (hfirst (k, v) hmem)
      simp [hnot, eq_comm]
    | gt =>
      have hne : k ≠ k' := fun hk =>
        compare_self_ne_lt k' (Std.OrientedCmp.lt_of_gt (hk ▸ hc))
      simp [hne, ih hrest]

theorem find?_eq_some_iff {t : Table κ α} {k : κ} {v : α} :
    t.find? k = some v ↔ (k, v) ∈ t.entries :=
  lookup_eq_some_iff t.increasing

/-- Tables in which every key has the same value are the same. -/
theorem eq_of_find?_eq {t s : Table κ α} (h : ∀ k, t.find? k = s.find? k) : t = s := by
  have hirrefl : Std.Irrefl fun a b : κ × α => compare a.1 b.1 = .lt :=
    ⟨fun e => compare_self_ne_lt e.1⟩
  have hantisymm : Std.Antisymm fun a b : κ × α => compare a.1 b.1 = .lt :=
    ⟨fun a b hab hba => absurd (Std.TransCmp.lt_trans hab hba) (compare_self_ne_lt a.1)⟩
  have hentries : t.entries = s.entries := by
    refine t.increasing.eq_of_mem_iff s.increasing fun ⟨k, v⟩ => ?_
    rw [← find?_eq_some_iff, ← find?_eq_some_iff, h]
  cases t
  cases s
  congr

theorem find?_erase [DecidableEq κ] (t : Table κ α) (k k' : κ) :
    (t.erase k).find? k' = if k' = k then none else t.find? k' := by
  have hmem : ∀ v, (t.erase k).find? k' = some v ↔
      (k', v) ∈ t.entries ∧ compare k k' ≠ .eq := fun v => by
    rw [find?_eq_some_iff]
    simp [erase, strike]
  ext v
  rw [hmem]
  split
  · next h => simp [h]
  · next h =>
    have hne : compare k k' ≠ .eq := fun hc => h (Std.LawfulEqCmp.eq_of_compare hc).symm
    simp [find?_eq_some_iff, hne]

/-- After several insertions a key has the value of one of them, or the one it had before. -/
theorem find?_foldl_insert [DecidableEq κ] (entries : List (κ × α)) (t : Table κ α) (k : κ) :
    (∃ v, (k, v) ∈ entries ∧
      (entries.foldl (fun t e => t.insert e.1 e.2) t).find? k = some v) ∨
    ((∀ e ∈ entries, e.1 ≠ k) ∧
      (entries.foldl (fun t e => t.insert e.1 e.2) t).find? k = t.find? k) := by
  induction entries generalizing t with
  | nil => exact Or.inr ⟨fun e he => absurd he List.not_mem_nil, rfl⟩
  | cons e entries ih =>
    obtain ⟨k', v⟩ := e
    rw [List.foldl_cons]
    rcases ih (t.insert k' v) with ⟨w, hmem, hfind⟩ | ⟨hnone, hfind⟩
    · exact Or.inl ⟨w, List.mem_cons_of_mem _ hmem, hfind⟩
    · rw [find?_insert] at hfind
      by_cases hk : k = k'
      · subst hk
        rw [if_pos rfl] at hfind
        exact Or.inl ⟨v, List.mem_cons_self, hfind⟩
      · rw [if_neg hk] at hfind
        exact Or.inr ⟨List.forall_mem_cons.2 ⟨Ne.symm hk, hnone⟩, hfind⟩

theorem find?_union [DecidableEq κ] (t s : Table κ α) (k : κ) :
    (t.union s).find? k = (s.find? k).or (t.find? k) := by
  rcases find?_foldl_insert s.entries t k with ⟨v, hmem, hfind⟩ | ⟨hnone, hfind⟩
  · rw [union, hfind, find?_eq_some_iff.2 hmem, Option.some_or]
  · have hs : s.find? k = none :=
      Option.eq_none_iff_forall_ne_some.2 fun v hv => hnone _ (find?_eq_some_iff.1 hv) rfl
    rw [union, hfind, hs, Option.none_or]

/-- The entries of a table make the table. -/
theorem ofList_entries [DecidableEq κ] (t : Table κ α) : ofList t.entries = t := by
  refine eq_of_find?_eq fun k => ?_
  show (union empty t).find? k = t.find? k
  rw [find?_union, find?_empty, Option.or_none]

/-- The union of tables that agree has what either of them has. -/
theorem find?_union_eq_some_iff [DecidableEq κ] {t s : Table κ α} {k : κ} {v : α}
    (hagree : ∀ w w', t.find? k = some w → s.find? k = some w' → w = w') :
    (t.union s).find? k = some v ↔ s.find? k = some v ∨ t.find? k = some v := by
  rw [find?_union, Option.or_eq_some_iff]
  constructor
  · rintro (hs | ⟨-, ht⟩)
    · exact Or.inl hs
    · exact Or.inr ht
  · rintro (hs | ht)
    · exact Or.inl hs
    · cases hs : s.find? k with
      | none => exact Or.inr ⟨rfl, ht⟩
      | some w => exact Or.inl (congrArg some (hagree v w ht hs).symm)

/-- The first thing to report of a key that two tables share, in the order of the second. -/
def report? {γ : Type} (f : κ → α → α → Option γ) (t s : Table κ α) : Option γ :=
  s.entries.findSome? fun e =>
    match t.find? e.1 with
    | some v => f e.1 v e.2
    | none => none

theorem report?_eq_none_iff {γ : Type} {f : κ → α → α → Option γ} {t s : Table κ α} :
    report? f t s = none ↔
      ∀ k v w, t.find? k = some v → s.find? k = some w → f k v w = none := by
  unfold report?
  rw [List.findSome?_eq_none_iff]
  constructor
  · intro h k v w hv hw
    have hentry := h (k, w) (find?_eq_some_iff.1 hw)
    simpa only [hv] using hentry
  · rintro h ⟨k, w⟩ hmem
    cases hv : t.find? k with
    | none => rfl
    | some v => exact h k v w hv (find?_eq_some_iff.2 hmem)

theorem exists_of_report? {γ : Type} {f : κ → α → α → Option γ} {t s : Table κ α} {c : γ}
    (h : report? f t s = some c) :
    ∃ k v w, t.find? k = some v ∧ s.find? k = some w ∧ f k v w = some c := by
  obtain ⟨⟨k, w⟩, hmem, hc⟩ := List.exists_of_findSome?_eq_some h
  cases hv : t.find? k with
  | none => simp only [hv, reduceCtorEq] at hc
  | some v =>
    simp only [hv] at hc
    exact ⟨k, v, w, hv, find?_eq_some_iff.2 hmem, hc⟩

theorem find?_map {β : Type} (f : κ → α → β) (t : Table κ α) (k : κ) :
    (t.map f).find? k = (t.find? k).map (f k) := by
  ext v
  simp only [find?_eq_some_iff, map, List.mem_map, Option.map_eq_some_iff, Prod.exists, Prod.mk.injEq]
  constructor
  · rintro ⟨k', w, hmem, rfl, rfl⟩
    exact ⟨w, hmem, rfl⟩
  · rintro ⟨w, hmem, rfl⟩
    exact ⟨k, w, hmem, rfl, rfl⟩

omit [Std.TransOrd κ] [Std.LawfulEqOrd κ] in
theorem length_place {entries : List (κ × α)} {k : κ} {v : α} (h : lookup k entries = none) :
    (place k v entries).length = entries.length + 1 := by
  induction entries with
  | nil => rfl
  | cons e entries ih =>
    obtain ⟨k', v'⟩ := e
    rw [lookup] at h
    rw [place]
    cases hc : compare k k' with
    | lt => rfl
    | eq => simp only [hc, reduceCtorEq] at h
    | gt =>
      simp only [hc] at h
      exact congrArg (· + 1) (ih h)

/-- A new key makes a table one longer. -/
theorem size_insert {t : Table κ α} {k : κ} {v : α} (h : t.find? k = none) :
    (t.insert k v).size = t.size + 1 :=
  length_place h

omit [Std.TransOrd κ] [Std.LawfulEqOrd κ] in
theorem contains_of_find? {t : Table κ α} {k : κ} {v : α} (h : t.find? k = some v) :
    t.contains k = true := by
  rw [contains, h]
  rfl

theorem mem_values_iff {t : Table κ α} {v : α} : v ∈ t.values ↔ ∃ k, t.find? k = some v := by
  simp only [values, List.mem_map, find?_eq_some_iff, Prod.exists, exists_eq_right]

theorem of_mem_values_insert [DecidableEq κ] {t : Table κ α} {k : κ} {v w : α}
    (h : v ∈ (t.insert k w).values) : v = w ∨ v ∈ t.values := by
  obtain ⟨k', hfind⟩ := mem_values_iff.1 h
  rw [find?_insert] at hfind
  split at hfind
  · exact Or.inl (Option.some.inj hfind).symm
  · exact Or.inr (mem_values_iff.2 ⟨k', hfind⟩)

theorem mem_keys_iff {t : Table κ α} {k : κ} : k ∈ t.keys ↔ ∃ v, t.find? k = some v := by
  simp only [keys, List.mem_map, find?_eq_some_iff, Prod.exists, exists_and_right, exists_eq_right]

omit [Std.TransOrd κ] [Std.LawfulEqOrd κ] in
/-- If every step of a loop succeeds and changes what a table has for its own key only, and no key
has two steps, then what every step leaves for its key is there after the loop. -/
theorem foldlM_local {ε β : Type} {f : Table κ α → β → Except ε (Table κ α)} {key : β → κ}
    {steps : List β} (before after : β → Option α → Prop)
    (hstep : ∀ b ∈ steps, ∀ t, before b (t.find? (key b)) → ∃ t', f t b = .ok t' ∧
      after b (t'.find? (key b)) ∧ ∀ k, k ≠ key b → t'.find? k = t.find? k)
    (hnodup : (steps.map key).Nodup) {t : Table κ α}
    (hbefore : ∀ b ∈ steps, before b (t.find? (key b))) :
    ∃ t', steps.foldlM f t = .ok t' ∧
      (∀ b ∈ steps, after b (t'.find? (key b))) ∧
      ∀ k, k ∉ steps.map key → t'.find? k = t.find? k := by
  induction steps generalizing t with
  | nil => exact ⟨t, rfl, fun b hb => absurd hb List.not_mem_nil, fun k _ => rfl⟩
  | cons b steps ih =>
    rw [List.map_cons, List.nodup_cons] at hnodup
    obtain ⟨hnot, hnodup⟩ := hnodup
    obtain ⟨t₁, hf, hafter, hkeeps⟩ := hstep b List.mem_cons_self t (hbefore b List.mem_cons_self)
    have hother : ∀ c ∈ steps, t₁.find? (key c) = t.find? (key c) := fun c hc =>
      hkeeps (key c) fun heq => hnot (heq ▸ List.mem_map_of_mem hc)
    obtain ⟨t₂, hrest, hall, hkeeps'⟩ := ih
      (fun c hc => hstep c (List.mem_cons_of_mem _ hc)) hnodup
      fun c hc => by
        rw [hother c hc]
        exact hbefore c (List.mem_cons_of_mem _ hc)
    refine ⟨t₂, by rw [List.foldlM_cons, hf]; exact hrest, fun c hc => ?_, fun k hk => ?_⟩
    · rcases List.mem_cons.1 hc with rfl | hc
      · rwa [hkeeps' (key c) hnot]
      · exact hall c hc
    · rw [List.map_cons, List.mem_cons, not_or] at hk
      rw [hkeeps' k hk.2, hkeeps k hk.1]

end Stateless.Table
