/-!
# Ordered finite maps

A table is the list of its entries, sorted by key and without repeated keys. Equal contents make
equal tables, and listing a table goes through its keys in order. The main statement is
`Table.find?_insert`: a lookup after an insertion.
-/

namespace Stateless

/-- Entries sorted by strictly increasing keys. -/
def Increasing {κ α : Type} [Ord κ] (entries : List (κ × α)) : Prop :=
  entries.Pairwise fun a b => compare a.1 b.1 = .lt

/-- A finite map from keys to values, listed in the order of its keys. -/
structure Table (κ α : Type) [Ord κ] where
  /-- The pairs of a key and its value. -/
  entries : List (κ × α)
  /-- The keys increase strictly. -/
  increasing : Increasing entries

namespace Table

variable {κ α β : Type} [Ord κ]

/-- The value of a key in a list of entries. -/
def lookup (k : κ) : List (κ × α) → Option α
  | [] => none
  | (k', v) :: rest =>
    match compare k k' with
    | .lt => none
    | .eq => some v
    | .gt => lookup k rest

/-- The entries with the value of one key replaced or added. -/
def place (k : κ) (v : α) : List (κ × α) → List (κ × α)
  | [] => [(k, v)]
  | (k', v') :: rest =>
    match compare k k' with
    | .lt => (k, v) :: (k', v') :: rest
    | .eq => (k, v) :: rest
    | .gt => (k', v') :: place k v rest

/-- The entries without those of one key. -/
def strike (k : κ) (entries : List (κ × α)) : List (κ × α) :=
  entries.filter fun e => compare k e.1 != .eq

/-- The map without entries. -/
def empty : Table κ α := ⟨[], List.Pairwise.nil⟩

instance : Inhabited (Table κ α) := ⟨empty⟩

instance [DecidableEq κ] [DecidableEq α] : DecidableEq (Table κ α) := fun a b =>
  decidable_of_iff (a.entries = b.entries) ⟨fun h => by cases a; cases b; simp_all, fun h => h ▸ rfl⟩

/-- The value of a key. -/
def find? (t : Table κ α) (k : κ) : Option α := lookup k t.entries

/-- Whether a key has a value. -/
def contains (t : Table κ α) (k : κ) : Bool := (t.find? k).isSome

/-- The number of keys. -/
def size (t : Table κ α) : Nat := t.entries.length

/-- Whether there are no keys. -/
def isEmpty (t : Table κ α) : Bool := t.entries.isEmpty

/-- The keys in order. -/
def keys (t : Table κ α) : List κ := t.entries.map Prod.fst

/-- The values in the order of their keys. -/
def values (t : Table κ α) : List α := t.entries.map Prod.snd

theorem mem_of_mem_place {k : κ} {v : α} {entries : List (κ × α)} {e : κ × α}
    (h : e ∈ place k v entries) : e = (k, v) ∨ e ∈ entries := by
  induction entries with
  | nil => simpa [place] using h
  | cons a rest ih =>
    obtain ⟨k', v'⟩ := a
    simp only [place] at h
    split at h
    · simpa using h
    · rcases List.mem_cons.1 h with h | h
      · exact Or.inl h
      · exact Or.inr (List.mem_cons_of_mem _ h)
    · rcases List.mem_cons.1 h with h | h
      · exact Or.inr (h ▸ List.mem_cons_self)
      · exact (ih h).imp_right (List.mem_cons_of_mem _)

/-- The same keys with other values. -/
def map (f : κ → α → β) (t : Table κ α) : Table κ β where
  entries := t.entries.map fun e => (e.1, f e.1 e.2)
  increasing := by
    have h := t.increasing
    simpa [Increasing, List.pairwise_map] using h

/-- The map without one key. -/
def erase (t : Table κ α) (k : κ) : Table κ α :=
  ⟨strike k t.entries, List.Pairwise.filter _ t.increasing⟩

variable [Std.TransOrd κ] [Std.LawfulEqOrd κ]

theorem increasing_place {k : κ} {v : α} {entries : List (κ × α)} (h : Increasing entries) :
    Increasing (place k v entries) := by
  induction entries with
  | nil => simp [place, Increasing]
  | cons a rest ih =>
    obtain ⟨k', v'⟩ := a
    obtain ⟨h₁, h₂⟩ := List.pairwise_cons.1 h
    simp only [place]
    split
    · next hc =>
      refine List.pairwise_cons.2 ⟨fun e he => ?_, h⟩
      rcases List.mem_cons.1 he with rfl | he
      · exact hc
      · exact Std.TransCmp.lt_trans hc (h₁ e he)
    · next hc =>
      obtain rfl := Std.LawfulEqCmp.eq_of_compare hc
      exact List.pairwise_cons.2 ⟨h₁, h₂⟩
    · next hc =>
      refine List.pairwise_cons.2 ⟨fun e he => ?_, ih h₂⟩
      rcases mem_of_mem_place he with rfl | he
      · exact Std.OrientedCmp.lt_of_gt hc
      · exact h₁ e he

/-- The map with the value of one key replaced or added. -/
def insert (t : Table κ α) (k : κ) (v : α) : Table κ α :=
  ⟨place k v t.entries, increasing_place t.increasing⟩

/-- The map with a key added unless it is there already. -/
def insertNew (t : Table κ α) (k : κ) (v : α) : Table κ α :=
  if t.contains k then t else t.insert k v

/-- The map of a list of entries; of several entries of one key the last counts. -/
def ofList (entries : List (κ × α)) : Table κ α :=
  entries.foldl (fun t e => t.insert e.1 e.2) empty

/-- The union of two maps; where both have a key the second counts. -/
def union (t s : Table κ α) : Table κ α :=
  s.entries.foldl (fun t e => t.insert e.1 e.2) t

/-! ## Looking up -/

omit [Std.TransOrd κ] [Std.LawfulEqOrd κ] in
@[simp] theorem find?_empty (k : κ) : (empty : Table κ α).find? k = none := rfl

theorem lookup_place [DecidableEq κ] (k k' : κ) (v : α) {entries : List (κ × α)} :
    lookup k' (place k v entries) = if k' = k then some v else lookup k' entries := by
  induction entries with
  | nil =>
    by_cases hk : k' = k
    · subst hk; simp [place, lookup, Std.ReflCmp.compare_self]
    · have : compare k' k ≠ .eq := fun h => hk (Std.LawfulEqCmp.eq_of_compare h)
      simp only [place, lookup, if_neg hk]
      cases hc : compare k' k <;> simp_all
  | cons a rest ih =>
    obtain ⟨k₀, v₀⟩ := a
    simp only [place]
    cases hc : compare k k₀ with
    | lt =>
      by_cases hk : k' = k
      · subst hk; simp [lookup, Std.ReflCmp.compare_self]
      · rw [if_neg hk]
        have hne : compare k' k ≠ .eq := fun h => hk (Std.LawfulEqCmp.eq_of_compare h)
        cases hc' : compare k' k with
        | lt => simp [lookup, hc', Std.TransCmp.lt_trans hc' hc]
        | eq => exact absurd hc' hne
        | gt => simp [lookup, hc']
    | eq =>
      obtain rfl := Std.LawfulEqCmp.eq_of_compare hc
      by_cases hk : k' = k
      · subst hk; simp [lookup, Std.ReflCmp.compare_self]
      · have hne : compare k' k ≠ .eq := fun h => hk (Std.LawfulEqCmp.eq_of_compare h)
        rw [if_neg hk]
        cases hc' : compare k' k <;> simp_all [lookup]
    | gt =>
      by_cases hk : k' = k
      · subst hk; simp [lookup, hc, ih]
      · simp only [lookup, ih, if_neg hk]

@[simp] theorem find?_insert [DecidableEq κ] (t : Table κ α) (k k' : κ) (v : α) :
    (t.insert k v).find? k' = if k' = k then some v else t.find? k' :=
  lookup_place k k' v

end Table

end Stateless
