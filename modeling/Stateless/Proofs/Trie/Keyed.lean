import Stateless.Proofs.Trie.Storable

/-!
# Tables in tries

The state tries hold tables: the value of a key is put in written form under a hash of the key. As
long as no two keys have one hash, the trie answers for a key what the table has for it, and putting
and removing an entry does the same to both. The main statements are `ofValues_holds` and
`Keyed.find?`.
-/

namespace Stateless

section

variable {κ α : Type} [Ord κ] [Std.TransOrd κ] [Std.LawfulEqOrd κ] [DecidableEq κ]

/-- No other key of a table has the hash of a key. -/
def Alone (key : κ → Word) (T : Table κ α) (x : κ) : Prop :=
  ∀ y, T.find? y ≠ none → key y = key x → y = x

/-- A table of paths has exactly the entries of another table, each value in written form under the
hash of its key. -/
def Keyed (key : κ → Word) (write : α → Bytes) (T : Table κ α) (m : Table Path Bytes) : Prop :=
  ∀ k b, m.find? k = some b ↔ ∃ x v, T.find? x = some v ∧ .ofWord (key x) = k ∧ write v = b

variable {key : κ → Word} {write : α → Bytes} {T : Table κ α} {m m' : Table Path Bytes} {x : κ}
variable {v : α}

omit [Std.TransOrd κ] [Std.LawfulEqOrd κ] [DecidableEq κ] in
theorem Keyed.find? (h : Keyed key write T m) (hx : Alone key T x) :
    m.find? (.ofWord (key x)) = (T.find? x).map write := by
  ext b
  rw [h, Option.map_eq_some_iff]
  constructor
  · rintro ⟨y, v, hy, hkey, hv⟩
    obtain rfl := hx y (by simp [hy]) (Path.ofWord_inj hkey)
    exact ⟨v, hy, hv⟩
  · rintro ⟨v, hx, hv⟩
    exact ⟨x, v, hx, rfl, hv⟩

omit [Std.TransOrd κ] [Std.LawfulEqOrd κ] [DecidableEq κ] in
theorem Keyed.unique (h : Keyed key write T m) (h' : Keyed key write T m') : m = m' :=
  Table.eq_of_find?_eq fun k => by
    ext b
    rw [h, h']

theorem Keyed.insert (h : Keyed key write T m) (hx : Alone key T x) :
    Keyed key write (T.insert x v) (m.insert (.ofWord (key x)) (write v)) := fun k b => by
  rw [Table.find?_insert]
  split
  · next hk =>
    constructor
    · intro hb
      exact ⟨x, v, by rw [Table.find?_insert, if_pos rfl], hk.symm, Option.some.inj hb⟩
    · rintro ⟨y, w, hy, hkey, rfl⟩
      rw [Table.find?_insert] at hy
      split at hy
      · rw [Option.some.inj hy]
      · next hne =>
        exact absurd (hx y (by simp [hy]) (Path.ofWord_inj (hkey.trans hk))) hne
  · next hk =>
    rw [h]
    refine exists_congr fun y => exists_congr fun w => and_congr_left fun ⟨hkey, _⟩ => ?_
    have hne : y ≠ x := fun hyx => hk (by rw [← hkey, hyx])
    rw [Table.find?_insert, if_neg hne]

theorem Keyed.erase (h : Keyed key write T m) (hx : Alone key T x) :
    Keyed key write (T.erase x) (m.erase (.ofWord (key x))) := fun k b => by
  rw [Table.find?_erase]
  split
  · next hk =>
    refine ⟨fun hb => (Option.some_ne_none b hb.symm).elim, ?_⟩
    rintro ⟨y, w, hy, hkey, -⟩
    rw [Table.find?_erase] at hy
    split at hy
    · exact (Option.some_ne_none w hy.symm).elim
    · next hne => exact absurd (hx y (by simp [hy]) (Path.ofWord_inj (hkey.trans hk))) hne
  · next hk =>
    rw [h]
    refine exists_congr fun y => exists_congr fun w => and_congr_left fun ⟨hkey, _⟩ => ?_
    have hne : y ≠ x := fun hyx => hk (by rw [← hkey, hyx])
    rw [Table.find?_erase, if_neg hne]

omit [DecidableEq κ] in
/-- The entries of a table, put under the hashes of their keys. -/
theorem keyed_ofList (hkeys : ∀ x v, T.find? x = some v → Alone key T x) :
    Keyed key write T (Table.ofList (T.entries.map fun e => (.ofWord (key e.1), write e.2))) := by
  intro k b
  have hmem : ∀ b, (k, b) ∈ T.entries.map (fun e => (Path.ofWord (key e.1), write e.2)) ↔
      ∃ x v, T.find? x = some v ∧ .ofWord (key x) = k ∧ write v = b := fun b => by
    simp only [List.mem_map, Prod.exists, Prod.mk.injEq, Table.find?_eq_some_iff]
  rw [← hmem]
  rcases Table.find?_foldl_insert (T.entries.map fun e => (Path.ofWord (key e.1), write e.2))
    .empty k with ⟨c, hc, hfind⟩ | ⟨hnone, hfind⟩
  · rw [Table.ofList, hfind, Option.some.injEq]
    refine ⟨fun h => h ▸ hc, fun hb => ?_⟩
    obtain ⟨x, v, hx, hkx, rfl⟩ := (hmem c).1 hc
    obtain ⟨y, w, hy, hky, rfl⟩ := (hmem b).1 hb
    obtain rfl := hkeys x v hx y (by simp [hy]) (Path.ofWord_inj (hky.trans hkx.symm))
    rw [Option.some.inj (hx.symm.trans hy)]
  · rw [Table.ofList, hfind, Table.find?_empty]
    exact ⟨nofun, fun hb => absurd rfl (hnone _ hb)⟩

end

namespace Trie

variable [Hasher] {t : Trie} {values : List (Path × Bytes)}

/-- Building a trie from values is a run of edits. -/
theorem run_ofValues (hvalues : ∀ e ∈ values, (Entry.value e.2).Known) :
    ∃ answers, Edit.run (values.map (fun e => .put e.1 (.value e.2)) ++ [.hash]) .empty =
      .ok (answers, (ofValues values).memoize) := by
  have hrun : ∀ t m, Holds t m → ∃ answers,
      Edit.run (values.map (fun e => .put e.1 (.value e.2)) ++ [.hash]) t =
        .ok (answers, (values.foldl (fun t e => (t.put e.1 (.value e.2)).2) t).memoize) := by
    induction values with
    | nil => exact fun t m _ => ⟨[none], rfl⟩
    | cons e values ih =>
      intro t m ht
      obtain ⟨a, s, hap, hs⟩ := Edit.apply_holds (e := .put e.1 (.value e.2))
        (hvalues e List.mem_cons_self) ht
      have hput : (t.put e.1 (.value e.2)).2 = s := by
        rw [Edit.apply] at hap
        split at hap
        · next h => rw [h]; exact (Prod.mk.inj hap).2
        · cases (Prod.mk.inj hap).1
      obtain ⟨answers, hrest⟩ := ih (fun e he => hvalues e (List.mem_cons_of_mem _ he)) s _ hs
      rw [List.map_cons, List.cons_append, Edit.run, hap, List.foldl_cons, hput]
      simp [hrest, Except.map]
  exact hrun .empty .empty holds_empty

/-- A trie that is built from values is intact, can be stored and holds the last value of each key.
-/
theorem ofValues_holds (hvalues : ∀ e ∈ values, (Entry.value e.2).Storable) :
    (ofValues values).memoize.Holds (Table.ofList values) ∧ Fits (ofValues values).memoize := by
  obtain ⟨answers, hrun⟩ := run_ofValues fun e he => (hvalues e he).known
  have hputs : ∀ e ∈ values.map (fun e => Edit.put e.1 (.value e.2)) ++ [.hash],
      e.Puts Entry.Storable := fun e he => by
    rcases List.mem_append.1 he with he | he
    · obtain ⟨x, hx, rfl⟩ := List.mem_map.1 he
      exact hvalues x hx
    · rw [List.mem_singleton.1 he]
      trivial
  refine ⟨?_, run_fits hputs (by trivial) hrun⟩
  have hholds := Edit.holds_of_run (fun e he => (hputs e he).mono Entry.Storable.known) holds_empty
    hrun
  rwa [List.foldl_append, List.foldl_map] at hholds

end Trie

end Stateless
