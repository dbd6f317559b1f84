import Mathlib.Logic.Function.Basic
import Stateless.Proofs.NodeSet.Bridging
import Stateless.Proofs.Trie.Keyed
import Stateless.Proofs.Trie.Unique

/-!
# Writing to tables in tries

A run of writes to a table, each of a value or of none, can be carried out on a trie that holds the
table. However the writes reach the table they end with, the trie they end with is that of the table
(`Keyed.run_writes`), and a part of the trie is enough for the root hash (`Bridges.replay_writes`).
-/

namespace Stateless

/-- A function with values replaced one after another. -/
def overwrite {κ β : Type} [DecidableEq κ] (writes : List (κ × β)) (f : κ → β) : κ → β :=
  writes.foldl (fun f w => Function.update f w.1 w.2) f

section

variable {κ α β γ : Type} [DecidableEq κ] {writes : List (κ × β)} {f : κ → β} {x : κ}

/-- What is not written stays. -/
theorem overwrite_of_not_mem (h : x ∉ writes.map Prod.fst) : overwrite writes f x = f x := by
  induction writes generalizing f with
  | nil => rfl
  | cons w writes ih =>
    rw [List.map_cons, List.mem_cons, not_or] at h
    exact (ih h.2).trans (Function.update_of_ne h.1 ..)

/-- The last write counts. -/
theorem overwrite_concat_self (writes : List (κ × β)) (f : κ → β) (x : κ) (v : β) :
    overwrite (writes ++ [(x, v)]) f x = v := by
  rw [overwrite, List.foldl_append]
  exact Function.update_self ..

/-- Writes to listed places that end with the values of a function there make that function, if the
values of all other places were right before. -/
theorem overwrite_eq {g : κ → β} {listed : κ → Prop} (hwrites : ∀ w ∈ writes, listed w.1)
    (hlast : ∀ x, listed x → overwrite writes f x = g x) (hother : ∀ x, ¬ listed x → f x = g x) :
    overwrite writes f = g := by
  funext x
  by_cases hx : listed x
  · exact hlast x hx
  · have hnot : x ∉ writes.map Prod.fst := fun hmem => by
      obtain ⟨w, hw, rfl⟩ := List.mem_map.1 hmem
      exact hx (hwrites w hw)
    rw [overwrite_of_not_mem hnot, hother x hx]

/-- Values may be translated before or after they are written. -/
theorem overwrite_map (g : β → γ) (writes : List (κ × β)) (f : κ → β) :
    overwrite (writes.map fun w => (w.1, g w.2)) (g ∘ f) = g ∘ overwrite writes f := by
  induction writes generalizing f with
  | nil => rfl
  | cons w writes ih =>
    rw [overwrite, List.map_cons, List.foldl_cons, ← Function.comp_update]
    exact ih _

end

/-! ## Tables -/

namespace Table

variable {κ α : Type} [Ord κ] [Std.TransOrd κ] [Std.LawfulEqOrd κ]

/-- The table with a value for a key, or with none for it. -/
def write (t : Table κ α) (k : κ) : Option α → Table κ α
  | some v => t.insert k v
  | none => t.erase k

variable [DecidableEq κ]

theorem find?_write (t : Table κ α) (k : κ) (o : Option α) :
    (t.write k o).find? = Function.update t.find? k o := by
  funext k'
  rw [Function.update_apply]
  cases o with
  | some v => exact find?_insert t k k' v
  | none => exact find?_erase t k k'

theorem find?_foldl_write (writes : List (κ × Option α)) (t : Table κ α) :
    (writes.foldl (fun t w => t.write w.1 w.2) t).find? = overwrite writes t.find? := by
  induction writes generalizing t with
  | nil => rfl
  | cons w writes ih => rw [List.foldl_cons, ih, find?_write, overwrite, overwrite, List.foldl_cons]

end Table

/-- The edit that puts a value under a key, or removes the key. -/
def Edit.write (key : Word) : Option Bytes → Edit
  | some b => .put (.ofWord key) (.value b)
  | none => .remove (.ofWord key)

theorem Edit.write_changes {keys : List Word} {key : Word} {o : Option Bytes} (hkey : key ∈ keys)
    (ho : ∀ b, o = some b → (Entry.value b).Storable) : (Edit.write key o).Changes keys := by
  cases o with
  | some b => exact ⟨⟨key, hkey, rfl⟩, ho b rfl⟩
  | none => exact ⟨key, hkey, rfl⟩

section

variable {κ α : Type} [Ord κ] [Std.TransOrd κ] [Std.LawfulEqOrd κ] [DecidableEq κ]
variable {key : κ → Word} {encode : α → Bytes} {T T' : Table κ α} {m m' : Table Path Bytes}
variable {U : κ → Prop} {writes : List (κ × Option α)}

/-- The edits of a trie that carry out writes to the table in it. -/
def writeEdits (key : κ → Word) (encode : α → Bytes) (writes : List (κ × Option α)) : List Edit :=
  writes.map fun w => .write (key w.1) (w.2.map encode)

theorem Keyed.write {x : κ} (h : Keyed key encode T m) (hx : Alone key T x) (o : Option α) :
    Keyed key encode (T.write x o) ((Edit.write (key x) (o.map encode)).record m) := by
  cases o with
  | some v => exact h.insert hx
  | none => exact h.erase hx

/-- Edits do to the map in a trie what the writes do to the table. -/
theorem Keyed.foldl_write (h : Keyed key encode T m)
    (hinj : ∀ x y, U x → U y → key x = key y → x = y) (hT : ∀ x, T.find? x ≠ none → U x)
    (hwrites : ∀ w ∈ writes, U w.1) :
    Keyed key encode (writes.foldl (fun T w => T.write w.1 w.2) T)
      ((writeEdits key encode writes).foldl (fun m e => e.record m) m) := by
  induction writes generalizing T m with
  | nil => exact h
  | cons w writes ih =>
    have hw := hwrites w List.mem_cons_self
    refine ih (h.write (fun y hy => hinj y w.1 (hT y hy) hw) w.2) (fun x hx => ?_)
      fun w' hw' => hwrites w' (List.mem_cons_of_mem _ hw')
    rw [Table.find?_write, Function.update_apply] at hx
    split at hx
    · next hxw => exact hxw ▸ hw
    · exact hT x hx

omit [Ord κ] [Std.TransOrd κ] [Std.LawfulEqOrd κ] [DecidableEq κ] in
theorem writeEdits_changes {keys : List Word} (hwrites : ∀ w ∈ writes, key w.1 ∈ keys)
    (hencode : ∀ v, (Entry.value (encode v)).Storable) :
    ∀ e ∈ writeEdits key encode writes, e.Changes keys := fun e he => by
  obtain ⟨w, hw, rfl⟩ := List.mem_map.1 he
  refine Edit.write_changes (hwrites w hw) fun b hb => ?_
  obtain ⟨v, -, rfl⟩ := Option.map_eq_some_iff.1 hb
  exact hencode v

omit [Ord κ] [Std.TransOrd κ] [Std.LawfulEqOrd κ] [DecidableEq κ] in
theorem writeEdits_puts (hencode : ∀ v, (Entry.value (encode v)).Storable) :
    ∀ e ∈ writeEdits key encode writes, e.Puts Entry.Storable := by
  intro e he
  have hchanges := writeEdits_changes
    (fun w hw => List.mem_map_of_mem (f := fun w => key w.1) hw) hencode e he
  exact hchanges.puts

variable [Hasher] {t t' : Trie}

/-- Writes that lead from one table to another carry a trie that holds the first one to the trie that
holds the second. -/
theorem Keyed.run_writes (ht : t.Holds m) (hm : Keyed key encode T m) (ht' : t'.Holds m')
    (hm' : Keyed key encode T' m') (hinj : ∀ x y, U x → U y → key x = key y → x = y)
    (hT : ∀ x, T.find? x ≠ none → U x) (hwrites : ∀ w ∈ writes, U w.1)
    (hencode : ∀ v, (Entry.value (encode v)).Storable)
    (hlast : overwrite writes T.find? = T'.find?) :
    ∃ answers last, Edit.run (writeEdits key encode writes) t = .ok (answers, last) ∧
      last.forget = t'.forget := by
  have hknown : ∀ e ∈ writeEdits key encode writes, e.Puts Entry.Known :=
    fun e he => (writeEdits_puts hencode e he).mono Entry.Storable.known
  obtain ⟨answers, last, hrun, hholds⟩ := Edit.run_holds hknown ht
  have hkeyed := hm.foldl_write hinj hT hwrites
  have htable : writes.foldl (fun T w => T.write w.1 w.2) T = T' :=
    Table.eq_of_find?_eq fun x => by rw [Table.find?_foldl_write, hlast]
  rw [htable] at hkeyed
  exact ⟨answers, last, hrun,
    Trie.same_iff_forget_eq.1 ((hholds.same_iff ht').2 (hkeyed.unique hm'))⟩

/-- From a source that serves a bridging set, such writes lead to the root hash of the second trie on
what the source knows of the first. -/
theorem Bridges.replay_writes {S : Bytes → Prop} {keys : List Word} {source : NodeSource}
    {s : NodeSet} (h : Bridges t t' keys s) (hserved : s.Served S source) (hfits : t.Fits)
    (hspread : t.Spread) (ht : t.Holds m) (hm : Keyed key encode T m) (ht' : t'.Holds m')
    (hm' : Keyed key encode T' m') (hinj : ∀ x y, U x → U y → key x = key y → x = y)
    (hT : ∀ x, T.find? x ≠ none → U x) (hwrites : ∀ w ∈ writes, U w.1 ∧ key w.1 ∈ keys)
    (hencode : ∀ v, (Entry.value (encode v)).Storable)
    (hlast : overwrite writes T.find? = T'.find?) :
    ∃ answers p, Edit.run (writeEdits key encode writes) (t.knownTo source) = .ok (answers, p) ∧
      p.hash.1 = t'.hash.1 := by
  obtain ⟨answers, last, hrun, hforget⟩ :=
    hm.run_writes ht ht' hm' hinj hT (fun w hw => (hwrites w hw).1) hencode hlast
  exact ⟨answers, h.replay hserved ⟨ht.intact, hfits⟩ hspread ht'.sound
    (writeEdits_changes (fun w hw => (hwrites w hw).2) hencode) hrun hforget⟩

omit [Std.TransOrd κ] [Std.LawfulEqOrd κ] [DecidableEq κ] in
/-- In a trie that holds a table, keys of the table that part before their last nibble are keys of
the trie that do. -/
theorem Trie.Holds.spread (ht : t.Holds m) (hm : Keyed key encode T m)
    (hapart : ∀ x y, T.find? x ≠ none → T.find? y ≠ none →
      (Path.ofWord (key x)).toList.take (maxNibbles - 1) =
        (Path.ofWord (key y)).toList.take (maxNibbles - 1) → key x = key y) : t.Spread := by
  have hkeys : ∀ {k : Path}, t.get k ≠ none → ∃ x, T.find? x ≠ none ∧ .ofWord (key x) = k :=
    fun {k} hk => by
      rw [get, lookup_eq_view, ht.answers] at hk
      obtain ⟨b, hb⟩ := Option.ne_none_iff_exists'.1 hk
      obtain ⟨x, v, hx, hkey, -⟩ := (hm k b).1 hb
      exact ⟨x, by simp [hx], hkey⟩
  refine ⟨fun hk => ?_, fun hk hk' htake => ?_⟩
  · obtain ⟨x, -, rfl⟩ := hkeys hk
    exact Path.length_ofWord (key x)
  · obtain ⟨x, hx, rfl⟩ := hkeys hk
    obtain ⟨y, hy, rfl⟩ := hkeys hk'
    rw [hapart x y hx hy htake]

end

end Stateless
