import Stateless.Proofs.Trie.Outline
import Stateless.Proofs.Trie.Nodes

/-!
# Values that a machine can hold

No byte string in memory is as long as 2^63 bytes. The encodings of the nodes of a trie with such
values are short enough for their length to be written in eight bytes, so every node can be read
again. The main statement is `content_length_lt`.
-/

namespace Stateless

open Trie

/-- A value that can be stored: it is not empty and fits into memory. -/
def Entry.Storable : Entry → Prop
  | .value v => v ≠ [] ∧ v.length < twoPow 63
  | .hidden _ => False

theorem Entry.Storable.known {e : Entry} (h : e.Storable) : e.Known := by
  cases e with
  | value v => exact h.1
  | hidden d => exact h

theorem Edit.Puts.mono {P Q : Entry → Prop} (hpq : ∀ {e}, P e → Q e) {e : Edit} (h : e.Puts P) :
    e.Puts Q := by
  cases e with
  | put k x => exact hpq h
  | remove k => trivial
  | hash => trivial

namespace Trie

/-- All values fit into memory and nothing is hidden. -/
def Fits (t : Trie) : Prop := Within (fun v => v.length < twoPow 63) (fun _ => False) t

variable {t s : Trie} {l : List Nibble}

/-- An intact trie whose values fit into memory. -/
structure Whole [Hasher] (t : Trie) : Prop extends Intact t where
  fits : Fits t

theorem Fits.nodeAt (ht : Fits t) (h : t.nodeAt l = some s) : Fits s := Within.nodeAt ht h

theorem length_flatten_le {k : Nat} (xs : List Bytes) (h : ∀ x ∈ xs, x.length ≤ k) :
    xs.flatten.length ≤ xs.length * k := by
  induction xs with
  | nil => simp
  | cons x xs ih =>
    have hx := h x List.mem_cons_self
    have hxs := ih fun y hy => h y (List.mem_cons_of_mem _ hy)
    rw [List.flatten_cons, List.length_append, List.length_cons, Nat.succ_mul]
    omega

theorem length_data_value_le {v : Bytes} (hv : v.length < twoPow 63) :
    (Rlp.data v).length ≤ twoPow 63 + 9 := by
  have htwo : twoPow 63 ≤ 256 ^ 8 := by decide
  have := Rlp.length_data_le (hv.trans_le htwo)
  omega

theorem length_data_compact_le (f : Path) (isLeaf : Bool) :
    (Rlp.data (f.compact isLeaf)).length ≤ 42 := by
  have hf := f.length_le_max
  have hlen := Path.length_compact f isLeaf
  simp only [maxNibbles] at hf
  have := Rlp.length_data_le (b := f.compact isLeaf) (by omega)
  omega

variable [Hasher]

/-- Runs of edits that put storable values end in tries whose values fit into memory. -/
theorem run_fits {edits : List Edit} {answers : List (Option Bytes)} {t' : Trie}
    (hstorable : ∀ e ∈ edits, e.Puts Entry.Storable) (ht : Fits t)
    (h : Edit.run edits t = .ok (answers, t')) : Fits t' := by
  have hnil : ([] : Bytes).length < twoPow 63 := Nat.two_pow_pos 63
  refine Edit.run_induction (fun e he t a t' ht hap => ?_) ht h
  refine Edit.apply_hereditary (hereditary_within _ hnil) (fun _ => Within.memoize) ?_ ht hap
  refine (hstorable e he).mono fun {x} hx => ?_
  cases x with
  | value v => exact hx.2
  | hidden d => exact absurd hx id

/-- Runs of edits that put storable values into the empty trie end in whole tries. -/
theorem run_whole {edits : List Edit} {answers : List (Option Bytes)} {t : Trie}
    (hputs : ∀ e ∈ edits, e.Puts Entry.Storable)
    (hrun : Edit.run edits .empty = .ok (answers, t)) : t.Whole := by
  have hknown : ∀ e ∈ edits, e.Puts Entry.Known :=
    fun e he => (hputs e he).mono Entry.Storable.known
  exact ⟨(Edit.holds_of_run hknown holds_empty hrun).intact, run_fits hputs (by trivial) hrun⟩

/-- What a parent writes for a child is no longer than a hash with its header. -/
theorem length_reference_le {c : Trie} (hs : Sound c) : c.reference.item.length ≤ 33 := by
  rw [hs.memoHolds.reference_eq]
  cases c.content with
  | error w => exact (length_data_word w).le
  | ok e =>
    rw [Reference.ofContent]
    split
    · next h => exact h.le.trans (by decide)
    · exact (length_data_word _).le

/-- The encoding of a node is short enough for its length to be said. -/
theorem content_length_lt {H : Word → Prop} {e : Bytes}
    (ht : Within (fun v => v.length < twoPow 63) H t) (hs : Sound t) (h : t.content = .ok e) :
    e.length < 256 ^ 8 + 9 := by
  have hlist : ∀ xs : List Bytes, xs.flatten.length ≤ 16 * 33 + (twoPow 63 + 9) →
      (Rlp.list xs).length < 256 ^ 8 + 9 := fun xs hxs => by
    have htwo : 16 * 33 + (twoPow 63 + 9) < 256 ^ 8 := by decide
    have := Rlp.length_list_le (hxs.trans_lt htwo)
    omega
  cases t with
  | empty => exact Except.ok.inj h ▸ by decide
  | hidden w => cases h
  | leaf f v m =>
    rw [← Except.ok.inj h]
    have hf := length_data_compact_le f true
    have hv := length_data_value_le ht
    refine hlist _ ?_
    simp only [List.flatten_cons, List.flatten_nil, List.append_nil, List.length_append]
    omega
  | extension f c m =>
    rw [content_extension] at h
    rw [← Except.ok.inj h]
    have hf := length_data_compact_le f false
    have hc := length_reference_le hs.1
    refine hlist _ ?_
    simp only [List.flatten_cons, List.flatten_nil, List.append_nil, List.length_append]
    omega
  | branch cs v m =>
    rw [content_branch] at h
    rw [← Except.ok.inj h]
    have hv := length_data_value_le ht.2
    have hcs := length_flatten_le (k := 33) (Children.toList fun i => (cs i).reference.item)
      fun x hx => by
        obtain ⟨i, -, rfl⟩ := List.mem_map.1 hx
        exact length_reference_le (hs.1 i)
    have hcount : (Children.toList fun i => (cs i).reference.item).length = 16 := by
      simp [Children.toList]
    rw [hcount] at hcs
    refine hlist _ ?_
    simp only [List.flatten_append, List.flatten_cons, List.flatten_nil, List.append_nil,
      List.length_append]
    omega

end Trie

end Stateless
