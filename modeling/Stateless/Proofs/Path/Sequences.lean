import Stateless.Proofs.Path.Spelling

/-!
# Cells act as a list

Whatever operations a buffer comes from, its cells are well formed, and every operation on it does
what the operation on the list of its nibbles does: it stops with a fault exactly where that one is
not defined, where a number above 15 is added or where there would be more than 64 nibbles. The main
statement is `acts_as_list`.
-/

namespace Stateless

variable {ε α β : Type}

/-- A computation has a result exactly within a domain, and stops with a fault outside it. -/
def FaultsOutside (domain : Prop) (P : α → Prop) : Except Fault α → Prop
  | .ok a => domain ∧ P a
  | .error _ => ¬ domain

/-- A computation has a result exactly within a domain, and reports an error outside it. It never
stops with a fault. -/
def RefusesOutside (domain : Prop) (P : α → Prop) : Attempt ε α → Prop
  | .ok a => domain ∧ P a
  | .error (.error _) => ¬ domain
  | .error (.fault _) => False

theorem FaultsOutside.exists_eq_ok {domain : Prop} {P : α → Prop} {x : Except Fault α}
    (h : FaultsOutside domain P x) (hdomain : domain) : ∃ a, x = .ok a ∧ P a := by
  cases x with
  | ok a => exact ⟨a, rfl, h.2⟩
  | error f => exact absurd hdomain h

theorem FaultsOutside.congr {domain domain' : Prop} {P P' : α → Prop} {x : Except Fault α}
    (h : FaultsOutside domain P x) (hdomain : domain ↔ domain') (hP : ∀ a, P a → P' a) :
    FaultsOutside domain' P' x := by
  cases x with
  | ok a => exact ⟨hdomain.1 h.1, hP a h.2⟩
  | error f => exact mt hdomain.2 h

theorem faultsOutside_map {domain : Prop} {P : β → Prop} {f : α → β} {x : Except Fault α} :
    FaultsOutside domain P (x.map f) ↔ FaultsOutside domain (fun a => P (f a)) x := by
  cases x <;> rfl

/-- A reader refuses exactly what is outside its domain. -/
theorem refusesOutside_of_iff {domain : Prop} {P : β → Prop} {f : α → β} {x : Except ε α}
    (hdomain : domain → ∃ a, x = .ok a) (h : ∀ a, x = .ok a → domain ∧ P (f a)) :
    RefusesOutside domain P (.ofExcept (x.map f)) := by
  cases x with
  | ok a => exact h a rfl
  | error e =>
    intro hin
    obtain ⟨a, ha⟩ := hdomain hin
    cases ha

namespace Path

namespace Buffer

/-- The buffers that the operations lead to. -/
inductive Made : Buffer → Prop where
  /-- There is a path without nibbles. -/
  | empty : Made .empty
  /-- A path is made of one number. -/
  | single {n : UInt8} {p : Buffer} (h : Buffer.single n = .ok p) : Made p
  /-- A path is made of a list of numbers. -/
  | ofNumbers {ns : List UInt8} {p : Buffer} (h : Buffer.ofNumbers ns = .ok p) : Made p
  /-- A path is made of bytes. -/
  | ofBytes {b : Bytes} {p : Buffer} (h : Buffer.ofBytes b = .ok p) : Made p
  /-- A path is made of a word. -/
  | ofWord {w : Word} {p : Buffer} (h : Buffer.ofWord w = .ok p) : Made p
  /-- A path is read from a text. -/
  | parse {s : String} {p : Buffer} (h : Buffer.parse s = .ok p) : Made p
  /-- A path is read from its compact form. -/
  | ofCompact {b : Bytes} {p : Buffer} {isLeaf : Bool} (h : Buffer.ofCompact b = .ok (p, isLeaf)) :
    Made p
  /-- A number is added to a path. -/
  | push {p q : Buffer} {n : UInt8} (hp : Made p) (h : p.push n = .ok q) : Made q
  /-- The first nibble is taken off. -/
  | pop {p q : Buffer} {n : UInt8} (hp : Made p) (h : p.pop = .ok (n, q)) : Made q
  /-- The first nibbles are taken off. -/
  | drop {p q : Buffer} {n : Nat} (hp : Made p) (h : p.drop n = .ok q) : Made q
  /-- The last nibbles are taken off. -/
  | dropLast {p q : Buffer} {n : Nat} (hp : Made p) (h : p.dropLast n = .ok q) : Made q
  /-- Nibbles in a row are taken out of a path. -/
  | range {p q : Buffer} {start stop : Nat} (hp : Made p) (h : p.range start stop = .ok q) : Made q
  /-- The nibbles before a position are taken out. -/
  | before {p q : Buffer} {i : Nat} (hp : Made p) (h : p.before i = .ok q) : Made q
  /-- The nibbles from a position on are taken out. -/
  | after {p q : Buffer} {i : Nat} (hp : Made p) (h : p.after i = .ok q) : Made q
  /-- A path is split, and its front part is kept. -/
  | splitBefore {p q r : Buffer} {i : Nat} (hp : Made p) (h : p.split i = .ok (q, r)) : Made q
  /-- A path is split, and its back part is kept. -/
  | splitAfter {p q r : Buffer} {i : Nat} (hp : Made p) (h : p.split i = .ok (q, r)) : Made r
  /-- A path is put behind another one. -/
  | append {p q r : Buffer} (hp : Made p) (hq : Made q) (h : p.append q = .ok r) : Made r

/-- Every operation on a buffer is the operation on the list of its nibbles. -/
structure ActsAsList (p : Buffer) : Prop where
  /-- The nibbles that are shown are those of the list. -/
  nibbles : p.nibbles = .ok p.toList
  /-- Their number is the length of the list. -/
  length : p.length = p.toList.length
  /-- There are none if the list is empty. -/
  isEmpty : p.isEmpty = true ↔ p.toList = []
  /-- A nibble can be looked at if the list has one there. -/
  get : ∀ i, FaultsOutside (i < p.toList.length) (fun n => p.toList[i]? = some n) (p.get i)
  /-- A nibble can be added if there is room for it. -/
  push : ∀ n, FaultsOutside (n < 16 ∧ p.toList.length < maxNibbles)
    (fun q => q.toList = p.toList ++ [n]) (p.push n)
  /-- The first nibble can be taken off if there is one. -/
  pop : FaultsOutside (p.toList ≠ []) (fun r => p.toList = r.1 :: r.2.toList) p.pop
  /-- Any number of nibbles can be taken off the front; if it is too large, none are left. -/
  drop : ∀ n, FaultsOutside True (fun q => q.toList = p.toList.drop n) (p.drop n)
  /-- Any number of nibbles can be taken off the end; if it is too large, none are left. -/
  dropLast : ∀ n, FaultsOutside True (fun q => q.toList = p.toList.take (p.toList.length - n))
    (p.dropLast n)
  /-- Nibbles in a row can be taken out if the list has them. -/
  range : ∀ start stop, FaultsOutside (start ≤ stop ∧ stop ≤ p.toList.length)
    (fun q => q.toList = (p.toList.take stop).drop start) (p.range start stop)
  /-- The nibbles before a position can be taken out if the list reaches there. -/
  before : ∀ i, FaultsOutside (i ≤ p.toList.length) (fun q => q.toList = p.toList.take i) (p.before i)
  /-- The nibbles from a position on can be taken out if the list reaches there. -/
  after : ∀ i, FaultsOutside (i ≤ p.toList.length) (fun q => q.toList = p.toList.drop i) (p.after i)
  /-- A path can be split where the list reaches. -/
  split : ∀ i, FaultsOutside (i ≤ p.toList.length)
    (fun r => r.1.toList = p.toList.take i ∧ r.2.toList = p.toList.drop i) (p.split i)
  /-- Another path can be put behind this one if there is room for it. -/
  append : ∀ q, Made q → FaultsOutside (p.toList.length + q.toList.length ≤ maxNibbles)
    (fun r => r.toList = p.toList ++ q.toList) (p.append q)
  /-- Buffers are equal if the lists are. -/
  eq_iff : ∀ q, Made q → (p = q ↔ p.toList = q.toList)
  /-- Buffers are ordered as the lists are, nibble by nibble. -/
  order : ∀ q, Made q → FaultsOutside True (fun o => (o = .lt ↔ p.toList < q.toList) ∧
    (o = .eq ↔ p.toList = q.toList) ∧ (o = .gt ↔ q.toList < p.toList)) (p.order q)
  /-- A buffer starts with the front parts of the list. -/
  startsWith : ∀ q, Made q →
    FaultsOutside True (fun s => s = true ↔ q.toList <+: p.toList) (p.startsWith q)
  /-- Two buffers first differ behind the longest common front part of the lists. -/
  difference : ∀ q, Made q → FaultsOutside True (fun n =>
    ∃ l, l <+: p.toList ∧ l <+: q.toList ∧ l.length = n ∧
      ∀ m, m <+: p.toList → m <+: q.toList → m.length ≤ n) (p.difference q)

end Buffer

open Buffer

theorem exists_of_map_eq_ok {x : Except ε Path} {b : Buffer} (h : x.map toBuffer = .ok b) :
    ∃ p : Path, p.toBuffer = b := by
  obtain ⟨p, -, hp⟩ := map_eq_ok_iff.1 h
  exact ⟨p, hp⟩

/-- Every operation leads from buffers of paths to the buffer of a path. -/
theorem exists_path_of_made {b : Buffer} (h : Made b) : ∃ p : Path, p.toBuffer = b := by
  induction h with
  | empty => exact ⟨.empty, empty_toBuffer⟩
  | single h =>
    rw [Buffer.single, ← empty_toBuffer, push_toBuffer] at h
    exact exists_of_map_eq_ok h
  | ofNumbers h =>
    obtain ⟨p, -, hp⟩ := ofNumbers_eq_ok_iff.1 h
    exact ⟨p, hp⟩
  | ofBytes h =>
    rw [ofBytes_eq, Attempt.ofExcept_eq_ok_iff] at h
    exact exists_of_map_eq_ok h
  | ofWord h =>
    rw [ofWord_eq] at h
    exact ⟨_, Except.ok.inj h⟩
  | parse h =>
    rw [parse_eq, Attempt.ofExcept_eq_ok_iff] at h
    exact exists_of_map_eq_ok h
  | ofCompact h =>
    rw [ofCompact_eq, Attempt.ofExcept_eq_ok_iff] at h
    obtain ⟨r, -, hr⟩ := map_eq_ok_iff.1 h
    exact ⟨r.1, (Prod.mk.inj hr).1⟩
  | push _ h ih =>
    obtain ⟨p, rfl⟩ := ih
    rw [push_toBuffer] at h
    exact exists_of_map_eq_ok h
  | pop _ h ih =>
    obtain ⟨p, rfl⟩ := ih
    rw [pop_toBuffer] at h
    obtain ⟨r, -, hr⟩ := map_eq_ok_iff.1 h
    exact ⟨r.2, (Prod.mk.inj hr).2⟩
  | drop _ h ih =>
    obtain ⟨p, rfl⟩ := ih
    rw [drop_toBuffer] at h
    exact ⟨_, Except.ok.inj h⟩
  | dropLast _ h ih =>
    obtain ⟨p, rfl⟩ := ih
    rw [dropLast_toBuffer] at h
    exact ⟨_, Except.ok.inj h⟩
  | range _ h ih =>
    obtain ⟨p, rfl⟩ := ih
    rw [range_toBuffer] at h
    exact exists_of_map_eq_ok h
  | before _ h ih =>
    obtain ⟨p, rfl⟩ := ih
    rw [before_toBuffer] at h
    exact exists_of_map_eq_ok h
  | after _ h ih =>
    obtain ⟨p, rfl⟩ := ih
    rw [after_toBuffer] at h
    exact exists_of_map_eq_ok h
  | splitBefore _ h ih =>
    obtain ⟨p, rfl⟩ := ih
    rw [split_toBuffer] at h
    obtain ⟨r, -, hr⟩ := map_eq_ok_iff.1 h
    exact ⟨r.1, (Prod.mk.inj hr).1⟩
  | splitAfter _ h ih =>
    obtain ⟨p, rfl⟩ := ih
    rw [split_toBuffer] at h
    obtain ⟨r, -, hr⟩ := map_eq_ok_iff.1 h
    exact ⟨r.2, (Prod.mk.inj hr).2⟩
  | append _ _ h ihp ihq =>
    obtain ⟨p, rfl⟩ := ihp
    obtain ⟨q, rfl⟩ := ihq
    rw [append_toBuffer] at h
    exact exists_of_map_eq_ok h

theorem made_toBuffer (p : Path) : Made p.toBuffer := .ofNumbers (ofNumbers_eq_ok_iff.2 ⟨p, rfl, rfl⟩)

/-- What the operations lead to is exactly what is well formed. -/
theorem made_iff_wellFormed {b : Buffer} : Made b ↔ b.WellFormed := by
  constructor
  · intro h
    exact wellFormed_iff.2 (exists_path_of_made h)
  · intro h
    obtain ⟨p, rfl⟩ := wellFormed_iff.1 h
    exact p.made_toBuffer

/-! ## Operations and lists -/

section

variable (p : Path)

theorem get_exact (i : Nat) :
    FaultsOutside (i < p.bytes.length) (fun n => p.bytes[i]? = some n) (p.toBuffer.get i) := by
  rw [get_toBuffer, faultsOutside_map, get, length_bytes]
  cases hi : p.toList[i]? with
  | some d =>
    refine ⟨(List.getElem?_eq_some_iff.1 hi).1, ?_⟩
    rw [bytes, List.getElem?_map, hi, Option.map_some]
  | none => exact Nat.not_lt.2 (List.getElem?_eq_none_iff.1 hi)

theorem push_exact (n : UInt8) :
    FaultsOutside (n < 16 ∧ p.bytes.length < maxNibbles) (fun q => q.toList = p.bytes ++ [n])
      (p.toBuffer.push n) := by
  have hlt : n < 16 ↔ n.toNat < 16 := UInt8.lt_iff_toNat_lt
  rw [push_toBuffer, faultsOutside_map, push, length_bytes, hlt]
  split
  · next hroom =>
    split
    · next hn =>
      refine ⟨⟨hn, hroom⟩, ?_⟩
      simp only [toList_toBuffer, bytes, List.map_append, List.map_cons, List.map_nil, Nibble.byte_mk]
    · next hn => exact fun h => hn h.1
  · next hfull => exact fun h => hfull h.2

theorem pop_exact :
    FaultsOutside (p.bytes ≠ []) (fun r => p.bytes = r.1 :: r.2.toList) p.toBuffer.pop := by
  rw [pop_toBuffer, faultsOutside_map, pop, bytes, ne_eq, List.map_eq_nil_iff]
  cases hp : p.uncons with
  | some r =>
    have hlist := uncons_eq_some_iff.1 hp
    refine ⟨hlist ▸ List.cons_ne_nil _ _, ?_⟩
    simp only [hlist, toList_toBuffer, bytes, List.map_cons]
  | none => exact not_not.2 (uncons_eq_none_iff.1 hp)

theorem range_exact (start stop : Nat) :
    FaultsOutside (start ≤ stop ∧ stop ≤ p.bytes.length)
      (fun q => q.toList = (p.bytes.take stop).drop start) (p.toBuffer.range start stop) := by
  rw [range_toBuffer, faultsOutside_map, range, length_bytes]
  split
  · next h =>
    refine ⟨h, ?_⟩
    simp only [toList_toBuffer, bytes, List.map_drop, List.map_take]
  · next h => exact h

theorem before_exact (i : Nat) :
    FaultsOutside (i ≤ p.bytes.length) (fun q => q.toList = p.bytes.take i) (p.toBuffer.before i) :=
  (p.range_exact 0 i).congr ⟨fun h => h.2, fun h => ⟨Nat.zero_le i, h⟩⟩ fun _ hq => hq

theorem after_exact (i : Nat) :
    FaultsOutside (i ≤ p.bytes.length) (fun q => q.toList = p.bytes.drop i) (p.toBuffer.after i) := by
  have hrange := p.range_exact i p.length
  rw [← length_bytes, List.take_length] at hrange
  rw [Buffer.after, count_toBuffer, ← length_bytes]
  exact hrange.congr ⟨fun h => h.1, fun h => ⟨h, Nat.le_refl _⟩⟩ fun _ hq => hq

theorem split_exact (i : Nat) :
    FaultsOutside (i ≤ p.bytes.length)
      (fun r => r.1.toList = p.bytes.take i ∧ r.2.toList = p.bytes.drop i) (p.toBuffer.split i) := by
  have hbefore := p.before_exact i
  have hafter := p.after_exact i
  rw [Buffer.split]
  cases hb : p.toBuffer.before i with
  | error f =>
    rw [hb] at hbefore
    exact hbefore
  | ok q =>
    rw [hb] at hbefore
    cases ha : p.toBuffer.after i with
    | error f =>
      rw [ha] at hafter
      exact hafter
    | ok r =>
      rw [ha] at hafter
      exact ⟨hbefore.1, hbefore.2, hafter.2⟩

variable (q : Path)

theorem append_exact :
    FaultsOutside (p.bytes.length + q.bytes.length ≤ maxNibbles)
      (fun r => r.toList = p.bytes ++ q.bytes) (p.toBuffer.append q.toBuffer) := by
  rw [append_toBuffer, faultsOutside_map, append, length_bytes, length_bytes]
  split
  · next h =>
    refine ⟨h, ?_⟩
    simp only [toList_toBuffer, bytes, List.map_append]
  · next h => exact h

theorem compare_eq_lt_iff {l m : List UInt8} : compare l m = .lt ↔ l < m := by
  induction l generalizing m with
  | nil => cases m <;> simp
  | cons a l ih =>
    cases m with
    | nil => simp
    | cons b m =>
      have hlt : compare a b = .lt ↔ a < b := compareOfLessAndEq_eq_lt
      have heq : compare a b = .eq ↔ a = b := Std.LawfulEqCmp.compare_eq_iff_eq
      rw [List.compare_cons_cons, List.cons_lt_cons_iff, Ordering.then_eq_lt, ih, hlt, heq]

theorem order_exact :
    FaultsOutside True (fun o => (o = .lt ↔ p.bytes < q.bytes) ∧ (o = .eq ↔ p.bytes = q.bytes) ∧
      (o = .gt ↔ q.bytes < p.bytes)) (p.toBuffer.order q.toBuffer) := by
  have hcompare : compare p q = compare p.bytes q.bytes := by
    rw [compare_eq, bytes, bytes, compare_map_byte]
  rw [order_toBuffer, hcompare]
  refine ⟨trivial, compare_eq_lt_iff, Std.LawfulEqCmp.compare_eq_iff_eq, ?_⟩
  rw [← compare_eq_lt_iff, Std.OrientedCmp.gt_iff_lt]

theorem startsWith_exact :
    FaultsOutside True (fun s => s = true ↔ q.bytes <+: p.bytes)
      (p.toBuffer.startsWith q.toBuffer) := by
  rw [startsWith_toBuffer]
  exact ⟨trivial, startsWith_iff.trans bytes_prefix_iff.symm⟩

/-- What two lists have in common in front is in what they part behind. -/
theorem length_le_parting {γ : Type} [DecidableEq γ] {l as bs : List γ} (ha : l <+: as)
    (hb : l <+: bs) : l.length ≤ (parting as bs).1.length := by
  obtain ⟨as, rfl⟩ := ha
  obtain ⟨bs, rfl⟩ := hb
  rw [parting_append, List.length_append]
  exact Nat.le_add_right ..

theorem difference_exact :
    FaultsOutside True (fun n => ∃ l, l <+: p.bytes ∧ l <+: q.bytes ∧ l.length = n ∧
      ∀ m, m <+: p.bytes → m <+: q.bytes → m.length ≤ n) (p.toBuffer.difference q.toBuffer) := by
  have hindex := findIdx?_zip Function.injective_id p.bytes q.bytes
  rw [List.map_id, List.map_id, length_bytes, length_bytes] at hindex
  have hdifference : p.toBuffer.difference q.toBuffer = .ok (parting p.bytes q.bytes).1.length := by
    rw [Buffer.difference, nibbles_toBuffer, nibbles_toBuffer]
    exact congrArg Except.ok hindex
  rw [hdifference]
  exact ⟨trivial, (parting p.bytes q.bytes).1, ⟨_, parting_left ..⟩, ⟨_, parting_right ..⟩, rfl,
    fun _ hp hq => length_le_parting hp hq⟩

end

theorem actsAsList_toBuffer (p : Path) : p.toBuffer.ActsAsList where
  nibbles := by rw [toList_toBuffer, nibbles_toBuffer]
  length := by rw [toList_toBuffer, length_bytes, length_toBuffer]
  isEmpty := by rw [toList_toBuffer, isEmpty_toBuffer, isEmpty_iff, bytes, List.map_eq_nil_iff]
  get i := by
    rw [toList_toBuffer]
    exact p.get_exact i
  push n := by
    rw [toList_toBuffer]
    exact p.push_exact n
  pop := by
    rw [toList_toBuffer]
    exact p.pop_exact
  drop n := by
    rw [toList_toBuffer, drop_toBuffer]
    exact ⟨trivial, (toList_toBuffer _).trans (p.bytes_drop n)⟩
  dropLast n := by
    rw [toList_toBuffer, dropLast_toBuffer]
    exact ⟨trivial, (toList_toBuffer _).trans (p.bytes_dropLast n)⟩
  range start stop := by
    rw [toList_toBuffer]
    exact p.range_exact start stop
  before i := by
    rw [toList_toBuffer]
    exact p.before_exact i
  after i := by
    rw [toList_toBuffer]
    exact p.after_exact i
  split i := by
    rw [toList_toBuffer]
    exact p.split_exact i
  append q hq := by
    obtain ⟨q, rfl⟩ := exists_path_of_made hq
    rw [toList_toBuffer, toList_toBuffer]
    exact p.append_exact q
  eq_iff q hq := by
    obtain ⟨q, rfl⟩ := exists_path_of_made hq
    rw [toList_toBuffer, toList_toBuffer, toBuffer_inj, bytes_inj]
  order q hq := by
    obtain ⟨q, rfl⟩ := exists_path_of_made hq
    rw [toList_toBuffer, toList_toBuffer]
    exact p.order_exact q
  startsWith q hq := by
    obtain ⟨q, rfl⟩ := exists_path_of_made hq
    rw [toList_toBuffer, toList_toBuffer]
    exact p.startsWith_exact q
  difference q hq := by
    obtain ⟨q, rfl⟩ := exists_path_of_made hq
    rw [toList_toBuffer, toList_toBuffer]
    exact p.difference_exact q

/-! ## Makers and lists -/

theorem single_exact (n : UInt8) :
    FaultsOutside (n < 16) (fun p => p.toList = [n]) (Buffer.single n) := by
  rw [Buffer.single, ← empty_toBuffer]
  exact (empty.push_exact n).congr ⟨fun h => h.1, fun h => ⟨h, by decide⟩⟩ fun _ hp => hp

theorem ofNumbers_exact (ns : List UInt8) :
    FaultsOutside ((∀ n ∈ ns, n < 16) ∧ ns.length ≤ maxNibbles) (fun p => p.toList = ns)
      (Buffer.ofNumbers ns) := by
  cases h : Buffer.ofNumbers ns with
  | ok b =>
    obtain ⟨p, rfl, rfl⟩ := ofNumbers_eq_ok_iff.1 h
    exact ⟨⟨p.bytes_lt, p.length_bytes_le⟩, p.toList_toBuffer⟩
  | error f =>
    rintro ⟨hlt, hlen⟩
    obtain ⟨p, hp⟩ := exists_bytes_eq hlen hlt
    cases h.symm.trans (ofNumbers_eq_ok_iff.2 ⟨p, hp, rfl⟩)

theorem ofWord_exact (w : Word) :
    FaultsOutside True (fun p => p.toList = (Bytes.nibbles w.toBytes).map Nibble.byte)
      (Buffer.ofWord w) := by
  rw [ofWord_eq]
  exact ⟨trivial, toList_toBuffer _⟩

theorem ofBytes_exact (b : Bytes) :
    RefusesOutside (b ≠ [] ∧ b.length ≤ 32)
      (fun p => p.toList = (Bytes.nibbles b).map Nibble.byte) (Buffer.ofBytes b) := by
  rw [ofBytes_eq]
  refine refusesOutside_of_iff (fun ⟨hsome, hfew⟩ => ?_) fun p hp => ?_
  · have hlen : (Bytes.nibbles b).length ≤ maxNibbles := by
      rw [Bytes.length_nibbles, maxNibbles]
      omega
    exact ⟨⟨Bytes.nibbles b, hlen⟩, ofBytes_eq_ok_iff.2 ⟨hsome, hfew, rfl⟩⟩
  · obtain ⟨hsome, hfew, hlist⟩ := ofBytes_eq_ok_iff.1 hp
    exact ⟨⟨hsome, hfew⟩, (toList_toBuffer p).trans (congrArg _ hlist)⟩

theorem parse_exact (s : String) :
    RefusesOutside (∃ ds, Hex.digits? (Hex.afterMark s.toList) = some ds ∧ ds.length ≤ maxNibbles)
      (fun p => ∃ ds, Hex.digits? (Hex.afterMark s.toList) = some ds ∧ p.toList = ds.map Nibble.byte)
      (Buffer.parse s) := by
  rw [parse_eq]
  refine refusesOutside_of_iff (fun ⟨ds, hds, hlen⟩ => ?_) fun p hp => ?_
  · exact ⟨⟨ds, hlen⟩, parse_eq_ok_iff.2 hds⟩
  · have hds := parse_eq_ok_iff.1 hp
    exact ⟨⟨p.toList, hds, p.length_le⟩, p.toList, hds, p.toList_toBuffer⟩

theorem ofCompact_exact (b : Bytes) :
    RefusesOutside (∃ (f : Path) (isLeaf : Bool), f.compact isLeaf = b)
      (fun r => ∃ f : Path, f.compact r.2 = b ∧ r.1.toList = f.bytes) (Buffer.ofCompact b) := by
  rw [ofCompact_eq]
  refine refusesOutside_of_iff (fun ⟨f, isLeaf, hf⟩ => ?_) fun ⟨f, isLeaf⟩ hread => ?_
  · exact ⟨(f, isLeaf), hf ▸ ofCompact_compact f isLeaf⟩
  · have hf := compact_of_ofCompact hread
    exact ⟨⟨f, isLeaf, hf⟩, f, hf, f.toList_toBuffer⟩

/-- A path in cells acts as the list of its nibbles. The makers make the lists that they promise;
what they and the operations lead to is exactly what is well formed; and there every operation is
that of the list, and stops with a fault where the list has none. -/
theorem acts_as_list :
    Buffer.empty.toList = [] ∧
    (∀ n, FaultsOutside (n < 16) (fun p => p.toList = [n]) (Buffer.single n)) ∧
    (∀ ns, FaultsOutside ((∀ n ∈ ns, n < 16) ∧ ns.length ≤ maxNibbles) (fun p => p.toList = ns)
      (Buffer.ofNumbers ns)) ∧
    (∀ w, FaultsOutside True (fun p => p.toList = (Bytes.nibbles w.toBytes).map Nibble.byte)
      (Buffer.ofWord w)) ∧
    (∀ b, RefusesOutside (b ≠ [] ∧ b.length ≤ 32)
      (fun p => p.toList = (Bytes.nibbles b).map Nibble.byte) (Buffer.ofBytes b)) ∧
    (∀ s, RefusesOutside
      (∃ ds, Hex.digits? (Hex.afterMark s.toList) = some ds ∧ ds.length ≤ maxNibbles)
      (fun p => ∃ ds, Hex.digits? (Hex.afterMark s.toList) = some ds ∧ p.toList = ds.map Nibble.byte)
      (Buffer.parse s)) ∧
    (∀ b, RefusesOutside (∃ (f : Path) (isLeaf : Bool), f.compact isLeaf = b)
      (fun r => ∃ f : Path, f.compact r.2 = b ∧ r.1.toList = f.bytes) (Buffer.ofCompact b)) ∧
    (∀ p, Made p ↔ p.WellFormed) ∧
    ∀ p, Made p → p.ActsAsList := by
  refine ⟨?_, single_exact, ofNumbers_exact, ofWord_exact, ofBytes_exact, parse_exact,
    ofCompact_exact, fun p => made_iff_wellFormed, fun p hp => ?_⟩
  · rw [← empty_toBuffer, toList_toBuffer]
    rfl
  · obtain ⟨p, rfl⟩ := exists_path_of_made hp
    exact p.actsAsList_toBuffer

/-- A path of three nibbles that is cut down to one equals the path that is made of it. -/
theorem acts_as_list_cut : ∃ p q r : Buffer, Buffer.ofNumbers [15, 15, 15] = .ok p ∧
    p.dropLast 2 = .ok q ∧ Buffer.single 15 = .ok r ∧ q = r ∧ Made q ∧ q.ActsAsList := by
  obtain ⟨-, hsingle, hnumbers, -, -, -, -, -, hacts⟩ := acts_as_list
  obtain ⟨p, hp, hplist⟩ := (hnumbers [15, 15, 15]).exists_eq_ok ⟨by simp, by decide⟩
  obtain ⟨q, hq, hqlist⟩ := ((hacts p (.ofNumbers hp)).dropLast 2).exists_eq_ok trivial
  obtain ⟨r, hr, hrlist⟩ := (hsingle 15).exists_eq_ok (by decide)
  have hmade : Made q := .dropLast (.ofNumbers hp) hq
  refine ⟨p, q, r, hp, hq, hr, ?_, hmade, hacts q hmade⟩
  rw [(hacts q hmade).eq_iff r (.single hr), hqlist, hplist, hrlist]
  rfl

end Path

end Stateless
