import Mathlib.Data.List.DropRight
import Mathlib.Data.List.TakeDrop
import Mathlib.Tactic.IntervalCases
import Stateless.Json.Printer
import Stateless.Json.Reader

/-!
# JSON text that is read back

A value can be laid out in many ways, with any blanks between its parts (`Layout`). What is written
is one of them (`layout_render`), and each of them is read as the value (`parse_of_layout`). The
reader works with a bound on its steps, so the induction is on that bound: `Reads` says what is read
within it, and `value_step`, `items_step` and `entries_step` raise it by one.

Numbers with a fraction or an exponent are left out. They are kept as they came, and nothing that is
written here holds one.
-/

namespace Stateless.Json

/-! ## Lists -/

section

variable {α β γ : Type}

theorem mapM_map_eq_some {f : β → Option γ} {g : α → β} {h : α → γ} {xs : List α}
    (hf : ∀ x ∈ xs, f (g x) = some (h x)) : (xs.map g).mapM f = some (xs.map h) := by
  induction xs with
  | nil => rfl
  | cons x xs ih =>
    rw [List.map_cons, List.mapM_cons, hf x List.mem_cons_self,
      ih fun y hy => hf y (List.mem_cons_of_mem _ hy)]
    rfl

theorem mapM_map_self {f : β → Option α} {g : α → β} {xs : List α}
    (hf : ∀ x ∈ xs, f (g x) = some x) : (xs.map g).mapM f = some xs := by
  have hmap := mapM_map_eq_some (h := id) hf
  rwa [List.map_id] at hmap

end

/-! ## Layout -/

/-- Nothing but blanks. -/
def Blank (cs : List Char) : Prop := ∀ c ∈ cs, isBlank c = true

mutual

/-- A text of a value, with any blanks between the parts of the value and none around it. -/
inductive Spells : Json → List Char → Prop where
  | nullWord : Spells .null ['n', 'u', 'l', 'l']
  | trueWord : Spells (.bool true) ['t', 'r', 'u', 'e']
  | falseWord : Spells (.bool false) ['f', 'a', 'l', 's', 'e']
  | int (n : Int) : Spells (.int n) (toString n).toList
  | string (s : String) : Spells (.string s) (quote s).toList
  | noItems {b : List Char} : Blank b → Spells (.array []) ('[' :: (b ++ [']']))
  | array {vs : List Json} {cs : List Char} :
    SpellsItems vs cs → Spells (.array vs) ('[' :: (cs ++ [']']))
  | noEntries {b : List Char} : Blank b → Spells (.object []) ('\x7b' :: (b ++ ['\x7d']))
  | object {es : List (String × Json)} {cs : List Char} :
    SpellsEntries es cs → Spells (.object es) ('\x7b' :: (cs ++ ['\x7d']))

/-- A text of values with commas between them. -/
inductive SpellsItems : List Json → List Char → Prop where
  | last {v : Json} {a cs b : List Char} :
    Blank a → Spells v cs → Blank b → SpellsItems [v] (a ++ (cs ++ b))
  | cons {v : Json} {vs : List Json} {a cs b rest : List Char} :
    Blank a → Spells v cs → Blank b → SpellsItems vs rest →
      SpellsItems (v :: vs) (a ++ (cs ++ (b ++ ',' :: rest)))

/-- A text of keys and values with commas between them. -/
inductive SpellsEntries : List (String × Json) → List Char → Prop where
  | last {k : String} {v : Json} {a b c cs d : List Char} :
    Blank a → Blank b → Blank c → Spells v cs → Blank d →
      SpellsEntries [(k, v)] (a ++ ((quote k).toList ++ (b ++ ':' :: (c ++ (cs ++ d)))))
  | cons {k : String} {v : Json} {es : List (String × Json)} {a b c cs d rest : List Char} :
    Blank a → Blank b → Blank c → Spells v cs → Blank d → SpellsEntries es rest →
      SpellsEntries ((k, v) :: es)
        (a ++ ((quote k).toList ++ (b ++ ':' :: (c ++ (cs ++ (d ++ ',' :: rest))))))

end

/-- A whole text of a value. -/
def Layout (v : Json) (s : String) : Prop :=
  ∃ a cs b, Blank a ∧ Spells v cs ∧ Blank b ∧ s.toList = a ++ (cs ++ b)

/-! ## What is written -/

mutual

/-- A value without numbers that have a fraction or an exponent. -/
def Plain : Json → Prop
  | .decimal _ | .unreadable => False
  | .array vs => PlainItems vs
  | .object es => PlainEntries es
  | _ => True

/-- Values like that. -/
def PlainItems : List Json → Prop
  | [] => True
  | v :: vs => Plain v ∧ PlainItems vs

/-- Values like that under keys. -/
def PlainEntries : List (String × Json) → Prop
  | [] => True
  | (_, v) :: es => Plain v ∧ PlainEntries es

end

@[simp] theorem plain_int (n : Int) : Plain (.int n) := trivial

@[simp] theorem plain_string (s : String) : Plain (.string s) := trivial

@[simp] theorem plain_array {vs : List Json} : Plain (.array vs) ↔ ∀ v ∈ vs, Plain v := by
  rw [Plain]
  induction vs with
  | nil => simp [PlainItems]
  | cons v vs ih => simp [PlainItems, ih]

@[simp] theorem plain_object {es : List (String × Json)} :
    Plain (.object es) ↔ ∀ e ∈ es, Plain e.2 := by
  rw [Plain]
  induction es with
  | nil => simp [PlainEntries]
  | cons e es ih => simp [PlainEntries, ih]

theorem blank_nil : Blank [] := nofun

theorem toList_intercalate_cons (s t : String) (ts : List String) :
    (",".intercalate (s :: t :: ts)).toList =
      s.toList ++ ',' :: (",".intercalate (t :: ts)).toList := by
  rw [String.intercalate_cons_cons]
  simp

mutual

theorem render_spells : ∀ j : Json, Plain j → Spells j (render j).toList
  | .null, _ => .nullWord
  | .bool true, _ => .trueWord
  | .bool false, _ => .falseWord
  | .int n, _ => .int n
  | .string s, _ => .string s
  | .array [], _ => .noItems blank_nil
  | .array (v :: vs), h => by
    have hitems := renderItems_spells (v :: vs) (by simp) h
    rw [render]
    simpa using Spells.array hitems
  | .object [], _ => .noEntries blank_nil
  | .object (e :: es), h => by
    have hentries := renderEntries_spells (e :: es) (by simp) h
    rw [render]
    simpa using Spells.object hentries

theorem renderItems_spells : ∀ vs : List Json, vs ≠ [] → PlainItems vs →
    SpellsItems vs (",".intercalate (renderItems vs)).toList
  | [v], _, h => by
    have hv := render_spells v h.1
    simpa [renderItems] using SpellsItems.last blank_nil hv blank_nil
  | v :: w :: vs, _, h => by
    have hv := render_spells v h.1
    have hvs := renderItems_spells (w :: vs) (by simp) h.2
    rw [renderItems, renderItems, toList_intercalate_cons, ← renderItems]
    simpa using SpellsItems.cons blank_nil hv blank_nil hvs

theorem renderEntries_spells : ∀ es : List (String × Json), es ≠ [] → PlainEntries es →
    SpellsEntries es (",".intercalate (renderEntries es)).toList
  | [(k, v)], _, h => by
    have hv := render_spells v h.1
    simpa [renderEntries] using
      SpellsEntries.last (k := k) blank_nil blank_nil blank_nil hv blank_nil
  | (k, v) :: (l, w) :: es, _, h => by
    have hv := render_spells v h.1
    have hes := renderEntries_spells ((l, w) :: es) (by simp) h.2
    rw [renderEntries, renderEntries, toList_intercalate_cons, ← renderEntries]
    simpa using SpellsEntries.cons (k := k) blank_nil blank_nil blank_nil hv blank_nil hes

end

theorem layout_render {v : Json} (h : Plain v) : Layout v (render v) :=
  ⟨[], _, [], blank_nil, render_spells v h, blank_nil, by simp⟩

/-! ## Blanks -/

theorem skipBlanks_append {a : List Char} (ha : Blank a) (cs : List Char) :
    skipBlanks (a ++ cs) = skipBlanks cs :=
  List.dropWhile_append_of_pos ha

theorem skipBlanks_cons {c : Char} (hc : isBlank c = false) (cs : List Char) :
    skipBlanks (c :: cs) = c :: cs :=
  List.dropWhile_cons_of_neg (by simp [hc])

/-! ## Texts in quotes -/

/-- How a character comes out of its text: control characters without a letter of their own are
given by their codes. -/
def pieceOf (c : Char) : Piece :=
  if c = '\n' ∨ c = '\r' ∨ c = '\t' ∨ 0x20 ≤ c.toNat then .char c else .unit c.toNat

theorem unitOf_code {n : Nat} (hn : n < 0x20) :
    unitOf ['0', '0', Hex.digit (Fin.ofNat 16 (n / 16)), Hex.digit (Fin.ofNat 16 n)] = some n := by
  revert n
  decide

theorem pieces_escape (done : List Piece) (c : Char) (rest : List Char) :
    pieces done (escape c ++ rest) = pieces (pieceOf c :: done) rest := by
  unfold escape
  split_ifs with hquote hslash hn hr ht hcode
  · subst hquote; rfl
  · subst hslash; rfl
  · subst hn; rfl
  · subst hr; rfl
  · subst ht; rfl
  · have hpiece : pieceOf c = .unit c.toNat := by
      rw [pieceOf, if_neg]
      simp only [hn, hr, ht, false_or]
      omega
    simp only [List.cons_append, List.nil_append, pieces, unitOf_code hcode, hpiece]
  · have hpiece : pieceOf c = .char c := by
      rw [pieceOf, if_pos]
      right; right; right
      omega
    rw [List.cons_append, List.nil_append, pieces, if_neg, hpiece]
    · rintro (rfl | hlt)
      · exact hslash rfl
      · exact hcode hlt
    · exact hquote
    · rintro _ _ _ _ _ rfl; exact absurd rfl hslash
    · rintro _ _ rfl; exact absurd rfl hslash

theorem pieces_flatMap_escape (cs : List Char) (done : List Piece) (rest : List Char) :
    pieces done (cs.flatMap escape ++ '"' :: rest) =
      some (done.reverse ++ cs.map pieceOf, rest) := by
  induction cs generalizing done with
  | nil => simp [pieces]
  | cons c cs ih =>
    rw [List.flatMap_cons, List.append_assoc, pieces_escape, ih]
    simp

theorem characters_unit {n : Nat} (hn : n < 0xd800) (done : List Char) (rest : List Piece) :
    characters done (.unit n :: rest) = characters (Char.ofNat n :: done) rest := by
  match rest with
  | [] | .char _ :: _ | .unit _ :: _ => simp [characters, hn]

theorem characters_map_pieceOf (cs done : List Char) :
    characters done (cs.map pieceOf) = some (done.reverse ++ cs) := by
  induction cs generalizing done with
  | nil => simp [characters]
  | cons c cs ih =>
    have hstep : characters done (pieceOf c :: cs.map pieceOf) =
        characters (c :: done) (cs.map pieceOf) := by
      unfold pieceOf
      split_ifs with hc
      · rw [characters]
      · rw [characters_unit (by omega), Char.ofNat_toNat]
    rw [List.map_cons, hstep, ih]
    simp

theorem textOf_map_pieceOf (s : String) : textOf (s.toList.map pieceOf) = some s := by
  rw [textOf, characters_map_pieceOf]
  simp

theorem pieces_quote (s : String) (rest : List Char) : ∃ cs, (quote s).toList = '"' :: cs ∧
    pieces [] (cs ++ rest) = some (s.toList.map pieceOf, rest) := by
  refine ⟨s.toList.flatMap escape ++ ['"'], by simp [quote], ?_⟩
  rw [List.append_assoc]
  exact pieces_flatMap_escape s.toList [] rest

/-! ## Numbers -/

/-- What may follow a value: nothing that would go on with a number. -/
def Ends (rest : List Char) : Prop :=
  ∀ c ∈ rest.head?, c.isDigit = false ∧ c ≠ '.' ∧ c ≠ 'e' ∧ c ≠ 'E'

theorem ends_cons {c : Char} (hc : c = ',' ∨ c = ']' ∨ c = '\x7d') (rest : List Char) :
    Ends (c :: rest) := by
  intro d hd
  obtain rfl : c = d := by simpa using hd
  rcases hc with rfl | rfl | rfl <;> decide

theorem Ends.append {b rest : List Char} (hrest : Ends rest) (hb : Blank b) :
    Ends (b ++ rest) := by
  cases b with
  | nil => exact hrest
  | cons c b =>
    intro d hd
    obtain rfl : c = d := by simpa using hd
    have hc : isBlank c = true := hb c List.mem_cons_self
    simp only [isBlank, Bool.or_eq_true, decide_eq_true_eq] at hc
    rcases hc with ((rfl | rfl) | rfl) | rfl <;> decide

theorem head?_toDigits {n : Nat} (hn : 0 < n) : (Nat.toDigits 10 n).head? ≠ some '0' := by
  induction n using Nat.strongRecOn with
  | ind n ih =>
    by_cases hlt : n < 10
    · rw [Nat.toDigits_of_lt_base hlt]
      intro hzero
      have : n.digitChar = '0' := by simpa using hzero
      interval_cases n <;> simp at this
    · rw [Nat.toDigits_of_base_le (by decide) (by omega),
        List.head?_append_of_ne_nil _ Nat.toDigits_ne_nil]
      exact ih (n / 10) (by omega) (by omega)

theorem digitsOf_append {ds rest : List Char} (hds : ∀ c ∈ ds, c.isDigit = true)
    (hrest : ∀ c ∈ rest.head?, c.isDigit = false) : digitsOf (ds ++ rest) = (ds, rest) := by
  rw [digitsOf, List.span_eq_takeWhile_dropWhile, List.takeWhile_append_of_pos hds,
    List.dropWhile_append_of_pos hds]
  cases rest with
  | nil => simp
  | cons c rest => simp [hrest c (by simp)]

theorem wholeOf_toDigits (n : Nat) {rest : List Char} (hrest : Ends rest) :
    wholeOf (Nat.toDigits 10 n ++ rest) = some (Nat.toDigits 10 n, rest) := by
  have hspan : digitsOf (Nat.toDigits 10 n ++ rest) = (Nat.toDigits 10 n, rest) :=
    digitsOf_append (fun c hc => Nat.isDigit_of_mem_toDigits (by decide) (by decide) hc)
      fun c hc => (hrest c hc).1
  rw [wholeOf, hspan]
  split
  · next hnil => exact absurd (Prod.ext_iff.1 hnil).1 Nat.toDigits_ne_nil
  · next c cs _ hzero =>
    have hdigits : Nat.toDigits 10 n = '0' :: c :: cs := (Prod.ext_iff.1 hzero).1
    have hn : n = 0 := by
      by_contra hn
      exact head?_toDigits (Nat.pos_of_ne_zero hn) (by rw [hdigits]; rfl)
    subst hn
    cases hdigits
  · rfl

theorem fractionOf_of_ends {rest : List Char} (hrest : Ends rest) :
    fractionOf rest = some ([], rest) := by
  unfold fractionOf
  split
  · exact absurd rfl (hrest '.' (by simp)).2.1
  · rfl

theorem exponentOf_of_ends {rest : List Char} (hrest : Ends rest) :
    exponentOf rest = some ([], rest) := by
  unfold exponentOf
  split
  · next c rest =>
    obtain ⟨-, -, he, hE⟩ := hrest c (by simp)
    rw [if_neg (by simp [he, hE])]
  · rfl

theorem decimalOf_toDigits (n : Nat) : decimalOf (Nat.toDigits 10 n) = n := by
  have h := Nat.ofDigitChars_ten_toDigits (n := n)
  rwa [Nat.ofDigitChars_eq_foldl] at h

theorem exists_toDigits_eq_cons (n : Nat) :
    ∃ c cs, Nat.toDigits 10 n = c :: cs ∧ c.isDigit = true := by
  obtain ⟨c, cs, hcs⟩ := List.exists_cons_of_ne_nil (Nat.toDigits_ne_nil (n := n) (b := 10))
  refine ⟨c, cs, hcs, Nat.isDigit_of_mem_toDigits (b := 10) (n := n) (by decide) (by decide) ?_⟩
  rw [hcs]
  exact List.mem_cons_self

theorem numberOf_toString (n : Int) {rest : List Char} (hrest : Ends rest) :
    numberOf ((toString n).toList ++ rest) = some (.int n, rest) := by
  have hend : fractionOf rest = some ([], rest) ∧ exponentOf rest = some ([], rest) :=
    ⟨fractionOf_of_ends hrest, exponentOf_of_ends hrest⟩
  rw [Int.toString_eq_repr]
  cases n with
  | ofNat m =>
    show numberOf (m.repr.toList ++ rest) = _
    obtain ⟨c, cs, hcs, hdigit⟩ := exists_toDigits_eq_cons m
    have hc : c ≠ '-' := by
      rintro rfl
      exact absurd hdigit (by decide)
    have hwhole := wholeOf_toDigits m hrest
    have hm := decimalOf_toDigits m
    rw [hcs] at hwhole hm
    rw [Nat.toList_repr, hcs]
    simp only [List.cons_append] at hwhole ⊢
    simp [numberOf, hc, hwhole, hend, hm]
  | negSucc m =>
    show numberOf (("-" ++ (m + 1).repr).toList ++ rest) = _
    simp [numberOf, wholeOf_toDigits, hrest, hend, decimalOf_toDigits, Int.negSucc_eq]

/-! ## Values -/

theorem value_skipBlanks (fuel : Nat) (cs : List Char) :
    value fuel (skipBlanks cs) = value fuel cs := by
  cases fuel with
  | zero => rw [value, value]
  | succ fuel => rw [value, value, skipBlanks, skipBlanks, List.dropWhile_idempotent]

theorem value_append {a : List Char} (ha : Blank a) (fuel : Nat) (cs : List Char) :
    value fuel (a ++ cs) = value fuel cs := by
  rw [← value_skipBlanks, skipBlanks_append ha, value_skipBlanks]

theorem items_skipBlanks (fuel : Nat) (done : List Json) (cs : List Char) :
    items fuel done (skipBlanks cs) = items fuel done cs := by
  cases fuel with
  | zero => rw [items, items]
  | succ fuel => rw [items, items, value_skipBlanks]

theorem entries_skipBlanks (fuel : Nat) (done : List (Option String × Json)) (cs : List Char) :
    entries fuel done (skipBlanks cs) = entries fuel done cs := by
  cases fuel with
  | zero => rw [entries, entries]
  | succ fuel => rw [entries, entries, skipBlanks, skipBlanks, List.dropWhile_idempotent]

theorem exists_toString_eq_cons (n : Int) :
    ∃ c cs, (toString n).toList = c :: cs ∧ (c = '-' ∨ c.isDigit = true) := by
  rw [Int.toString_eq_repr]
  cases n with
  | ofNat m =>
    obtain ⟨c, cs, hcs, hc⟩ := exists_toDigits_eq_cons m
    exact ⟨c, cs, Nat.toList_repr.trans hcs, Or.inr hc⟩
  | negSucc m =>
    refine ⟨'-', (m + 1).repr.toList, ?_, Or.inl rfl⟩
    show ("-" ++ (m + 1).repr).toList = _
    simp

theorem isBlank_of_number {c : Char} (hc : c = '-' ∨ c.isDigit = true) : isBlank c = false := by
  simp only [isBlank, Bool.or_eq_false_iff, decide_eq_false_iff_not]
  refine ⟨⟨⟨?_, ?_⟩, ?_⟩, ?_⟩ <;> rintro rfl <;> exact absurd hc (by decide)

/-- The first character of a value's text. -/
theorem Spells.head {v : Json} {cs : List Char} (h : Spells v cs) :
    ∃ c tail, cs = c :: tail ∧ isBlank c = false ∧ c ≠ ']' := by
  cases h with
  | int n =>
    obtain ⟨c, cs, hcs, hc⟩ := exists_toString_eq_cons n
    refine ⟨c, cs, hcs, ?_, ?_⟩
    · exact isBlank_of_number hc
    · rintro rfl
      exact absurd hc (by decide)
  | string s =>
    obtain ⟨cs, hcs, -⟩ := pieces_quote s []
    exact ⟨'"', cs, hcs, rfl, by decide⟩
  | _ => exact ⟨_, _, rfl, rfl, by decide⟩

/-- With so much fuel every text is read that is not too long for it. -/
structure Reads (fuel : Nat) : Prop where
  -- an item takes two steps, one along the list and one into the value, and has a character
  value : ∀ {v : Json} {cs rest : List Char}, Spells v cs → Ends rest → 2 * cs.length ≤ fuel →
    value fuel (cs ++ rest) = some (v, rest)
  items : ∀ {vs : List Json} {cs : List Char} (done : List Json) (rest : List Char),
    SpellsItems vs cs → 2 * cs.length < fuel →
      items fuel done (cs ++ ']' :: rest) = some (done.reverse ++ vs, rest)
  entries : ∀ {es : List (String × Json)} {cs : List Char} (done : List (Option String × Json))
    (rest : List Char), SpellsEntries es cs → 2 * cs.length < fuel →
      entries fuel done (cs ++ '\x7d' :: rest) =
        some (done.reverse ++ es.map fun e => (some e.1, e.2), rest)

theorem value_int (n : Int) (fuel : Nat) {rest : List Char} (hrest : Ends rest) :
    value (fuel + 1) ((toString n).toList ++ rest) = some (.int n, rest) := by
  obtain ⟨c, cs, hcs, hc⟩ := exists_toString_eq_cons n
  have hread := numberOf_toString n hrest
  rw [hcs, List.cons_append] at hread ⊢
  rw [value, skipBlanks_cons (isBlank_of_number hc)]
  split
  all_goals first
    | exact hread
    | next heq =>
      obtain ⟨rfl, -⟩ := List.cons.inj heq
      exact absurd hc (by decide)

theorem SpellsItems.head {vs : List Json} {cs : List Char} (h : SpellsItems vs cs)
    (rest : List Char) : ∃ c tail, skipBlanks (cs ++ rest) = c :: tail ∧ c ≠ ']' := by
  cases h with
  | last ha hv _ | cons ha hv _ _ =>
    obtain ⟨c, tail, rfl, hblank, hc⟩ := hv.head
    rw [List.append_assoc, skipBlanks_append ha, List.append_assoc, List.cons_append,
      skipBlanks_cons hblank]
    exact ⟨c, _, rfl, hc⟩

theorem skipBlanks_quote (s : String) (rest : List Char) :
    ∃ tail, skipBlanks ((quote s).toList ++ rest) = '"' :: tail := by
  obtain ⟨cs, hcs, -⟩ := pieces_quote s rest
  exact ⟨cs ++ rest, by rw [hcs, List.cons_append, skipBlanks_cons rfl]⟩

theorem SpellsEntries.head {es : List (String × Json)} {cs : List Char} (h : SpellsEntries es cs)
    (rest : List Char) : ∃ tail, skipBlanks (cs ++ rest) = '"' :: tail := by
  cases h with
  | last ha _ _ _ _ | cons ha _ _ _ _ _ =>
    rw [List.append_assoc, skipBlanks_append ha, List.append_assoc]
    exact skipBlanks_quote _ _

theorem objectOf_some (es : List (String × Json)) :
    objectOf (es.map fun e => (some e.1, e.2)) = .object es := by
  have h : (es.map fun e => (some e.1, e.2)).mapM (fun e : Option String × Json =>
      e.1.map fun k => (k, e.2)) = some es := mapM_map_self fun _ _ => rfl
  rw [objectOf, h]

theorem value_step {fuel : Nat} (h : Reads fuel) {v : Json} {cs rest : List Char}
    (hv : Spells v cs) (hrest : Ends rest) (hfuel : 2 * cs.length ≤ fuel + 1) :
    value (fuel + 1) (cs ++ rest) = some (v, rest) := by
  cases hv with
  | nullWord | trueWord | falseWord => simp [value, skipBlanks, isBlank, afterWord]
  | int n => exact value_int n fuel hrest
  | string s =>
    obtain ⟨cs, hcs, hpieces⟩ := pieces_quote s rest
    rw [hcs, List.cons_append, value, skipBlanks_cons rfl]
    simp only [hpieces, Option.map_some, textOf_map_pieceOf, Option.elim]
  | noItems hb =>
    rw [List.cons_append, value, skipBlanks_cons rfl]
    simp only [List.append_assoc, skipBlanks_append hb, List.cons_append, List.nil_append]
    rw [skipBlanks_cons rfl]
    rfl
  | array hvs =>
    next vs cs =>
    have hitems : items fuel [] (cs ++ ']' :: rest) = some (vs, rest) := by
      rw [h.items [] rest hvs (by simp at hfuel; omega)]
      rfl
    obtain ⟨c, tail, hskip, hc⟩ := hvs.head (']' :: rest)
    rw [List.cons_append, value, skipBlanks_cons rfl, List.append_assoc]
    rw [← items_skipBlanks] at hitems
    simp only [List.cons_append, List.nil_append]
    rw [hskip] at hitems ⊢
    split
    · next heq => exact absurd (List.cons.inj heq).1 hc
    · rw [hitems]
      rfl
  | noEntries hb =>
    rw [List.cons_append, value, skipBlanks_cons rfl]
    simp only [List.append_assoc, skipBlanks_append hb, List.cons_append, List.nil_append]
    rw [skipBlanks_cons rfl]
    rfl
  | object hes =>
    next es cs =>
    have hentries : entries fuel [] (cs ++ '\x7d' :: rest) =
        some (es.map fun e => (some e.1, e.2), rest) := by
      rw [h.entries [] rest hes (by simp at hfuel; omega)]
      rfl
    obtain ⟨tail, hskip⟩ := hes.head ('\x7d' :: rest)
    rw [List.cons_append, value, skipBlanks_cons rfl, List.append_assoc]
    rw [← entries_skipBlanks] at hentries
    simp only [List.cons_append, List.nil_append]
    rw [hskip] at hentries ⊢
    split
    · next heq => exact absurd (List.cons.inj heq).1 (by decide)
    · rw [hentries]
      exact congrArg some (Prod.ext (objectOf_some es) rfl)

/-- One value of an array, and what its end leads to. -/
theorem items_first {fuel : Nat} (h : Reads fuel) {v : Json} {a cs b : List Char} (ha : Blank a)
    (hv : Spells v cs) (hb : Blank b) (hfuel : 2 * cs.length ≤ fuel) {c : Char}
    (hc : c = ',' ∨ c = ']') (done : List Json) (rest : List Char) :
    items (fuel + 1) done (a ++ (cs ++ (b ++ c :: rest))) =
      if c = ',' then items fuel (v :: done) rest else some (done.reverse ++ [v], rest) := by
  have hends : Ends (c :: rest) := ends_cons (hc.imp_right Or.inl) rest
  have hvalue : value fuel (a ++ (cs ++ (b ++ c :: rest))) = some (v, b ++ c :: rest) := by
    rw [value_append ha]
    exact h.value hv (hends.append hb) hfuel
  rw [items, hvalue]
  rcases hc with rfl | rfl
  · simp only [skipBlanks_append hb, skipBlanks_cons (c := ',') rfl, if_pos]
  · simp only [skipBlanks_append hb, skipBlanks_cons (c := ']') rfl, List.reverse_cons]
    rfl

theorem items_step {fuel : Nat} (h : Reads fuel) {vs : List Json} {cs : List Char}
    (done : List Json) (rest : List Char) (hvs : SpellsItems vs cs)
    (hfuel : 2 * cs.length < fuel + 1) :
    items (fuel + 1) done (cs ++ ']' :: rest) = some (done.reverse ++ vs, rest) := by
  cases hvs with
  | last ha hv hb =>
    have hfirst := items_first h ha hv hb (by simp at hfuel; omega) (Or.inr rfl) done rest
    simpa using hfirst
  | cons ha hv hb hvs =>
    next v vs a cs b more =>
    have hfirst := items_first h ha hv hb (by simp at hfuel; omega) (Or.inl rfl) done
      (more ++ ']' :: rest)
    have hmore := h.items (v :: done) rest hvs (by simp at hfuel; omega)
    simpa [hmore] using hfirst

/-- One key of an object with its value, and what its end leads to. -/
theorem entries_first {fuel : Nat} (h : Reads fuel) {k : String} {v : Json} {a b c cs d : List Char}
    (ha : Blank a) (hb : Blank b) (hc : Blank c) (hv : Spells v cs) (hd : Blank d)
    (hfuel : 2 * cs.length ≤ fuel) {x : Char} (hx : x = ',' ∨ x = '\x7d')
    (done : List (Option String × Json)) (rest : List Char) :
    entries (fuel + 1) done
        (a ++ ((quote k).toList ++ (b ++ ':' :: (c ++ (cs ++ (d ++ x :: rest)))))) =
      if x = ',' then entries fuel ((some k, v) :: done) rest
      else some (done.reverse ++ [(some k, v)], rest) := by
  have hends : Ends (x :: rest) := ends_cons (hx.imp_right Or.inr) rest
  have hvalue : value fuel (c ++ (cs ++ (d ++ x :: rest))) = some (v, d ++ x :: rest) := by
    rw [value_append hc]
    exact h.value hv (hends.append hd) hfuel
  obtain ⟨tail, hquote, hpieces⟩ := pieces_quote k (b ++ ':' :: (c ++ (cs ++ (d ++ x :: rest))))
  rw [entries]
  simp only [List.cons_append, skipBlanks_append ha, hquote, skipBlanks_cons (c := '"') rfl,
    hpieces, skipBlanks_append hb, skipBlanks_cons (c := ':') rfl, hvalue, skipBlanks_append hd,
    textOf_map_pieceOf]
  rcases hx with rfl | rfl
  · simp only [skipBlanks_cons (c := ',') rfl, if_pos]
  · simp only [skipBlanks_cons (c := '\x7d') rfl, List.reverse_cons]
    rfl

theorem entries_step {fuel : Nat} (h : Reads fuel) {es : List (String × Json)} {cs : List Char}
    (done : List (Option String × Json)) (rest : List Char) (hes : SpellsEntries es cs)
    (hfuel : 2 * cs.length < fuel + 1) :
    entries (fuel + 1) done (cs ++ '\x7d' :: rest) =
      some (done.reverse ++ es.map fun e => (some e.1, e.2), rest) := by
  cases hes with
  | last ha hb hc hv hd =>
    next k v a b c cs d =>
    have hfirst := entries_first (k := k) h ha hb hc hv hd (by simp at hfuel; omega) (Or.inr rfl)
      done rest
    simpa using hfirst
  | cons ha hb hc hv hd hes =>
    next k v es a b c cs d more =>
    have hfirst := entries_first (k := k) h ha hb hc hv hd (by simp at hfuel; omega) (Or.inl rfl)
      done (more ++ '\x7d' :: rest)
    have hmore := h.entries ((some k, v) :: done) rest hes (by simp at hfuel; omega)
    simpa [hmore] using hfirst

theorem reads (fuel : Nat) : Reads fuel := by
  induction fuel with
  | zero =>
    refine ⟨fun hv _ hfuel => ?_, fun _ _ _ hfuel => absurd hfuel (Nat.not_lt_zero _),
      fun _ _ _ hfuel => absurd hfuel (Nat.not_lt_zero _)⟩
    obtain ⟨c, tail, rfl, -⟩ := hv.head
    simp at hfuel
  | succ fuel ih => exact ⟨value_step ih, items_step ih, entries_step ih⟩

/-- Every text of a value is read as the value. -/
theorem parse_of_layout {v : Json} {s : String} (h : Layout v s) : parse s = some v := by
  obtain ⟨a, cs, b, ha, hv, hb, hs⟩ := h
  have hends : Ends b := by
    have hnil : Ends [] := nofun
    simpa using hnil.append hb
  have hvalue : value (2 * (a ++ (cs ++ b)).length + 2) (a ++ (cs ++ b)) = some (v, b) := by
    rw [value_append ha]
    exact (reads _).value hv hends (by simp only [List.length_append]; omega)
  have hskip : skipBlanks b = [] := List.dropWhile_eq_nil_iff.2 hb
  simp only [parse, hs, hvalue, hskip]
  rfl

end Stateless.Json
