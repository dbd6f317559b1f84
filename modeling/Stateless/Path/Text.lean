import Stateless.Path.Basic
import Stateless.Text.Visible

/-!
# The text of a path

A path is written as `0x` and one lower-case digit per nibble, and read with or without the `0x`
and in either case. Leading zeroes count. The main statement is `Path.parse_toText`.
-/

namespace Stateless.Path

/-- Why a text is no path. -/
inductive TextError where
  /-- A character is no hexadecimal digit. -/
  | badCharacter (c : Char)
  /-- The digits take more than 64 bytes. -/
  | tooLong (length : Nat)
  deriving DecidableEq, Repr

/-- A character in single quotes. Quotes, backslashes and the common control characters are
escaped, and a character that shows nothing is given by its code. -/
def quoted (c : Char) : String :=
  let body : List Char :=
    if c = '\'' then ['\\', '\'']
    else if c = '\\' then ['\\', '\\']
    else if c = '\n' then ['\\', 'n']
    else if c = '\r' then ['\\', 'r']
    else if c = '\t' then ['\\', 't']
    else if c.toNat = 0 then ['\\', '0']
    else if Text.isVisible c then [c]
    else ['\\', 'u', '\x7b'] ++ Nat.toDigits 16 c.toNat ++ ['\x7d']
  String.ofList ('\'' :: body ++ ['\''])

/-- The text of a refusal. -/
def TextError.message : TextError → String
  | badCharacter c => "Invalid hex character " ++ quoted c ++ " in nibble string"
  | tooLong n => s!"Nibble string is longer than 64 nibbles (len: {n})"

/-- The number of bytes of a text in UTF-8. -/
def utf8Length : List Char → Nat
  | [] => 0
  | c :: rest => c.utf8Size + utf8Length rest

/-- The nibbles of digits, or the first character that is none. -/
def readDigits : List Char → Except TextError (List Nibble)
  | [] => .ok []
  | c :: rest =>
    match Hex.digit? c with
    | none => .error (.badCharacter c)
    | some d => (readDigits rest).map (d :: ·)

theorem length_le_utf8Length (cs : List Char) : cs.length ≤ utf8Length cs := by
  induction cs with
  | nil => simp
  | cons c cs ih =>
    have := c.utf8Size_pos
    simp only [utf8Length, List.length_cons] at ih ⊢
    omega

theorem length_readDigits {cs : List Char} {ds : List Nibble} (h : readDigits cs = .ok ds) :
    ds.length = cs.length := by
  induction cs generalizing ds with
  | nil => simp [readDigits] at h; simp [← h]
  | cons c cs ih =>
    simp only [readDigits] at h
    split at h
    · simp at h
    · cases hr : readDigits cs with
      | error e => simp [hr, Except.map] at h
      | ok rs =>
        simp only [hr, Except.map, Except.ok.injEq] at h
        simp [← h, ih hr]

/-- Reads a path. The length is checked before the characters. -/
def parse (s : String) : Except TextError Path :=
  let digits := Hex.afterMark s.toList
  if hn : utf8Length digits ≤ maxNibbles then
    match h : readDigits digits with
    | .ok ds => .ok ⟨ds, by
        have := length_readDigits h
        have := length_le_utf8Length digits
        omega⟩
    | .error e => .error e
  else .error (.tooLong (utf8Length digits))

/-- The digits of a path. -/
def digits (p : Path) : List Char := p.toList.map Hex.digit

/-- The text of a path. -/
def toText (p : Path) : String := String.ofList ('0' :: 'x' :: p.digits)

/-- The text of a path with its length beside it. -/
def describe (p : Path) : String :=
  "Nibbles \x7b count: " ++ toString p.length ++ ", nibbles: \"" ++ p.toText ++ "\" \x7d"

theorem readDigits_map_digit (ds : List Nibble) : readDigits (ds.map Hex.digit) = .ok ds := by
  induction ds with
  | nil => rfl
  | cons d ds ih => simp [readDigits, Hex.digit?_digit, ih, Except.map]

theorem utf8Length_map_digit (ds : List Nibble) : utf8Length (ds.map Hex.digit) = ds.length := by
  have h : ∀ d : Nibble, (Hex.digit d).utf8Size = 1 := by decide
  induction ds with
  | nil => rfl
  | cons d ds ih =>
    simp only [utf8Length, List.map_cons, List.length_cons, h] at ih ⊢
    omega

theorem afterMark_toText (p : Path) : Hex.afterMark p.toText.toList = p.digits := by
  simp [toText, Hex.afterMark]

theorem parse_toText (p : Path) : parse p.toText = .ok p := by
  have hle : utf8Length p.digits ≤ maxNibbles := by
    rw [digits, utf8Length_map_digit]; exact p.length_le
  have hread : readDigits (Hex.afterMark p.toText.toList) = .ok p.toList := by
    rw [afterMark_toText]; exact readDigits_map_digit p.toList
  simp only [parse, afterMark_toText, dif_pos hle]
  split
  · next ds h => exact congrArg Except.ok (ext (Except.ok.inj (h.symm.trans hread)))
  · next e h => cases h.symm.trans hread

end Stateless.Path
