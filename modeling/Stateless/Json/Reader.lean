import Stateless.Hex
import Stateless.Json.Value

/-!
# Reading JSON text

A reader for whole texts: one value with nothing but blanks around it.
-/

namespace Stateless.Json

/-- Whether a character may stand between values. -/
def isBlank (c : Char) : Bool := c = ' ' || c = '\n' || c = '\r' || c = '\t'

/-- The text after the blanks in front. -/
def skipBlanks (cs : List Char) : List Char := cs.dropWhile isBlank

/-! ## Texts -/

/-- A part of a text: a character, or a 16-bit unit given by its code. -/
inductive Piece where
  | char (c : Char)
  | unit (n : Nat)

/-- The character that a letter after a backslash stands for. -/
def escaped? : Char → Option Char
  | '"' => some '"'
  | '\\' => some '\\'
  | '/' => some '/'
  | 'b' => some '\x08'
  | 'f' => some '\x0c'
  | 'n' => some '\n'
  | 'r' => some '\r'
  | 't' => some '\t'
  | _ => none

/-- The number that four hexadecimal digits stand for. -/
def unitOf (cs : List Char) : Option Nat :=
  (Hex.digits? cs).map fun ds => ds.foldl (fun n d => 16 * n + d.val) 0

/-- The pieces of a text up to its closing quote, in front of those read so far in reverse, and what
follows the quote. -/
def pieces (done : List Piece) : List Char → Option (List Piece × List Char)
  | '"' :: rest => some (done.reverse, rest)
  | '\\' :: 'u' :: a :: b :: c :: d :: rest =>
    match unitOf [a, b, c, d] with
    | some n => pieces (.unit n :: done) rest
    | none => none
  | '\\' :: c :: rest =>
    match escaped? c with
    | some e => pieces (.char e :: done) rest
    | none => none
  | c :: rest => if c = '\\' ∨ c.toNat < 0x20 then none else pieces (.char c :: done) rest
  | [] => none

/-- The characters of pieces, in front of those made so far in reverse; a unit that is half of a
pair has to meet its other half. -/
def characters (done : List Char) : List Piece → Option (List Char)
  | [] => some done.reverse
  | .char c :: rest => characters (c :: done) rest
  | .unit n :: rest =>
    if n < 0xd800 ∨ 0xe000 ≤ n then characters (Char.ofNat n :: done) rest
    else
      match rest with
      | .unit l :: rest =>
        if n < 0xdc00 ∧ 0xdc00 ≤ l ∧ l < 0xe000 then
          characters (Char.ofNat (0x10000 + (n - 0xd800) * 0x400 + (l - 0xdc00)) :: done) rest
        else none
      | _ => none

/-- The text of pieces; none if a surrogate is unpaired. -/
def textOf (ps : List Piece) : Option String := (characters [] ps).map String.ofList

/-! ## Numbers -/

/-- The digits in front and the rest. -/
def digitsOf (cs : List Char) : List Char × List Char := cs.span Char.isDigit

/-- The digits of a whole number: zero alone or digits that do not start with one. -/
def wholeOf (cs : List Char) : Option (List Char × List Char) :=
  match digitsOf cs with
  | ([], _) => none
  | ('0' :: _ :: _, _) => none
  | r => some r

/-- A point with digits after it, if there is one. -/
def fractionOf : List Char → Option (List Char × List Char)
  | '.' :: rest =>
    match digitsOf rest with
    | ([], _) => none
    | (ds, rest) => some ('.' :: ds, rest)
  | cs => some ([], cs)

/-- The sign in front, if there is one. -/
def signOf : List Char → List Char × List Char
  | '+' :: rest => (['+'], rest)
  | '-' :: rest => (['-'], rest)
  | cs => ([], cs)

/-- An exponent, if there is one. -/
def exponentOf : List Char → Option (List Char × List Char)
  | c :: rest =>
    if c = 'e' ∨ c = 'E' then
      let (sign, rest) := signOf rest
      match digitsOf rest with
      | ([], _) => none
      | (ds, rest) => some (c :: sign ++ ds, rest)
    else some ([], c :: rest)
  | [] => some ([], [])

/-- The number that decimal digits stand for. -/
def decimalOf (ds : List Char) : Nat := ds.foldl (fun n d => 10 * n + (d.toNat - '0'.toNat)) 0

/-- A number. A negative zero is no whole number. -/
def numberOf (cs : List Char) : Option (Json × List Char) := do
  let (negative, unsigned) := match cs with
    | '-' :: rest => (true, rest)
    | cs => (false, cs)
  let (whole, rest) ← wholeOf unsigned
  let (fraction, rest) ← fractionOf rest
  let (exponent, rest) ← exponentOf rest
  let n := decimalOf whole
  if fraction.isEmpty && exponent.isEmpty && !(negative && n = 0) then
    return (.int (if negative then -(n : Int) else n), rest)
  else
    let sign := if negative then ['-'] else []
    return (.decimal (String.ofList (sign ++ whole ++ fraction ++ exponent)), rest)

/-! ## Values -/

/-- The text after a word that is expected in front. -/
def afterWord (word : List Char) (cs : List Char) : Option (List Char) :=
  if word.isPrefixOf cs then some (cs.drop word.length) else none

/-- An object of entries, if all keys are texts. -/
def objectOf (entries : List (Option String × Json)) : Json :=
  match entries.mapM fun e => e.1.map fun k => (k, e.2) with
  | some entries => .object entries
  | none => .unreadable

mutual

/-- A value in front of the text, with a bound on the steps. -/
def value : (fuel : Nat) → List Char → Option (Json × List Char)
  | 0, _ => none
  | fuel + 1, cs =>
    match skipBlanks cs with
    | 'n' :: rest => (afterWord ['u', 'l', 'l'] rest).map fun r => (.null, r)
    | 't' :: rest => (afterWord ['r', 'u', 'e'] rest).map fun r => (.bool true, r)
    | 'f' :: rest => (afterWord ['a', 'l', 's', 'e'] rest).map fun r => (.bool false, r)
    | '"' :: rest =>
      (pieces [] rest).map fun (ps, r) => ((textOf ps).elim .unreadable .string, r)
    | '[' :: rest =>
      match skipBlanks rest with
      | ']' :: r => some (.array [], r)
      | rest => (items fuel [] rest).map fun (vs, r) => (.array vs, r)
    | '\x7b' :: rest =>
      match skipBlanks rest with
      | '\x7d' :: r => some (.object [], r)
      | rest => (entries fuel [] rest).map fun (es, r) => (objectOf es, r)
    | cs => numberOf cs

/-- The values up to a closing bracket, after those read so far in reverse. -/
def items : (fuel : Nat) → List Json → List Char → Option (List Json × List Char)
  | 0, _, _ => none
  | fuel + 1, done, cs =>
    match value fuel cs with
    | none => none
    | some (v, rest) =>
      match skipBlanks rest with
      | ',' :: rest => items fuel (v :: done) rest
      | ']' :: rest => some ((v :: done).reverse, rest)
      | _ => none

/-- The keys and values up to a closing brace, after those read so far in reverse. -/
def entries : (fuel : Nat) → List (Option String × Json) → List Char →
    Option (List (Option String × Json) × List Char)
  | 0, _, _ => none
  | fuel + 1, done, cs =>
    match skipBlanks cs with
    | '"' :: rest =>
      match pieces [] rest with
      | none => none
      | some (ps, rest) =>
        match skipBlanks rest with
        | ':' :: rest =>
          match value fuel rest with
          | none => none
          | some (v, rest) =>
            match skipBlanks rest with
            | ',' :: rest => entries fuel ((textOf ps, v) :: done) rest
            | '\x7d' :: rest => some (((textOf ps, v) :: done).reverse, rest)
            | _ => none
        | _ => none
    | _ => none

end

/-- The value of a text. -/
def parse (text : String) : Option Json :=
  let cs := text.toList
  match value (2 * cs.length + 2) cs with
  | some (v, rest) => if (skipBlanks rest).isEmpty then some v else none
  | none => none

end Stateless.Json
