import Stateless.Trie.Basic

/-!
# Reading and changing tries

Lookup, insertion and removal follow the key from the root. A part that is hidden cannot be entered:
the operation then fails and names the hidden hash. Removal undoes the splits of insertion: a branch
left with a single occupant turns into the occupant, and neighbouring fragments are joined. A hidden
sibling cannot be inspected, so it is kept behind an extension as if it were a branch.

Every change forgets the memos of the nodes on its way, and that of the root even when it fails.
-/

namespace Stateless

/-- Why a trie refuses an operation. -/
inductive TrieError where
  /-- An insertion would have to enter a hidden part. -/
  | insertHidden (digest : Word)
  /-- A removal would have to enter a hidden part. -/
  | removeHidden (digest : Word)
  /-- A lookup would have to enter a hidden part. -/
  | readHidden (digest : Word)
  /-- An extension is left without anything below it. -/
  | nothingBelow
  /-- A hidden part was to be placed where a value lives. -/
  | occupied (digest : Word)
  deriving DecidableEq

/-- The text of a refusal. -/
def TrieError.message : TrieError → String
  | insertHidden h => "Found a `Hash` node during an insert in a `PartialTrie`! "
      ++ "These should not be able to be traversed during an insert! (hash: " ++ h.hex ++ ")"
  | removeHidden h =>
    "Attempted to delete a value that ended up inside a hash node! (hash: " ++ h.hex ++ ")"
  | readHidden h =>
    "Attempted to read a value whose path goes through a hash node! (hash: " ++ h.hex ++ ")"
  | nothingBelow => "Extension managed to get a child node type that is impossible! (child: "
      ++ Trie.Kind.text .empty ++ ")"
  | occupied h => "Attempted to place a hash node on an existing node! (hash: " ++ h.hex ++ ")"

/-- What can be inserted under a key. -/
inductive Entry where
  /-- A value. -/
  | value (bytes : Bytes)
  /-- A part of the trie that is known by its hash only. -/
  | hidden (digest : Word)
  deriving DecidableEq

/-- The text of an entry. -/
def Entry.text : Entry → String
  | value b => "Val(" ++ Hex.marked b ++ ")"
  | hidden h => "Hash(" ++ h.hex ++ ")"

namespace Trie

/-! ## Lookup -/

/-- The value under a key; `error` carries the hidden hash that the way runs into. -/
def lookup : Trie → Path → Except Word (Option Bytes)
  | .empty, _ => .ok none
  | .hidden h, _ => .error h
  | .leaf f v _, k => .ok (if f = k then some v else none)
  | .extension f c _, k =>
    if k.startsWith f then lookup c (k.drop f.length) else .ok none
  | .branch cs v _, k =>
    match k.uncons with
    | none => .ok (if v.isEmpty then none else some v)
    | some (d, rest) => lookup (cs d) rest

/-- The value under a key as far as it is known; a hidden key has none. -/
def get (t : Trie) (k : Path) : Option Bytes :=
  match t.lookup k with
  | .ok r => r
  | .error _ => none

/-- The value under a key, or a refusal if it is hidden whether there is one. -/
def getProven (t : Trie) (k : Path) : Except TrieError (Option Bytes) :=
  match t.lookup k with
  | .ok r => .ok r
  | .error h => .error (.readHidden h)

/-! ## Insertion -/

/-- The smallest trie with an entry under a key. -/
def plant (k : Path) : Entry → Trie
  | .value v => .leaf k v none
  | .hidden h => if k.isEmpty then .hidden h else .extension k (.hidden h) none

/-- A trie behind a run of nibbles, or the trie itself if there are none. -/
def behind (f : Path) (t : Trie) : Trie := if f.isEmpty then t else .extension f t none

/-- The value that an entry puts into a branch, where nothing can be hidden. -/
def valueOf : Entry → Except TrieError Bytes
  | .value v => .ok v
  | .hidden h => .error (.occupied h)

/-- A branch's children of which only one holds something. -/
def only (d : Nibble) (t : Trie) : Row Trie := Children.set noChildren d t

/-- The trie with an entry under a key. -/
def insert : Trie → Path → Entry → Except TrieError Trie
  | .empty, k, e => .ok (plant k e)
  | .hidden h, _, _ => .error (.insertHidden h)
  | .branch cs v _, k, e =>
    match k.uncons with
    | none => do return .branch cs (← valueOf e) none
    | some (d, rest) => do return fork (Children.set cs d (← insert (cs d) rest e)) v
  | .extension f c _, k, e =>
    let m := f.meet k
    match m.left.uncons, m.right.uncons with
    | none, _ => do return .extension f (← insert c m.right e) none
    | some (d, below), none => do
      return behind m.common (fork (only d (behind below c)) (← valueOf e))
    | some (d, below), some (d', rest) =>
      .ok (behind m.common (fork (Children.set (only d (behind below c)).get d' (plant rest e)) []))
  | .leaf f v _, k, e =>
    let m := f.meet k
    match m.left.uncons, m.right.uncons with
    | none, none => do return .leaf f (← valueOf e) none
    | none, some (d, rest) => .ok (behind m.common (fork (only d (plant rest e)) v))
    | some (d, below), none => do
      return behind m.common (fork (only d (.leaf below v none)) (← valueOf e))
    | some (d, below), some (d', rest) =>
      .ok (behind m.common (fork (Children.set (only d (.leaf below v none)).get d' (plant rest e)) []))

/-! ## Removal -/

/-- A trie behind a run of nibbles that is joined with the fragments below it. A branch is wrapped
anew and forgets its hash. -/
def join (f : Path) : Trie → Attempt TrieError Trie
  | .empty => .error (.error .nothingBelow)
  | .hidden h => .ok (.extension f (.hidden h) none)
  | .branch cs v _ => .ok (.extension f (.branch cs v none) none)
  | .extension g c _ =>
    match f.append g with
    | .ok fg => join fg c
    | .error b => .error (.fault b)
  | .leaf g v _ =>
    match f.append g with
    | .ok fg => .ok (.leaf fg v none)
    | .error b => .error (.fault b)

/-- An extension joined with the fragments below it; any other trie as it is. -/
def settle (t : Trie) : Attempt TrieError Trie :=
  match t with
  | .extension f c _ => join f c
  | _ => .ok t

/-- What is left of a branch whose child under `d` has become `child`. -/
def shrink (cs : Nibble → Trie) (v : Bytes) (d : Nibble) (child : Trie) :
    Attempt TrieError Trie :=
  let others := Children.positions fun i => i ≠ d && !(cs i).isEmpty
  match child.isEmpty, others, v.isEmpty with
  | true, [], true => .ok .empty
  | true, [], false => .ok (.leaf .empty v none)
  | true, [i], true => .ok (.extension (.single i) (cs i) none)
  | _, _, _ => do return fork (Children.set cs d (← settle child)) v

/-- What is left of a branch that loses its value. -/
def unvalue (cs : Nibble → Trie) : Trie :=
  match Children.positions fun i => !(cs i).isEmpty with
  | [i] => .extension (.single i) (cs i) none
  | _ => .branch cs [] none

/-- The trie without a key, and the key's value; `none` if the key has no value. An extension at
the root of the result may still have to be joined with what is below it. -/
def detach : Trie → Path → Attempt TrieError (Option (Trie × Bytes))
  | .empty, _ => .ok none
  | .hidden h, _ => .error (.error (.removeHidden h))
  | .leaf f v _, k => .ok (if f = k then some (.empty, v) else none)
  | .extension f c _, k =>
    if k.startsWith f then do
      match ← detach c (k.drop f.length) with
      | none => return none
      | some (c', v) => return some (← join f c', v)
    else .ok none
  | .branch cs v _, k =>
    match k.uncons with
    | none => .ok (if v.isEmpty then none else some (unvalue cs, v))
    | some (d, rest) => do
      match ← detach (cs d) rest with
      | none => return none
      | some (c', w) => return some (← shrink cs v d c', w)

/-! ## Changes -/

/-- Sets the value under a key, or hides what is there. A refused change only costs the memo of the
root. -/
def put (t : Trie) (k : Path) (e : Entry) : Except TrieError Unit × Trie :=
  match t.insert k e with
  | .ok t' => (.ok (), t')
  | .error r => (.error r, t.forgetRoot)

/-- Sets several entries in turn, up to the first refusal. -/
def putAll (t : Trie) : List (Path × Entry) → Except TrieError Unit × Trie
  | [] => (.ok (), t.forgetRoot)
  | (k, e) :: rest =>
    match t.put k e with
    | (.ok (), t') => putAll t' rest
    | (.error r, t') => (.error r, t')

/-- The trie with the given entries. -/
def ofEntries (entries : List (Path × Entry)) : Except TrieError Trie :=
  match putAll .empty entries with
  | (.ok (), t) => .ok t
  | (.error r, _) => .error r

/-- Removes a key and answers its value. -/
def remove (t : Trie) (k : Path) : Attempt TrieError (Option Bytes) × Trie :=
  match t.detach k with
  | .error r => (.error r, t.forgetRoot)
  | .ok none => (.ok none, t.forgetRoot)
  | .ok (some (t', v)) =>
    match settle t' with
    | .error r => (.error r, t.forgetRoot)
    | .ok t'' => (.ok (some v), t'')

/-- The trie of some values under keys. Inserting a value is only refused by a hidden part, and
there is none. -/
def ofValues (values : List (Path × Bytes)) : Trie :=
  values.foldl (fun t e => (t.put e.1 (.value e.2)).2) .empty

end Trie

end Stateless
