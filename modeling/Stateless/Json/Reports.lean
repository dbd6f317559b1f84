import Stateless.Json.Errors
import Stateless.Json.Shorthand
import Stateless.Json.States
import Stateless.NodeSet.Merged

/-!
# Reports

Short JSON forms of results: of larger things their sizes, of nodes their places and hashes.
-/

namespace Stateless.Json

/-- A value that need not be there. -/
def orNull {α : Type} (write : α → Json) (a : Option α) : Json := a.elim null write

/-- The number of items of a list. -/
def lengthOf {α : Type} (items : List α) : Json := nat items.length

/-- Values by their keys. -/
def leafPairs (leaves : List (Path × Bytes)) : Json :=
  array (leaves.map fun (key, v) => array [path key, hexBytes v])

/-- A node set without the encodings of its nodes. -/
def nodeSetReport (s : NodeSet) : Json :=
  object [("owner", string s.owner.text),
    ("nodes", array (s.nodes.entries.map fun (p, n) =>
      array [path p, fixed n.hash, lengthOf n.blob])),
    ("leaves", leafPairs s.leaves.entries)]

/-- The sizes of merged node sets. -/
def mergedReport (m : MergedNodeSet) : Json :=
  array (m.sets.values.map fun s =>
    array [string s.owner.text, nat s.nodes.size, nat s.leaves.size])

/-- An access list with its sizes. -/
def accessListReport (l : AccessList) : Json :=
  object [("json", accessList l),
    ("sizes", array (l.toList.map fun (a, slots) => array [fixed a, lengthOf slots])),
    ("len", nat l.size), ("slots", nat l.slotCount), ("empty", bool (l.size == 0))]

/-- The sizes of a prepared block. -/
def preparedReport (p : PreparedBlock) : Json :=
  array [nat p.chainId.toNat, lengthOf p.preProofs, lengthOf p.postProofs]

/-- What a quantity is in each of the types that it may fit in. -/
def quantityReport (q : Quantity) : Json :=
  object [("text", string q.text), ("json", quantity q),
    ("u64", orNull (fun n => decimalText n.toNat) q.toUInt64?),
    ("u256", orNull (fun n => decimalText n.toNat) q.toAmount?),
    ("word", orNull fixed q.toWord?), ("zero", bool (q = .zero))]

variable [Hasher]

/-- A node with its encoding and its hash. -/
def nodeReport (t : Trie) : Json :=
  object [("node", outline t), ("encoded", orNull hexBytes t.encoding?),
    ("root", fixed t.rootHash), ("short", bool t.isShort), ("type", string t.kind.text)]

/-- An account with its encoding. -/
def accountReport (a : Account) : Json :=
  object [("account", account a), ("empty", bool a.isEmpty), ("rlp", hexBytes a.encode),
    ("round_trip", bool ((Account.decode a.encode).toOption = some a))]

/-- The proof of an account with what is claimed in it. -/
def accountProofReport (p : AccountProof) : Json :=
  object [("proof", accountProof p),
    ("account", ofExcept (fun a => object [("account", account a), ("empty", bool a.isEmpty)])
      p.account),
    ("slots", array (p.slots.map fixed)),
    ("words", array (p.storageProof.map fun s => orNull fixed s.word?))]

/-- What a verification reports, and its result or its failure. -/
def verificationReport [ErrorForm Fault] (v : Verification) : Json :=
  let visited := array (v.visited.map fun n =>
    array [path n.path, fixed n.digest, lengthOf n.blob])
  let reports := [("visited", visited), ("leaf", leafPairs v.leaf.toList)]
  match v.outcome with
  | .ok p => object ([("value", orNull hexBytes p.value), ("inclusion", bool p.isInclusion),
      ("matched", path p.matched), ("last", outline p.last)] ++ reports)
  | .error e => object (ErrorForm.fields e ++ reports)

end Stateless.Json
