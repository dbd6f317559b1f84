import Stateless.Json.Form
import Stateless.State.Prepared

/-!
# The JSON forms of accounts, proofs and blocks

Names of fields are written in camel case. Quantities are texts of any number of digits; numbers of
64 bits are numbers.
-/

namespace Stateless.Json

/-- An account. -/
def account (a : Account) : Json :=
  object [("nonce", nat a.nonce.toNat), ("balance", amount a.balance),
    ("storageRoot", fixed a.storageRoot), ("codeHash", fixed a.codeHash)]

/-- Reads an account. -/
def account? (j : Json) : Option Account := do
  let [some nonce, some balance, some root, some code] ←
    fields? ["nonce", "balance", "storageRoot", "codeHash"] j | none
  return ⟨← uint64? nonce, ← amount? balance, ← word? root, ← word? code⟩

/-- A quantity. -/
def quantity (q : Quantity) : Json := string q.text

/-- Reads a quantity. -/
def quantity? (j : Json) : Option Quantity := (text? j).bind Quantity.parse?

/-- The proof of a slot. -/
def storageProof (p : StorageProof) : Json :=
  object [("key", fixed p.key), ("value", quantity p.value), ("proof", array (p.proof.map hexBytes))]

/-- Reads the proof of a slot. The slot may be written without its leading zeroes. -/
def storageProof? (j : Json) : Option StorageProof := do
  let [some key, some value, some proof] ← fields? ["key", "value", "proof"] j | none
  return ⟨← (text? key).bind Quantity.parseWord?, ← quantity? value, ← listOf hexBytes? proof⟩

/-- The proof of an account. -/
def accountProof (p : AccountProof) : Json :=
  object [("address", fixed p.address), ("accountProof", array (p.accountProof.map hexBytes)),
    ("balance", quantity p.balance), ("codeHash", fixed p.codeHash), ("nonce", quantity p.nonce),
    ("storageHash", fixed p.storageHash), ("storageProof", array (p.storageProof.map storageProof))]

/-- Reads the proof of an account. The proofs of slots may be left out. -/
def accountProof? (j : Json) : Option AccountProof := do
  let [some address, some proof, some balance, some code, some nonce, some root, slots] ←
    fields? ["address", "accountProof", "balance", "codeHash", "nonce", "storageHash",
      "storageProof"] j | none
  return {
    address := ← address? address
    accountProof := ← listOf hexBytes? proof
    balance := ← quantity? balance
    codeHash := ← word? code
    nonce := ← quantity? nonce
    storageHash := ← word? root
    storageProof := ← match slots with
      | none => some []
      | some slots => listOf storageProof? slots }

/-- The header of a block. -/
def header (h : BlockHeader) : Json :=
  object [("number", nat h.number.toNat), ("hash", fixed h.hash), ("parentHash", fixed h.parentHash),
    ("stateRoot", fixed h.stateRoot)]

/-- Reads the header of a block. -/
def header? (j : Json) : Option BlockHeader := do
  let [some number, some hash, some parentHash, some stateRoot] ←
    fields? ["number", "hash", "parentHash", "stateRoot"] j | none
  return ⟨← uint64? number, ← word? hash, ← word? parentHash, ← word? stateRoot⟩

/-- An access list: the slots of every address. -/
def accessList (l : AccessList) : Json :=
  object (l.toList.map fun e => (e.1.marked, array (e.2.map fixed)))

/-- Reads an access list. -/
def accessList? (j : Json) : Option AccessList := do
  let entries ← entriesOf (readFixed? 20) (listOf word?) j
  return ⟨Table.ofList (entries.map fun e => (e.1, Table.ofList (e.2.map fun slot => (slot, ()))))⟩

/-- A prepared block. -/
def preparedBlock (p : PreparedBlock) : Json :=
  object [("chainId", nat p.chainId.toNat), ("block", header p.block), ("parent", header p.parent),
    ("preProofs", array (p.preProofs.map accountProof)),
    ("postProofs", array (p.postProofs.map accountProof))]

/-- Reads a prepared block. -/
def preparedBlock? (j : Json) : Option PreparedBlock := do
  let [some chainId, some block, some parent, some pre, some post] ←
    fields? ["chainId", "block", "parent", "preProofs", "postProofs"] j | none
  return ⟨← uint64? chainId, ← header? block, ← header? parent, ← listOf accountProof? pre,
    ← listOf accountProof? post⟩

end Stateless.Json
