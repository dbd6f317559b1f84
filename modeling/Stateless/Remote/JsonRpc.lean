import Stateless.Remote.JsonRpc.Block

/-!
# A remote node behind JSON-RPC

The requests that a remote node is sent and what is read from its replies. A request that gets no
reply in time, and one that is answered by an error, end in a trouble that names the method.
-/

namespace Stateless.JsonRpc

/-- A request. -/
structure Request where
  /-- The method. -/
  method : String
  /-- The parameters, if the method has any. -/
  params : Option (List Json)

/-- What comes back. -/
inductive Reply where
  /-- A result. -/
  | result (value : Json)
  /-- An error of the node. -/
  | error (code : Int) (message : String)
  /-- Nothing, until the time is up. -/
  | never

/-- Why a request has no answer. -/
inductive CallError where
  /-- The request failed, or its answer is not what was asked for. -/
  | trouble (t : Trouble)
  /-- The result is not of the method's type. -/
  | badReply

/-- How long a reply is waited for, in milliseconds. -/
def timeout : Nat := 5

/-- The answer to a request that a reply gives. -/
def receive {α : Type} (q : Request) (read : Json → Option α) : Reply → Except CallError α
  | .result j =>
    match read j with
    | some a => .ok a
    | none => .error .badReply
  | .error code message => .error (.trouble [q.method ++ " request failed",
      "server returned an error response: error code " ++ toString code ++ ": " ++ message])
  | .never => .error (.trouble [q.method ++ " timed out after " ++ toString timeout ++ "ms"])

/-- A number as a parameter. -/
def numberParam (n : Nat) : Json := .string (Hex.quantity n)

/-! ## The chain -/

/-- Asks for the number of the chain. -/
def chainIdRequest : Request := ⟨"eth_chainId", none⟩

/-- The number of the chain. -/
def chainId (r : Reply) : Except CallError UInt64 := receive chainIdRequest uint64? r

/-! ## Headers -/

/-- Asks for a block without its transactions. -/
def blockRequest (block : UInt64) : Request :=
  ⟨"eth_getBlockByNumber", some [numberParam block.toNat, .bool false]⟩

/-- The header of a block. -/
def blockByNumber (block : UInt64) (r : Reply) : Except CallError (Option BlockHeader) :=
  receive (blockRequest block) maybeHeader? r

/-! ## Proofs -/

/-- Asks for the proof of an account and some of its slots. -/
def proofRequest (a : Address) (slots : List Word) (block : UInt64) : Request :=
  ⟨"eth_getProof",
    some [Json.fixed a, .array (slots.map Json.fixed), numberParam block.toNat]⟩

/-- Reads the proof of a slot. -/
def storageProof? (j : Json) : Option StorageProof := do
  let [some key, some value, some proof] ← Json.fields? ["key", "value", "proof"] j | none
  return ⟨← slot? key, ← quantity? value, ← Json.listOf bytes? proof⟩

/-- Reads the proof of an account. -/
def accountProof? (j : Json) : Option AccountProof := do
  let [some address, some balance, some code, some nonce, some root, some proof, some slots] ←
    Json.fields? ["address", "balance", "codeHash", "nonce", "storageHash", "accountProof",
      "storageProof"] j | none
  return {
    address := ← fixed? .stepwise 20 address
    accountProof := ← Json.listOf bytes? proof
    balance := ← quantity? balance
    codeHash := ← fixed? .stepwise 32 code
    nonce := Quantity.ofNat (← uint64? nonce).toNat
    storageHash := ← fixed? .stepwise 32 root
    storageProof := ← Json.listOf storageProof? slots }

/-- A proof with the slots that were asked for, which a node answers in the order of the request. -/
def withSlots (p : AccountProof) (slots : List Word) : Except CallError AccountProof :=
  if p.storageProof.length = slots.length then
    .ok { p with storageProof := List.zipWith (fun slot s => { s with key := slot }) slots
                  p.storageProof }
  else .error (.trouble ["asked for " ++ toString slots.length ++ " storage proofs of "
    ++ p.address.hex ++ ", got " ++ toString p.storageProof.length])

/-- The proof of an account and some of its slots. -/
def proofOf (a : Address) (slots : List Word) (block : UInt64) (r : Reply) :
    Except CallError AccountProof :=
  match receive (proofRequest a slots block) accountProof? r with
  | .ok p => withSlots p slots
  | .error .badReply => .error .badReply
  | .error (.trouble t) => .error (.trouble
      (("no proof for " ++ a.hex ++ " at block " ++ toString block.toNat) :: t))

/-! ## Code and storage -/

/-- Asks for the code of an account. -/
def codeRequest (a : Address) (block : UInt64) : Request :=
  ⟨"eth_getCode", some [Json.fixed a, numberParam block.toNat]⟩

/-- The code of an account. -/
def codeAt (a : Address) (block : UInt64) (r : Reply) : Except CallError Bytes :=
  receive (codeRequest a block) bytes? r

/-- Asks for a storage word. -/
def storageRequest (a : Address) (slot : Word) (block : UInt64) : Request :=
  ⟨"eth_getStorageAt", some [Json.fixed a, numberParam slot.toNat, numberParam block.toNat]⟩

/-- A storage word. -/
def storageAt (a : Address) (slot : Word) (block : UInt64) (r : Reply) : Except CallError Word :=
  receive (storageRequest a slot block) slot? r

end Stateless.JsonRpc
