import Stateless.Remote.JsonRpc.Values
import Stateless.Remote.Node

/-!
# Blocks in the replies of a node

Of a block only a few fields of its header are used. The others, its transactions and its
withdrawals are looked at all the same: a reply in which one of them has the wrong form is no block.
-/

namespace Stateless.JsonRpc

/-! ## The form of a value -/

/-- Whether a value is a number of so many bits. -/
def isNumber (bits : Nat) (j : Json) : Bool := (number? (twoPow bits) j).isSome

/-- Whether a value stands for bytes. -/
def isBytes (j : Json) : Bool := (bytes? j).isSome

/-- Whether a value stands for so many bytes. -/
def isFixed (place : Place) (n : Nat) (j : Json) : Bool := (fixed? place n j).isSome

/-- Whether a value is an array of which every item fits. -/
def isListOf (fits : Json → Bool) : Json → Bool
  | .array items => items.all fits
  | _ => false

/-- Whether a value is `null` or fits. -/
def isNullOr (fits : Json → Bool) : Json → Bool
  | .null => true
  | j => fits j

/-- Whether a record has a field that fits. -/
def has (field : String) (fits : Json → Bool) (j : Json) : Bool := (j.get? field).any fits

/-- Whether a field of a record fits, if it is there. -/
def mayHave (field : String) (fits : Json → Bool) (j : Json) : Bool := (j.get? field).all fits

/-! ## Transactions and withdrawals -/

/-- Whether a value names an account and slots of it. -/
def isAccess (j : Json) : Bool :=
  match Json.fields? ["address", "storageKeys"] j with
  | some [some address, some keys] =>
    isFixed .whole 20 address && isListOf (isFixed .whole 32) keys
  | _ => false

/-- Whether a number is a parity. -/
def isParity (n : Nat) : Bool := n ≤ 1

/-- Whether a number has a parity in it: it is the parity itself, or 27 more, or at least 35 and has
the number of a chain in it too. -/
def holdsParity (n : Nat) : Bool := isParity n || n = 27 || n = 28 || 35 ≤ n

/-- Whether a value is a number of 64 bits that fits. -/
def isNumberThat (fits : Nat → Bool) (j : Json) : Bool := (number? (twoPow 64) j).any fits

/-- Whether a value is a signed authorization. The parity stands
under one of two names, or under both. -/
def isAuthorization (j : Json) : Bool :=
  has "chainId" (isNumber 256) j && has "address" (isFixed .whole 20) j
    && has "nonce" (isNumber 64) j && has "r" (isNumber 256) j && has "s" (isNumber 256) j
    && mayHave "yParity" (isNumberThat isParity) j && mayHave "v" (isNumberThat holdsParity) j
    && ((j.get? "yParity").isSome || (j.get? "v").isSome)

/-- Fields of a transaction that hold numbers and may be missing, with the numbers' widths. -/
def transactionNumbers : List (String × Nat) :=
  [("blockNumber", 64), ("transactionIndex", 64), ("gasPrice", 128), ("maxFeePerGas", 128),
   ("maxPriorityFeePerGas", 128), ("maxFeePerBlobGas", 128), ("chainId", 64), ("type", 8)]

/-- Whether a value is a transaction. -/
def isTransaction (j : Json) : Bool :=
  has "hash" (isFixed .whole 32) j && has "nonce" (isNumber 64) j
    && has "from" (isFixed .whole 20) j && has "value" (isNumber 256) j
    && has "gas" (isNumber 128) j && has "input" isBytes j
    && mayHave "blockHash" (isNullOr (isFixed .whole 32)) j
    && mayHave "to" (isNullOr (isFixed .whole 20)) j
    && transactionNumbers.all (fun (field, bits) => mayHave field (isNullOr (isNumber bits)) j)
    && mayHave "blobVersionedHashes" (isNullOr (isListOf (isFixed .whole 32))) j
    && mayHave "accessList" (isNullOr (isListOf isAccess)) j
    && mayHave "authorizationList" (isNullOr (isListOf isAuthorization)) j

/-- Whether a value lists a block's transactions: all of them in full, or all by their hashes. -/
def isTransactions (j : Json) : Bool :=
  isListOf isTransaction j || isListOf (isFixed .whole 32) j

/-- Whether a value is a withdrawal. -/
def isWithdrawal (j : Json) : Bool :=
  match Json.fields? ["index", "validatorIndex", "address", "amount"] j with
  | some [some index, some validator, some address, some amount] =>
    isNumber 64 index && isNumber 64 validator && isFixed .stepwise 20 address
      && isNumber 64 amount
  | _ => false

/-! ## Headers -/

/-- Fields of a block that have to be there although they are not used, with their lengths. -/
def blockHashes : List (String × Nat) :=
  [("sha3Uncles", 32), ("miner", 20), ("transactionsRoot", 32), ("receiptsRoot", 32),
   ("logsBloom", 256)]

/-- Fields of a block that hold numbers and may be left out, but are never `null`, with the
numbers' widths. -/
def blockNumbers : List (String × Nat) :=
  [("gasLimit", 128), ("gasUsed", 128), ("timestamp", 64)]

/-- Fields of a block that may be missing, with their lengths. -/
def optionalHashes : List (String × Nat) :=
  [("mixHash", 32), ("nonce", 8), ("withdrawalsRoot", 32), ("parentBeaconBlockRoot", 32),
   ("requestsRoot", 32)]

/-- Fields of a block that hold numbers and may be missing, with the numbers' widths. -/
def optionalNumbers : List (String × Nat) :=
  [("totalDifficulty", 256), ("baseFeePerGas", 128), ("blobGasUsed", 128), ("excessBlobGas", 128),
   ("size", 256)]

/-- Whether the fields of a block's header that are not used have the right form. -/
def otherFieldsFit (j : Json) : Bool :=
  blockHashes.all (fun (field, n) => has field (isFixed .whole n) j)
    && has "difficulty" (isNumber 256) j
    && has "extraData" isBytes j
    && blockNumbers.all (fun (field, bits) => mayHave field (isNumber bits) j)
    && optionalHashes.all (fun (field, n) => mayHave field (isNullOr (isFixed .whole n)) j)
    && optionalNumbers.all fun (field, bits) => mayHave field (isNullOr (isNumber bits)) j

/-- Whether the lists of a block have the right form. -/
def listsFit (j : Json) : Bool :=
  mayHave "uncles" (isListOf (isFixed .stepwise 32)) j
    && mayHave "transactions" (isNullOr isTransactions) j
    && mayHave "withdrawals" (isNullOr (isListOf isWithdrawal)) j

/-- Reads the header of a block. -/
def header? (j : Json) : Option BlockHeader :=
  if otherFieldsFit j && listsFit j then do
    return {
      number := ← (j.get? "number").bind uint64?
      hash := ← (j.get? "hash").bind (fixed? .whole 32)
      parentHash := ← (j.get? "parentHash").bind (fixed? .whole 32)
      stateRoot := ← (j.get? "stateRoot").bind (fixed? .whole 32) }
  else none

/-- Reads the header of a block that need not exist. -/
def maybeHeader? : Json → Option (Option BlockHeader)
  | .null => some none
  | j => (header? j).map some

end Stateless.JsonRpc
