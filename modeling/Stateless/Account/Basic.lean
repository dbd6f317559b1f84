import Stateless.Account.Key
import Stateless.Fault
import Stateless.Rlp.Reader
import Stateless.Rlp.Writer
import Stateless.Trie.Encoding

/-!
# Accounts and storage words

What the state tries hold: an account is a list of four items, a storage word is its number.
-/

namespace Stateless

/-- A number of 256 bits. -/
abbrev Amount := BitVec 256

/-- How many wei make an ether. -/
def weiPerEther : Nat := 1000000000000000000

/-- An amount of ether in wei. -/
def etherToWei (ether : Amount) : Except Fault Amount :=
  let wei := ether.toNat * weiPerEther
  if wei < twoPow 256 then .ok (.ofNat 256 wei) else .error .numberTooLarge

/-- The record of an account in the account trie. -/
structure Account where
  /-- The number of transactions sent. -/
  nonce : UInt64
  /-- The balance in wei. -/
  balance : Amount
  /-- The root of the storage trie. -/
  storageRoot : Word
  /-- The hash of the code. -/
  codeHash : Word
  deriving DecidableEq

namespace Account

/-- The encoding of an account. -/
def encode (a : Account) : Bytes :=
  Rlp.list [Rlp.number a.nonce.toNat, Rlp.number a.balance.toNat, Rlp.data a.storageRoot.toBytes,
    Rlp.data a.codeHash.toBytes]

/-- Reads an account. Only the first item has to lie within the list; the others are read from the
bytes that follow it, whether the list ends before them or not, and what comes after the fourth is
ignored. -/
def decode (b : Bytes) : Except RlpError Account := do
  if !Rlp.isList b then throw .notList
  let e ← Rlp.extent b
  let (first, _) ← Rlp.takeItem ((b.drop e.header).take e.payload)
  let nonce ← Rlp.number64 first
  let (second, rest) ← Rlp.takeItem (b.drop (e.header + first.length))
  let balance ← Rlp.number256 second
  let (third, rest) ← Rlp.takeItem rest
  let storageRoot ← Rlp.word third
  let (fourth, _) ← Rlp.takeItem rest
  let codeHash ← Rlp.word fourth
  return { nonce, balance, storageRoot, codeHash }

variable [Hasher]

/-- An account without code and storage. -/
def new (nonce : UInt64) (balance : Amount) : Account :=
  ⟨nonce, balance, emptyRoot, emptyCodeHash⟩

/-- The account with the hash of some code. -/
def withCode (a : Account) (code : Bytes) : Account := { a with codeHash := digest code }

/-- Whether there is no nonce, balance, code or storage. Code and storage can be given as missing by
the zero hash as well. -/
def isEmpty (a : Account) : Bool :=
  a.nonce = 0 && a.balance = 0 && (a.codeHash.isZero || a.codeHash = emptyCodeHash)
    && isEmptyRoot a.storageRoot

end Account

/-- The encoding of a storage word. -/
def encodeStorage (w : Word) : Bytes := Rlp.number w.toNat

/-- Reads a storage word. -/
def decodeStorage (b : Bytes) : Except RlpError Word :=
  (Rlp.number256 b).map fun n => FixedBytes.ofNat 32 n.toNat

end Stateless
