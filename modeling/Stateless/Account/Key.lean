import Stateless.Keccak

/-!
# Keys of the state tries

Accounts are found under the hash of their address, storage words under the hash of their slot.
-/

namespace Stateless

variable [Hasher]

/-- The key of an account in the account trie. -/
def hashedAddress (a : Address) : Word := digest a.toBytes

/-- The key of a slot in an account's storage trie. -/
def hashedSlot (slot : Word) : Word := digest slot.toBytes

/-- The hash of an account's code when it has none. -/
def emptyCodeHash : Word := digest []

end Stateless
