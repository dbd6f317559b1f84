import Stateless.Fixed
import Stateless.Table

/-!
# Access lists

The accounts that a block touches, each with the slots that it touches, in order.
-/

namespace Stateless

/-- Accounts with slots. -/
structure AccessList where
  /-- The slots of every account. -/
  accounts : Table Address (Table Word Unit)
  deriving DecidableEq

namespace AccessList

/-- The list without accounts. -/
def empty : AccessList := ⟨.empty⟩

instance : Inhabited AccessList := ⟨empty⟩

/-- Whether an account is listed. -/
def containsAccount (l : AccessList) (a : Address) : Bool := l.accounts.contains a

/-- The listed slots of an account. -/
def slotsOf (l : AccessList) (a : Address) : Table Word Unit := (l.accounts.find? a).getD .empty

/-- The listed slots of an account in order. -/
def slots (l : AccessList) (a : Address) : List Word := (l.slotsOf a).keys

/-- Whether a slot of an account is listed. -/
def containsSlot (l : AccessList) (a : Address) (slot : Word) : Bool := (l.slotsOf a).contains slot

/-- The list with an account. -/
def addAccount (l : AccessList) (a : Address) : AccessList := ⟨l.accounts.insertNew a .empty⟩

/-- The list with a slot and its account. -/
def addSlot (l : AccessList) (a : Address) (slot : Word) : AccessList :=
  ⟨l.accounts.insert a ((l.slotsOf a).insert slot ())⟩

/-- The list with an account and some of its slots. -/
def addSlots (l : AccessList) (a : Address) (slots : List Word) : AccessList :=
  slots.foldl (fun l slot => l.addSlot a slot) (l.addAccount a)

/-- The list of some accounts with slots. -/
def ofList (entries : List (Address × List Word)) : AccessList :=
  entries.foldl (fun l e => l.addSlots e.1 e.2) empty

/-- The accounts in order, each with its slots in order. -/
def toList (l : AccessList) : List (Address × List Word) :=
  l.accounts.entries.map fun e => (e.1, e.2.keys)

/-- The list with everything that another one lists. -/
def union (l m : AccessList) : AccessList :=
  m.toList.foldl (fun l e => l.addSlots e.1 e.2) l

/-- The number of accounts. -/
def size (l : AccessList) : Nat := l.accounts.size

/-- The number of slots of all accounts. -/
def slotCount (l : AccessList) : Nat := l.accounts.values.foldr (fun s n => s.size + n) 0

end AccessList

end Stateless
