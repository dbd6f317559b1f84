/-!
# Faults and failures

An operation used outside its domain stops with a fault; one that can report why it does not
succeed ends in an error. `Attempt` is a computation that can end in either way.
-/

namespace Stateless

/-- The use of an operation outside its domain. -/
inductive Fault where
  /-- A path would get more than 64 nibbles. -/
  | pathTooLong
  /-- A number above 15 was offered as a nibble. -/
  | nibbleTooLarge
  /-- A path of this length has no nibble at this position. -/
  | noNibble (position length : Nat)
  /-- A slice reaches outside its path. -/
  | sliceOutOfRange
  /-- A branch has no child of this number. -/
  | noChild (position : Nat)
  /-- A number does not fit in 256 bits. -/
  | numberTooLarge
  deriving DecidableEq, Repr

/-- What is said about a fault; nothing is said about slices and children. -/
def Fault.message? : Fault → Option String
  | pathTooLong => some "Attempted to create a nibbles sequence longer than 64!"
  | nibbleTooLarge => some "Attempted to append a single nibble that was greater than 15!"
  | noNibble i n =>
    some s!"Tried getting nibble {i} of a nibble sequence of length {n}"
  | sliceOutOfRange | noChild _ => none
  | numberTooLarge => some "arithmetic operation overflow"

/-- Why a computation has no result. -/
inductive Failure (ε : Type) where
  /-- An operation was used outside its domain. -/
  | fault (f : Fault)
  /-- The computation reports an error. -/
  | error (e : ε)
  deriving DecidableEq, Repr

/-- A computation that can end in a fault or an error. -/
abbrev Attempt (ε α : Type) := Except (Failure ε) α

namespace Attempt

variable {ε ε' α : Type}

/-- A computation that can only report errors. -/
def ofExcept : Except ε α → Attempt ε α
  | .ok a => .ok a
  | .error e => .error (.error e)

/-- A computation that can only stop with a fault. -/
def ofFault : Except Fault α → Attempt ε α
  | .ok a => .ok a
  | .error f => .error (.fault f)

/-- The same computation with its errors put in other words; faults stay. -/
def mapError (f : ε → ε') : Attempt ε α → Attempt ε' α
  | .ok a => .ok a
  | .error (.error e) => .error (.error (f e))
  | .error (.fault b) => .error (.fault b)

end Attempt

end Stateless
