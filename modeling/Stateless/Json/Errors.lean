import Stateless.Json.Value
import Stateless.State.Error

/-!
# The JSON form of errors

An error is written as a record of a code and a text. The code names the kind of error for programs;
the code of an error that wraps another one ends in the other one's code. `ErrorForm` collects the
errors that can be written.
-/

namespace Stateless

/-! ## Codes -/

/-- The code of a refusal. -/
def Path.BytesError.code : Path.BytesError → String
  | noBytes => "ZeroSizedKey"
  | tooManyBytes _ => "TooManyBytes"

/-- The code of a refusal. -/
def Path.TextError.code : Path.TextError → String
  | badCharacter _ => "InvalidChar"
  | tooLong _ => "TooLong"

/-- The code of a refusal. -/
def Path.CompactError.code : Path.CompactError → String
  | empty => "Empty"
  | invalidFlags _ => "InvalidFlags"
  | tooLong _ => "TooLong"

/-- The code of a refusal. -/
def DecodeError.code : DecodeError → String
  | rlp e => "Rlp." ++ e.message
  | fragment e => "HexPrefix." ++ e.code
  | itemCount _ => "UnexpectedItemCount"
  | notList => "NotAList"
  | reference _ => "InvalidReference"
  | nothingBelow => "EmptyExtensionChild"
  | trailing _ => "TrailingBytes"
  | pathTooLong _ => "PathTooLong"

/-- The code of a refusal. -/
def ProofError.code : ProofError → String
  | missing .. => "MissingNode"
  | malformed _ _ e => "Malformed." ++ e.code
  | endless => "Endless"

/-- The code of a refusal. -/
def RebuildError.code : RebuildError → String
  | missingRoot _ => "MissingRoot"
  | malformed _ e => "Decode." ++ e.code
  | endless => "Endless"

/-- The code of a refusal. -/
def TrieError.code : TrieError → String
  | insertHidden _ => "HashNodeInsertError"
  | removeHidden _ => "HashNodeDeleteError"
  | readHidden _ => "HashNodeGetError"
  | nothingBelow => "HashNodeExtError"
  | occupied _ => "ExistingHashNodeError"

/-- The code of a refusal. -/
def StoreError.code : StoreError → String
  | hashMismatch .. => "HashMismatch"
  | backend _ => "Backend"

/-- The code of a refusal. -/
def NodeSetError.code : NodeSetError → String
  | proof _ _ e => "Proof." ++ e.code
  | nodeConflict .. => "MergeConflict"
  | leafConflict .. => "LeafConflict"

/-- The code of a refusal. -/
def SnapshotError.code : SnapshotError → String
  | stale => "Stale"
  | notGenerated _ => "NotGenerated"

/-- The code of an error; what a remote node and several readers report is not part of it. -/
def StateError.code : StateError → String
  | blockNotMapped _ => "BlockNotMapped"
  | noBlockMarked => "NoBlockMarked"
  | remote _ => "RemoteUnavailable"
  | tooLarge .. => "IntegerOverflow"
  | missingNode .. => "MissingTrieNode"
  | snapshot e => "Snapshot." ++ e.code
  | decode e => "Decode." ++ e.message
  | codeMismatch .. => "CodeHashMismatch"
  | allReadersFailed _ => "AllReadersFailed"
  | nodeSet e => "NodeSet." ++ e.code
  | rebuild e => "Build." ++ e.code
  | store e => "Store." ++ e.code
  | trie e => "Trie." ++ e.code

/-! ## Records -/

namespace Json

/-- The fields of an error's record. -/
def errorFields (code message : String) : List (String × Json) :=
  [("error", string code), ("message", string message)]

end Json

/-- Errors that have a JSON form. -/
class ErrorForm (ε : Type) where
  /-- The fields of an error's record. -/
  fields : ε → List (String × Json)

namespace ErrorForm

instance : ErrorForm RlpError := ⟨fun e => Json.errorFields e.message e.message⟩
instance : ErrorForm Path.BytesError := ⟨fun e => Json.errorFields e.code e.message⟩
instance : ErrorForm Path.TextError := ⟨fun e => Json.errorFields e.code e.message⟩
instance : ErrorForm Path.CompactError := ⟨fun e => Json.errorFields e.code e.message⟩
instance : ErrorForm DecodeError := ⟨fun e => Json.errorFields e.code e.message⟩
instance : ErrorForm ProofError := ⟨fun e => Json.errorFields e.code e.message⟩
instance : ErrorForm RebuildError := ⟨fun e => Json.errorFields e.code e.message⟩
instance : ErrorForm TrieError := ⟨fun e => Json.errorFields e.code e.message⟩
instance : ErrorForm StoreError := ⟨fun e => Json.errorFields e.code e.message⟩
instance : ErrorForm NodeSetError := ⟨fun e => Json.errorFields e.code e.message⟩
instance : ErrorForm SnapshotError := ⟨fun e => Json.errorFields e.code e.message⟩
instance : ErrorForm StateError := ⟨fun e => Json.errorFields e.code e.message⟩

/-- The fields of a failure's record, given those of a fault. -/
def ofFailure {ε : Type} [ErrorForm Fault] [ErrorForm ε] : Failure ε → List (String × Json)
  | .fault f => fields f
  | .error e => fields e

instance {ε : Type} [ErrorForm Fault] [ErrorForm ε] : ErrorForm (Failure ε) := ⟨ofFailure⟩

end ErrorForm

namespace Json

variable {ε α : Type} [ErrorForm ε]

/-- An error. -/
def ofError (e : ε) : Json := object (ErrorForm.fields e)

/-- A value, or the error that stands in its place. -/
def ofExcept (write : α → Json) : Except ε α → Json
  | .ok a => write a
  | .error e => ofError e

end Json

end Stateless
