import Stateless.Account.Basic
import Stateless.NodeSet.Basic
import Stateless.Trie.Rebuild

/-!
# Errors of state access

Why a part of the state cannot be read, written or prepared. An account or a slot that does not
exist is no error. An error may have another one as its cause; `causes` lists what a full report
names after the error itself.
-/

namespace Stateless

/-- A trouble outside the library, in its contexts from the outermost to the innermost. -/
abbrev Trouble := List String

/-- A trouble in one line. -/
def Trouble.line (t : Trouble) : String := ": ".intercalate t

/-- Why a snapshot does not answer. -/
inductive SnapshotError where
  /-- The snapshot no longer matches the state. -/
  | stale
  /-- The key lies beyond what has been generated. -/
  | notGenerated (key : Bytes)
  deriving DecidableEq

/-- The text of a refusal. -/
def SnapshotError.message : SnapshotError → String
  | stale => "snapshot is stale"
  | notGenerated key => "snapshot is not generated up to " ++ Hex.text key

/-- The fields of an account that hold numbers. -/
inductive NumberField where
  | nonce
  | balance
  deriving DecidableEq

/-- The name of a field. -/
def NumberField.text : NumberField → String
  | nonce => "nonce"
  | balance => "balance"

/-- Why state cannot be accessed. -/
inductive StateError where
  /-- No block with this state root has been marked. -/
  | blockNotMapped (root : Word)
  /-- No block has been marked at all. -/
  | noBlockMarked
  /-- The remote node does not answer. -/
  | remote (trouble : Trouble)
  /-- A number does not fit in its field. -/
  | tooLarge (address : Address) (field : NumberField)
  /-- A trie has to be entered at a node that is not there. -/
  | missingNode (owner : TrieOwner) (digest : Word)
  /-- A snapshot does not answer. -/
  | snapshot (e : SnapshotError)
  /-- A value of the state cannot be decoded. -/
  | decode (e : RlpError)
  /-- The code of an account is not the one that is asked for. -/
  | codeMismatch (address : Address) (expected actual : Word)
  /-- No reader answers. -/
  | allReadersFailed (errors : List StateError)
  /-- A proof does not hold, or two disagree. -/
  | nodeSet (e : NodeSetError)
  /-- A trie cannot be rebuilt. -/
  | rebuild (e : RebuildError)
  /-- A store refuses to write. -/
  | store (e : StoreError)
  /-- A trie refuses an operation. -/
  | trie (e : TrieError)

namespace StateError

mutual

/-- The text of an error. -/
def message : StateError → String
  | blockNotMapped r => "state root " ++ r.hex ++ " is not mapped to any marked block"
  | noBlockMarked => "no block has been marked yet"
  | remote t => "remote node request failed: " ++ Trouble.line t
  | tooLarge a f => f.text ++ " of account " ++ a.hex ++ " does not fit in its type"
  | missingNode o h =>
    "the " ++ o.text ++ " needs trie node " ++ h.hex ++ ", which is not available locally"
  | snapshot e => e.message
  | decode e => "failed to decode a state value: " ++ e.message
  | codeMismatch a expected actual =>
    "code of " ++ a.hex ++ " hashes to " ++ actual.hex ++ ", expected " ++ expected.hex
  | allReadersFailed es => "every state reader failed: " ++ "; ".intercalate (numbered 0 es)
  | nodeSet e => e.message
  | rebuild e => e.message
  | store e => e.message
  | trie e => e.message

/-- The texts of errors with their numbers. -/
def numbered : Nat → List StateError → List String
  | _, [] => []
  | i, e :: es => ("[" ++ toString i ++ "] " ++ message e) :: numbered (i + 1) es

end

/-- The refusal of a trie as a state error: entering a hidden part means that a node is missing. -/
def ofTrie (owner : TrieOwner) : TrieError → StateError
  | .insertHidden h | .removeHidden h | .readHidden h => missingNode owner h
  | e => trie e

end StateError

/-! ## Causes -/

/-- The texts of what caused an error, outermost first. -/
def DecodeError.causes : DecodeError → List String
  | rlp e => [e.message]
  | fragment e => [e.message]
  | _ => []

/-- The texts of what caused an error, outermost first. -/
def ProofError.causes : ProofError → List String
  | malformed _ _ e => e.message :: e.causes
  | _ => []

/-- The texts of what caused an error, outermost first. -/
def NodeSetError.causes : NodeSetError → List String
  | proof _ _ e => e.message :: e.causes
  | _ => []

/-- The texts of what caused an error, outermost first. -/
def RebuildError.causes : RebuildError → List String
  | malformed _ e => e.message :: e.causes
  | _ => []

/-- The texts of what caused an error, outermost first. -/
def StateError.causes : StateError → List String
  | remote t => t
  | decode e => [e.message]
  | nodeSet e => e.causes
  | rebuild e => e.causes
  | _ => []

end Stateless
