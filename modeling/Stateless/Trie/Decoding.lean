import Stateless.Path.Compact
import Stateless.Rlp.Reader
import Stateless.Trie.Basic

/-!
# Decoding nodes

A node is read from its encoding together with the children that are embedded in it. A child that is
referred to by hash is read as a hidden part. Memos are never read.
-/

namespace Stateless

/-- Why bytes are not the encoding of a node. -/
inductive DecodeError where
  /-- The bytes are not RLP. -/
  | rlp (e : RlpError)
  /-- The fragment of a leaf or an extension is no compact path. -/
  | fragment (e : Path.CompactError)
  /-- The number of items is neither 2 nor 17. -/
  | itemCount (n : Nat)
  /-- A byte string stands where a node is wanted. -/
  | notList
  /-- A reference to a child is neither empty nor a hash nor a node. -/
  | reference (length : Nat)
  /-- An extension has nothing below it. -/
  | nothingBelow
  /-- There are bytes after the node. -/
  | trailing (count : Nat)
  /-- The fragment reaches beyond the longest key. -/
  | pathTooLong (length : Nat)
  deriving DecidableEq

/-- The text of a refusal. -/
def DecodeError.message : DecodeError → String
  | rlp e => "invalid rlp: " ++ e.message
  | fragment e => "invalid short node key: " ++ e.message
  | itemCount n => s!"expected a list of 2 or 17 items, found {n}"
  | notList => "expected an rlp list"
  | reference n => s!"child reference of {n} bytes is neither a hash nor empty"
  | nothingBelow => "extension node with an empty child"
  | trailing n => s!"{n} trailing bytes after the node encoding"
  | pathTooLong n => s!"node path of {n} nibbles is longer than any key"

namespace Trie

/-- The payload of an item. -/
def payloadOf (item : Bytes) : Except DecodeError Bytes :=
  (Rlp.payload item).mapError .rlp

/-- The node that a reference without a list stands for. -/
def decodeReference (item : Bytes) : Except DecodeError Trie := do
  let b ← payloadOf item
  if b.isEmpty then return .empty
  match FixedBytes.ofBytes? 32 b with
  | some h => return .hidden h
  | none => throw (.reference b.length)

/-- Reads a node from the list in front of some bytes. -/
def decodeList (b : Bytes) : Except DecodeError Trie :=
  if hl : Rlp.isList b = true then
    match hp : Rlp.payload b with
    | .error e => .error (.rlp e)
    | .ok p =>
      let parts := Rlp.items p
      if h17 : parts.length = 17 then do
        let children ← Children.gather fun i =>
          let item := parts[i.val]
          have : item.length < b.length :=
            Rlp.length_lt_of_mem_items hl hp (List.getElem_mem _)
          if Rlp.isList item then decodeList item else decodeReference item
        return .branch children.get (← payloadOf (parts[16])) none
      else if h2 : parts.length = 2 then do
        let (fragment, isLeaf) ←
          (Path.ofCompact (← payloadOf (parts[0]))).mapError .fragment
        let item := parts[1]
        have : item.length < b.length :=
          Rlp.length_lt_of_mem_items hl hp (List.getElem_mem _)
        if isLeaf then
          return .leaf fragment (← payloadOf item) none
        else
          let child ← if Rlp.isList item then decodeList item else decodeReference item
          if child.isEmpty then throw .nothingBelow
          return .extension fragment child none
      else .error (.itemCount parts.length)
  else .error .notList
termination_by b.length

/-- Reads a node from its encoding. -/
def decode (b : Bytes) : Except DecodeError Trie :=
  match Rlp.extent b with
  | .error e => .error (.rlp e)
  | .ok e => if e.total < b.length then .error (.trailing (b.length - e.total)) else decodeList b

end Trie

end Stateless
