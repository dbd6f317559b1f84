import Stateless.Account.Basic
import Stateless.Account.Key
import Stateless.Bytes
import Stateless.Fault
import Stateless.Fixed
import Stateless.Hex
import Stateless.Json.Errors
import Stateless.Json.Form
import Stateless.Json.NodeSets
import Stateless.Json.Pointer
import Stateless.Json.Printer
import Stateless.Json.Reader
import Stateless.Json.Reports
import Stateless.Json.Shorthand
import Stateless.Json.States
import Stateless.Json.Tries
import Stateless.Json.Value
import Stateless.Keccak
import Stateless.NodeSet.Basic
import Stateless.NodeSet.Merged
import Stateless.NodeSet.Orphan
import Stateless.NodeStore
import Stateless.Path.Basic
import Stateless.Path.Buffer
import Stateless.Path.Cells
import Stateless.Path.Compact
import Stateless.Path.Text
import Stateless.Proofs.Account
import Stateless.Proofs.Digest
import Stateless.Proofs.Fault
import Stateless.Proofs.Json.Forms
import Stateless.Proofs.Json.Text
import Stateless.Proofs.Json.Tries
import Stateless.Proofs.Keccak
import Stateless.Proofs.NodeSet.Bridging
import Stateless.Proofs.NodeSet.Candidates
import Stateless.Proofs.NodeSet.Contents
import Stateless.Proofs.NodeSet.Exact
import Stateless.Proofs.NodeSet.Faultless
import Stateless.Proofs.NodeSet.InPlace
import Stateless.Proofs.NodeSet.Merging
import Stateless.Proofs.NodeSet.Orphans
import Stateless.Proofs.NodeSet.Provenance
import Stateless.Proofs.NodeSet.Recording
import Stateless.Proofs.NodeSet.Shares
import Stateless.Proofs.NodeStore
import Stateless.Proofs.Path.Buffer
import Stateless.Proofs.Path.Cells
import Stateless.Proofs.Path.Compact
import Stateless.Proofs.Path.Lists
import Stateless.Proofs.Path.Sequences
import Stateless.Proofs.Path.Spelling
import Stateless.Proofs.Quantity
import Stateless.Proofs.Reader.Agreement
import Stateless.Proofs.Reader.Answers
import Stateless.Proofs.Reader.Caching
import Stateless.Proofs.Reader.Fallback
import Stateless.Proofs.Reader.Recording
import Stateless.Proofs.Reader.Replay
import Stateless.Proofs.Reader.Session
import Stateless.Proofs.Reader.Tries
import Stateless.Proofs.Remote.Honest
import Stateless.Proofs.Rlp.Items
import Stateless.Proofs.Rlp.Values
import Stateless.Proofs.State.AccessList
import Stateless.Proofs.State.Anchoring
import Stateless.Proofs.State.Coverage
import Stateless.Proofs.State.Generation
import Stateless.Proofs.State.Prepared
import Stateless.Proofs.State.Replay
import Stateless.Proofs.State.StateTrie
import Stateless.Proofs.State.Updates
import Stateless.Proofs.State.World
import Stateless.Proofs.State.Writing
import Stateless.Proofs.Table
import Stateless.Proofs.Transition
import Stateless.Proofs.Trie.Binding
import Stateless.Proofs.Trie.Canonical
import Stateless.Proofs.Trie.Collapse
import Stateless.Proofs.Trie.Completeness
import Stateless.Proofs.Trie.Confined
import Stateless.Proofs.Trie.Contents
import Stateless.Proofs.Trie.Descent
import Stateless.Proofs.Trie.Edits
import Stateless.Proofs.Trie.Fragment
import Stateless.Proofs.Trie.Hereditary
import Stateless.Proofs.Trie.InStep
import Stateless.Proofs.Trie.Insertion
import Stateless.Proofs.Trie.Keyed
import Stateless.Proofs.Trie.Lookups
import Stateless.Proofs.Trie.MapRoot
import Stateless.Proofs.Trie.Memos
import Stateless.Proofs.Trie.Nodes
import Stateless.Proofs.Trie.Outline
import Stateless.Proofs.Trie.PartialMap
import Stateless.Proofs.Trie.Proving
import Stateless.Proofs.Trie.Pruned
import Stateless.Proofs.Trie.Reach
import Stateless.Proofs.Trie.Rebuilding
import Stateless.Proofs.Trie.Recovery
import Stateless.Proofs.Trie.Reencoding
import Stateless.Proofs.Trie.Removal
import Stateless.Proofs.Trie.Retracing
import Stateless.Proofs.Trie.Root
import Stateless.Proofs.Trie.Shape
import Stateless.Proofs.Trie.Sharing
import Stateless.Proofs.Trie.Soundness
import Stateless.Proofs.Trie.Spread
import Stateless.Proofs.Trie.Storable
import Stateless.Proofs.Trie.Twins
import Stateless.Proofs.Trie.Unique
import Stateless.Proofs.Trie.Veil
import Stateless.Proofs.Trie.VeiledEdits
import Stateless.Proofs.Trie.View
import Stateless.Proofs.Trie.Writes
import Stateless.Quantity
import Stateless.Reader.Basic
import Stateless.Reader.Tries
import Stateless.Remote.Chain
import Stateless.Remote.JsonRpc
import Stateless.Remote.JsonRpc.Block
import Stateless.Remote.JsonRpc.Values
import Stateless.Remote.Node
import Stateless.Rlp.Reader
import Stateless.Rlp.Writer
import Stateless.State.AccessList
import Stateless.State.Database
import Stateless.State.Error
import Stateless.State.Prepared
import Stateless.State.Proof
import Stateless.State.Snapshot
import Stateless.State.StateTrie
import Stateless.State.World
import Stateless.Table
import Stateless.Text.Visible
import Stateless.Trie.Basic
import Stateless.Trie.Children
import Stateless.Trie.Decoding
import Stateless.Trie.Edit
import Stateless.Trie.Encoding
import Stateless.Trie.Proof
import Stateless.Trie.Rebuild
