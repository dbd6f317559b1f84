import Stateless.Json.NodeSets
import Stateless.Json.States
import Stateless.Proofs.Json.Text
import Stateless.Proofs.Quantity
import Stateless.Proofs.Table

/-!
# Forms that are read back

Every form is made of a few parts: records, lists, maps, and texts of bytes, words, quantities and
paths. For each part `read (write x) = some x` is shown once, and the forms of accounts, proofs,
blocks, access lists and node sets follow from their parts. `readsBack_of_plain` takes this from
values to texts.
-/

namespace Stateless.Json

variable {α β κ : Type}

/-- The text that is written for a value is one of its form, and so is read every such text. -/
def ReadsBack (write : α → Json) (read : Json → Option α) (x : α) : Prop :=
  Layout (write x) (render (write x)) ∧ ∀ s, Layout (write x) s → (parse s).bind read = some x

theorem readsBack_of_plain {write : α → Json} {read : Json → Option α} {x : α}
    (hplain : Plain (write x)) (hread : read (write x) = some x) : ReadsBack write read x := by
  refine ⟨layout_render hplain, fun s hs => ?_⟩
  rw [parse_of_layout hs]
  exact hread

/-! ## Records, lists and maps -/

theorem listOf_map {write : α → Json} {read : Json → Option α} {xs : List α}
    (h : ∀ x ∈ xs, read (write x) = some x) : listOf read (array (xs.map write)) = some xs :=
  mapM_map_self h

theorem find?_zip {names : List String} {vs : List Json} (hnodup : names.Nodup)
    (hlen : names.length = vs.length) :
    (names.map fun n => ((names.zip vs).find? fun e => e.1 = n).map (·.2)) = vs.map some := by
  induction names generalizing vs with
  | nil =>
    obtain rfl := List.length_eq_zero_iff.1 hlen.symm
    rfl
  | cons n names ih =>
    obtain ⟨v, vs, rfl⟩ := List.exists_cons_of_length_eq_add_one hlen.symm
    obtain ⟨hnot, hnodup⟩ := List.nodup_cons.1 hnodup
    rw [List.map_cons, List.map_cons, List.zip_cons_cons, List.find?_cons_of_pos (by simp)]
    refine congrArg (some v :: ·) ?_
    rw [← ih hnodup (by simpa using hlen)]
    refine List.map_congr_left fun m hm => ?_
    have hne : n ≠ m := fun heq => hnot (heq ▸ hm)
    rw [List.find?_cons_of_neg (by simpa using hne)]

/-- A record that has all its fields. -/
theorem fields?_zip (names : List String) (vs : List Json) (hnodup : names.Nodup)
    (hlen : names.length = vs.length) :
    fields? names (object (names.zip vs)) = some (vs.map some) := by
  have hknown : ((names.zip vs).filter fun e => names.contains e.1) = names.zip vs := by
    rw [List.filter_eq_self]
    rintro ⟨n, v⟩ he
    simpa using (List.of_mem_zip he).1
  have hkeys : (names.zip vs).map (·.1) = names := List.map_fst_zip hlen.le
  rw [fields?]
  simp only [hknown, hkeys, if_pos hnodup, find?_zip hnodup hlen]

theorem entriesOf_map {readKey : String → Option κ} {writeKey : κ → String}
    {read : Json → Option β} (write : α → Json) {f : α → β} {es : List (κ × α)}
    (hkey : ∀ e ∈ es, readKey (writeKey e.1) = some e.1)
    (hvalue : ∀ e ∈ es, read (write e.2) = some (f e.2)) :
    entriesOf readKey read (object (es.map fun e => (writeKey e.1, write e.2))) =
      some (es.map fun e => (e.1, f e.2)) :=
  mapM_map_eq_some fun e he => by
    simp only [hkey e he, hvalue e he]
    rfl

/-! ## Simple values -/

theorem natBelow?_nat {bound n : Nat} (h : n < bound) : natBelow? bound (nat n) = some n :=
  if_pos h

theorem uint64?_nat (n : UInt64) : uint64? (nat n.toNat) = some n := by
  have hlt : n.toNat < twoPow 64 := n.toNat_lt
  rw [uint64?, natBelow?_nat hlt, Option.map_some, UInt64.ofNat_toNat]

theorem numbers?_numbers (b : Bytes) : numbers? (numbers b) = some b := by
  have hread : listOf (natBelow? 256) (numbers b) = some (b.map (·.toNat)) :=
    mapM_map_eq_some fun d _ => natBelow?_nat d.toNat_lt
  have hback : (UInt8.ofNat ∘ UInt8.toNat) = id := funext fun _ => UInt8.ofNat_toNat
  rw [numbers?, hread, Option.map_some, List.map_map, hback, List.map_id]

theorem hexBytes?_hexBytes (b : Bytes) : hexBytes? (hexBytes b) = some b := Hex.unmarked?_marked b

theorem fixed?_fixed {n : Nat} (a : FixedBytes n) : fixed? n (fixed a) = some a :=
  readFixed?_marked a

theorem readPath?_toText (p : Path) : readPath? p.toText = some p := by
  rw [readPath?, Path.parse_toText]
  rfl

theorem path?_path (p : Path) : path? (path p) = some p := readPath?_toText p

theorem quantity?_quantity (q : Quantity) : quantity? (quantity q) = some q :=
  Quantity.parse?_text q

theorem parseWord?_marked (w : Word) : Quantity.parseWord? w.marked = some w := by
  have hmark : Hex.afterMark w.marked.toList = Hex.encode w.toBytes := by
    simp [FixedBytes.marked, Hex.marked, Hex.afterMark]
  have hlt : Bytes.toNat w.toBytes < 2 ^ 256 := by
    have := Bytes.toNat_lt w.toBytes
    rwa [w.length_eq] at this
  rw [Quantity.parseWord?, Quantity.parse?_eq, hmark, Hex.encode, Hex.digits?_map_digit,
    Option.map_some, Option.bind_some, Quantity.toWord?_eq, Quantity.toNat_ofNat,
    Hex.number_nibbles, if_pos hlt]
  exact congrArg some (FixedBytes.ofNat_toNat w)

@[simp] theorem plain_fixed {n : Nat} (a : FixedBytes n) : Plain (fixed a) := trivial

@[simp] theorem plain_hexBytes (b : Bytes) : Plain (hexBytes b) := trivial

@[simp] theorem plain_quantity (q : Quantity) : Plain (quantity q) := trivial

@[simp] theorem plain_nat (n : Nat) : Plain (nat n) := trivial

@[simp] theorem plain_numbers (b : Bytes) : Plain (numbers b) := by simp [numbers]

theorem plain_entries {writeKey : κ → String} (write : α → Json) (es : List (κ × α))
    (h : ∀ x, Plain (write x)) : Plain (object (es.map fun e => (writeKey e.1, write e.2))) := by
  rw [plain_object]
  intro e he
  obtain ⟨x, -, rfl⟩ := List.mem_map.1 he
  exact h x.2

/-! ## Accounts, proofs and blocks -/

theorem storageProof?_storageProof (p : StorageProof) :
    storageProof? (storageProof p) = some p := by
  have hfields : fields? ["key", "value", "proof"] (storageProof p) =
      some [some (fixed p.key), some (quantity p.value), some (array (p.proof.map hexBytes))] :=
    fields?_zip _ [_, _, _] (by decide) rfl
  have hkey : (text? (fixed p.key)).bind Quantity.parseWord? = some p.key := parseWord?_marked p.key
  have hproof := listOf_map fun b (_ : b ∈ p.proof) => hexBytes?_hexBytes b
  rw [storageProof?, hfields]
  simp [hkey, quantity?_quantity, hproof]

theorem accountProof?_accountProof (p : AccountProof) :
    accountProof? (accountProof p) = some p := by
  have hfields : fields? ["address", "accountProof", "balance", "codeHash", "nonce", "storageHash",
      "storageProof"] (accountProof p) =
      some [some (fixed p.address), some (array (p.accountProof.map hexBytes)),
        some (quantity p.balance), some (fixed p.codeHash), some (quantity p.nonce),
        some (fixed p.storageHash), some (array (p.storageProof.map storageProof))] :=
    fields?_zip _ [_, _, _, _, _, _, _] (by decide) rfl
  have hproof := listOf_map fun b (_ : b ∈ p.accountProof) => hexBytes?_hexBytes b
  have hslots := listOf_map fun s (_ : s ∈ p.storageProof) => storageProof?_storageProof s
  rw [accountProof?, hfields]
  simp [address?, word?, fixed?_fixed, quantity?_quantity, hproof, hslots]

theorem header?_header (h : BlockHeader) : header? (header h) = some h := by
  have hfields : fields? ["number", "hash", "parentHash", "stateRoot"] (header h) =
      some [some (nat h.number.toNat), some (fixed h.hash), some (fixed h.parentHash),
        some (fixed h.stateRoot)] :=
    fields?_zip _ [_, _, _, _] (by decide) rfl
  rw [header?, hfields]
  simp [uint64?_nat, word?, fixed?_fixed]

theorem preparedBlock?_preparedBlock (p : PreparedBlock) :
    preparedBlock? (preparedBlock p) = some p := by
  have hfields : fields? ["chainId", "block", "parent", "preProofs", "postProofs"]
      (preparedBlock p) =
      some [some (nat p.chainId.toNat), some (header p.block), some (header p.parent),
        some (array (p.preProofs.map accountProof)),
        some (array (p.postProofs.map accountProof))] :=
    fields?_zip _ [_, _, _, _, _] (by decide) rfl
  have hpre := listOf_map fun a (_ : a ∈ p.preProofs) => accountProof?_accountProof a
  have hpost := listOf_map fun a (_ : a ∈ p.postProofs) => accountProof?_accountProof a
  rw [preparedBlock?, hfields]
  simp [uint64?_nat, header?_header, hpre, hpost]

@[simp] theorem plain_storageProof (p : StorageProof) : Plain (storageProof p) := by
  simp [storageProof]

@[simp] theorem plain_accountProof (p : AccountProof) : Plain (accountProof p) := by
  simp [accountProof]

@[simp] theorem plain_header (h : BlockHeader) : Plain (header h) := by
  simp [header]

theorem plain_preparedBlock (p : PreparedBlock) : Plain (preparedBlock p) := by
  simp [preparedBlock]

/-! ## Access lists -/

theorem accessList?_accessList (l : AccessList) : accessList? (accessList l) = some l := by
  have hentries : entriesOf (readFixed? 20) (listOf word?) (accessList l) =
      some (l.toList.map fun e => (e.1, e.2)) :=
    entriesOf_map (fun slots : List Word => array (slots.map fixed)) (f := fun slots => slots)
      (fun e _ => readFixed?_marked e.1) fun e _ => listOf_map fun w _ => fixed?_fixed w
  have hslots (t : Table Word Unit) : Table.ofList (t.keys.map fun slot => (slot, ())) = t := by
    have hkeys : t.keys.map (fun slot => (slot, ())) = t.entries := by
      rw [Table.keys, List.map_map]
      exact List.map_id _
    rw [hkeys, Table.ofList_entries]
  have haccounts : l.toList.map (fun e => (e.1, Table.ofList (e.2.map fun slot => (slot, ())))) =
      l.accounts.entries := by
    simp [AccessList.toList, Function.comp_def, hslots]
  rw [accessList?, hentries]
  show some (AccessList.mk (Table.ofList ((l.toList.map fun e => (e.1, e.2)).map fun e =>
    (e.1, Table.ofList (e.2.map fun slot => (slot, ())))))) = some l
  rw [List.map_id', haccounts, Table.ofList_entries]

theorem plain_accessList (l : AccessList) : Plain (accessList l) :=
  plain_entries (fun slots : List Word => array (slots.map fixed)) l.toList fun slots => by simp

/-! ## Node sets -/

theorem owner?_owner (o : TrieOwner) : owner? (owner o) = some o := by
  cases o with
  | account => rfl
  | storage h =>
    rw [owner, owner?]
    simp [word?, fixed?_fixed]

theorem provedNode?_provedNode (n : ProvedNode) : provedNode? (provedNode n) = some n := by
  have hfields : fields? ["hash", "blob"] (provedNode n) =
      some [some (fixed n.hash), some (hexBytes n.blob)] :=
    fields?_zip _ [_, _] (by decide) rfl
  rw [provedNode?, hfields]
  simp [word?, fixed?_fixed, hexBytes?_hexBytes]

theorem byPath?_byPath {write : α → Json} {read : Json → Option β} {f : α → β} (t : Table Path α)
    (h : ∀ x, read (write x) = some (f x)) :
    byPath? read (byPath write t) = some (t.map fun _ => f) := by
  have hentries : entriesOf readPath? read (byPath write t) =
      some (t.map fun _ => f).entries :=
    entriesOf_map write (fun e _ => readPath?_toText e.1) fun e _ => h e.2
  rw [byPath?, hentries, Option.map_some, Table.ofList_entries]

theorem leaves?_byPath (t : Table Path Bytes) : leaves? (byPath hexBytes t) = some t := by
  have htexts : byPath? text? (byPath hexBytes t) = some (t.map fun _ => Hex.marked) :=
    byPath?_byPath t fun _ => rfl
  have hvalues : (t.map fun _ => Hex.marked).entries.mapM
      (fun e => (Hex.unmarked? e.2).bind fun b => pure (e.1, b)) = some t.entries :=
    mapM_map_self fun e _ => by
      show (Hex.unmarked? (Hex.marked e.2)).bind _ = _
      rw [Hex.unmarked?_marked]
      rfl
  rw [leaves?, htexts]
  simp only [Option.bind_eq_bind, Option.bind_some, hvalues]
  exact congrArg some (Table.ofList_entries t)

theorem nodeSet?_nodeSet (s : NodeSet) : nodeSet? (nodeSet s) = some s := by
  have hfields : fields? ["owner", "nodes", "leaves"] (nodeSet s) =
      some [some (owner s.owner), some (byPath provedNode s.nodes),
        some (byPath hexBytes s.leaves)] :=
    fields?_zip _ [_, _, _] (by decide) rfl
  have hnodes : byPath? provedNode? (byPath provedNode s.nodes) = some s.nodes := by
    rw [byPath?_byPath (f := fun n => n) s.nodes provedNode?_provedNode]
    simp [Table.map]
  rw [nodeSet?, hfields]
  simp [owner?_owner, hnodes, leaves?_byPath]

theorem plain_owner (o : TrieOwner) : Plain (owner o) := by
  cases o <;> simp [owner]

theorem plain_nodeSet (s : NodeSet) : Plain (nodeSet s) := by
  have hnodes : Plain (byPath provedNode s.nodes) :=
    plain_entries provedNode s.nodes.entries fun n => by simp [provedNode]
  have hleaves : Plain (byPath hexBytes s.leaves) :=
    plain_entries hexBytes s.leaves.entries plain_hexBytes
  simp [nodeSet, plain_owner, hnodes, hleaves]

end Stateless.Json
