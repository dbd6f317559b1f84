import Stateless.Account.Basic
import Stateless.Proofs.Rlp.Values
import Stateless.Proofs.Trie.Storable
import Stateless.Quantity

/-!
# Accounts and storage words read back

What the state tries hold is read back as it was written, and it can be stored. A number that fits
into its type is also read back from a quantity.
-/

namespace Stateless

namespace FixedBytes

variable {n : Nat} (a : FixedBytes n)

theorem toNat_lt : a.toNat < 256 ^ n := by
  have h := Bytes.toNat_lt a.toBytes
  rwa [a.length_eq] at h

@[simp] theorem ofNat_toNat : FixedBytes.ofNat n a.toNat = a := by
  ext1
  have h := Bytes.ofNatWidth_toNat a.toBytes
  rwa [a.length_eq] at h

end FixedBytes

/-! ## Items -/

namespace Rlp

variable {n w : Nat} {item p : Bytes}

theorem length_digits_le (h : n < 256 ^ w) : (Bytes.ofNat n).length ≤ w := by
  rw [Bytes.length_ofNat]
  exact Bytes.digitCount_le h

theorem frames_number (h : n < 256 ^ 32) : Frames (number n) (Bytes.ofNat n) := by
  have hlen := length_digits_le h
  exact frames_data (by omega)

theorem length_number_le (h : n < 256 ^ 32) : (number n).length ≤ 41 := by
  have hlen := length_digits_le h
  have := length_data_le (b := Bytes.ofNat n) (by omega)
  rw [number]
  omega

theorem frames_word (w : Word) : Frames (data w.toBytes) w.toBytes :=
  frames_data (by rw [w.length_eq]; decide)

/-- Items are not empty. -/
theorem Frames.ne_nil (h : Frames item p) : item ≠ [] := by
  rintro rfl
  have := (takeItem_ok (h.takeItem [])).2
  simp at this

end Rlp

/-! ## Accounts -/

namespace Account

variable (a : Account)

theorem nonce_lt : a.nonce.toNat < 256 ^ 32 := a.nonce.toNat_lt.trans (by decide)

theorem balance_lt : a.balance.toNat < 256 ^ 32 := a.balance.isLt.trans_le (by decide)

/-- The items of an account. -/
def items : List Bytes :=
  [Rlp.number a.nonce.toNat, Rlp.number a.balance.toNat, Rlp.data a.storageRoot.toBytes,
    Rlp.data a.codeHash.toBytes]

theorem length_items_le : a.items.flatten.length ≤ 148 := by
  have hnonce := Rlp.length_number_le a.nonce_lt
  have hbalance := Rlp.length_number_le a.balance_lt
  have hroot := Trie.length_data_word a.storageRoot
  have hcode := Trie.length_data_word a.codeHash
  simp only [items, List.flatten_cons, List.flatten_nil, List.append_nil, List.length_append]
  omega

theorem length_items_lt : a.items.flatten.length < 256 ^ 8 := by
  have := a.length_items_le
  omega

theorem frames_encode : Rlp.Frames a.encode a.items.flatten := Rlp.frames_list a.length_items_lt

/-- An account is read back from its encoding. -/
@[simp] theorem decode_encode : decode a.encode = .ok a := by
  have hlist : Rlp.isList a.encode = true := Rlp.isList_list a.length_items_lt
  obtain ⟨head, hencode, hextent⟩ := a.frames_encode.extent []
  rw [List.append_nil] at hextent
  -- only the first item is taken from the payload, the others from what follows it
  have hfirst : (a.encode.drop head.length).take a.items.flatten.length =
      Rlp.number a.nonce.toNat ++ (Rlp.number a.balance.toNat ++
        (Rlp.data a.storageRoot.toBytes ++ (Rlp.data a.codeHash.toBytes ++ []))) := by
    rw [hencode, List.drop_left, List.take_length]
    rfl
  have hrest : a.encode.drop (head.length + (Rlp.number a.nonce.toNat).length) =
      Rlp.number a.balance.toNat ++ (Rlp.data a.storageRoot.toBytes ++
        (Rlp.data a.codeHash.toBytes ++ [])) := by
    rw [hencode, ← List.drop_drop, List.drop_left]
    exact List.drop_left
  have hnonce := (Rlp.frames_number a.nonce_lt).takeItem
  have hbalance := (Rlp.frames_number a.balance_lt).takeItem
  have hroot := (Rlp.frames_word a.storageRoot).takeItem
  have hcode := (Rlp.frames_word a.codeHash).takeItem
  rw [decode, hlist]
  simp only [bind, Except.bind, Bool.not_true, Bool.false_eq_true, if_false, hextent, hfirst, hnonce,
    Rlp.number64_number, hrest, hbalance, Rlp.number256_number, hroot, Rlp.word_data, hcode]
  rfl

theorem encode_ne_nil : a.encode ≠ [] := a.frames_encode.ne_nil

theorem length_encode_lt : a.encode.length < twoPow 63 := by
  have hlen := a.length_items_le
  have hencode : a.encode.length ≤ a.items.flatten.length + 9 := Rlp.length_list_le a.length_items_lt
  have : 157 < twoPow 63 := by decide
  omega

end Account

/-! ## Storage words -/

section

variable (w : Word)

/-- A storage word is read back from its encoding. -/
@[simp] theorem decodeStorage_encodeStorage : decodeStorage (encodeStorage w) = .ok w := by
  have hlt : w.toNat < 2 ^ 256 := w.toNat_lt.trans_le (by decide)
  have hnumber := Rlp.number256_number (BitVec.ofNat 256 w.toNat)
  rw [BitVec.toNat_ofNat, Nat.mod_eq_of_lt hlt] at hnumber
  rw [decodeStorage, encodeStorage, hnumber, Except.map, BitVec.toNat_ofNat, Nat.mod_eq_of_lt hlt,
    FixedBytes.ofNat_toNat]

theorem encodeStorage_ne_nil : encodeStorage w ≠ [] :=
  (Rlp.frames_number w.toNat_lt).ne_nil

theorem length_encodeStorage_lt : (encodeStorage w).length < twoPow 63 := by
  have hlen := Rlp.length_number_le w.toNat_lt
  have : 41 < twoPow 63 := by decide
  rw [encodeStorage]
  omega

end

theorem Account.encode_injective : Function.Injective Account.encode := by
  intro a b h
  have hread : decode a.encode = decode b.encode := congrArg decode h
  rw [decode_encode, decode_encode] at hread
  exact Except.ok.inj hread

theorem encodeStorage_injective : Function.Injective encodeStorage := by
  intro w x h
  have hread : decodeStorage (encodeStorage w) = decodeStorage (encodeStorage x) :=
    congrArg decodeStorage h
  rw [decodeStorage_encodeStorage, decodeStorage_encodeStorage] at hread
  exact Except.ok.inj hread

/-- Accounts and storage words are read back as they were written, so no two of a kind are written
alike, and something is always written. -/
theorem state_values_read_back :
    (∀ a : Account, Account.decode a.encode = .ok a) ∧
    (∀ w : Word, decodeStorage (encodeStorage w) = .ok w) ∧
    Function.Injective Account.encode ∧ Function.Injective encodeStorage ∧
    (∀ a : Account, a.encode ≠ []) ∧ ∀ w : Word, encodeStorage w ≠ [] :=
  ⟨Account.decode_encode, decodeStorage_encodeStorage, Account.encode_injective,
    encodeStorage_injective, Account.encode_ne_nil, encodeStorage_ne_nil⟩

/-! ## Quantities -/

namespace Quantity

theorem digits_ofNat (n : Nat) : (ofNat n).digits = Bytes.ofNat n := Bytes.trim_ofNat n

theorem toUInt64?_ofNat (n : UInt64) : (ofNat n.toNat).toUInt64? = some n := by
  have hlen : (ofNat n.toNat).digits.length ≤ 8 := by
    rw [digits_ofNat]
    exact Rlp.length_digits_le n.toNat_lt
  rw [toUInt64?, if_pos hlen, toNat, digits_ofNat, Bytes.toNat_ofNat, UInt64.ofNat_toNat]

theorem toAmount?_ofNat (n : Amount) : (ofNat n.toNat).toAmount? = some n := by
  have hlen : (ofNat n.toNat).digits.length ≤ 32 := by
    rw [digits_ofNat]
    exact Rlp.length_digits_le (n.isLt.trans_le (by decide))
  rw [toAmount?, if_pos hlen, toNat, digits_ofNat, Bytes.toNat_ofNat, BitVec.ofNat_toNat,
    BitVec.setWidth_eq]

end Quantity

end Stateless
