import Stateless.Proofs.Reader.Session
import Stateless.Proofs.State.Prepared
import Stateless.Proofs.State.Snapshot

/-!
# Snapshots under generation

A snapshot is generated in the order of its keys. A key is the hashed address, and for a word the
hashed slot after it, so the keys of 32 and of 64 bytes are in one order: an account comes right
before its own words. Up to the marker the snapshot has what the finished one has, and beyond it
there is nothing, which must not be taken for an answer.

Writing to a snapshot and leaving out what is beyond a bound can be exchanged (`UpTo.write`), which
carries over to all writes (`upTo_ofWrites`). From there on an answer is a matter of the order of two
keys (`generation_honest`).
-/

namespace Stateless

/-! ## Parts of tables -/

section

variable {κ α : Type} [Ord κ] [Std.TransOrd κ] [Std.LawfulEqOrd κ]

/-- The entries of a table whose keys have a property, and no others. -/
def Table.Part (p : κ → Bool) (part whole : Table κ α) : Prop :=
  ∀ k, part.find? k = if p k then whole.find? k else none

/-- What is written to the whole is written to the part if its key belongs there. -/
theorem Table.Part.write [DecidableEq κ] {p : κ → Bool} {part whole : Table κ α}
    (h : part.Part p whole) (k : κ) (o : Option α) :
    (if p k then part.write k o else part).Part p (whole.write k o) := by
  intro k'
  by_cases hk : k' = k
  · subst hk
    by_cases hp : p k' = true
    · rw [if_pos hp, if_pos hp, find?_write, find?_write, Function.update_self,
        Function.update_self]
    · rw [if_neg hp, if_neg hp, h, if_neg hp]
  · have hwhole : (whole.write k o).find? k' = whole.find? k' := by
      rw [find?_write, Function.update_of_ne hk]
    rw [hwhole, ← h k']
    split
    · rw [find?_write, Function.update_of_ne hk]
    · rfl

end

/-! ## Questions and their keys -/

namespace Query

variable [Hasher]

/-- The key under which a snapshot has what is asked for. -/
def key : Query → Bytes
  | account a => (hashedAddress a).toBytes
  | storage a slot => Snapshot.storageKey (hashedAddress a) (hashedSlot slot)

/-- Whether the key is at most a bound. -/
def reached (m : Bytes) (q : Query) : Bool := (compare q.key m).isLE

/-- What is made of the bytes under the key. -/
def decode : Query → Option Bytes → Except StateError Reply
  | account _, none => .ok (.account none)
  | account _, some b => ((Account.decode b).mapError .decode).map fun r => .account (some r)
  | storage .., none => .ok (.word .zero)
  | storage .., some b => ((decodeStorage b).mapError .decode).map .word

end Query

namespace Snapshot

variable [Hasher] {s part whole : Snapshot} {m m' : Bytes} {q : Query}

/-- What a reader of the snapshot answers. -/
def answer (s : Snapshot) : Query → Except StateError Reply
  | .account a => (s.readAccount a).map .account
  | .storage a slot => (s.readStorage a slot).map .word

/-- The bytes under the key of what is asked for. -/
def bytesOf? (s : Snapshot) : Query → Option Bytes
  | .account a => s.accounts.find? (hashedAddress a)
  | .storage a slot => s.storage.find? (storageKey (hashedAddress a) (hashedSlot slot))

theorem answer_of_ok (h : s.checkReadable q.key = .ok ()) : s.answer q = q.decode (s.bytesOf? q) := by
  cases q with
  | account a =>
    have hbytes : s.account (hashedAddress a) = .ok (s.accounts.find? (hashedAddress a)) := by
      rw [account, show s.checkReadable (hashedAddress a).toBytes = .ok () from h]
      rfl
    rw [answer, readAccount, hbytes, bytesOf?]
    cases s.accounts.find? (hashedAddress a) with
    | none => rfl
    | some b =>
      show ((((Account.decode b).map some).mapError StateError.decode).map Reply.account) = _
      rw [Query.decode]
      cases Account.decode b <;> rfl
  | storage a slot =>
    have hbytes : s.word (hashedAddress a) (hashedSlot slot) =
        .ok (s.storage.find? (storageKey (hashedAddress a) (hashedSlot slot))) := by
      rw [word, show s.checkReadable (storageKey _ _) = .ok () from h]
      rfl
    rw [answer, readStorage, hbytes, bytesOf?]
    cases s.storage.find? (storageKey (hashedAddress a) (hashedSlot slot)) with
    | none => rfl
    | some b => rfl

theorem answer_of_error {e : SnapshotError} (h : s.checkReadable q.key = .error e) :
    s.answer q = .error (.snapshot e) := by
  cases q with
  | account a =>
    have hbytes : s.account (hashedAddress a) = .error e := by
      rw [account, show s.checkReadable (hashedAddress a).toBytes = .error e from h]
      rfl
    rw [answer, readAccount, hbytes]
    rfl
  | storage a slot =>
    have hbytes : s.word (hashedAddress a) (hashedSlot slot) = .error e := by
      rw [word, show s.checkReadable (storageKey _ _) = .error e from h]
      rfl
    rw [answer, readStorage, hbytes]
    rfl

theorem answer_stale (s : Snapshot) (q : Query) : s.markStale.answer q = .error (.snapshot .stale) :=
  answer_of_error rfl

theorem ask_sharedSnapshot [ForeignReaders] (i : Nat) (q : Query) (shared : Shared) :
    (Reader.sharedSnapshot i).ask q shared =
      ((shared.snapshot i).answer q, Reader.sharedSnapshot i, shared) := by
  cases q with
  | account a => rfl
  | storage a slot => rfl

/-! ## Writes -/

/-- What is written to a snapshot. -/
inductive Write where
  | account (a : Address) (r : Account)
  | word (a : Address) (slot value : Word)

/-- The question that a write answers. -/
def Write.query : Write → Query
  | account a _ => .account a
  | word a slot _ => .storage a slot

def write (s : Snapshot) : Write → Snapshot
  | .account a r => s.insertAccount a r
  | .word a slot value => s.insertStorage a slot value

/-- The complete snapshot of a state that is given by its accounts and words, written in any order.
-/
def ofWrites (ws : List Write) : Snapshot := ws.foldl write empty

/-- The snapshot of the same state when it has been generated up to a key. -/
def generating (ws : List Write) (m : Bytes) : Snapshot :=
  (ofWrites (ws.filter fun w => w.query.reached m)).setMarker (some m)

/-- A snapshot has what another one has up to a bound, and nothing else. -/
structure UpTo (m : Bytes) (part whole : Snapshot) : Prop where
  accounts : part.accounts.Part (fun h => (compare h.toBytes m).isLE) whole.accounts
  storage : part.storage.Part (fun k => (compare k m).isLE) whole.storage

omit [Hasher] in
theorem upTo_empty (m : Bytes) : UpTo m empty empty where
  accounts h := by simp [empty]
  storage k := by simp [empty]

theorem UpTo.bytesOf? (h : UpTo m part whole) (q : Query) :
    part.bytesOf? q = if q.reached m then whole.bytesOf? q else none := by
  cases q with
  | account a => exact h.accounts (hashedAddress a)
  | storage a slot => exact h.storage (storageKey (hashedAddress a) (hashedSlot slot))

/-- A write goes to the part exactly if its key is within the bound. -/
theorem UpTo.write (h : UpTo m part whole) (w : Write) :
    UpTo m (if w.query.reached m then part.write w else part) (whole.write w) := by
  cases w with
  | account a r =>
    have haccounts := h.accounts.write (hashedAddress a) (some r.encode)
    show UpTo m (if (compare (hashedAddress a).toBytes m).isLE then part.insertAccount a r
      else part) (whole.insertAccount a r)
    split
    · next hle =>
      rw [if_pos hle] at haccounts
      exact ⟨haccounts, h.storage⟩
    · next hgt =>
      rw [if_neg hgt] at haccounts
      exact ⟨haccounts, h.storage⟩
  | word a slot value =>
    have hstorage := h.storage.write (storageKey (hashedAddress a) (hashedSlot slot))
      (value.nonzero?.map encodeStorage)
    have hsame : ∀ s : Snapshot, (s.insertStorage a slot value).accounts = s.accounts := by
      intro s
      unfold insertStorage
      split <;> rfl
    show UpTo m (if (compare (storageKey (hashedAddress a) (hashedSlot slot)) m).isLE then
      part.insertStorage a slot value else part) (whole.insertStorage a slot value)
    split
    · next hle =>
      rw [if_pos hle] at hstorage
      refine ⟨?_, ?_⟩
      · rw [hsame, hsame]
        exact h.accounts
      · rw [storage_insertStorage, storage_insertStorage]
        exact hstorage
    · next hgt =>
      rw [if_neg hgt] at hstorage
      refine ⟨?_, ?_⟩
      · rw [hsame]
        exact h.accounts
      · rw [storage_insertStorage]
        exact hstorage

theorem upTo_ofWrites (ws : List Write) (m : Bytes) :
    UpTo m (ofWrites (ws.filter fun w => w.query.reached m)) (ofWrites ws) := by
  have hrun : ∀ (ws : List Write) (part whole : Snapshot), UpTo m part whole →
      UpTo m ((ws.filter fun w => w.query.reached m).foldl write part) (ws.foldl write whole) := by
    intro ws
    induction ws with
    | nil => exact fun _ _ h => h
    | cons w ws ih =>
      intro part whole h
      have hstep := h.write w
      rw [List.filter_cons]
      split
      · next hle =>
        rw [if_pos hle] at hstep
        exact ih _ _ hstep
      · next hgt =>
        rw [if_neg hgt] at hstep
        exact ih _ _ hstep
  exact hrun ws empty empty (upTo_empty m)

theorem holds_ofWrites (ws : List Write) : ∃ records words, (ofWrites ws).Holds records words := by
  have hrun : ∀ (ws : List Write) (s : Snapshot), (∃ records words, s.Holds records words) →
      ∃ records words, (ws.foldl write s).Holds records words := by
    intro ws
    induction ws with
    | nil => exact fun _ h => h
    | cons w ws ih =>
      rintro s ⟨records, words, h⟩
      refine ih _ ?_
      cases w with
      | account a r => exact ⟨_, _, h.insertAccount a r⟩
      | word a slot value => exact ⟨_, _, h.insertStorage a slot value⟩
  exact hrun ws empty ⟨_, _, holds_empty⟩

/-! ## Answers -/

theorem Holds.answer {records : Table Word Account} {words : Word → Table Word Word}
    (h : s.Holds records words) (q : Query) : ∃ r, s.answer q = .ok r := by
  cases q with
  | account a => exact ⟨_, by rw [Snapshot.answer, h.readAccount]; rfl⟩
  | storage a slot => exact ⟨_, by rw [Snapshot.answer, h.readStorage]; rfl⟩

/-- Under generation a question is answered as by the finished snapshot, or its key is beyond the
marker and that is said. -/
theorem answer_generating (ws : List Write) (m : Bytes) (q : Query) :
    (generating ws m).answer q =
      if q.reached m then (ofWrites ws).answer q else .error (.snapshot (.notGenerated q.key)) := by
  obtain ⟨_, _, hpart⟩ := holds_ofWrites (ws.filter fun w => w.query.reached m)
  obtain ⟨_, _, hwhole⟩ := holds_ofWrites ws
  have hcheck : (generating ws m).checkReadable q.key =
      if compare q.key m = .gt then .error (.notGenerated q.key) else .ok () := by
    rw [Snapshot.checkReadable, generating, setMarker]
    simp only [hpart.fresh, Bool.false_eq_true, if_false]
  have hentry := (upTo_ofWrites ws m).bytesOf? q
  by_cases hq : q.reached m = true
  · have hle : compare q.key m ≠ .gt := Ordering.isLE_iff_ne_gt.1 hq
    rw [if_neg hle] at hcheck
    rw [if_pos hq] at hentry ⊢
    rw [answer_of_ok hcheck, answer_of_ok (hwhole.checkReadable q.key), ← hentry]
    cases q <;> rfl
  · have hgt : compare q.key m = .gt := by
      by_contra hne
      exact hq (Ordering.isLE_iff_ne_gt.2 hne)
    rw [if_pos hgt] at hcheck
    rw [if_neg hq, answer_of_error hcheck]

theorem reached_mono (hm : (compare m m').isLE) (h : q.reached m = true) : q.reached m' = true :=
  Std.TransCmp.isLE_trans h hm

/-- A snapshot under generation never answers wrongly. It has what the complete one has up to the
marker. A question whose key is beyond the marker is refused, any other is answered as by the complete
snapshot, which answers all; an answer stays when the generation goes on; and once the snapshot is
stale, whoever reads it is refused everything. -/
theorem generation_honest [ForeignReaders] (ws : List Write) (hm : (compare m m').isLE) (q : Query) :
    UpTo m (generating ws m) (ofWrites ws) ∧
    (∃ r, (ofWrites ws).answer q = .ok r) ∧
    ((generating ws m).answer q = if (compare q.key m).isLE then (ofWrites ws).answer q
      else .error (.snapshot (.notGenerated q.key))) ∧
    (∀ r, (generating ws m).answer q = .ok r → (generating ws m').answer q = .ok r) ∧
    ∀ (i : Nat) (shared : Shared),
      ((Reader.sharedSnapshot i).ask q shared).1 = (shared.snapshot i).answer q ∧
      ((Reader.sharedSnapshot i).ask q (shared.updateSnapshot i markStale)).1 =
        .error (.snapshot .stale) := by
  obtain ⟨_, _, hwhole⟩ := holds_ofWrites ws
  have hpart := upTo_ofWrites ws m
  refine ⟨⟨hpart.accounts, hpart.storage⟩, hwhole.answer q, answer_generating ws m q, fun r hr => ?_,
    fun i shared => ⟨?_, ?_⟩⟩
  · rw [answer_generating] at hr ⊢
    by_cases hq : q.reached m = true
    · rw [if_pos hq] at hr
      rw [if_pos (reached_mono hm hq), hr]
    · rw [if_neg hq] at hr
      cases hr
  · rw [ask_sharedSnapshot]
  · have hstale : (shared.updateSnapshot i markStale).snapshot i =
        (shared.snapshot i).markStale := by
      rw [Shared.updateSnapshot, Shared.snapshot, Table.find?_insert, if_pos rfl]
      rfl
    rw [ask_sharedSnapshot, hstale, answer_stale]

end Snapshot

/-! ## An instance -/

namespace Clearing

/-- The account and its word, which comes right after it. -/
def writes : List Snapshot.Write := [.word address slot word, .account address fullRecord]

theorem key_account : (Query.account address).key = addressHash.toBytes := by
  rw [Query.key, hashedAddress_address]

theorem key_slot :
    (Query.storage address slot).key = addressHash.toBytes ++ slotHash.toBytes := by
  rw [Query.key, Snapshot.storageKey, hashedAddress_address, hashedSlot_slot]

theorem key_lt : compare (Query.account address).key (Query.storage address slot).key = .lt := by
  rw [key_account, key_slot]
  decide

theorem answer_account :
    (Snapshot.ofWrites writes).answer (.account address) = .ok (.account (some fullRecord)) := by
  have h := (Snapshot.holds_empty.insertStorage address slot word).insertAccount address fullRecord
  show ((((Snapshot.empty.insertStorage address slot word).insertAccount address
    fullRecord).readAccount address).map Reply.account) = _
  rw [h.readAccount, Table.find?_insert, if_pos rfl]
  rfl

theorem answer_slot :
    (Snapshot.ofWrites writes).answer (.storage address slot) = .ok (.word word) := by
  have h := (Snapshot.holds_empty.insertStorage address slot word).insertAccount address fullRecord
  have hword : word.nonzero? = some word := rfl
  show ((((Snapshot.empty.insertStorage address slot word).insertAccount address
    fullRecord).readStorage address slot).map Reply.word) = _
  rw [h.readStorage, Function.update_self, Table.find?_write, Function.update_self, hword]
  rfl

end Clearing

open Clearing in
/-- The marker stands at an account, then at its word. -/
theorem Snapshot.generation_honest_clearing :
    (compare (Query.account address).key (Query.storage address slot).key).isLE ∧
    (generating writes (Query.account address).key).answer (.account address) =
      .ok (.account (some fullRecord)) ∧
    (generating writes (Query.account address).key).answer (.storage address slot) =
      .error (.snapshot (.notGenerated (addressHash.toBytes ++ slotHash.toBytes))) ∧
    (generating writes (Query.storage address slot).key).answer (.account address) =
      .ok (.account (some fullRecord)) ∧
    (generating writes (Query.storage address slot).key).answer (.storage address slot) =
      .ok (.word Clearing.word) := by
  have hself : ∀ q : Query, compare q.key q.key = .eq := fun _ => Std.ReflCmp.compare_self
  have hle : (compare (Query.account address).key (Query.storage address slot).key).isLE := by
    rw [key_lt]
    rfl
  have hlast : (compare (Query.storage address slot).key (Query.storage address slot).key).isLE := by
    rw [hself]
    rfl
  obtain ⟨-, -, haccount, hstays, -⟩ := generation_honest writes hle (.account address)
  obtain ⟨-, -, hbeyond, -⟩ := generation_honest writes hle (.storage address slot)
  obtain ⟨-, -, hslot, -⟩ := generation_honest writes hlast (.storage address slot)
  rw [hself, if_pos (by decide), answer_account] at haccount
  rw [Std.OrientedCmp.gt_of_lt key_lt, if_neg (by decide), key_slot] at hbeyond
  rw [if_pos hlast, answer_slot] at hslot
  exact ⟨hle, haccount, hbeyond, hstays _ haccount, hslot⟩

end Stateless
