import Stateless.Proofs.State.AccessList
import Stateless.Reader.Basic
import Stateless.State.World

/-!
# Reading sessions

A reader can be copied, and its copies can be asked one after another in any order. What every
single read and every single copy preserve, a whole session preserves (`Session.run_keeps`). The
copies of a recording reader together list all that they have been asked for (`Session.recorded`).
-/

namespace Stateless

/-- What a reader can be asked for: an account, or the word in a slot of one. -/
inductive Query where
  | account (a : Address)
  | storage (a : Address) (slot : Word)
  deriving DecidableEq

/-- What a reader answers. -/
inductive Reply where
  | account (r : Option Account)
  | word (w : Word)
  deriving DecidableEq

namespace Query

/-- Whether an access list has what is asked for. -/
def Listed (list : AccessList) : Query → Prop
  | account a => list.containsAccount a = true
  | storage a slot => list.containsSlot a slot = true

/-- The account that is asked for, or whose storage is. -/
def address : Query → Address
  | account a => a
  | storage a _ => a

/-- The access list with what is asked for. -/
def record : Query → AccessList → AccessList
  | account a, list => list.addAccount a
  | storage a slot, list => list.addSlot a slot

variable {list : AccessList} {q : Query}

theorem Listed.address (h : q.Listed list) : list.containsAccount q.address = true := by
  cases q with
  | account a => exact h
  | storage a slot => exact AccessList.containsAccount_of_containsSlot h

theorem listed_record (q : Query) (list : AccessList) : q.Listed (q.record list) := by
  cases q with
  | account a => exact AccessList.containsAccount_addAccount.2 (Or.inl rfl)
  | storage a slot => exact AccessList.containsSlot_addSlot.2 (Or.inl ⟨rfl, rfl⟩)

theorem Listed.record (h : q.Listed list) (q' : Query) : q.Listed (q'.record list) := by
  cases q with
  | account a =>
    cases q' with
    | account b => exact AccessList.containsAccount_addAccount.2 (Or.inr h)
    | storage b slot => exact AccessList.containsAccount_addSlot.2 (Or.inr h)
  | storage a slot =>
    cases q' with
    | account b => exact AccessList.containsSlot_addAccount.trans h
    | storage b x => exact AccessList.containsSlot_addSlot.2 (Or.inr h)

variable [Hasher]

/-- What there is in a state. -/
def reply (c : CommittedWorld) : Query → Reply
  | account a => .account (c.account? a)
  | storage a slot => .word (c.word a slot)

end Query

section

variable [Hasher] [ForeignReaders]

/-- Asks a reader. -/
def Reader.ask (r : Reader) (q : Query) (s : Shared) : Except StateError Reply × Reader × Shared :=
  match q with
  | .account a =>
    let (v, s) := r.account a s
    (v.map .account, r, s)
  | .storage a slot =>
    let (v, r, s) := r.storage a slot s
    (v.map .word, r, s)

/-- A recording reader records the question and passes it on. -/
theorem Reader.ask_recording (i : Nat) (r : Reader) (q : Query) (s : Shared) :
    (recording i r).ask q s =
      let (v, r, s) := r.ask q (s.updateRecord i q.record)
      (v, recording i r, s) := by
  cases q with
  | account a => rfl
  | storage a slot => rfl

omit [Hasher] [ForeignReaders] in
theorem Shared.record_updateRecord (s : Shared) (i : Nat) (f : AccessList → AccessList) :
    (s.updateRecord i f).record i = f (s.record i) := by
  rw [updateRecord, record, Table.find?_insert, if_pos rfl]
  rfl

omit [Hasher] [ForeignReaders] in
theorem Shared.record_updateRecord_of_ne {i j : Nat} (h : i ≠ j) (s : Shared)
    (f : AccessList → AccessList) : (s.updateRecord j f).record i = s.record i := by
  rw [updateRecord, record, Table.find?_insert, if_neg h]
  rfl

end

/-! ## Sessions -/

/-- Copies of a reader with what they share, and every question with its answer, in order. -/
structure Session [ForeignReaders] where
  copies : List Reader
  shared : Shared
  log : List (Query × Except StateError Reply)

/-- What can be done with one of several copies: it is copied again, or asked. -/
inductive Turn where
  | copy (i : Nat)
  | ask (i : Nat) (q : Query)
  deriving DecidableEq

namespace Session

variable [ForeignReaders]

/-- A reader that has not been asked yet. -/
def start (r : Reader) (s : Shared) : Session := ⟨[r], s, []⟩

variable [Hasher]

/-- Uses a copy, if there is such a copy. -/
def step (s : Session) : Turn → Session
  | .copy i =>
    match s.copies[i]? with
    | some r => { s with copies := s.copies ++ [r.copy s.shared.snapshots] }
    | none => s
  | .ask i q =>
    match s.copies[i]? with
    | some r =>
      let (v, r, shared) := r.ask q s.shared
      ⟨s.copies.set i r, shared, s.log ++ [(q, v)]⟩
    | none => s

/-- Uses copies one after another. -/
def run (turns : List Turn) (s : Session) : Session := turns.foldl step s

/-- Every copy satisfies one predicate; what they share and have answered satisfies another. -/
structure Keeps (Own : Reader → Prop)
    (Common : Shared → List (Query × Except StateError Reply) → Prop) (s : Session) : Prop where
  copies {r : Reader} : r ∈ s.copies → Own r
  common : Common s.shared s.log

variable {Own : Reader → Prop} {Common : Shared → List (Query × Except StateError Reply) → Prop}
variable {s : Session}

theorem Keeps.step
    (hask : ∀ r q shared log, Own r → Common shared log → Own (r.ask q shared).2.1 ∧
      Common (r.ask q shared).2.2 (log ++ [(q, (r.ask q shared).1)]))
    (hcopy : ∀ r snapshots, Own r → Own (r.copy snapshots)) (h : s.Keeps Own Common) (turn : Turn) : (s.step turn).Keeps Own Common := by
  cases turn with
  | copy i =>
    rw [Session.step]
    split
    · next r hr =>
      refine ⟨fun hmem => ?_, h.common⟩
      rcases List.mem_append.1 hmem with hmem | hmem
      · exact h.copies hmem
      · rw [List.mem_singleton.1 hmem]
        exact hcopy r _ (h.copies (List.mem_of_getElem? hr))
    · exact h
  | ask i q =>
    rw [Session.step]
    split
    · next r hr =>
      obtain ⟨hown, hcommon⟩ := hask r q _ _ (h.copies (List.mem_of_getElem? hr)) h.common
      refine ⟨fun hmem => ?_, hcommon⟩
      rcases List.mem_or_eq_of_mem_set hmem with hmem | rfl
      · exact h.copies hmem
      · exact hown
    · exact h

/-- What every read and every copy preserve, a session preserves. -/
theorem run_keeps
    (hask : ∀ r q shared log, Own r → Common shared log → Own (r.ask q shared).2.1 ∧
      Common (r.ask q shared).2.2 (log ++ [(q, (r.ask q shared).1)]))
    (hcopy : ∀ r snapshots, Own r → Own (r.copy snapshots)) (h : s.Keeps Own Common)
    (turns : List Turn) : (s.run turns).Keeps Own Common := by
  induction turns generalizing s with
  | nil => exact h
  | cons turn turns ih => exact ih (h.step hask hcopy turn)

/-- The copies of a recorded reader that answers by a function of the question, and stays as it is
when it is asked or copied, answer by that function, and what they have been asked is listed. -/
theorem recorded {r : Reader} {reply : Query → Except StateError Reply} {i : Nat} {shared : Shared}
    (hask : ∀ q s, r.ask q s = (reply q, r, s)) (hcopy : ∀ snapshots, r.copy snapshots = r)
    (turns : List Turn) :
    ∀ x ∈ ((start (.recording i r) shared).run turns).log, x.2 = reply x.1 ∧
      x.1.Listed (((start (.recording i r) shared).run turns).shared.record i) := by
  have hstart : (start (.recording i r) shared).Keeps (fun r' => r' = .recording i r)
      (fun s log => ∀ x ∈ log, x.2 = reply x.1 ∧ x.1.Listed (s.record i)) :=
    ⟨List.mem_singleton.1, fun x hx => absurd hx List.not_mem_nil⟩
  refine (run_keeps (fun r' q s log hr hlog => ?_) (fun r' snapshots hr => by
    rw [hr, Reader.copy, hcopy]) hstart turns).common
  -- the question is recorded before it is passed on, and nothing is ever taken off the record
  rw [hr, Reader.ask_recording, hask]
  refine ⟨rfl, fun x hx => ?_⟩
  dsimp only
  rw [Shared.record_updateRecord]
  rcases List.mem_append.1 hx with hx | hx
  · exact ⟨(hlog x hx).1, (hlog x hx).2.record q⟩
  · rw [List.mem_singleton.1 hx]
    exact ⟨rfl, q.listed_record _⟩

end Session

end Stateless
