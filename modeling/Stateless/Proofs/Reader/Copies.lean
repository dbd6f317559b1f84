import Mathlib.Data.List.Forall2
import Stateless.Proofs.Reader.Answers

/-!
# Copies of readers

A copy is made like its original: it reads the same nodes, snapshots and remote node, records in the
same place, and asks copies of the same readers in the same order (`Reader.alike_copy`). Only foreign
readers may be copied in ways of their own; without them a copy is the reader itself
(`Reader.copy_eq_self`). If every foreign reader is copied to one that cannot be told from it, then
so is every reader: whatever the copy is asked, it answers as the original would have
(`Reader.copy_answers`).
-/

namespace Stateless

/-- Related foreign readers answer alike, and they are still related after a read. -/
structure ForeignReaders.Simulation [ForeignReaders] (R : State → State → Prop) : Prop where
  account {f f' : State} (h : R f f') (t : Table Nat Snapshot) (a : Address) :
    ForeignReaders.account f t a = ForeignReaders.account f' t a
  storage {f f' : State} (h : R f f') (t : Table Nat Snapshot) (a : Address) (slot : Word) :
    (ForeignReaders.storage f t a slot).1 = (ForeignReaders.storage f' t a slot).1
  next {f f' : State} (h : R f f') (t : Table Nat Snapshot) (a : Address) (slot : Word) :
    R (ForeignReaders.storage f t a slot).2 (ForeignReaders.storage f' t a slot).2

namespace Reader

section

variable [ForeignReaders] {R : ForeignReaders.State → ForeignReaders.State → Prop}

theorem copyAll_eq_map (rs : List Reader) (t : Table Nat Snapshot) :
    copyAll rs t = rs.map fun r => r.copy t := by
  induction rs with
  | nil => rfl
  | cons r rs ih => rw [copyAll, ih, List.map_cons]

theorem copyAll_append (rs rs' : List Reader) (t : Table Nat Snapshot) :
    copyAll (rs ++ rs') t = copyAll rs t ++ copyAll rs' t := by
  rw [copyAll_eq_map, copyAll_eq_map, copyAll_eq_map, List.map_append]

/-- If copies of foreign readers are the readers themselves, then all copies are. -/
theorem copy_eq_self (hcopy : ∀ f t, ForeignReaders.copy f t = f) (r : Reader)
    (t : Table Nat Snapshot) : r.copy t = r := by
  induction r using Reader.induct with
  | foreign f => exact congrArg foreign (hcopy f t)
  | firstOf rs ih => rw [copy, copyAll_eq_map, List.map_congr_left ih, List.map_id']
  | recording i r ih => rw [copy, ih]
  | _ => rfl

/-- Readers that are made in the same way, up to foreign readers that are related. -/
inductive Alike (R : ForeignReaders.State → ForeignReaders.State → Prop) : Reader → Reader → Prop
  | tries (r : TrieReader) : Alike R (.tries r) (.tries r)
  | snapshot (v : Snapshot) : Alike R (.snapshot v) (.snapshot v)
  | sharedSnapshot (i : Nat) : Alike R (.sharedSnapshot i) (.sharedSnapshot i)
  | remote (node : RemoteNode) (block : UInt64) (root : Word) :
    Alike R (.remote node block root) (.remote node block root)
  | foreign {f f' : ForeignReaders.State} (h : R f f') : Alike R (.foreign f) (.foreign f')
  | firstOf {rs rs' : List Reader} (h : List.Forall₂ (Alike R) rs rs') :
    Alike R (.firstOf rs) (.firstOf rs')
  | recording {r r' : Reader} (i : Nat) (h : Alike R r r') :
    Alike R (.recording i r) (.recording i r')

/-- A copy is made like its original. -/
theorem alike_copy (hcopy : ∀ f t, R f (ForeignReaders.copy f t)) (r : Reader)
    (t : Table Nat Snapshot) : Alike R r (r.copy t) := by
  induction r using Reader.induct with
  | tries r => exact .tries r
  | snapshot v => exact .snapshot v
  | sharedSnapshot i => exact .sharedSnapshot i
  | remote node block root => exact .remote node block root
  | foreign f => exact .foreign (hcopy f t)
  | firstOf rs ih =>
    rw [copy, copyAll_eq_map]
    exact .firstOf (List.forall₂_map_right_iff.2 (List.forall₂_same.2 ih))
  | recording i r ih => exact .recording i ih

end

variable [Hasher] [ForeignReaders] {R : ForeignReaders.State → ForeignReaders.State → Prop}
variable {r r' : Reader} {rs rs' : List Reader} {q : Query}

/-- A read of readers that are made in the same way: they answer alike, they become alike, and what
they share becomes the same. -/
def ReadsAlike (R : ForeignReaders.State → ForeignReaders.State → Prop) (q : Query)
    (r r' : Reader) : Prop :=
  ∀ s, (r.ask q s).1 = (r'.ask q s).1 ∧ Alike R (r.ask q s).2.1 (r'.ask q s).2.1 ∧
    (r.ask q s).2.2 = (r'.ask q s).2.2

theorem alike_askAny (h : List.Forall₂ (Alike R) rs rs')
    (hask : ∀ r ∈ rs, ∀ r', Alike R r r' → ReadsAlike R q r r') (s : Shared) :
    (askAny rs q s).1 = (askAny rs' q s).1 ∧
      List.Forall₂ (Alike R) (askAny rs q s).2.1 (askAny rs' q s).2.1 ∧
      (askAny rs q s).2.2 = (askAny rs' q s).2.2 := by
  induction h generalizing s with
  | nil => exact ⟨rfl, .nil, rfl⟩
  | @cons r r' rs rs' hr hrs ih =>
    obtain ⟨hanswer, hnext, hshared⟩ := hask r List.mem_cons_self r' hr s
    rw [askAny_cons, askAny_cons, hanswer, hshared]
    cases (r'.ask q s).1 with
    | ok v => exact ⟨rfl, .cons hnext hrs, rfl⟩
    | error e =>
      obtain ⟨hanswers, hnexts, hshared'⟩ :=
        ih (fun r hr => hask r (List.mem_cons_of_mem _ hr)) (r'.ask q s).2.2
      exact ⟨congrArg (Except.mapError (e :: ·)) hanswers, .cons hnext hnexts, hshared'⟩

/-- Readers that are made in the same way cannot be told from each other by a read. -/
theorem Alike.ask (hR : ForeignReaders.Simulation R) (h : Alike R r r') (q : Query) :
    ReadsAlike R q r r' := by
  induction r using Reader.induct generalizing r' with
  | tries r =>
    cases h
    exact fun s => ⟨rfl, by cases q <;> exact .tries _, rfl⟩
  | snapshot v =>
    cases h
    exact fun s => ⟨rfl, by cases q <;> exact .snapshot v, rfl⟩
  | sharedSnapshot i =>
    cases h
    exact fun s => ⟨rfl, by cases q <;> exact .sharedSnapshot i, rfl⟩
  | remote node block root =>
    cases h
    exact fun s => ⟨rfl, by cases q <;> exact .remote node block root, rfl⟩
  | foreign f =>
    cases h with
    | foreign hf =>
      intro s
      cases q with
      | account a =>
        exact ⟨congrArg (Except.map Reply.account) (hR.account hf s.snapshots a), .foreign hf, rfl⟩
      | storage a slot =>
        exact ⟨congrArg (Except.map Reply.word) (hR.storage hf s.snapshots a slot),
          .foreign (hR.next hf s.snapshots a slot), rfl⟩
  | firstOf rs ih =>
    cases h with
    | firstOf hrs =>
      intro s
      obtain ⟨hanswers, hnexts, hshared⟩ := alike_askAny hrs (fun r hr r' h => ih r hr h) s
      rw [ask_firstOf, ask_firstOf, hanswers, hshared]
      exact ⟨rfl, .firstOf hnexts, rfl⟩
  | recording i r ih =>
    cases h with
    | recording _ hr =>
      intro s
      obtain ⟨hanswer, hnext, hshared⟩ := ih hr (s.updateRecord i q.record)
      rw [ask_recording, ask_recording]
      exact ⟨hanswer, .recording i hnext, hshared⟩

theorem Alike.after (hR : ForeignReaders.Simulation R) (h : Alike R r r') (qs : List Query)
    (s : Shared) : Alike R (r.after qs s) (r'.after qs s) := by
  induction qs generalizing r r' with
  | nil => exact h
  | cons q qs ih => exact ih (h.ask hR q s).2.1

/-- If a copy of a foreign reader cannot be told from the reader, then a copy of any reader answers,
whatever it has been asked before, as the reader would have answered. -/
theorem copy_answers (hR : ForeignReaders.Simulation R)
    (hcopy : ∀ f t, R f (ForeignReaders.copy f t)) (r : Reader) (t : Table Nat Snapshot)
    (qs : List Query) (q : Query) (s : Shared) :
    (((r.copy t).after qs s).ask q s).1 = ((r.after qs s).ask q s).1 :=
  ((((alike_copy hcopy r t).after hR qs s).ask hR q) s).1.symm

end Reader

end Stateless
