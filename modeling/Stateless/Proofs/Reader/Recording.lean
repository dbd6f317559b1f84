import Stateless.Proofs.Reader.Answers

/-!
# Recording readers and their copies

A recording reader and its copies answer as the readers that they pass questions on to, and together
list exactly what they have been asked, also where the answer was an error. The main result is
`Session.recording_exact`.
-/

namespace Stateless

/-! ## What a question puts on record -/

namespace Query

variable {q : Query} {l : AccessList} {a : Address} {slot : Word} {qs : List Query}

theorem containsAccount_record :
    (q.record l).containsAccount a = true ↔ q.address = a ∨ l.containsAccount a = true := by
  cases q with
  | account b => exact AccessList.containsAccount_addAccount.trans (or_congr_left eq_comm)
  | storage b x => exact AccessList.containsAccount_addSlot.trans (or_congr_left eq_comm)

theorem containsSlot_record : (q.record l).containsSlot a slot = true ↔
    q = storage a slot ∨ l.containsSlot a slot = true := by
  cases q with
  | account b =>
    have hne : account b ≠ storage a slot := fun h => by cases h
    rw [or_iff_right hne]
    exact Iff.of_eq (congrArg (· = true) AccessList.containsSlot_addAccount)
  | storage b x =>
    rw [storage.injEq, eq_comm (a := b), eq_comm (a := x)]
    exact AccessList.containsSlot_addSlot

/-- Nothing new is recorded if a question is asked again. -/
theorem record_record (q : Query) (l : AccessList) : q.record (q.record l) = q.record l := by
  refine AccessList.ext (fun a => ?_) fun a slot => ?_
  · rw [containsAccount_record, containsAccount_record, or_self_left]
  · rw [containsSlot_record, containsSlot_record, or_self_left]

/-- The access list of some questions. -/
def accessList (qs : List Query) : AccessList := qs.foldl (fun l q => q.record l) .empty

theorem accessList_concat (qs : List Query) (q : Query) :
    accessList (qs ++ [q]) = q.record (accessList qs) := by
  rw [accessList, List.foldl_append]
  rfl

theorem containsAccount_foldl_record :
    (qs.foldl (fun l q => q.record l) l).containsAccount a = true ↔
      (∃ q ∈ qs, q.address = a) ∨ l.containsAccount a = true := by
  induction qs generalizing l with
  | nil => simp
  | cons q qs ih =>
    rw [List.foldl_cons, ih, containsAccount_record, List.exists_mem_cons_iff, or_assoc,
      or_left_comm]

theorem containsSlot_foldl_record :
    (qs.foldl (fun l q => q.record l) l).containsSlot a slot = true ↔
      storage a slot ∈ qs ∨ l.containsSlot a slot = true := by
  induction qs generalizing l with
  | nil => simp
  | cons q qs ih =>
    rw [List.foldl_cons, ih, containsSlot_record, List.mem_cons, eq_comm (a := q), or_assoc,
      or_left_comm]

theorem containsAccount_accessList :
    (accessList qs).containsAccount a = true ↔ ∃ q ∈ qs, q.address = a := by
  have hempty : ¬ AccessList.empty.containsAccount a = true := by simp [AccessList.containsAccount,
    AccessList.empty, Table.contains]
  rw [accessList, containsAccount_foldl_record, or_iff_left hempty]

theorem containsSlot_accessList :
    (accessList qs).containsSlot a slot = true ↔ storage a slot ∈ qs := by
  have hempty : ¬ AccessList.empty.containsSlot a slot = true := by simp [AccessList.containsSlot,
    AccessList.slotsOf, AccessList.empty, Table.contains]
  rw [accessList, containsSlot_foldl_record, or_iff_left hempty]

/-- It does not matter in what order, or how often, something is asked. -/
theorem accessList_congr {qs' : List Query} (h : ∀ q, q ∈ qs ↔ q ∈ qs') :
    accessList qs = accessList qs' := by
  refine AccessList.ext (fun a => ?_) fun a slot => ?_
  · rw [containsAccount_accessList, containsAccount_accessList]
    exact exists_congr fun q => and_congr_left' (h q)
  · rw [containsSlot_accessList, containsSlot_accessList]
    exact h _

end Query

/-! ## What a read puts on record -/

namespace Reader

variable [Hasher] [ForeignReaders] {rs : List Reader} {q : Query} {i : Nat}

theorem record_askAny
    (h : ∀ r ∈ rs, ∀ s, (r.ask q s).2.2.record i = s.record i ∨
      (r.ask q s).2.2.record i = q.record (s.record i)) (s : Shared) :
    (askAny rs q s).2.2.record i = s.record i ∨
      (askAny rs q s).2.2.record i = q.record (s.record i) := by
  induction rs generalizing s with
  | nil => exact Or.inl rfl
  | cons r rs ih =>
    have hr := h r List.mem_cons_self s
    rw [askAny_cons]
    cases (r.ask q s).1 with
    | ok v => exact hr
    | error e =>
      have hrs := ih (fun r hr => h r (List.mem_cons_of_mem _ hr)) (r.ask q s).2.2
      rcases hr with hr | hr
      · rw [hr] at hrs
        exact hrs
      · -- the question is on record already
        rw [hr, Query.record_record, or_self_iff] at hrs
        exact Or.inr hrs

/-- A read leaves a record as it is or adds the question to it. -/
theorem record_ask (r : Reader) (q : Query) (i : Nat) (s : Shared) :
    (r.ask q s).2.2.record i = s.record i ∨
      (r.ask q s).2.2.record i = q.record (s.record i) := by
  induction r using Reader.induct generalizing s with
  | tries r => cases q <;> exact Or.inl rfl
  | snapshot v => cases q <;> exact Or.inl rfl
  | sharedSnapshot j => cases q <;> exact Or.inl rfl
  | remote node block root => cases q <;> exact Or.inl rfl
  | foreign r => cases q <;> exact Or.inl rfl
  | firstOf rs ih =>
    rw [ask_firstOf]
    exact record_askAny ih s
  | recording j r ih =>
    rw [ask_recording]
    have hr := ih (s.updateRecord j q.record)
    by_cases hij : i = j
    · rw [hij, Shared.record_updateRecord, Query.record_record, or_self_iff] at hr
      rw [hij]
      exact Or.inr hr
    · rw [Shared.record_updateRecord_of_ne hij] at hr
      exact hr

theorem record_ask_recording (r : Reader) (q : Query) (i : Nat) (s : Shared) :
    ((recording i r).ask q s).2.2.record i = q.record (s.record i) := by
  have hr := r.record_ask q i (s.updateRecord i q.record)
  rw [Shared.record_updateRecord, Query.record_record, or_self_iff] at hr
  rw [ask_recording]
  exact hr

end Reader

/-! ## Sessions -/

namespace Session

variable [Hasher] [ForeignReaders] {s inner : Session} {i : Nat}

/-- A session of recording readers, next to one of the readers that they pass questions on to. -/
structure Records (s inner : Session) (i : Nat) : Prop where
  copies : s.copies = inner.copies.map (.recording i)
  snapshots : s.shared.snapshots = inner.shared.snapshots
  log : s.log = inner.log
  record : s.shared.record i = Query.accessList (s.log.map Prod.fst)

theorem Records.step (h : s.Records inner i) (turn : Turn) :
    (s.step turn).Records (inner.step turn) i := by
  have hget (j : Nat) : s.copies[j]? = inner.copies[j]?.map (.recording i) := by
    rw [h.copies, List.getElem?_map]
  cases turn with
  | copy j =>
    rw [Session.step, Session.step, hget j]
    cases inner.copies[j]? with
    | none => exact h
    | some r =>
      refine ⟨?_, h.snapshots, h.log, h.record⟩
      show s.copies ++ [(Reader.recording i r).copy s.shared.snapshots] =
        (inner.copies ++ [r.copy inner.shared.snapshots]).map (.recording i)
      rw [List.map_append, ← h.copies, ← h.snapshots]
      rfl
  | ask j q =>
    rw [Session.step, Session.step, hget j]
    cases inner.copies[j]? with
    | none => exact h
    | some r =>
      -- what is recorded meanwhile changes neither the answer nor the next reader
      have hsnapshots : (s.shared.updateRecord i q.record).snapshots = inner.shared.snapshots :=
        h.snapshots
      obtain ⟨hanswer, hnext⟩ := r.ask_congr q hsnapshots
      have hask : ((Reader.recording i r).ask q s.shared).1 = (r.ask q inner.shared).1 := by
        rw [Reader.ask_recording]
        exact hanswer
      have hreader : ((Reader.recording i r).ask q s.shared).2.1 =
          .recording i (r.ask q inner.shared).2.1 := by
        rw [Reader.ask_recording]
        exact congrArg (Reader.recording i) hnext
      refine ⟨?_, ?_, ?_, ?_⟩
      · show s.copies.set j ((Reader.recording i r).ask q s.shared).2.1 =
          (inner.copies.set j (r.ask q inner.shared).2.1).map (.recording i)
        rw [hreader, List.map_set, h.copies]
      · show ((Reader.recording i r).ask q s.shared).2.2.snapshots =
          (r.ask q inner.shared).2.2.snapshots
        rw [Reader.snapshots_ask, Reader.snapshots_ask, h.snapshots]
      · show s.log ++ [(q, ((Reader.recording i r).ask q s.shared).1)] =
          inner.log ++ [(q, (r.ask q inner.shared).1)]
        rw [hask, h.log]
      · show ((Reader.recording i r).ask q s.shared).2.2.record i =
          Query.accessList
            ((s.log ++ [(q, ((Reader.recording i r).ask q s.shared).1)]).map Prod.fst)
        rw [r.record_ask_recording, h.record, List.map_append]
        exact (Query.accessList_concat _ q).symm

theorem Records.runAmid (h : s.Records inner i) (turns : List (Table Nat Snapshot × Turn)) :
    (s.runAmid turns).Records (inner.runAmid turns) i := by
  induction turns generalizing s inner with
  | nil => exact h
  | cons turn turns ih =>
    refine ih (Records.step ?_ turn.2)
    exact ⟨h.copies, rfl, h.log, h.record⟩

/-- A recording reader that has just been made: its record is empty. -/
def startRecording (i : Nat) (r : Reader) (shared : Shared) : Session :=
  start (.recording i r) (shared.updateRecord i fun _ => .empty)

theorem records_runAmid (r : Reader) (shared : Shared) (i : Nat)
    (turns : List (Table Nat Snapshot × Turn)) :
    ((startRecording i r shared).runAmid turns).Records ((start r shared).runAmid turns) i := by
  have hstart : (startRecording i r shared).Records (start r shared) i :=
    ⟨rfl, rfl, rfl, Shared.record_updateRecord ..⟩
  exact hstart.runAmid turns

/-- A recording reader is copied and asked, and the shared snapshots may change meanwhile. At any
time the answers, errors among them, are those of the reader that it passes questions on to, and the
copies those of that reader. The record lists the addresses and the slots that have been asked for
through any copy, and no others; it does not depend on the order in which they were asked for. -/
theorem recording_exact (r : Reader) (shared : Shared) (i : Nat)
    (turns : List (Table Nat Snapshot × Turn)) :
    let session := (startRecording i r shared).runAmid turns
    let inner := (start r shared).runAmid turns
    session.log = inner.log ∧
    session.copies = inner.copies.map (.recording i) ∧
    (∀ a, (session.shared.record i).containsAccount a = true ↔
      ∃ q ∈ session.log.map Prod.fst, q.address = a) ∧
    (∀ a slot, (session.shared.record i).containsSlot a slot = true ↔
      .storage a slot ∈ session.log.map Prod.fst) ∧
    ∀ turns', (∀ q, q ∈ session.log.map Prod.fst ↔
        q ∈ ((startRecording i r shared).runAmid turns').log.map Prod.fst) →
      session.shared.record i = ((startRecording i r shared).runAmid turns').shared.record i := by
  intro session inner
  have h : session.Records inner i := records_runAmid r shared i turns
  refine ⟨h.log, h.copies, fun a => ?_, fun a slot => ?_, fun turns' hsame => ?_⟩
  · rw [h.record, Query.containsAccount_accessList]
  · rw [h.record, Query.containsSlot_accessList]
  · rw [h.record, (records_runAmid r shared i turns').record]
    exact Query.accessList_congr hsame

end Session

end Stateless
