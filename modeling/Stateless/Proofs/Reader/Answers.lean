import Stateless.Proofs.Fault
import Stateless.Proofs.Reader.Session
import Stateless.Proofs.Reader.Tries

/-!
# What readers answer

A read may change a reader, which remembers tries, and what readers share, which records reads. Of
what is shared an answer depends on the snapshots only (`ask_congr`), so where a copy starts as its
original, it becomes what its own history makes of it (`Session.copies_eq`). A reader of tries answers
as if it had not been asked before, and so do its copies (`Session.log_eq`).
-/

namespace Stateless

/-! ## The first result -/

section

variable {ε α : Type} {xs : List (Except ε α)} {es : List ε} {a : α}

/-- The first result of several computations, or the errors of all. -/
def firstResult : List (Except ε α) → Except (List ε) α
  | [] => .error []
  | .ok a :: _ => .ok a
  | .error e :: rest => (firstResult rest).mapError (e :: ·)

theorem mem_of_firstResult (h : firstResult xs = .ok a) : .ok a ∈ xs := by
  induction xs with
  | nil => cases h
  | cons x xs ih =>
    cases x with
    | ok b =>
      obtain rfl := Except.ok.inj h
      exact List.mem_cons_self
    | error e => exact List.mem_cons_of_mem _ (ih (mapError_eq_ok_iff.1 h))

/-- There is no first result exactly if all computations fail, and then all errors are given. -/
theorem firstResult_eq_error_iff : firstResult xs = .error es ↔ xs = es.map .error := by
  induction xs generalizing es with
  | nil => cases es <;> simp [firstResult]
  | cons x xs ih =>
    cases x with
    | ok a => cases es <;> simp [firstResult]
    | error e =>
      rw [firstResult]
      cases es with
      | nil => cases firstResult xs <;> simp [Except.mapError]
      | cons e' es =>
        rw [List.map_cons, List.cons.injEq, Except.error.injEq, ← ih]
        cases firstResult xs <;> simp [Except.mapError]

end

/-! ## Induction over readers -/

/-- Induction over readers; of several readers in a row it may be assumed for each. -/
@[elab_as_elim]
theorem Reader.induct [ForeignReaders] {motive : Reader → Prop} (tries : ∀ r, motive (.tries r))
    (snapshot : ∀ v, motive (.snapshot v)) (sharedSnapshot : ∀ i, motive (.sharedSnapshot i))
    (remote : ∀ node block root, motive (.remote node block root))
    (foreign : ∀ r, motive (.foreign r))
    (firstOf : ∀ rs, (∀ r ∈ rs, motive r) → motive (.firstOf rs))
    (recording : ∀ i r, motive r → motive (.recording i r)) : ∀ r, motive r
  | .tries r => tries r
  | .snapshot v => snapshot v
  | .sharedSnapshot i => sharedSnapshot i
  | .remote node block root => remote node block root
  | .foreign r => foreign r
  | .firstOf rs => firstOf rs fun r _ =>
    induct tries snapshot sharedSnapshot remote foreign firstOf recording r
  | .recording i r => recording i r
    (induct tries snapshot sharedSnapshot remote foreign firstOf recording r)

namespace Reader

variable [Hasher] [ForeignReaders] {r : Reader} {rs : List Reader} {q q' : Query} {s s' : Shared}

/-! ## Several readers in a row -/

/-- Asks several readers in order until one does not fail. -/
def askAny : List Reader → Query → Shared → Except (List StateError) Reply × List Reader × Shared
  | [], _, s => (.error [], [], s)
  | r :: rs, q, s =>
    match r.ask q s with
    | (.ok v, r, s) => (.ok v, r :: rs, s)
    | (.error e, r, s) =>
      let (v, rs, s) := askAny rs q s
      (v.mapError (e :: ·), r :: rs, s)

theorem askAny_cons (r : Reader) (rs : List Reader) (q : Query) (s : Shared) :
    askAny (r :: rs) q s = match (r.ask q s).1 with
      | .ok v => (.ok v, (r.ask q s).2.1 :: rs, (r.ask q s).2.2)
      | .error e => ((askAny rs q (r.ask q s).2.2).1.mapError (e :: ·),
          (r.ask q s).2.1 :: (askAny rs q (r.ask q s).2.2).2.1,
          (askAny rs q (r.ask q s).2.2).2.2) := by
  rw [askAny]
  rcases r.ask q s with ⟨e | v, r', s'⟩ <;> rfl

theorem ask_account (r : Reader) (a : Address) (s : Shared) :
    r.ask (.account a) s = ((r.account a s).1.map .account, r, (r.account a s).2) := rfl

theorem ask_storage (r : Reader) (a : Address) (slot : Word) (s : Shared) :
    r.ask (.storage a slot) s = ((r.storage a slot s).1.map .word, (r.storage a slot s).2) := rfl

theorem askAny_account (rs : List Reader) (a : Address) (s : Shared) :
    askAny rs (.account a) s =
      ((accountOfAny rs a s).1.map .account, rs, (accountOfAny rs a s).2) := by
  induction rs generalizing s with
  | nil => rfl
  | cons r rs ih =>
    rw [askAny, accountOfAny, ask_account]
    rcases account r a s with ⟨e | v, s'⟩
    · dsimp only [Except.map]
      rw [ih]
      rcases accountOfAny rs a s' with ⟨es | v, s''⟩ <;> rfl
    · rfl

theorem askAny_storage (rs : List Reader) (a : Address) (slot : Word) (s : Shared) :
    askAny rs (.storage a slot) s =
      ((storageOfAny rs a slot s).1.map .word, (storageOfAny rs a slot s).2) := by
  induction rs generalizing s with
  | nil => rfl
  | cons r rs ih =>
    rw [askAny, storageOfAny, ask_storage]
    rcases storage r a slot s with ⟨e | v, r', s'⟩
    · dsimp only [Except.map]
      rw [ih]
      rcases storageOfAny rs a slot s' with ⟨es | v, rs', s''⟩ <;> rfl
    · rfl

/-- The reader of several readers asks them in order. -/
theorem ask_firstOf (rs : List Reader) (q : Query) (s : Shared) :
    (firstOf rs).ask q s = ((askAny rs q s).1.mapError .allReadersFailed,
      firstOf (askAny rs q s).2.1, (askAny rs q s).2.2) := by
  cases q with
  | account a =>
    rw [askAny_account, ask_account, account]
    rcases accountOfAny rs a s with ⟨es | v, s'⟩ <;> rfl
  | storage a slot =>
    rw [askAny_storage, ask_storage, storage]
    rcases storageOfAny rs a slot s with ⟨es | v, rs', s'⟩ <;> rfl

/-! ## What a read leaves alone -/

theorem snapshots_askAny (h : ∀ r ∈ rs, ∀ s, (r.ask q s).2.2.snapshots = s.snapshots)
    (s : Shared) : (askAny rs q s).2.2.snapshots = s.snapshots := by
  induction rs generalizing s with
  | nil => rfl
  | cons r rs ih =>
    have hr := h r List.mem_cons_self s
    rw [askAny_cons]
    cases (r.ask q s).1 with
    | ok v => exact hr
    | error e => exact (ih (fun r hr => h r (List.mem_cons_of_mem _ hr)) _).trans hr

theorem snapshots_ask (r : Reader) (q : Query) (s : Shared) :
    (r.ask q s).2.2.snapshots = s.snapshots := by
  induction r using Reader.induct generalizing s with
  | tries r => cases q <;> rfl
  | snapshot v => cases q <;> rfl
  | sharedSnapshot i => cases q <;> rfl
  | remote node block root => cases q <;> rfl
  | foreign r => cases q <;> rfl
  | firstOf rs ih =>
    rw [ask_firstOf]
    exact snapshots_askAny ih s
  | recording i r ih =>
    rw [ask_recording]
    exact ih _

theorem askAny_congr (h : ∀ r ∈ rs, ∀ s s', s.snapshots = s'.snapshots →
      (r.ask q s).1 = (r.ask q s').1 ∧ (r.ask q s).2.1 = (r.ask q s').2.1)
    (hs : s.snapshots = s'.snapshots) :
    (askAny rs q s).1 = (askAny rs q s').1 ∧ (askAny rs q s).2.1 = (askAny rs q s').2.1 := by
  induction rs generalizing s s' with
  | nil => exact ⟨rfl, rfl⟩
  | cons r rs ih =>
    obtain ⟨hanswer, hreader⟩ := h r List.mem_cons_self s s' hs
    rw [askAny_cons, askAny_cons, hanswer, hreader]
    cases (r.ask q s').1 with
    | ok v => exact ⟨rfl, rfl⟩
    | error e =>
      have hnext : (r.ask q s).2.2.snapshots = (r.ask q s').2.2.snapshots := by
        rw [snapshots_ask, snapshots_ask, hs]
      obtain ⟨hanswers, hreaders⟩ := ih (fun r hr => h r (List.mem_cons_of_mem _ hr)) hnext
      dsimp only
      rw [hanswers, hreaders]
      exact ⟨rfl, rfl⟩

/-- Of what is shared an answer depends on the snapshots only, and so does what a reader becomes. -/
theorem ask_congr (r : Reader) (q : Query) (hs : s.snapshots = s'.snapshots) :
    (r.ask q s).1 = (r.ask q s').1 ∧ (r.ask q s).2.1 = (r.ask q s').2.1 := by
  induction r using Reader.induct generalizing s s' with
  | tries r => cases q <;> exact ⟨rfl, rfl⟩
  | snapshot v => cases q <;> exact ⟨rfl, rfl⟩
  | sharedSnapshot i =>
    have hsnapshot : s.snapshot i = s'.snapshot i := by rw [Shared.snapshot, hs, Shared.snapshot]
    cases q with
    | account a => exact ⟨congrArg (fun v => (v.readAccount a).map Reply.account) hsnapshot, rfl⟩
    | storage a slot =>
      exact ⟨congrArg (fun v => (v.readStorage a slot).map Reply.word) hsnapshot, rfl⟩
  | remote node block root => cases q <;> exact ⟨rfl, rfl⟩
  | foreign r =>
    cases q with
    | account a =>
      exact ⟨congrArg (fun t => (ForeignReaders.account r t a).map Reply.account) hs, rfl⟩
    | storage a slot =>
      exact ⟨congrArg (fun t => (ForeignReaders.storage r t a slot).1.map Reply.word) hs,
        congrArg (fun t => foreign (ForeignReaders.storage r t a slot).2) hs⟩
  | firstOf rs ih =>
    obtain ⟨hanswers, hreaders⟩ := askAny_congr (fun r hr s s' => ih r hr) hs
    rw [ask_firstOf, ask_firstOf, hanswers, hreaders]
    exact ⟨rfl, rfl⟩
  | recording i r ih =>
    have hnext : (s.updateRecord i q.record).snapshots =
        (s'.updateRecord i q.record).snapshots := hs
    obtain ⟨hanswer, hreader⟩ := ih hnext
    rw [ask_recording, ask_recording]
    exact ⟨hanswer, congrArg (recording i) hreader⟩

/-- Several readers answer what the first one answers that does not fail. -/
theorem ask_firstOf_fst (rs : List Reader) (q : Query) (s : Shared) : ((firstOf rs).ask q s).1 =
    (firstResult (rs.map fun r => (r.ask q s).1)).mapError .allReadersFailed := by
  have hany : (askAny rs q s).1 = firstResult (rs.map fun r => (r.ask q s).1) := by
    -- what is shared changes from one reader to the next, but not its snapshots
    generalize hs : s.snapshots = snapshots
    have hall : ∀ s', s'.snapshots = snapshots →
        (askAny rs q s').1 = firstResult (rs.map fun r => (r.ask q s).1) := by
      induction rs with
      | nil => exact fun s' _ => rfl
      | cons r rs ih =>
        intro s' hs'
        obtain ⟨hanswer, -⟩ := r.ask_congr q (hs'.trans hs.symm)
        rw [askAny_cons, List.map_cons, ← hanswer]
        cases (r.ask q s').1 with
        | ok v => rfl
        | error e =>
          rw [firstResult, ← ih _ ((r.snapshots_ask q s').trans hs')]
    exact hall s hs
  rw [ask_firstOf, hany]

/-- Whatever a reader of tries is asked, it stays one, and answers as it would have before. -/
theorem ask_tries (r : TrieReader) (q : Query) (s : Shared) :
    ∃ r', ((tries r).ask q s).2.1 = tries r' ∧
      ∀ q s, ((tries r').ask q s).1 = ((tries r).ask q s).1 := by
  cases q with
  | account a => exact ⟨r, rfl, fun _ _ => rfl⟩
  | storage a slot =>
    refine ⟨r.remember a, congrArg tries (r.readStorage_snd a slot), fun q s => ?_⟩
    cases q with
    | account b => exact congrArg (Except.map Reply.account) (r.readAccount_remember b a)
    | storage b x => exact congrArg (Except.map Reply.word) (r.readStorage_remember b a x)

end Reader

/-! ## Sessions -/

/-- A reader after it has been asked several things. -/
def Reader.after [Hasher] [ForeignReaders] (r : Reader) (qs : List Query) (s : Shared) : Reader :=
  qs.foldl (fun r q => (r.ask q s).2.1) r

namespace Session

/-- What every copy has been asked, the reader that it is a copy of included. -/
def histories (turns : List Turn) : List (List Query) := turns.foldl record [[]]
where
  record (hs : List (List Query)) : Turn → List (List Query)
    | .copy i =>
      match hs[i]? with
      | some qs => hs ++ [qs]
      | none => hs
    | .ask i q =>
      match hs[i]? with
      | some qs => hs.set i (qs ++ [q])
      | none => hs

variable [Hasher] [ForeignReaders]

/-- A reader of tries that answers like another. -/
def TriesLike (r : TrieReader) (r' : Reader) : Prop :=
  ∃ t, r' = .tries t ∧ ∀ q s, ((Reader.tries t).ask q s).1 = ((Reader.tries r).ask q s).1

/-- Every read through copies of a reader of tries is answered as if it were the first one. -/
theorem log_eq (r : TrieReader) (shared : Shared) (turns : List Turn) :
    ∀ x ∈ ((start (.tries r) shared).run turns).log, ∀ s,
      x.2 = ((Reader.tries r).ask x.1 s).1 := by
  have hstart : (start (.tries r) shared).Keeps (TriesLike r)
      (fun _ log => ∀ x ∈ log, ∀ s, x.2 = ((Reader.tries r).ask x.1 s).1) := by
    refine ⟨fun hr => ⟨r, List.mem_singleton.1 hr, fun _ _ => rfl⟩, ?_⟩
    exact fun x hx => absurd hx List.not_mem_nil
  refine (run_keeps (fun r' q s log hr hlog => ?_) (fun r' snapshots hr => ?_) hstart turns).common
  rotate_left
  · obtain ⟨t, rfl, ht⟩ := hr
    exact ⟨t, rfl, ht⟩
  obtain ⟨t, rfl, ht⟩ := hr
  obtain ⟨t', ht', hsame⟩ := Reader.ask_tries t q s
  refine ⟨⟨t', ht', fun q s => (hsame q s).trans (ht q s)⟩, fun x hx s' => ?_⟩
  rcases List.mem_append.1 hx with hx | hx
  · exact hlog x hx s'
  · rw [List.mem_singleton.1 hx]
    refine (ht q s).trans ?_
    cases q <;> rfl

/-- A turn that is taken when the shared snapshots have become others. -/
def stepAmid (s : Session) (turn : Table Nat Snapshot × Turn) : Session :=
  step { s with shared := { s.shared with snapshots := turn.1 } } turn.2

/-- Uses copies one after another, while the shared snapshots change. -/
def runAmid (turns : List (Table Nat Snapshot × Turn)) (s : Session) : Session :=
  turns.foldl stepAmid s

/-- What every read, every copy and every change of the shared snapshots preserve, a session
preserves. -/
theorem runAmid_keeps {s : Session} {Own : Reader → Prop}
    {Common : Shared → List (Query × Except StateError Reply) → Prop}
    (hask : ∀ r q shared log, Own r → Common shared log → Own (r.ask q shared).2.1 ∧
      Common (r.ask q shared).2.2 (log ++ [(q, (r.ask q shared).1)]))
    (hcopy : ∀ r snapshots, Own r → Own (r.copy snapshots))
    (hchange : ∀ shared snapshots log, Common shared log →
      Common { shared with snapshots := snapshots } log)
    (h : s.Keeps Own Common) (turns : List (Table Nat Snapshot × Turn)) :
    (s.runAmid turns).Keeps Own Common := by
  induction turns generalizing s with
  | nil => exact h
  | cons turn turns ih =>
    refine ih (Keeps.step hask hcopy ?_ turn.2)
    exact ⟨h.copies, hchange s.shared turn.1 s.log h.common⟩

/-- Every copy is a reader after what the copy has been asked. -/
structure Follows (s : Session) (r : Reader) (shared : Shared) (hs : List (List Query)) : Prop where
  snapshots : s.shared.snapshots = shared.snapshots
  copies : s.copies = hs.map fun qs => r.after qs shared

variable {s : Session} {r : Reader} {shared : Shared} {hs : List (List Query)}

theorem Follows.step
    (hcopy : ∀ qs, (r.after qs shared).copy shared.snapshots = r.after qs shared)
    (h : s.Follows r shared hs) (turn : Turn) : (s.step turn).Follows r shared (histories.record hs turn) := by
  have hget (i : Nat) : s.copies[i]? = hs[i]?.map fun qs => r.after qs shared := by
    rw [h.copies, List.getElem?_map]
  cases turn with
  | copy i =>
    rw [Session.step, histories.record, hget i]
    cases hs[i]? with
    | none => exact h
    | some qs =>
      refine ⟨h.snapshots, ?_⟩
      show s.copies ++ [(r.after qs shared).copy s.shared.snapshots] =
        (hs ++ [qs]).map fun qs => r.after qs shared
      rw [h.snapshots, hcopy, List.map_append, ← h.copies]
      rfl
  | ask i q =>
    rw [Session.step, histories.record, hget i]
    cases hs[i]? with
    | none => exact h
    | some qs =>
      -- what the copy becomes does not depend on what the others have put on record
      obtain ⟨-, hnext⟩ := (r.after qs shared).ask_congr q h.snapshots
      have hafter : ((r.after qs shared).ask q shared).2.1 = r.after (qs ++ [q]) shared := by
        rw [Reader.after, Reader.after, List.foldl_append]
        rfl
      refine ⟨((r.after qs shared).snapshots_ask q s.shared).trans h.snapshots, ?_⟩
      show s.copies.set i ((r.after qs shared).ask q s.shared).2.1 =
        (hs.set i (qs ++ [q])).map fun qs => r.after qs shared
      rw [hnext, hafter, List.map_set, ← h.copies]

/-- If copies of a reader are the reader itself, whatever it has been asked, then every copy is the
first reader after what the copy has been asked. -/
theorem copies_eq (r : Reader) (shared : Shared)
    (hcopy : ∀ qs, (r.after qs shared).copy shared.snapshots = r.after qs shared)
    (turns : List Turn) : ((start r shared).run turns).copies = (histories turns).map fun qs => r.after qs shared := by
  have hrun : ∀ (s : Session) (hs : List (List Query)), s.Follows r shared hs →
      (s.run turns).Follows r shared (turns.foldl histories.record hs) := by
    induction turns with
    | nil => exact fun s hs h => h
    | cons turn turns ih => exact fun s hs h => ih _ _ (h.step hcopy turn)
  exact (hrun (start r shared) [[]] ⟨rfl, rfl⟩).copies

end Session

end Stateless
