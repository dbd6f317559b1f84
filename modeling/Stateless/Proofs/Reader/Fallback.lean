import Stateless.Proofs.Reader.Agreement
import Stateless.Proofs.Reader.Copies

/-!
# Falling through readers

Readers of one state, each of which may fail at some times and answer at others, are lined up in any
order, and some of them are grouped (`Reader.Groups`). A read may change every reader that it passes,
and a copy may differ from its original (`Reader.Becomes`), but readers stay grouped as they are
(`Reader.Groups.askAny`, `Reader.Groups.copy`). A read is answered as the state says if one of the
readers answers it; otherwise the error of every member of the line is reported. The main result is
`Reader.fall_through`.
-/

namespace Stateless

/-- Of lists related item by item, every item of the first has one in the second. -/
theorem exists_of_forall₂_of_mem {α β : Type} {R : α → β → Prop} {xs : List α} {ys : List β} {a : α}
    (h : List.Forall₂ R xs ys) (ha : a ∈ xs) : ∃ b ∈ ys, R a b := by
  obtain ⟨i, hi, rfl⟩ := List.mem_iff_getElem.1 ha
  have hi' : i < ys.length := h.length_eq ▸ hi
  exact ⟨ys[i], List.getElem_mem hi', h.get hi hi'⟩

namespace Reader

/-- Readers are put together: each is a member of its own, or a member asks several in order. -/
inductive Groups [ForeignReaders] : List Reader → List Reader → Prop where
  | nil : Groups [] []
  | single {members readers : List Reader} (r : Reader) (rest : Groups members readers) :
    Groups (r :: members) (r :: readers)
  | several {inner group members readers : List Reader} (first : Groups inner group)
    (rest : Groups members readers) : Groups (firstOf inner :: members) (group ++ readers)

section

variable [Hasher] [ForeignReaders] {r : Reader} {rs readers members : List Reader}
variable {q : Query} {s : Shared} {e : StateError} {w : Reply}

/-- Whether a reader answers at all. -/
def Answers (r : Reader) (q : Query) (s : Shared) : Prop := ∃ v, (r.ask q s).1 = .ok v

/-- Whether a reader gives a certain answer or fails. -/
def Tells (r : Reader) (q : Query) (s : Shared) (w : Reply) : Prop :=
  (r.ask q s).1 = .ok w ∨ ∃ e, (r.ask q s).1 = .error e

theorem Tells.eq (h : r.Tells q s w) (hr : r.Answers q s) : (r.ask q s).1 = .ok w := by
  obtain ⟨v, hv⟩ := hr
  rcases h with h | ⟨e, he⟩
  · exact h
  · rw [he] at hv
    cases hv

/-! ## A line of readers -/

theorem exists_of_ask_firstOf {v : Reply} (h : ((firstOf rs).ask q s).1 = .ok v) :
    ∃ r ∈ rs, (r.ask q s).1 = .ok v := by
  rw [ask_firstOf_fst, mapError_eq_ok_iff] at h
  exact List.mem_map.1 (mem_of_firstResult h)

/-- A line of readers fails with the errors of all. -/
theorem ask_firstOf_eq_error_iff : ((firstOf rs).ask q s).1 = .error e ↔
    ∃ es, e = .allReadersFailed es ∧
      List.Forall₂ (fun r e => (r.ask q s).1 = .error e) rs es := by
  have hall (es : List StateError) : List.Forall₂ (fun r e => (r.ask q s).1 = .error e) rs es ↔
      firstResult (rs.map fun r => (r.ask q s).1) = .error es := by
    rw [firstResult_eq_error_iff, ← List.forall₂_eq_eq_eq, List.forall₂_map_left_iff,
      List.forall₂_map_right_iff]
  rw [ask_firstOf_fst]
  constructor
  · intro h
    cases hfirst : firstResult (rs.map fun r => (r.ask q s).1) with
    | ok v =>
      rw [hfirst] at h
      cases h
    | error es =>
      rw [hfirst] at h
      exact ⟨es, (Except.error.inj h).symm, (hall es).2 hfirst⟩
  · rintro ⟨es, rfl, hes⟩
    rw [(hall es).1 hes]
    rfl

/-- A line of readers answers exactly if one of them does. -/
theorem answers_firstOf_iff : (firstOf rs).Answers q s ↔ ∃ r ∈ rs, r.Answers q s := by
  constructor
  · rintro ⟨v, hv⟩
    obtain ⟨r, hr, hrv⟩ := exists_of_ask_firstOf hv
    exact ⟨r, hr, v, hrv⟩
  · rintro ⟨r, hr, v, hv⟩
    cases hline : ((firstOf rs).ask q s).1 with
    | ok w => exact ⟨w, hline⟩
    | error e =>
      -- then this reader would be among those that failed
      obtain ⟨es, -, hes⟩ := ask_firstOf_eq_error_iff.1 hline
      obtain ⟨e', -, herror⟩ := exists_of_forall₂_of_mem hes hr
      rw [hv] at herror
      cases herror

theorem tells_firstOf (h : ∀ r ∈ rs, r.Tells q s w) : (firstOf rs).Tells q s w := by
  cases hline : ((firstOf rs).ask q s).1 with
  | error e => exact Or.inr ⟨e, hline⟩
  | ok v =>
    obtain ⟨r, hr, hv⟩ := exists_of_ask_firstOf hline
    have heq := (h r hr).eq ⟨v, hv⟩
    exact Or.inl (hline.trans (hv.symm.trans heq))

/-! ## Readers put together -/

/-- Whether there is an answer does not depend on how readers are put together. -/
theorem Groups.answers_iff (h : Groups members readers) :
    (∃ m ∈ members, m.Answers q s) ↔ ∃ r ∈ readers, r.Answers q s := by
  induction h with
  | nil => exact Iff.rfl
  | single r _ ih => simp only [List.mem_cons, exists_eq_or_imp, ih]
  | several _ _ ihfirst ihrest =>
    simp only [List.mem_cons, List.mem_append, or_and_right, exists_or, exists_eq_left]
    rw [answers_firstOf_iff, ihfirst, ihrest]

theorem Groups.tells (h : Groups members readers) (htells : ∀ r ∈ readers, r.Tells q s w) :
    ∀ m ∈ members, m.Tells q s w := by
  induction h with
  | nil => exact htells
  | single r _ ih =>
    rw [List.forall_mem_cons] at htells ⊢
    exact ⟨htells.1, ih htells.2⟩
  | several _ _ ihfirst ihrest =>
    rw [List.forall_mem_append] at htells
    rw [List.forall_mem_cons]
    exact ⟨tells_firstOf (ihfirst htells.1), ihrest htells.2⟩

/-! ## What becomes of readers -/

/-- What a reader can become by being asked or copied, whatever readers share then. -/
def Becomes : Reader → Reader → Prop :=
  Relation.ReflTransGen fun r r' => (∃ q s, r' = (r.ask q s).2.1) ∨ ∃ snapshots, r' = r.copy snapshots

theorem becomes_ask (r : Reader) (q : Query) (s : Shared) : r.Becomes (r.ask q s).2.1 :=
  .single (Or.inl ⟨q, s, rfl⟩)

theorem becomes_copy (r : Reader) (snapshots : Table Nat Snapshot) : r.Becomes (r.copy snapshots) :=
  .single (Or.inr ⟨snapshots, rfl⟩)

/-- What every read and every copy preserve, a reader keeps. -/
theorem Becomes.keeps {r' : Reader} {P : Reader → Prop} (h : r.Becomes r')
    (hask : ∀ r q s, P r → P (r.ask q s).2.1) (hcopy : ∀ r snapshots, P r → P (r.copy snapshots))
    (hr : P r) : P r' := by
  induction h with
  | refl => exact hr
  | tail _ hstep ih =>
    rcases hstep with ⟨q, s, rfl⟩ | ⟨snapshots, rfl⟩
    · exact hask _ q s ih
    · exact hcopy _ snapshots ih

theorem forall₂_becomes_refl (rs : List Reader) : List.Forall₂ Becomes rs rs :=
  List.forall₂_same.2 fun _ _ => .refl

theorem forall₂_becomes_trans {rs' rs'' : List Reader} (h : List.Forall₂ Becomes rs rs')
    (h' : List.Forall₂ Becomes rs' rs'') : List.Forall₂ Becomes rs rs'' := by
  induction h generalizing rs'' with
  | nil => exact h'
  | cons hr _ ih =>
    obtain ⟨r, rs, hr', hrs, rfl⟩ := List.forall₂_cons_left_iff.1 h'
    exact .cons (hr.trans hr') (ih hrs)

/-- A line of readers becomes the line of what they become. -/
theorem forall₂_becomes_askAny (rs : List Reader) (q : Query) (s : Shared) :
    List.Forall₂ Becomes rs (askAny rs q s).2.1 := by
  induction rs generalizing s with
  | nil => exact .nil
  | cons r rs ih =>
    rw [askAny_cons]
    cases (r.ask q s).1 with
    | ok v => exact .cons (r.becomes_ask q s) (forall₂_becomes_refl rs)
    | error e => exact .cons (r.becomes_ask q s) (ih _)

/-- After a read the readers, of which some may have become others, are put together as before. -/
theorem Groups.askAny (h : Groups members readers) (q : Query) (s : Shared) :
    ∃ readers', Groups (Reader.askAny members q s).2.1 readers' ∧
      List.Forall₂ Becomes readers readers' := by
  induction h generalizing s with
  | nil => exact ⟨[], .nil, .nil⟩
  | single r rest ih =>
    rw [askAny_cons]
    cases (r.ask q s).1 with
    | ok v => exact ⟨_, .single _ rest, .cons (r.becomes_ask q s) (forall₂_becomes_refl _)⟩
    | error e =>
      obtain ⟨readers', hgroups, hreaders⟩ := ih (r.ask q s).2.2
      exact ⟨_, .single _ hgroups, .cons (r.becomes_ask q s) hreaders⟩
  | @several inner group members readers first rest ihfirst ihrest =>
    obtain ⟨group', hfirst, hgroup⟩ := ihfirst s
    rw [askAny_cons]
    -- the group is asked in any case, and the others if all readers of the group fail
    have hnext : ((firstOf inner).ask q s).2.1 = firstOf (Reader.askAny inner q s).2.1 := by
      rw [ask_firstOf]
    rw [hnext]
    cases ((firstOf inner).ask q s).1 with
    | ok v =>
      exact ⟨_, .several hfirst rest, List.rel_append hgroup (forall₂_becomes_refl readers)⟩
    | error e =>
      obtain ⟨readers', hgroups, hreaders⟩ := ihrest ((firstOf inner).ask q s).2.2
      exact ⟨_, .several hfirst hgroups, List.rel_append hgroup hreaders⟩

omit [Hasher] in
/-- Copies of readers are put together as their originals. -/
theorem Groups.copy (h : Groups members readers) (snapshots : Table Nat Snapshot) :
    Groups (copyAll members snapshots) (copyAll readers snapshots) := by
  induction h with
  | nil => exact .nil
  | single r _ ih => exact .single _ ih
  | several _ _ ihfirst ihrest =>
    rw [copyAll_append]
    exact .several ihfirst ihrest

theorem forall₂_becomes_copyAll (rs : List Reader) (snapshots : Table Nat Snapshot) :
    List.Forall₂ Becomes rs (copyAll rs snapshots) := by
  induction rs with
  | nil => exact .nil
  | cons r rs ih => exact .cons (r.becomes_copy snapshots) ih

/-- A line of members into which readers are put together, after some reads and copies. -/
structure Line (members order : List Reader) (r : Reader) (members' order' : List Reader) :
    Prop where
  line : r = firstOf members'
  members : List.Forall₂ Becomes members members'
  order : List.Forall₂ Becomes order order'
  groups : Groups members' order'

theorem Line.ask {order members' order' : List Reader} (h : Line members order r members' order')
    (q : Query) (s : Shared) :
    ∃ members' order', Line members order (r.ask q s).2.1 members' order' := by
  obtain ⟨order'', hgroups, horder⟩ := h.groups.askAny q s
  refine ⟨(askAny members' q s).2.1, order'', ?_, ?_, ?_, hgroups⟩
  · rw [h.line, ask_firstOf]
  · exact forall₂_becomes_trans h.members (forall₂_becomes_askAny members' q s)
  · exact forall₂_becomes_trans h.order horder

theorem Line.copy {order members' order' : List Reader} (h : Line members order r members' order')
    (snapshots : Table Nat Snapshot) : Line members order (r.copy snapshots)
      (copyAll members' snapshots) (copyAll order' snapshots) where
  line := by rw [h.line, Reader.copy]
  members := forall₂_becomes_trans h.members (forall₂_becomes_copyAll members' snapshots)
  order := forall₂_becomes_trans h.order (forall₂_becomes_copyAll order' snapshots)
  groups := h.groups.copy snapshots

/-- A line of members answers for the readers that are put together in it: with what they agree on
if one of them answers, and otherwise with the errors of the members. -/
theorem Groups.ask_firstOf (h : Groups members readers) (htells : ∀ r ∈ readers, r.Tells q s w) :
    ((∃ r ∈ readers, r.Answers q s) → ((firstOf members).ask q s).1 = .ok w) ∧
    ((∀ r ∈ readers, ¬ r.Answers q s) → ∃ es,
      ((firstOf members).ask q s).1 = .error (.allReadersFailed es) ∧
      List.Forall₂ (fun m e => (m.ask q s).1 = .error e) members es) := by
  have hany : (firstOf members).Answers q s ↔ ∃ r ∈ readers, r.Answers q s :=
    answers_firstOf_iff.trans h.answers_iff
  constructor
  · intro hr
    exact (tells_firstOf (h.tells htells)).eq (hany.2 hr)
  · intro hnone
    cases hline : ((firstOf members).ask q s).1 with
    | ok v =>
      obtain ⟨r, hr, hanswers⟩ := hany.1 ⟨v, hline⟩
      exact absurd hanswers (hnone r hr)
    | error e =>
      obtain ⟨es, rfl, hes⟩ := ask_firstOf_eq_error_iff.1 hline
      exact ⟨es, rfl, hes⟩

/-- Readers that fail or answer as one state does, whatever they and their copies have been asked
before and at least while what they share is as `At` says, are put in any order and put together in
any way. They are copied and asked, and the shared snapshots may change meanwhile. Then every read is
answered as the state says if one of the readers, as it is then, answers it, and otherwise fails with
the errors of the members, one for each, in order. -/
theorem fall_through {truth : Query → Reply} {At : Shared → Prop} {order : List Reader}
    (htells : ∀ r ∈ readers, ∀ r', r.Becomes r' → ∀ q s, At s → r'.Tells q s (truth q))
    (hperm : order.Perm readers) (hgroups : Groups members order) (shared : Shared)
    (turns : List (Table Nat Snapshot × Turn)) :
    ∀ m ∈ ((Session.start (.firstOf members) shared).runAmid turns).copies,
      ∃ members' order', Line members order m members' order' ∧ ∀ q s, At s →
        ((∃ r ∈ order', r.Answers q s) → (m.ask q s).1 = .ok (truth q)) ∧
        ((∀ r ∈ order', ¬ r.Answers q s) → ∃ es, (m.ask q s).1 = .error (.allReadersFailed es) ∧
          List.Forall₂ (fun m e => (m.ask q s).1 = .error e) members' es) := by
  have hstart : (Session.start (.firstOf members) shared).Keeps
      (fun r => ∃ members' order', Line members order r members' order') (fun _ _ => True) := by
    refine ⟨fun hr => ⟨members, order, List.mem_singleton.1 hr, ?_, ?_, hgroups⟩, trivial⟩
    · exact forall₂_becomes_refl members
    · exact forall₂_becomes_refl order
  have hrun := Session.runAmid_keeps (fun r q s log hr _ => ?_) (fun r snapshots hr => ?_)
    (fun _ _ _ h => h) hstart turns
  · intro m hm
    obtain ⟨members', order', hline⟩ := hrun.copies hm
    refine ⟨members', order', hline, fun q s hs => ?_⟩
    rw [hline.line]
    refine hline.groups.ask_firstOf fun r' hr' => ?_
    have hback : List.Forall₂ (flip Becomes) order' order := hline.order.flip
    obtain ⟨r, hr, hbecomes⟩ := exists_of_forall₂_of_mem hback hr'
    exact htells r (hperm.mem_iff.1 hr) r' hbecomes q s hs
  · obtain ⟨members', order', hline⟩ := hr
    exact ⟨hline.ask q s, trivial⟩
  · obtain ⟨members', order', hline⟩ := hr
    exact ⟨_, _, hline.copy snapshots⟩

end

end Reader

namespace Clearing.Hesitance

/-- Readers that fail until they have been asked for a slot. A copy has to be asked anew. -/
scoped instance hesitant : ForeignReaders where
  State := Bool
  account asked _ a := if asked then .ok (state.account? a) else .error (.snapshot .stale)
  storage asked _ a x := (if asked then .ok (state.word a x) else .error (.snapshot .stale), true)
  copy _ _ := false

/-- What the state says. -/
def reply : Query → Reply
  | .account a => .account (state.account? a)
  | .storage a x => .word (state.word a x)

def steady : Reader := .snapshot snapshot

/-- A hesitant reader, which has been asked for a slot or not. -/
def shy (asked : Bool) : Reader := .foreign asked

theorem ask_steady (q : Query) (s : Shared) : (steady.ask q s).1 = .ok (reply q) := by
  cases q with
  | account a => exact congrArg (Except.map Reply.account) (holds_snapshot.readAccount a)
  | storage a x => exact congrArg (Except.map Reply.word) (holds_snapshot.readStorage a x)

theorem tells_shy (asked : Bool) (q : Query) (s : Shared) : (shy asked).Tells q s (reply q) := by
  cases asked with
  | false => exact Or.inr ⟨.snapshot .stale, by cases q <;> rfl⟩
  | true => exact Or.inl (by cases q <;> rfl)

theorem eq_steady_of_becomes {r : Reader} (h : steady.Becomes r) : r = steady := by
  refine h.keeps (P := (· = steady)) (fun r q s hr => ?_) (fun r snapshots hr => by rw [hr]; rfl) rfl
  rw [hr]
  cases q <;> rfl

theorem exists_of_becomes_shy {r : Reader} (h : (shy false).Becomes r) :
    ∃ asked, r = shy asked := by
  refine h.keeps (P := fun r => ∃ asked, r = shy asked) (fun r q s hr => ?_)
    (fun r snapshots hr => ?_) ⟨false, rfl⟩
  · obtain ⟨asked, rfl⟩ := hr
    cases q with
    | account a => exact ⟨asked, rfl⟩
    | storage a x => exact ⟨true, rfl⟩
  · obtain ⟨asked, rfl⟩ := hr
    exact ⟨false, rfl⟩

theorem tells_readers :
    ∀ r ∈ [steady, shy false], ∀ r', r.Becomes r' → ∀ q s, True → r'.Tells q s (reply q) := by
  intro r hr r' hr' q s _
  rcases List.mem_pair.1 hr with rfl | rfl
  · obtain rfl := eq_steady_of_becomes hr'
    exact Or.inl (ask_steady q s)
  · obtain ⟨asked, rfl⟩ := exists_of_becomes_shy hr'
    exact tells_shy asked q s

end Clearing.Hesitance

open Clearing Hesitance in
/-- A snapshot and a hesitant reader, the hesitant one in front and in a line of its own. -/
theorem Reader.fall_through_hesitant :
    (∀ r ∈ [steady, shy false], ∀ r', r.Becomes r' → ∀ q s, True → r'.Tells q s (reply q)) ∧
    [shy false, steady].Perm [steady, shy false] ∧
    Groups [.firstOf [shy false], steady] [shy false, steady] ∧
    ∀ m ∈ ((Session.start (.firstOf [.firstOf [shy false], steady]) .empty).runAmid
        [(.empty, .copy 0), (.empty, .ask 1 (.storage address slot))]).copies,
      (m.ask (.storage address slot) .empty).1 = .ok (.word word) := by
  have hperm : [shy false, steady].Perm [steady, shy false] := List.Perm.swap _ _ _
  have hgroups : Groups [.firstOf [shy false], steady] [shy false, steady] :=
    .several (.single (shy false) .nil) (.single steady .nil)
  refine ⟨tells_readers, hperm, hgroups, fun m hm => ?_⟩
  obtain ⟨members, order, hline, hm⟩ := fall_through tells_readers hperm hgroups .empty
    [(.empty, .copy 0), (.empty, .ask 1 (.storage address slot))] m hm
  obtain ⟨hanswer, -⟩ := hm (.storage address slot) .empty trivial
  have hsteady : ∃ r ∈ order, r.Answers (.storage address slot) .empty := by
    obtain ⟨r, hr, hbecomes⟩ := exists_of_forall₂_of_mem hline.order
      (List.mem_cons_of_mem _ (List.mem_singleton_self steady))
    obtain rfl := eq_steady_of_becomes hbecomes
    exact ⟨steady, hr, _, ask_steady _ _⟩
  rw [hanswer hsteady, reply, word_state]

end Stateless
