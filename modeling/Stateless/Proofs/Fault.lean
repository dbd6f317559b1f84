import Mathlib.Data.List.Forall2
import Stateless.Fault

/-!
# Computations that succeed

What is known of the parts of a computation that had a result, and computations that stop with no
fault. Computations that change a state are run step by step.
-/

namespace Stateless

variable {ε α β : Type}

/-- A computation that goes on after another one and succeeds is preceded by a success. -/
theorem exists_of_bind_eq_ok {x : Except ε α} {f : α → Except ε β} {b : β}
    (h : x >>= f = .ok b) : ∃ a, x = .ok a ∧ f a = .ok b := by
  cases x with
  | error e => cases h
  | ok a => exact ⟨a, rfl, h⟩

/-- A computation goes on with the result of one that succeeds. -/
theorem bind_eq_of_eq_ok {x : Except ε α} {f : α → Except ε β} {a : α} (h : x = .ok a) :
    x >>= f = f a := by
  rw [h]
  rfl

/-- Computations for the members of a list give the list of their results, if all succeed. -/
theorem mapM_eq_ok_iff {f : α → Except ε β} {l : List α} {bs : List β} :
    l.mapM f = .ok bs ↔ List.Forall₂ (fun a b => f a = .ok b) l bs := by
  induction l generalizing bs with
  | nil =>
    rw [List.forall₂_nil_left_iff]
    constructor
    · intro h
      exact (Except.ok.inj h).symm
    · rintro rfl
      rfl
  | cons a l ih =>
    rw [List.mapM_cons, List.forall₂_cons_left_iff]
    constructor
    · intro h
      obtain ⟨b, hb, h⟩ := exists_of_bind_eq_ok h
      obtain ⟨cs, hcs, h⟩ := exists_of_bind_eq_ok h
      exact ⟨b, cs, hb, ih.1 hcs, (Except.ok.inj h).symm⟩
    · rintro ⟨b, cs, hb, hcs, rfl⟩
      rw [hb, ih.2 hcs]
      rfl

/-- The results of computations for the members of a list. -/
theorem mem_mapM_iff {f : α → Except ε β} {l : List α} {bs : List β} {b : β}
    (h : l.mapM f = .ok bs) : b ∈ bs ↔ ∃ a ∈ l, f a = .ok b := by
  rw [mapM_eq_ok_iff] at h
  induction h with
  | nil => simp
  | cons hf _ ih => simp [hf, ih, eq_comm]

/-- Members that each have a partner have a list of partners. -/
theorem exists_forall₂ {R : α → β → Prop} {l : List α} (h : ∀ a ∈ l, ∃ b, R a b) :
    ∃ bs, List.Forall₂ R l bs := by
  induction l with
  | nil => exact ⟨[], .nil⟩
  | cons a l ih =>
    obtain ⟨b, hb⟩ := h a List.mem_cons_self
    obtain ⟨bs, hbs⟩ := ih fun a' ha' => h a' (List.mem_cons_of_mem _ ha')
    exact ⟨b :: bs, .cons hb hbs⟩

/-- A list of computations that all succeed has the list of their results. -/
theorem mapM_eq_ok {f : α → Except ε β} {l : List α} (h : ∀ a ∈ l, ∃ b, f a = .ok b) :
    ∃ bs, l.mapM f = .ok bs ∧ ∀ b, b ∈ bs ↔ ∃ a ∈ l, f a = .ok b := by
  obtain ⟨bs, hbs⟩ := exists_forall₂ h
  have hrun := mapM_eq_ok_iff.2 hbs
  exact ⟨bs, hrun, fun b => mem_mapM_iff hrun⟩

/-- Computations for the members of a list that all succeed give a list of results, of which each
belongs to its member. -/
theorem mapM_eq_ok_map {f : α → Except ε β} {g : β → α} {P : β → Prop} {l : List α}
    (h : ∀ a ∈ l, ∃ b, f a = .ok b ∧ g b = a ∧ P b) :
    ∃ bs, l.mapM f = .ok bs ∧ bs.map g = l ∧ ∀ b ∈ bs, P b := by
  obtain ⟨bs, hbs⟩ := exists_forall₂ h
  have hrun := mapM_eq_ok_iff.2 (hbs.imp fun _ _ h => h.1)
  have hback : List.Forall₂ (fun b a => g b = a) bs l := (hbs.imp fun _ _ h => h.2.1).flip
  refine ⟨bs, hrun, ?_, fun b hb => ?_⟩
  · rwa [← List.forall₂_map_left_iff, List.forall₂_eq_eq_eq] at hback
  · obtain ⟨a, ha, hf⟩ := (mem_mapM_iff hrun).1 hb
    obtain ⟨b', hb', -, hP⟩ := h a ha
    obtain rfl := Except.ok.inj (hf.symm.trans hb')
    exact hP

/-- What every step of a loop keeps, the loop keeps. -/
theorem foldlM_keeps {P : β → Prop} {f : β → α → Except ε β} {l : List α} {b b' : β}
    (hstep : ∀ b, ∀ a ∈ l, ∀ b', P b → f b a = .ok b' → P b') (hb : P b)
    (h : l.foldlM f b = .ok b') : P b' := by
  induction l generalizing b with
  | nil =>
    obtain rfl := Except.ok.inj h
    exact hb
  | cons a l ih =>
    rw [List.foldlM_cons] at h
    obtain ⟨b₁, hfirst, hrest⟩ := exists_of_bind_eq_ok h
    have hb₁ := hstep b a List.mem_cons_self b₁ hb hfirst
    exact ih (fun b a ha => hstep b a (List.mem_cons_of_mem _ ha)) hb₁ hrest

theorem map_eq_ok_iff {f : α → β} {x : Except ε α} {b : β} :
    x.map f = .ok b ↔ ∃ a, x = .ok a ∧ f a = b := by
  cases x <;> simp [Except.map]

theorem mapError_eq_ok_iff {ε' : Type} {f : ε → ε'} {x : Except ε α} {a : α} :
    x.mapError f = .ok a ↔ x = .ok a := by
  cases x <;> simp [Except.mapError]

namespace Attempt

theorem ofExcept_eq_ok_iff {x : Except ε α} {a : α} :
    ofExcept x = .ok a ↔ x = .ok a := by
  cases x <;> simp [ofExcept]

theorem ofFault_eq_ok_iff {x : Except Fault α} {a : α} :
    (ofFault x : Attempt ε α) = .ok a ↔ x = .ok a := by
  cases x <;> simp [ofFault]

theorem mapError_eq_ok_iff {ε' : Type} {f : ε → ε'} {x : Attempt ε α} {a : α} :
    mapError f x = .ok a ↔ x = .ok a := by
  match x with
  | .ok b => simp [mapError]
  | .error (.error e) => simp [mapError]
  | .error (.fault b) => simp [mapError]

/-! ## Computations without faults -/

variable {P : α → Prop} {Q : β → Prop} {x : Attempt ε α}

/-- A computation stops with no fault, and its result, if there is one, has a property. -/
def Faultless (P : α → Prop) : Attempt ε α → Prop
  | .ok a => P a
  | .error (.error _) => True
  | .error (.fault _) => False

/-- Without a fault there is a result or an error. -/
theorem Faultless.cases (h : Faultless P x) :
    (∃ a, x = .ok a ∧ P a) ∨ ∃ e, x = .error (.error e) := by
  match x with
  | .ok a => exact .inl ⟨a, rfl, h⟩
  | .error (.error e) => exact .inr ⟨e, rfl⟩

theorem Faultless.bind {f : α → Attempt ε β} (h : Faultless P x)
    (hf : ∀ a, P a → Faultless Q (f a)) : Faultless Q (x >>= f) := by
  rcases h.cases with ⟨a, rfl, ha⟩ | ⟨e, rfl⟩
  · exact hf a ha
  · trivial

theorem Faultless.mapError {ε' : Type} {f : ε → ε'} (h : Faultless P x) :
    Faultless P (mapError f x) := by
  rcases h.cases with ⟨a, rfl, ha⟩ | ⟨e, rfl⟩
  · exact ha
  · trivial

end Attempt

/-! ## Computations that change a state -/

/-- A computation that changes a state as it goes; what it changed before it fails stays changed. -/
abbrev Changing (σ ε α : Type) := ExceptT ε (StateM σ) α

namespace Changing

variable {σ ε' : Type}

/-- What a computation answers, and the state that it leaves, also if it fails. -/
def run (x : Changing σ ε α) (s : σ) : Except ε α × σ := StateT.run (ExceptT.run x) s

theorem run_bind (x : Changing σ ε α) (f : α → Changing σ ε β) (s : σ) :
    run (x >>= f) s = match run x s with
      | (.ok a, s') => run (f a) s'
      | (.error e, s') => (.error e, s') := by
  unfold run StateT.run ExceptT.run
  simp only [bind, ExceptT.bind, ExceptT.mk, StateT.bind, ExceptT.bindCont]
  cases x s with
  | mk answer s' => cases answer <;> rfl

theorem run_adapt (f : ε → ε') (x : Changing σ ε α) (s : σ) :
    run (ExceptT.adapt f x) s = ((run x s).1.mapError f, (run x s).2) := rfl

/-- A loop of changes that cannot fail. -/
theorem run_forM_modify (l : List β) (f : σ → β → σ) (s : σ) :
    run (forM l fun b => modify fun s => f s b : Changing σ ε Unit) s = (.ok (), l.foldl f s) := by
  induction l generalizing s with
  | nil => rfl
  | cons b l ih =>
    rw [List.forM_cons, run_bind]
    exact ih (f s b)

end Changing

end Stateless
