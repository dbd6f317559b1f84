import Stateless.Proofs.Reader.Agreement
import Stateless.Proofs.Reader.Answers

/-!
# Readers of tries and their copies

A reader of tries keeps the storage tries that it has rebuilt, and a copy starts with those of its
original. The main result is `TrieReader.caching_transparent`: no read through a reader or a copy
shows what has been kept, and what a copy keeps is decided by its own history alone.
-/

namespace Stateless

namespace TrieReader

section

variable [Hasher] [ForeignReaders]

/-- After some reads a reader of tries keeps, besides what it had, the storage tries that can be
rebuilt for the addresses whose slots were read. -/
theorem after_tries (r : TrieReader) (qs : List Query) (s : Shared) :
    ∃ r', (Reader.tries r).after qs s = .tries r' ∧ ∀ a t, r'.storageTries.find? a = some t ↔
      r.storageTries.find? a = some t ∨ r.storageTries.find? a = none ∧
        (∃ slot, Query.storage a slot ∈ qs) ∧ r.rebuilt? a = some t := by
  induction qs generalizing r with
  | nil =>
    refine ⟨r, rfl, fun a t => ⟨Or.inl, ?_⟩⟩
    rintro (h | ⟨-, ⟨slot, hslot⟩, -⟩)
    · exact h
    · cases hslot
  | cons q qs ih =>
    cases q with
    | account b =>
      obtain ⟨r', hr', hkept⟩ := ih r
      refine ⟨r', hr', fun a t => ?_⟩
      have hmem : (∃ slot, Query.storage a slot ∈ Query.account b :: qs) ↔
          ∃ slot, Query.storage a slot ∈ qs := by simp
      rw [hmem]
      exact hkept a t
    | storage b x =>
      obtain ⟨r', hr', hkept⟩ := ih (r.remember b)
      have hnext : ((Reader.tries r).ask (.storage b x) s).2.1 = .tries (r.remember b) :=
        congrArg Reader.tries (r.readStorage_snd b x)
      refine ⟨r', ?_, fun a t => ?_⟩
      · show (((Reader.tries r).ask (.storage b x) s).2.1).after qs s = .tries r'
        rw [hnext]
        exact hr'
      · rw [hkept, find?_remember, rebuilt?_remember]
        by_cases hab : a = b
        · have hmem : ∃ slot, Query.storage a slot ∈ Query.storage b x :: qs :=
            ⟨x, hab ▸ List.mem_cons_self⟩
          rw [if_pos hab]
          cases r.storageTries.find? a with
          | some t' => simp
          | none =>
            rw [Option.none_or]
            constructor
            · rintro (h | ⟨h, -, h'⟩)
              · exact Or.inr ⟨rfl, hmem, h⟩
              · rw [h] at h'
                cases h'
            · rintro (h | ⟨-, -, h⟩)
              · cases h
              · exact Or.inl h
        · have hmem : (∃ slot, Query.storage a slot ∈ Query.storage b x :: qs) ↔
              ∃ slot, Query.storage a slot ∈ qs := by simp [hab]
          rw [if_neg hab, hmem]

/-- The reads of a reader of tries and of its copies, in any order, are answered as by a reader that
has just been made, with the same errors. A read leaves all other copies as they are. What a copy
keeps are the storage tries that can be rebuilt for the addresses whose slots were read through it
or through what it was copied from, and no others. The nodes may be those of any source
(`NodeTable.source_surjective`), even of one in which they are not under their own hashes. -/
theorem caching_transparent {nodes : NodeTable} {root : Word} {fresh : TrieReader}
    (hfresh : make nodes root = .ok fresh) (shared : Shared) (turns : List Turn) :
    let session := (Session.start (.tries fresh) shared).run turns
    (∀ x ∈ session.log, ∀ s, x.2 = ((Reader.tries fresh).ask x.1 s).1) ∧
    (∀ i j q, i ≠ j → (session.step (.ask i q)).copies[j]? = session.copies[j]?) ∧
    ∀ (i : Nat) qs, (Session.histories turns)[i]? = some qs →
      ∃ r : TrieReader, session.copies[i]? = some (.tries r) ∧
        ∀ a t, r.storageTries.find? a = some t ↔
          (∃ slot, Query.storage a slot ∈ qs) ∧ fresh.rebuilt? a = some t := by
  intro session
  refine ⟨Session.log_eq fresh shared turns, fun i j q hij => ?_, fun i qs hqs => ?_⟩
  · rw [Session.step]
    cases session.copies[i]? with
    | none => rfl
    | some r => exact List.getElem?_set_ne hij
  · obtain ⟨r, hr, hkept⟩ := fresh.after_tries qs shared
    have hempty (a : Address) : fresh.storageTries.find? a = none := by
      unfold make at hfresh
      cases haccounts : Trie.rebuild root nodes.source with
      | error e =>
        rw [haccounts] at hfresh
        cases hfresh
      | ok accounts =>
        rw [haccounts] at hfresh
        rw [← Except.ok.inj hfresh]
        rfl
    have hcopy : ∀ qs, ((Reader.tries fresh).after qs shared).copy shared.snapshots =
        (Reader.tries fresh).after qs shared := fun qs => by
      obtain ⟨r', hr', -⟩ := fresh.after_tries qs shared
      rw [hr']
      rfl
    refine ⟨r, ?_, fun a t => ?_⟩
    · rw [Session.copies_eq _ _ hcopy, List.getElem?_map, hqs, Option.map_some, hr]
    · rw [hkept, hempty]
      simp

end

open Clearing in
/-- An account with a word in a slot is read through a reader and its copy, which alone reads the
word: then the copy alone keeps a storage trie. -/
theorem caching_transparent_clearing :
    ∃ fresh, make (NodeTable.ofProof leaves) state.root = .ok fresh ∧
      let session := (Session.start (.tries fresh) .empty).run
        [.copy 0, .ask 1 (.storage address slot), .ask 0 (.account address)]
      (∀ x ∈ session.log, x.2 = ((Reader.tries fresh).ask x.1 .empty).1) ∧
      (∃ r : TrieReader, session.copies[0]? = some (.tries r) ∧
        r.storageTries.find? address = none) ∧
      ∃ r : TrieReader, session.copies[1]? = some (.tries r) ∧
        r.storageTries.find? address = fresh.rebuilt? address := by
  obtain ⟨fresh, hfresh, -⟩ := proves_leaves.make collisionFree_state
  obtain ⟨hlog, -, hcopies⟩ := caching_transparent hfresh .empty
    [.copy 0, .ask 1 (.storage address slot), .ask 0 (.account address)]
  obtain ⟨r₀, hr₀, hkept₀⟩ := hcopies 0 [.account address] rfl
  obtain ⟨r₁, hr₁, hkept₁⟩ := hcopies 1 [.storage address slot] rfl
  refine ⟨fresh, hfresh, fun x hx => hlog x hx .empty, ⟨r₀, hr₀, ?_⟩, r₁, hr₁, ?_⟩
  · refine Option.eq_none_iff_forall_ne_some.2 fun t ht => ?_
    obtain ⟨⟨x, hx⟩, -⟩ := (hkept₀ address t).1 ht
    simp at hx
  · refine Option.ext fun t => (hkept₁ address t).trans ?_
    exact and_iff_right ⟨slot, List.mem_singleton_self _⟩

end TrieReader

end Stateless
