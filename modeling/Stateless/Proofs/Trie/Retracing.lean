import Stateless.Proofs.NodeStore
import Stateless.Proofs.Trie.Binding
import Stateless.Proofs.Trie.Completeness

/-!
# Generated proofs are verified

From a full or partial trie a proof of a key is made unless the way of the key runs into a hidden
part. Its verification against the root hash then retraces the way: it visits the nodes of the proof
in their order and finds what the trie answers. The main result is `prove_verified`.

The trie may come from any edits. An edit that runs into a hidden part is refused; it leaves the
trie as it was but for the memo of its root.
-/

namespace Stateless

open Trie

/-- What may be put into a trie if every node is to be read again: a value that can be stored, or a
hidden part. -/
def Entry.Legible : Entry → Prop
  | .value v => v ≠ [] ∧ v.length < twoPow 63
  | .hidden _ => True

theorem Entry.Legible.solid {e : Entry} (h : e.Legible) : e.Solid := by
  cases e with
  | value v => exact h.1
  | hidden d => trivial

section

variable [Hasher] {t t' : Trie} {k : Path}

/-- The nodes of a trie, but for hidden ones, can be written and read again. -/
structure Trie.Legible (t : Trie) : Prop where
  canonical : Canonical maxNibbles t
  sound : Sound t
  values : Within (fun v => v.length < twoPow 63) (fun _ => True) t

namespace Edit

variable {e : Edit} {edits : List Edit}

/-- The trie that is left by edits, some of which may be refused. -/
def after (edits : List Edit) (t : Trie) : Trie := edits.foldl (fun t e => (e.apply t).2) t

/-- A refused edit costs the memo of the root. -/
theorem apply_refused {r : Failure TrieError} (h : (e.apply t).1 = .error r) :
    (e.apply t).2 = t.forgetRoot := by
  cases e with
  | put k x =>
    rw [apply, Trie.put] at h ⊢
    cases hins : t.insert k x with
    | error r => rfl
    | ok s => simp [hins] at h
  | remove k =>
    rw [apply, Trie.remove] at h ⊢
    cases hdet : t.detach k with
    | error r => rfl
    | ok o =>
      cases o with
      | none => simp [hdet] at h
      | some p =>
        cases hset : settle p.1 with
        | error r => simp [hset]
        | ok s => simp [hdet, hset] at h
  | hash => cases h

theorem apply_legible (he : e.Puts Entry.Legible) (ht : t.Legible) : (e.apply t).2.Legible := by
  have hnil : ([] : Bytes).length < twoPow 63 := Nat.two_pow_pos 63
  have hwithin := hereditary_within (V := fun v => v.length < twoPow 63) (fun _ => True) hnil
  cases hap : (e.apply t).1 with
  | error r =>
    rw [apply_refused hap]
    exact ⟨ht.canonical.withMemo none, hereditary_sound.forgetRoot ht.sound,
      hwithin.forgetRoot ht.values⟩
  | ok a =>
    have hap : e.apply t = (.ok a, (e.apply t).2) := by rw [← hap]
    have hsolid := he.mono Entry.Legible.solid
    have hsound : e.Puts (Admits (fun _ => True) Sound) :=
      he.mono fun {x} _ => by cases x <;> trivial
    have hvalues : e.Puts (Admits (fun v => v.length < twoPow 63)
        (Within (fun v => v.length < twoPow 63) fun _ => True)) :=
      he.mono fun {x} hx => by
        cases x with
        | value v => exact hx.2
        | hidden d => trivial
    exact ⟨apply_canonical hsolid ht.canonical hap,
      apply_hereditary hereditary_sound (fun _ => Sound.memoize) hsound ht.sound hap,
      apply_hereditary hwithin (fun _ => Within.memoize) hvalues ht.values hap⟩

/-- Edits leave tries that can be written and read again. -/
theorem after_legible (hputs : ∀ e ∈ edits, e.Puts Entry.Legible) (ht : t.Legible) :
    (after edits t).Legible := by
  induction edits generalizing t with
  | nil => exact ht
  | cons e edits ih =>
    exact ih (fun e he => hputs e (List.mem_cons_of_mem _ he))
      (apply_legible (hputs e List.mem_cons_self) ht)

end Edit

namespace Trie

theorem legible_empty : Trie.Legible .empty := ⟨by trivial, by trivial, by trivial⟩

/-- A proof of a key that is known is verified against the root hash, all the way. -/
theorem Legible.complete {a : Option Bytes} (ht : t.Legible)
    (hfree : CollisionFree fun b => b = Rlp.emptyData ∨ t.Encodes b) (ha : t.view k.toList = .ok a) :
    ∃ blobs, t.prove k = .ok blobs ∧
      Complete t .empty k (verify t.hash.1 k (NodeTable.ofProof blobs).source) := by
  obtain ⟨blobs, hblobs, hmem⟩ := prove_complete ht.canonical ha
  obtain ⟨e, hc⟩ : ∃ e, t.content = .ok e := by
    cases t with
    | hidden w => cases ha
    | _ => exact ⟨_, rfl⟩
  have hencodes : ∀ b ∈ blobs, b = Rlp.emptyData ∨ t.Encodes b := fun b hb => by
    obtain ⟨l, -, s, hs, he, -⟩ := (hmem b).1 hb
    exact Or.inr ⟨l, s, hs, he⟩
  refine ⟨blobs, hblobs, verify_complete ht.canonical ht.sound hfree (Or.inl rfl) hc
    (Or.inr ⟨[], t, nodeAt_nil t, hc⟩) ha fun l b hstored => ?_⟩
  have hb : b ∈ blobs := (hmem b).2 ⟨l, hstored⟩
  obtain ⟨-, s, hs, he, -⟩ := hstored
  exact ⟨(ofProof_source hfree hencodes _ _).2 ⟨hb, rfl⟩,
    content_length_lt (ht.values.nodeAt hs) (ht.sound.nodeAt hs) he⟩

/-- After any edits, a proof of a key is refused exactly if the key is hidden, and with the same
hash. Otherwise the proof is verified against the root hash, with the answer of the trie: what is
visited is the proof, in order and on the way of the key, and the value of the key is found if there
is one. -/
theorem prove_verified {edits : List Edit} (hputs : ∀ e ∈ edits, e.Puts Entry.Legible)
    (ht : Edit.after edits .empty = t)
    (hfree : CollisionFree fun b => b = Rlp.emptyData ∨ t.Encodes b) (k : Path) :
    (∃ h, t.getProven k = .error (.readHidden h) ∧ t.prove k = .error (.readHidden h)) ∨
    ∃ a blobs visited p, t.getProven k = .ok a ∧ t.prove k = .ok blobs ∧
      verify t.hash.1 k (NodeTable.ofProof blobs).source = ⟨visited, a.map (k, ·), .ok p⟩ ∧
      p.value = a ∧ visited.map Visit.blob = (if t.isEmpty then [] else blobs) ∧
      ∀ visit ∈ visited, k.startsWith visit.path = true := by
  have hlegible : t.Legible := ht ▸ Edit.after_legible hputs legible_empty
  cases ha : t.view k.toList with
  | error h => exact Or.inl ⟨h, by rw [getProven_eq, ha]; rfl, prove_error ha⟩
  | ok a =>
    obtain ⟨blobs, hblobs, hcomplete⟩ := hlegible.complete hfree ha
    generalize hv : verify t.hash.1 k (NodeTable.ofProof blobs).source = v at hcomplete
    obtain ⟨visited, leaf, outcome⟩ := v
    obtain ⟨p, rfl, hends⟩ := hcomplete.ends
    have hleaf : leaf = a.map (k, ·) := by
      have hfound : ∀ key value, leaf = some (key, value) ↔ key = k ∧ a = some value :=
        fun key value => by
          have hkey : key.toList = Path.empty.toList ++ k.toList ↔ key = k :=
            ⟨Path.ext, congrArg Path.toList⟩
          rw [hcomplete.leaf key value, hkey, ha, Except.ok.injEq]
      refine Option.ext fun ⟨key, value⟩ => ?_
      rw [hfound, Option.map_eq_some_iff]
      constructor
      · rintro ⟨rfl, rfl⟩
        exact ⟨value, rfl, rfl⟩
      · rintro ⟨v, hv, heq⟩
        obtain ⟨rfl, rfl⟩ := Prod.mk.inj heq
        exact ⟨rfl, hv⟩
    refine Or.inr ⟨a, blobs, visited, p, by rw [getProven_eq, ha]; rfl, hblobs, by rw [hv, hleaf],
      Except.ok.inj (hends.answer.symm.trans ha), ?_, fun visit hvisit => ?_⟩
    · cases hempty : t.isEmpty with
      | true =>
        refine List.map_eq_nil_iff.2 (List.eq_nil_iff_forall_not_mem.2 fun visit hvisit => ?_)
        exact absurd (isEmpty_iff.1 hempty) ((hcomplete.visits visit).1 hvisit).1
      | false =>
        have hproof := hcomplete.blobs (isEmpty_eq_false_iff.1 hempty)
        exact Except.ok.inj (hproof.symm.trans hblobs)
    · obtain ⟨-, l, e, ⟨hl, -⟩, hpath, -⟩ := (hcomplete.visits visit).1 hvisit
      have hpath' : visit.path.toList = l := hpath
      exact Path.startsWith_iff.2 (hpath' ▸ hl)

end Trie

end

/-! ## An instance -/

namespace Trie

namespace Graft

/-- Edits that leave a value, a leaf with a long value and a hidden part. The last one is refused.
-/
def edits : List Edit :=
  [.put .empty (.value [7]), .put (.ofList [1]) (.value Sprig.long), .put (.ofList [2]) (.hidden .zero),
    .remove (.ofList [2, 3])]

/-- The children of the trie that is left. -/
def child (i : Nibble) : Trie := if i = 2 then .hidden .zero else if i = 1 then Sprig.tip else .empty

/-- The trie that is left. -/
def trie : Trie := .branch child [7] none

/-- The encoding of the root. -/
def encoding : Bytes :=
  branchEncoding (fun i => if i = 2 then Rlp.data (FixedBytes.zero : Word).toBytes
    else if i = 1 then Rlp.data Sprig.tipHash.toBytes else Rlp.emptyData) [7]

theorem edits_legible : ∀ e ∈ edits, e.Puts Entry.Legible := by
  have hlen : ∀ n ≤ 32, n < twoPow 63 := by
    intro n hn
    exact hn.trans_lt (by decide)
  simp [edits, Edit.Puts, Entry.Legible, hlen, Sprig.long]

theorem after_edits : Edit.after edits .empty = trie := by
  have hchild : (Children.set (only 1 Sprig.tip).get 2 (.hidden .zero)).get = child := by
    funext i
    rw [Children.get_set, only_get]
    rfl
  have hafter : Edit.after edits .empty =
      .branch (Children.set (only 1 Sprig.tip).get 2 (.hidden .zero)).get [7] none := rfl
  rw [hafter, hchild, trie]

theorem trie_content : trie.content = .ok encoding := by
  rw [trie, content_branch, encoding]
  congr 2
  funext i
  rw [child]
  split
  · rfl
  · split
    · rw [Sprig.reference_tip]
      rfl
    · rfl

theorem collisionFree : CollisionFree fun b => b = Rlp.emptyData ∨ trie.Encodes b := by
  have hmem : ∀ b, b = Rlp.emptyData ∨ trie.Encodes b →
      b ∈ [Rlp.emptyData, encoding, leafEncoding .empty Sprig.long] := by
    rintro b (rfl | h)
    · simp
    · rcases encodes_branch.1 h with h | ⟨i, h⟩
      · simp [Except.ok.inj (h.symm.trans trie_content)]
      · rw [child] at h
        split at h
        · exact absurd h encodes_hidden
        · split at h
          · simp [encodes_leaf.1 h]
          · simp [encodes_empty.1 h]
  refine collisionFree_of_nodup hmem ?_
  simp only [digest_toNat]
  decide +kernel

end Graft

open Graft in
/-- The hypotheses hold of Keccak-256 and a trie with a hidden part. The proof of a key beside it is
verified and consists of two nodes; a key below it cannot be proven. -/
theorem prove_verified_graft :
    (∀ e ∈ Graft.edits, e.Puts Entry.Legible) ∧ Edit.after Graft.edits .empty = Graft.trie ∧
    (CollisionFree fun b => b = Rlp.emptyData ∨ Graft.trie.Encodes b) ∧
    (∃ visited p, verify Graft.trie.hash.1 (.ofList [1]) (NodeTable.ofProof
        [Graft.encoding, leafEncoding .empty Sprig.long]).source =
      ⟨visited, some (.ofList [1], Sprig.long), .ok p⟩ ∧ p.value = some Sprig.long ∧
      visited.map Visit.blob = [Graft.encoding, leafEncoding .empty Sprig.long]) ∧
    Graft.trie.prove (.ofList [2, 3]) = .error (.readHidden .zero) := by
  refine ⟨edits_legible, after_edits, collisionFree, ?_, ?_⟩
  · have hget : trie.getProven (.ofList [1]) = .ok (some Sprig.long) := rfl
    have hprove : trie.prove (.ofList [1]) = .ok [encoding, leafEncoding .empty Sprig.long] := by
      have hroot : here true trie = [encoding] := here_root trie_content
      rw [prove, proveFrom_eq, hroot]
      rfl
    rcases prove_verified edits_legible after_edits collisionFree (.ofList [1]) with
      ⟨h, herror, -⟩ | ⟨a, blobs, visited, p, ha, hblobs, hverify, hvalue, hvisited, -⟩
    · cases hget.symm.trans herror
    · obtain rfl := Except.ok.inj (hget.symm.trans ha)
      obtain rfl := Except.ok.inj (hprove.symm.trans hblobs)
      exact ⟨visited, p, hverify, hvalue, hvisited⟩
  · rcases prove_verified edits_legible after_edits collisionFree (.ofList [2, 3]) with
      ⟨h, herror, hprove⟩ | ⟨a, blobs, visited, p, ha, -⟩
    · obtain rfl := TrieError.readHidden.inj (Except.error.inj herror)
      exact hprove
    · cases ha

end Trie

end Stateless
