import Stateless.Proofs.NodeSet.Orphans

/-!
# Proofs of any origin cause no fault

Whatever bytes a source gives, a verification stops with no fault. What was passed and what remains
make up the key at every point of the walk (`Passes.spells`), so there is always room for what the
walk puts behind the part that it has passed, and what it takes off the rest is there
(`Passes.inDomain`). The node where it ends leaves room for its fragment, hence for every part of the
fragment behind which an orphan is placed. The main statement is `verification_faultless`.
-/

namespace Stateless

/-- The nodes through which the walk of a verification goes, each with the part of the key that was
passed before it and the part that remains. -/
inductive Passes (source : NodeSource) (root : Word) (key : Path) : Trie → Path → Path → Prop
  /-- The whole key is before the root. -/
  | start : Passes source root key (.hidden root) .empty key
  /-- A hash is looked up. -/
  | lookUp {w : Word} {blob : Bytes} {t : Trie} {m r : Path} :
    Passes source root key (.hidden w) m r → source w = some blob → Trie.decode blob = .ok t →
      Passes source root key t m r
  /-- A fragment that leaves room and starts the rest of the key is passed. -/
  | extension {f : Path} {c : Trie} {memo : Option Word} {m m' r : Path} :
    Passes source root key (.extension f c memo) m r → m.length + f.length ≤ maxNibbles →
      r.startsWith f = true → m.append f = .ok m' → Passes source root key c m' (r.drop f.length)
  /-- The next nibble leads to a child. -/
  | branch {cs : Nibble → Trie} {v : Bytes} {memo : Option Word} {m m' r rest : Path} {d : Nibble} :
    Passes source root key (.branch cs v memo) m r → r.uncons = some (d, rest) →
      (cs d).isEmpty = false → m.push d.val = .ok m' → Passes source root key (cs d) m' rest

/-- What a walk does at a node with what it has passed and what remains is in the domain of the
operations: a fragment that fits can be put behind what was passed, and is there to be taken off what
remains; at a branch the next nibble can be read, taken off and put behind what was passed. -/
def Trie.InDomain : Trie → Path → Path → Prop
  | .leaf f _ _, m, r => m.length + f.length ≤ maxNibbles → f = r → ∃ key, m.append f = .ok key
  | .extension f _ _, m, r =>
    m.length + f.length ≤ maxNibbles → r.startsWith f = true →
      f.length ≤ r.length ∧ ∃ m', m.append f = .ok m'
  | .branch _ _ _, m, r =>
    r.isEmpty = false →
      ∃ d rest m', r.get 0 = .ok d ∧ r.pop = .ok (d, rest) ∧ m.push d.val = .ok m'
  | _, _, _ => True

section

variable {source : NodeSource} {root w : Word} {key m r : Path} {t : Trie}

/-- What was passed and what remains make up the key. -/
theorem Passes.spells (h : Passes source root key t m r) : m.toList ++ r.toList = key.toList := by
  induction h with
  | start => rfl
  | lookUp _ _ _ ih => exact ih
  | extension _ _ hst happend ih =>
    rw [Path.toList_append happend, List.append_assoc, Path.append_drop_of_startsWith hst, ih]
  | branch _ hu _ hpush ih =>
    rw [Path.toList_push hpush, List.append_assoc, List.singleton_append,
      ← Path.uncons_eq_some_iff.1 hu, ih]

theorem Passes.length_add (h : Passes source root key t m r) : m.length + r.length = key.length := by
  rw [← Path.length_toList, ← Path.length_toList, ← Path.length_toList, ← h.spells,
    List.length_append]

/-- A nibble that remains leaves room for itself behind what was passed. -/
theorem Passes.push (h : Passes source root key t m r) {d : Nibble} {rest : Path}
    (hu : r.uncons = some (d, rest)) : ∃ m', m.push d.val = .ok m' := by
  have hlen := h.length_add
  have hmax := key.length_le_max
  have hr := congrArg List.length (Path.uncons_eq_some_iff.1 hu)
  simp only [List.length_cons, Path.length_toList] at hr
  obtain ⟨m', hm', -⟩ := Path.push_eq_ok (p := m) d (by omega)
  exact ⟨m', hm'⟩

theorem Passes.inDomain (h : Passes source root key t m r) : t.InDomain m r := by
  cases t with
  | empty => trivial
  | hidden w => trivial
  | leaf f v memo =>
    intro hroom _
    obtain ⟨k, hk, -⟩ := Path.append_eq_ok hroom
    exact ⟨k, hk⟩
  | extension f c memo =>
    intro hroom hst
    obtain ⟨m', hm', -⟩ := Path.append_eq_ok hroom
    exact ⟨(Path.startsWith_iff.1 hst).length_le, m', hm'⟩
  | branch cs v memo =>
    intro hr
    cases hu : r.uncons with
    | none => simp [Path.isEmpty, Path.uncons_eq_none_iff.1 hu] at hr
    | some p =>
      obtain ⟨d, rest⟩ := p
      obtain ⟨m', hm'⟩ := h.push hu
      refine ⟨d, rest, m', ?_, by rw [Path.pop, hu], hm'⟩
      rw [Path.get, Path.uncons_eq_some_iff.1 hu]
      rfl

/-- Where the way through a node leads from a point of the walk. -/
def Descent.Passed (source : NodeSource) (root : Word) (key : Path) : Descent → Prop
  | .lookUp w m r => Passes source root key (.hidden w) m r
  | .found _ _ m last | .absent m last =>
    m.length + last.fragment.length ≤ maxNibbles ∧ ∃ r, Passes source root key last m r
  | .tooLong _ n => maxNibbles < n

/-- The way through a node causes no fault and leads to further points of the walk. -/
theorem Passes.descend (h : Passes source root key t m r) :
    ∃ d, t.descend m r = .ok d ∧ d.Passed source root key := by
  induction t generalizing m r with
  | empty => exact ⟨.absent m .empty, rfl, m.length_le_max, r, h⟩
  | hidden w => exact ⟨.lookUp w m r, rfl, h⟩
  | leaf f v memo =>
    rw [Trie.descend]
    split
    · next hlong => exact ⟨.tooLong m _, rfl, hlong⟩
    · next hroom =>
      have hfits := Nat.not_lt.1 hroom
      split
      · next hf =>
        obtain ⟨k, hk⟩ := h.inDomain hfits hf
        rw [hk]
        exact ⟨.found k v m (.leaf f v memo), rfl, hfits, r, h⟩
      · exact ⟨.absent m (.leaf f v memo), rfl, hfits, r, h⟩
  | extension f c memo ih =>
    rw [Trie.descend]
    split
    · next hlong => exact ⟨.tooLong m _, rfl, hlong⟩
    · next hroom =>
      have hfits := Nat.not_lt.1 hroom
      split
      · next hst =>
        obtain ⟨-, m', hm'⟩ := h.inDomain hfits hst
        rw [hm']
        exact ih (h.extension hfits hst hm')
      · exact ⟨.absent m (.extension f c memo), rfl, hfits, r, h⟩
  | branch cs v memo ih =>
    rw [Trie.descend]
    split
    · split
      · exact ⟨.absent m (.branch cs v memo), rfl, m.length_le_max, r, h⟩
      · exact ⟨.found m v m (.branch cs v memo), rfl, m.length_le_max, r, h⟩
    · next d rest hu =>
      split
      · exact ⟨.absent m (.branch cs v memo), rfl, m.length_le_max, r, h⟩
      · next hne =>
        obtain ⟨m', hm'⟩ := h.push hu
        rw [hm']
        exact ih d (h.branch hu (Bool.eq_false_iff.2 hne) hm')

/-- The end of a walk is a point of it, with room for the fragment of the node. -/
def VerifiedPath.Passed (source : NodeSource) (root : Word) (key : Path) (p : VerifiedPath) : Prop :=
  p.matched.length + p.last.fragment.length ≤ maxNibbles ∧
    (p.last = .empty ∨ ∃ r, Passes source root key p.last p.matched r)

/-- A walk stops with no fault, and what it looks up and where it ends are points of it. -/
theorem Passes.walk (h : Passes source root key (.hidden w) m r) (fuel : Nat) :
    Attempt.Faultless (VerifiedPath.Passed source root key) (walk source fuel w m r).outcome ∧
      ∀ visit ∈ (walk source fuel w m r).visited,
        ∃ rest, Passes source root key (.hidden visit.digest) visit.path rest := by
  induction fuel generalizing w m r with
  | zero => exact ⟨trivial, fun visit hv => absurd hv List.not_mem_nil⟩
  | succ fuel ih =>
    rw [Stateless.walk]
    cases hsrc : source w with
    | none => exact ⟨trivial, fun visit hv => absurd hv List.not_mem_nil⟩
    | some blob =>
      have hfirst : ∀ visit ∈ [(⟨m, w, blob⟩ : Visit)],
          ∃ rest, Passes source root key (.hidden visit.digest) visit.path rest := by
        intro visit hv
        obtain rfl := List.mem_singleton.1 hv
        exact ⟨r, h⟩
      cases hdec : Trie.decode blob with
      | error e =>
        simp only [hdec]
        exact ⟨trivial, hfirst⟩
      | ok node =>
        obtain ⟨d, hd, hpassed⟩ := (h.lookUp hsrc hdec).descend
        simp only [hdec, hd]
        cases d with
        | lookUp next m' rest =>
          obtain ⟨hout, hvisited⟩ := ih hpassed
          refine ⟨hout, fun visit hv => ?_⟩
          rcases List.mem_cons.1 hv with rfl | hv
          · exact ⟨r, h⟩
          · exact hvisited visit hv
        | found k v m' last => exact ⟨⟨hpassed.1, Or.inr hpassed.2⟩, hfirst⟩
        | absent m' last => exact ⟨⟨hpassed.1, Or.inr hpassed.2⟩, hfirst⟩
        | tooLong m' n => exact ⟨trivial, hfirst⟩

variable [Hasher]

theorem verify_passed (root : Word) (key : Path) (source : NodeSource) :
    Attempt.Faultless (VerifiedPath.Passed source root key) (verify root key source).outcome ∧
      ∀ visit ∈ (verify root key source).visited,
        ∃ r, Passes source root key (.hidden visit.digest) visit.path r := by
  rw [verify]
  split
  · exact ⟨⟨Nat.zero_le _, Or.inl rfl⟩, fun visit hv => absurd hv List.not_mem_nil⟩
  · exact Passes.start.walk lookupBound

namespace NodeSet

/-- Where the node at which a way ends leaves room for its fragment, there is room for its
orphans. -/
theorem orphansAt_eq_ok {p : VerifiedPath}
    (hroom : p.matched.length + p.last.fragment.length ≤ maxNibbles) :
    ∃ here, orphansAt p = .ok here := by
  rw [orphansAt]
  split
  · exact ⟨_, rfl⟩
  · have hfits : ∀ x ∈ orphans p.last, p.matched.length + x.1.length ≤ maxNibbles := by
      rintro ⟨off, node⟩ hx
      obtain ⟨⟨off', variant⟩, hvariant, heq⟩ := List.mem_map.1 hx
      obtain ⟨i, -, hi, hoff, -⟩ := Trie.mem_shortened.1 hvariant
      obtain rfl : off' = off := congrArg Prod.fst heq
      have hlen := congrArg List.length hoff
      simp only [List.length_take, Path.length_toList] at hlen
      show p.matched.length + off'.length ≤ maxNibbles
      omega
    obtain ⟨here, hhere, -⟩ := place_eq_ok hfits
    exact ⟨here, hhere⟩

theorem orphanCandidates_faultless (root : Word) (source : NodeSource) (keys : List Word) :
    Attempt.Faultless (fun _ => True) (orphanCandidates root source keys) := by
  induction keys with
  | nil => trivial
  | cons key rest ih =>
    rw [orphanCandidates]
    refine (verify_passed root (.ofWord key) source).1.mapError.bind fun p hp => ?_
    obtain ⟨here, hhere⟩ := orphansAt_eq_ok hp.1
    rw [hhere]
    exact ih.bind fun _ _ => trivial

end NodeSet

/-- Whatever a source gives, verifying a key against a root stops with no fault. At every point of the
walk what was passed and what remains make up the key and the operations are used in their domain.
Adding the orphans that some keys reveal stops with no fault either. -/
theorem verification_faultless (root : Word) (source : NodeSource) :
    (∀ key, Attempt.Faultless (VerifiedPath.Passed source root key) (verify root key source).outcome ∧
      ∀ visit ∈ (verify root key source).visited,
        ∃ r, Passes source root key (.hidden visit.digest) visit.path r) ∧
    (∀ key t m r, Passes source root key t m r →
      m.toList ++ r.toList = key.toList ∧ t.InDomain m r) ∧
    ∀ (s : NodeSet) (keys : List Word),
      Attempt.Faultless (fun _ => True) (s.addOrphans root source keys) :=
  ⟨fun key => verify_passed root key source, fun _ _ _ _ h => ⟨h.spells, h.inDomain⟩,
    fun _ keys => (NodeSet.orphanCandidates_faultless root source keys).bind fun _ _ => trivial⟩

end

end Stateless
