import Stateless.Proofs.Trie.Proving
import Stateless.Proofs.Trie.Storable

/-!
# Proofs are complete

A source that has all nodes of a key's proof lets the verification of the key succeed, and what the
verification visits are exactly these nodes, in the order of the proof. The main statement is
`verify_complete`. It also holds of tries with hidden parts, as long as the way of the key does not
run into one.
-/

namespace Stateless

namespace Trie

variable [Hasher]

variable {t s : Trie} {k r matched remaining : Path} {l : List Nibble} {e : Bytes} {n fuel : Nat}
variable {source : NodeSource} {a : Option Bytes}

/-- A source has the stored nodes on the way of a list of nibbles, and they can be read. -/
def Supplies (source : NodeSource) (t : Trie) (k : List Nibble) : Prop :=
  ∀ l e, t.Stored k l e → source (digest e) = some e ∧ e.length < 256 ^ 8 + 9

/-- A verification that has gone the whole way through a trie: its end, the nodes that it visited
and the value that it found. -/
structure Complete (t : Trie) (matched remaining : Path) (v : Verification) : Prop where
  /-- It ends where the way does. -/
  ends : ∃ p, v.outcome = .ok p ∧ Ends t matched remaining p
  /-- It visits the nodes on the way that are stored. -/
  visits : ∀ visit, visit ∈ v.visited ↔ t ≠ .empty ∧ ∃ l e, t.Stored remaining.toList l e ∧
    visit.path.toList = matched.toList ++ l ∧ visit.digest = digest e ∧ visit.blob = e
  /-- The encodings of what it visits are the proof. -/
  blobs : t ≠ .empty → t.prove remaining = .ok (v.visited.map Visit.blob)
  /-- It finds the value of the key, if it has one. -/
  leaf : ∀ key value, v.leaf = some (key, value) ↔
    key.toList = matched.toList ++ remaining.toList ∧ t.view remaining.toList = .ok (some value)

/-- If there are no long nodes further on the way, only the first node is stored. -/
theorem stored_end_iff (hc : t.content = .ok e)
    (hend : ∀ l e, l <+: k.toList → ¬ (l ≠ [] ∧ t.Long l e)) {e' : Bytes} :
    t.Stored k.toList l e' ↔ l = [] ∧ e' = e := by
  constructor
  · rintro ⟨hl, s, hs, he, hlong⟩
    by_cases hne : l = []
    · subst hne
      obtain rfl := Option.some.inj ((nodeAt_nil t).symm.trans hs)
      exact ⟨rfl, Except.ok.inj (he.symm.trans hc)⟩
    · exact absurd ⟨hne, s, hs, he, hlong.resolve_left hne⟩ (hend l e' hl)
  · rintro ⟨rfl, rfl⟩
    exact ⟨List.nil_prefix, t, nodeAt_nil t, hc, Or.inl rfl⟩

/-- Stored nodes on a way are the first one and those from the next long node on. -/
theorem stored_lookUp_iff (hc : t.content = .ok e) (hs : t.nodeAt l = some s)
    (hk : k.toList = l ++ r.toList) {es : Bytes} (hes : s.content = .ok es)
    (hlong : l ≠ [] ∧ t.Long l es)
    (hfirst : ∀ l' e', l' <+: k.toList → (l' ≠ [] ∧ t.Long l' e') → l <+: l')
    {l' : List Nibble} {e' : Bytes} :
    t.Stored k.toList l' e' ↔
      (l' = [] ∧ e' = e) ∨ ∃ l'', l' = l ++ l'' ∧ s.Stored r.toList l'' e' := by
  constructor
  · rintro ⟨hl', s', hs', he', hlong'⟩
    by_cases hne : l' = []
    · subst hne
      obtain rfl := Option.some.inj ((nodeAt_nil t).symm.trans hs')
      exact Or.inl ⟨rfl, Except.ok.inj (he'.symm.trans hc)⟩
    · have hle := hlong'.resolve_left hne
      obtain ⟨l'', rfl⟩ := hfirst l' e' hl' ⟨hne, s', hs', he', hle⟩
      rw [hk, List.prefix_append_right_inj] at hl'
      rw [nodeAt_append hs] at hs'
      exact Or.inr ⟨l'', rfl, hl', s', hs', he', Or.inr hle⟩
  · rintro (⟨rfl, rfl⟩ | ⟨l'', rfl, hl'', s', hs', he', hlong'⟩)
    · exact ⟨List.nil_prefix, t, nodeAt_nil t, hc, Or.inl rfl⟩
    · refine ⟨?_, s', by rw [nodeAt_append hs, hs'], he', Or.inr ?_⟩
      · rwa [hk, List.prefix_append_right_inj]
      · rcases hlong' with rfl | hle
        · obtain rfl := Option.some.inj ((nodeAt_nil s).symm.trans hs')
          obtain ⟨-, s'', hs'', he'', hle⟩ := hlong
          obtain rfl := Option.some.inj (hs.symm.trans hs'')
          obtain rfl := Except.ok.inj (he'.symm.trans he'')
          exact hle
        · exact hle

/-- A walk that ends in the node that it looked up first. -/
theorem complete_end {q : VerifiedPath} {found : Option (Path × Bytes)} (ht : Canonical n t)
    (hne : t ≠ .empty) (hc : t.content = .ok e) (hends : Ends t matched remaining q)
    (hend : ∀ l e, l <+: remaining.toList → ¬ (l ≠ [] ∧ t.Long l e))
    (hfound : ∀ key value, found = some (key, value) ↔
      key.toList = matched.toList ++ remaining.toList ∧
        t.view remaining.toList = .ok (some value)) :
    Complete t matched remaining ⟨[⟨matched, digest e, e⟩], found, .ok q⟩ where
  ends := ⟨q, rfl, hends⟩
  blobs _ := by
    rw [prove, proveFrom_eq, proveBelow_end ht hends.answer hend, here_root hc]
    rfl
  visits visit := by
    simp only [List.mem_singleton, stored_end_iff hc hend]
    constructor
    · rintro rfl
      exact ⟨hne, [], e, ⟨rfl, rfl⟩, by simp, rfl, rfl⟩
    · rintro ⟨-, l, e', ⟨rfl, rfl⟩, hpath, hdigest, hblob⟩
      obtain ⟨path, d, blob⟩ := visit
      obtain rfl := Path.ext (hpath.trans (List.append_nil _))
      obtain rfl : d = digest e' := hdigest
      obtain rfl : blob = e' := hblob
      rfl
  leaf := hfound

/-- A walk with enough fuel and all nodes on the way goes the whole way. -/
theorem walk_complete (ht : Canonical n t) (hs : Sound t) (hne : t ≠ .empty)
    (hc : t.content = .ok e) (hroom : matched.length + n ≤ maxNibbles)
    (ha : t.view remaining.toList = .ok a) (hfuel : remaining.length < fuel) (hsupply : Supplies source t remaining.toList) :
    Complete t matched remaining (walk source fuel (digest e) matched remaining) := by
  induction fuel generalizing t n e matched remaining with
  | zero => exact absurd hfuel (Nat.not_lt_zero _)
  | succ fuel ih =>
    obtain ⟨hsource, hlen⟩ :=
      hsupply [] e ⟨List.nil_prefix, t, nodeAt_nil t, hc, Or.inl rfl⟩
    obtain ⟨d, hd, harr⟩ := descend_outline ht hs hroom ha
    rw [walk]
    simp only [hsource, decode_content ht hs hne hc hlen, hd]
    cases d with
    | tooLong m k => exact absurd harr id
    | absent m last =>
      obtain ⟨hends, hnone⟩ := harr
      refine complete_end ht hne hc hends hnone fun key value => ⟨fun h => ?_, fun h => ?_⟩
      · cases h
      · cases hends.answer.symm.trans h.2
    | found key v m last =>
      obtain ⟨hends, hkey, hnone⟩ := harr
      refine complete_end ht hne hc hends hnone fun key' value => ⟨fun h => ?_, fun h => ?_⟩
      · obtain ⟨rfl, rfl⟩ := Prod.mk.inj (Option.some.inj h)
        exact ⟨hkey, hends.answer⟩
      · obtain rfl := Path.ext (hkey.trans h.1.symm)
        obtain rfl := Option.some.inj (Except.ok.inj (hends.answer.symm.trans h.2))
        rfl
    | lookUp w m rest =>
      obtain ⟨l, s, es, hm, hrest, hnode, hes, hlong, rfl, hfirst⟩ := harr
      have hiff : ∀ l' e', t.Stored remaining.toList l' e' ↔ (l' = [] ∧ e' = e) ∨
          ∃ l'', l' = l ++ l'' ∧ s.Stored rest.toList l'' e' :=
        fun l' e' => stored_lookUp_iff hc hnode hrest hes hlong hfirst
      obtain ⟨hcan, hroom'⟩ := room_nodeAt ht hnode hm hroom
      have hshorter : rest.length < fuel := by
        have h₁ := congrArg List.length hrest
        have h₂ := List.length_pos_iff.2 hlong.1
        simp only [List.length_append, Path.length_toList] at h₁
        omega
      have hne' : s ≠ .empty := ne_empty_of_long (H := hlong) hnode
      have ha' : s.view rest.toList = .ok a := by rw [← view_nodeAt hnode, ← hrest, ha]
      obtain ⟨⟨q, hq, hends⟩, hvisits, hblobs, hleaf⟩ := ih hcan (hs.nodeAt hnode) hne' hes hroom'
        ha' hshorter fun l' e' h => hsupply _ _ ((hiff _ _).2 (Or.inr ⟨l', rfl, h⟩))
      refine ⟨⟨q, hq, hends.lift hnode hm hrest⟩, fun visit => ?_, fun _ => ?_, fun key value => ?_⟩
      · simp only [List.mem_cons, hvisits, hiff]
        constructor
        · rintro (rfl | ⟨-, l', e', hstored, hpath, hdigest, hblob⟩)
          · exact ⟨hne, [], e, Or.inl ⟨rfl, rfl⟩, by simp, rfl, rfl⟩
          · exact ⟨hne, l ++ l', e', Or.inr ⟨l', rfl, hstored⟩,
              by rw [hpath, hm, List.append_assoc], hdigest, hblob⟩
        · rintro ⟨-, l', e', ⟨rfl, rfl⟩ | ⟨l'', rfl, hstored⟩, hpath, hdigest, hblob⟩
          · obtain ⟨path, d, blob⟩ := visit
            obtain rfl := Path.ext (hpath.trans (List.append_nil _))
            obtain rfl : d = digest e' := hdigest
            obtain rfl : blob = e' := hblob
            exact Or.inl rfl
          · exact Or.inr ⟨hne', l'', e', hstored, by rw [hpath, hm, List.append_assoc], hdigest, hblob⟩
      · have hnext := proveBelow_next ht ha hlong.1 hnode hrest hlong.2 hfirst
        have hproof : proveFrom true s rest = _ := hblobs hne'
        rw [prove, proveFrom_eq, hnext, hproof, here_root hc]
        rfl
      · dsimp only
        rw [hleaf, hm, hrest, view_nodeAt hnode, List.append_assoc]

/-- A verification against a root that stands for the empty trie visits nothing. -/
theorem verify_empty {root : Word} (h : isEmptyRoot root = true) :
    Complete .empty .empty k (verify root k source) := by
  rw [verify, if_pos h]
  refine ⟨⟨_, rfl, ends_empty k⟩, fun visit => by simp, fun hne => absurd rfl hne,
    fun _ _ => ⟨fun h => ?_, fun h => ?_⟩⟩
  · cases h
  · cases h.2

/-- A verification against the root hash of a trie with all nodes on the way goes the whole way. -/
theorem verify_complete {S : Bytes → Prop} (ht : Canonical maxNibbles t) (hs : Sound t)
    (hfree : CollisionFree S) (hempty : S Rlp.emptyData) (hc : t.content = .ok e) (he : S e)
    (ha : t.view k.toList = .ok a) (hsupply : Supplies source t k.toList) :
    Complete t .empty k (verify t.hash.1 k source) := by
  have hroot := isEmptyRoot_hash_iff hs hfree hempty hc he
  by_cases h : isEmptyRoot t.hash.1 = true
  · obtain rfl := hroot.1 h
    exact verify_empty h
  · have hfuel : k.length < lookupBound := by
      have hk := k.length_le_max
      have hpow : 1 ≤ twoPow 256 := Nat.one_le_two_pow
      have := Nat.mul_le_mul_left (maxNibbles + 1) hpow
      rw [lookupBound]
      omega
    rw [verify, if_neg h, hash_eq_digest hs hc]
    exact walk_complete ht hs (mt hroot.2 h) hc (by simp [Path.length]) ha hfuel hsupply

/-! ## Proofs with missing nodes -/

/-- A walk that succeeds has found every stored node on the way. -/
theorem walk_supplied {p : VerifiedPath} (ht : Canonical n t) (hfull : Full t) (hs : Sound t)
    (hne : t ≠ .empty) (hc : t.content = .ok e) (htrue : Truthful source t)
    (hroom : matched.length + n ≤ maxNibbles)
    (h : (walk source fuel (digest e) matched remaining).outcome = .ok p) {e' : Bytes}
    (hstored : t.Stored remaining.toList l e') : source (digest e') = some e' := by
  induction fuel generalizing t n e matched remaining l with
  | zero => cases h
  | succ fuel ih =>
    rw [walk] at h
    cases hsrc : source (digest e) with
    | none => simp [hsrc] at h
    | some blob =>
      obtain rfl := htrue e blob ⟨[], t, nodeAt_nil t, hc⟩ hsrc
      simp only [hsrc] at h
      cases hdec : decode blob with
      | error r => simp [hdec] at h
      | ok s =>
        obtain rfl := outline_of_decode ht hs hne hc hdec
        obtain ⟨a, ha⟩ := hfull.view remaining.toList
        obtain ⟨d, hd, harr⟩ := descend_outline ht hs hroom ha
        simp only [hdec, hd] at h
        cases d with
        | tooLong m k => exact absurd harr id
        | absent m last =>
          obtain ⟨-, rfl⟩ := (stored_end_iff hc harr.2).1 hstored
          exact hsrc
        | found key v m last =>
          obtain ⟨-, rfl⟩ := (stored_end_iff hc harr.2.2).1 hstored
          exact hsrc
        | lookUp w m rest =>
          obtain ⟨l', c, ec, hm, hrest, hnode, hce, hlong, rfl, hfirst⟩ := harr
          obtain ⟨hcan, hroom'⟩ := room_nodeAt ht hnode hm hroom
          rcases (stored_lookUp_iff hc hnode hrest hce hlong hfirst).1 hstored with
            ⟨-, rfl⟩ | ⟨l'', -, hbelow⟩
          · exact hsrc
          · exact ih hcan (hfull.nodeAt hnode) (hs.nodeAt hnode)
              (ne_empty_of_long (H := hlong) hnode) hce (htrue.nodeAt hnode) hroom' h hbelow

/-- Only the empty trie has an empty root. -/
theorem Whole.isEmptyRoot_hash {S : Bytes → Prop} (ht : t.Whole) (hfree : CollisionFree S)
    (hempty : S Rlp.emptyData) (hS : ∀ e, t.Encodes e → S e) :
    isEmptyRoot t.hash.1 = true ↔ t = .empty := by
  obtain ⟨e, hc⟩ := ht.full.content
  exact isEmptyRoot_hash_iff ht.sound hfree hempty hc (hS e ⟨[], t, nodeAt_nil t, hc⟩)

theorem Stored.encodes {k l : List Nibble} (h : t.Stored k l e) : t.Encodes e := by
  obtain ⟨-, s, hs, he, -⟩ := h
  exact ⟨l, s, hs, he⟩

/-- A key of a trie that is whole is verified all the way if the source has the stored nodes on the
way. -/
theorem Whole.verified {S : Bytes → Prop} (ht : t.Whole) (hfree : CollisionFree S)
    (hempty : S Rlp.emptyData) (hS : ∀ e, t.Encodes e → S e)
    (hheld : ∀ l e, t.Stored k.toList l e → source (digest e) = some e) :
    Complete t .empty k (verify t.hash.1 k source) := by
  obtain ⟨e, hc⟩ := ht.full.content
  obtain ⟨a, ha⟩ := ht.full.view k.toList
  refine verify_complete ht.canonical ht.sound hfree hempty hc (hS e ⟨[], t, nodeAt_nil t, hc⟩) ha
    fun l e hstored => ⟨hheld l e hstored, ?_⟩
  obtain ⟨-, s, hs, hes, -⟩ := hstored
  exact content_length_lt (ht.fits.nodeAt hs) (ht.sound.nodeAt hs) hes

/-- A key of such a trie can be verified with nodes from a source that does not lie exactly if the
source has all stored nodes on the way, and then the verification goes the whole way. -/
theorem verify_ends_iff (ht : t.Whole) (haddr : source.Addressed)
    (hfree : CollisionFree (t.Involved source)) :
    ((∃ p, (verify t.hash.1 k source).outcome = .ok p) ↔
      ∀ l e, t ≠ .empty → t.Stored k.toList l e → source (digest e) = some e) ∧
    ((∃ p, (verify t.hash.1 k source).outcome = .ok p) →
      Complete t .empty k (verify t.hash.1 k source)) := by
  have hS : ∀ e, t.Encodes e → t.Involved source e := fun e he => Or.inr (Or.inl he)
  have hroot := ht.isEmptyRoot_hash hfree (Or.inl rfl) hS
  have hcomplete : (∀ l e, t ≠ .empty → t.Stored k.toList l e → source (digest e) = some e) →
      Complete t .empty k (verify t.hash.1 k source) := by
    intro hheld
    by_cases hne : t = .empty
    · subst hne
      exact verify_empty (hroot.2 rfl)
    · exact ht.verified hfree (Or.inl rfl) hS fun l e => hheld l e hne
  have hsupplied : (∃ p, (verify t.hash.1 k source).outcome = .ok p) →
      ∀ l e, t ≠ .empty → t.Stored k.toList l e → source (digest e) = some e := by
    rintro ⟨p, hp⟩ l e' hne hstored
    obtain ⟨e, hc⟩ := ht.full.content
    rw [verify, if_neg (mt hroot.1 hne), hash_eq_digest ht.sound hc] at hp
    exact walk_supplied ht.canonical ht.full ht.sound hne hc
      (truthful_of_collisionFree haddr hfree) (by simp [Path.length]) hp hstored
  exact ⟨⟨hsupplied, fun h => (hcomplete h).ends.imp fun _ => And.left⟩,
    fun h => hcomplete (hsupplied h)⟩

end Trie

end Stateless
