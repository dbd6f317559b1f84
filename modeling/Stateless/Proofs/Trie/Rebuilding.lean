import Stateless.Proofs.Trie.Pruned
import Stateless.Proofs.Trie.Soundness
import Stateless.Proofs.Trie.Storable
import Stateless.Proofs.Trie.Veil
import Stateless.Trie.Rebuild

/-!
# Rebuilding a trie from some of its nodes

From a truthful source a trie is rebuilt as far as the source knows it: a node that is referred to
by its hash and that the source lacks is hidden, and what lies below a hidden node is not seen. The
main result is `rebuild_eq`.

The rebuilt trie is the whole one with some parts pruned (`pruned_knownTo`). If no changed key leads
to what is hidden, it is also a veiled form of the whole trie (`Veil.rebuild_veiled`).
-/

namespace Stateless

namespace Trie

section

variable {ε : Type} {known : Word → Except ε Trie}

theorem substitute_extension {f : Path} {c c' : Trie} {m : Option Word}
    (h : substitute known c = .ok c') :
    substitute known (.extension f c m) = .ok (.extension f c' none) := by
  rw [substitute, h]
  rfl

theorem substitute_branch {cs cs' : Nibble → Trie} {v : Bytes} {m : Option Word}
    (h : ∀ i, substitute known (cs i) = .ok (cs' i)) :
    substitute known (.branch cs v m) = .ok (.branch cs' v none) := by
  have hgather : Children.gather (fun i => substitute known (cs i)) = .ok (Children.tabulate cs') :=
    Children.gather_eq_ok.2 fun i => by rw [h, Children.get_tabulate]
  rw [substitute, hgather]
  simp [bind, Except.bind, pure, Except.pure, Children.get_tabulate_eq]

end

variable [Hasher]

/-- What a parent shows of a child of which a source knows `known`: only the hash, if the parent
refers to the child by a hash that the source lacks. -/
def seenBy (source : NodeSource) (c known : Trie) : Trie :=
  match c.content with
  | .ok e => if hashLength ≤ e.length ∧ source (digest e) = none then .hidden (digest e) else known
  | .error _ => known

/-- A trie as far as a source knows it, without memos: of the nodes below the root that are referred
to by their hashes, the topmost ones that the source lacks are hidden. -/
def knownTo (source : NodeSource) : Trie → Trie
  | .extension f c _ => .extension f (seenBy source c (knownTo source c)) none
  | .branch cs v _ => .branch (fun i => seenBy source (cs i) (knownTo source (cs i))) v none
  | t => t.forget

variable {source : NodeSource} {t c : Trie} {e : Bytes} {l : List Nibble} {w : Word} {n fuel : Nat}

/-! ## What a source knows of a trie -/

/-- What is known of a child, if it is known what is known of the child's node. -/
theorem substitute_curtain (hc : Canonical n c) (hfull : Full c) (hs : Sound c) (hfits : Fits c)
    (htrue : Truthful source c) (hfuel : n < fuel)
    (ih : ∀ k, n ≤ k → substitute (reveal source k) c.outline = .ok (c.knownTo source)) :
    substitute (reveal source fuel) c.curtain = .ok (seenBy source c (c.knownTo source)) := by
  obtain ⟨e, he⟩ := hfull.content
  rw [seenBy, he]
  by_cases hlen : hashLength ≤ e.length
  · obtain ⟨k, rfl⟩ : ∃ k, fuel = k + 1 := ⟨fuel - 1, by omega⟩
    rw [curtain_of_long he hlen, substitute, reveal]
    cases hsrc : source (digest e) with
    | none => simp [hlen, hsrc]
    | some blob =>
      obtain rfl := htrue e blob ⟨[], c, nodeAt_nil c, he⟩ hsrc
      have hdec := decode_content hc hs (ne_empty_of_long_content he hlen) he
        (content_length_lt hfits hs he)
      simp [hsrc, decodeStored, hdec, Except.mapError, bind, Except.bind, ih k (by omega)]
  · have hcurtain : c.curtain = c.outline := by
      rw [outline_of_short hs he (Nat.not_le.1 hlen)]
      simp [curtain, he, hlen]
    rw [hcurtain, ih fuel hfuel.le]
    simp [hlen]

/-- What a source knows of a node is found by looking up what the node's outline hides. -/
theorem substitute_outline (ht : Canonical n t) (hfull : Full t) (hs : Sound t) (hfits : Fits t)
    (htrue : Truthful source t) (hfuel : n ≤ fuel) :
    substitute (reveal source fuel) t.outline = .ok (t.knownTo source) := by
  induction t generalizing n fuel with
  | empty => rfl
  | hidden w => exact absurd hfull id
  | leaf f v a => rfl
  | extension f c a ih =>
    obtain ⟨hf, hlen, -, hc⟩ := ht
    have hfull' : Full c := hfull
    have htrue' : Truthful source c := htrue.nodeAt (leads_extension hf f).node
    have hpos := List.length_pos_iff.2 hf
    rw [Path.length_toList] at hpos
    exact substitute_extension (substitute_curtain hc hfull' hs.1 hfits htrue' (by omega)
      fun k hk => ih hc hfull' hs.1 hfits htrue' hk)
  | branch cs v a ih =>
    obtain ⟨h1, -, hcs⟩ := ht
    refine substitute_branch fun i => ?_
    have htrue' : Truthful source (cs i) :=
      htrue.nodeAt (t := .branch cs v a) (l := [i]) (nodeAt_nil _)
    exact substitute_curtain (hcs i) (hfull.1 i) (hs.1 i) (hfits.1 i) htrue' (by omega)
      fun k hk => ih i (hcs i) (hfull.1 i) (hs.1 i) (hfits.1 i) htrue' hk

/-- From a truthful source that has its root a trie is rebuilt as far as the source knows it. -/
theorem rebuild_eq {S : Bytes → Prop} (ht : Canonical maxNibbles t) (hfull : Full t) (hs : Sound t)
    (hfits : Fits t) (hfree : CollisionFree S) (hempty : S Rlp.emptyData)
    (hc : t.content = .ok e) (he : S e) (hroot : t ≠ .empty → source (digest e) ≠ none)
    (htrue : Truthful source t) : rebuild t.hash.1 source = .ok (t.knownTo source) := by
  have hiff := isEmptyRoot_hash_iff hs hfree hempty hc he
  rw [rebuild]
  split
  · next h =>
    obtain rfl := hiff.1 h
    rfl
  · next h =>
    have hne := mt hiff.2 h
    rw [hash_eq_digest hs hc]
    cases hsrc : source (digest e) with
    | none => exact absurd hsrc (hroot hne)
    | some blob =>
      obtain rfl := htrue e blob ⟨[], t, nodeAt_nil t, hc⟩ hsrc
      have hfuel : maxNibbles ≤ depthBound := by
        have : 64 ≤ twoPow 256 := by decide
        rw [depthBound, maxNibbles]
        omega
      have hdec := decode_content ht hs hne hc (content_length_lt hfits hs hc)
      simp [decodeStored, hdec, Except.mapError, bind, Except.bind,
        substitute_outline ht hfull hs hfits htrue hfuel]

/-! ## What is hidden -/

/-- A child is seen as its hash or as what is known of it. -/
theorem seenBy_cases (source : NodeSource) (c known : Trie) :
    (∃ e, c.content = .ok e ∧ hashLength ≤ e.length ∧ source (digest e) = none ∧
      seenBy source c known = .hidden (digest e)) ∨ seenBy source c known = known := by
  cases hc : c.content with
  | error w => exact Or.inr (by simp [seenBy, hc])
  | ok e =>
    by_cases h : hashLength ≤ e.length ∧ source (digest e) = none
    · exact Or.inl ⟨e, rfl, h.1, h.2, by simp [seenBy, hc, h]⟩
    · exact Or.inr (by simp only [seenBy, hc, if_neg h])

theorem sound_knownTo (source : NodeSource) (t : Trie) : Sound (t.knownTo source) := by
  have hseen : ∀ {c}, Sound (c.knownTo source) → Sound (seenBy source c (c.knownTo source)) :=
    fun {c} hc => by
      rcases seenBy_cases source c (c.knownTo source) with ⟨e, -, -, -, h⟩ | h
      · rw [h]
        trivial
      · rwa [h]
  induction t with
  | extension f c a ih => exact ⟨hseen ih, memoHolds_of_memo_none rfl⟩
  | branch cs v a ih => exact ⟨fun i => hseen (ih i), memoHolds_of_memo_none rfl⟩
  | leaf f v a => exact memoHolds_of_memo_none rfl
  | _ => trivial

/-- Only long nodes that the source lacks are hidden. -/
theorem pruned_knownTo (source : NodeSource) (hfull : Full t) :
    Pruned (fun _ => True) t (t.knownTo source) := by
  have hseen : ∀ {c}, Pruned (fun _ => True) c (c.knownTo source) →
      Pruned (fun _ => True) c (seenBy source c (c.knownTo source)) := fun {c} hc => by
    rcases seenBy_cases source c (c.knownTo source) with ⟨e, he, hlen, -, h⟩ | h
    · rw [h]
      exact .hidden trivial he hlen
    · rwa [h]
  induction t with
  | empty => exact .empty
  | hidden w => exact absurd hfull id
  | leaf f v a => exact .leaf
  | extension f c a ih => exact .extension (hseen (ih hfull))
  | branch cs v a ih => exact .branch fun i => hseen (ih i (hfull.1 i))

/-- A child that the source has, or that is not referred to by its hash, is seen as it is known. -/
theorem seenBy_of_known {known : Trie} (h : ∀ e, c.Long [] e → source (digest e) ≠ none) :
    seenBy source c known = known := by
  rcases seenBy_cases source c known with ⟨e, he, hlen, hnone, -⟩ | hseen
  · exact absurd hnone (h e ⟨c, nodeAt_nil c, he, hlen⟩)
  · exact hseen

/-- A source that has all nodes on the way of a key that are referred to by their hashes knows what
the trie answers for the key. -/
theorem view_knownTo {k : List Nibble} (ht : Canonical n t) (hfull : Full t)
    (hknown : ∀ l e, l ≠ [] → l <+: k → t.Long l e → source (digest e) ≠ none) :
    (t.knownTo source).view k = t.view k := by
  induction t generalizing n k with
  | empty => rfl
  | hidden w => exact absurd hfull id
  | leaf f v a => rfl
  | extension f c a ih =>
    obtain ⟨hf, -, -, hc⟩ := ht
    rw [knownTo, view_extension, view_extension]
    by_cases hk : f.toList <+: k
    · obtain ⟨r, rfl⟩ := hk
      have hlong : ∀ {l e}, c.Long l e → (Trie.extension f c a).Long (f.toList ++ l) e := by
        rintro l e ⟨s, hs, he⟩
        exact ⟨s, by rw [nodeAt_extension_append hf, hs], he⟩
      rw [under_front, under_front, seenBy_of_known fun e he => ?_]
      · exact ih hc hfull fun l e hne hl he =>
          hknown _ e (by simp [hf]) ((List.prefix_append_right_inj _).2 hl) (hlong he)
      · exact hknown _ e (by simp [hf]) ((List.prefix_append_right_inj _).2 List.nil_prefix)
          (hlong he)
    · rw [under_off _ hk, under_off _ hk]
  | branch cs v a ih =>
    cases k with
    | nil => rfl
    | cons d k =>
      rw [knownTo, view_branch_cons, view_branch_cons, seenBy_of_known fun e he => ?_]
      · exact ih d (ht.2.2 d) (hfull.1 d) fun l e hne hl he =>
          hknown (d :: l) e (List.cons_ne_nil _ _) (List.cons_prefix_cons.2 ⟨rfl, hl⟩) he
      · exact hknown [d] e (List.cons_ne_nil _ _) (List.cons_prefix_cons.2 ⟨rfl, List.nil_prefix⟩) he

end Trie

namespace Veil

open Trie

variable [Hasher] {V : Veil} {m : List Nibble} {t c : Trie} {n : Nat} {source : NodeSource}
variable {e : Bytes}

/-- A part that the source lacks is concealed if it is stored by its hash. -/
def Lacked (V : Veil) (source : NodeSource) (q : List Nibble) (c : Trie) : Prop :=
  ∀ e, c.content = .ok e → hashLength ≤ e.length → source (digest e) = none →
    V.Conceals q c (digest e)

/-- If what a source lacks is concealed, a trie is seen as the source knows it. -/
theorem veiled_knownTo (ht : Canonical n t) (hfull : Full t)
    (hlack : ∀ l s, l ≠ [] → t.nodeAt l = some s → V.Lacked source (m ++ l) s) :
    V.Veiled m t (t.knownTo source) := by
  have hseen : ∀ {q c}, V.Lacked source q c → V.Veiled q c (c.knownTo source) →
      V.Veiled q c (seenBy source c (c.knownTo source)) := fun {q c} hself hc => by
    rcases seenBy_cases source c (c.knownTo source) with ⟨e, he, hlen, hnone, h⟩ | h
    · rw [h]
      exact .hidden (hself e he hlen hnone)
    · rwa [h]
  induction t generalizing m n with
  | empty => exact .empty
  | hidden w => exact absurd hfull id
  | leaf f v a => exact .leaf
  | extension f c a ih =>
    obtain ⟨hf, -, hstem, hc⟩ := ht
    have hnode := nodeAt_extension (c := c) a hf
    refine .extension hf (hseen (hlack _ c hf hnode) (ih hc hfull fun l s _ hl => ?_)) (Or.inl hstem)
    rw [List.append_assoc]
    exact hlack _ s (by simp [hf]) (by rw [nodeAt_append hnode, hl])
  | branch cs v a ih =>
    refine .branch fun i => hseen (hlack [i] (cs i) (List.cons_ne_nil _ _) (nodeAt_nil _))
      (ih i (ht.2.2 i) (hfull.1 i) fun l s _ hl => ?_)
    rw [List.append_assoc, List.singleton_append]
    exact hlack (i :: l) s (List.cons_ne_nil _ _) hl

/-- A trie is rebuilt from a truthful source that has its root, with those parts hidden that the
source lacks. -/
theorem rebuild_veiled {S : Bytes → Prop} (ht : Canonical maxNibbles t) (hfull : Full t)
    (hs : Sound t) (hfits : Fits t) (hfree : CollisionFree S) (hempty : S Rlp.emptyData)
    (hc : t.content = .ok e) (he : S e) (hroot : t ≠ .empty → source (digest e) ≠ none)
    (htrue : Truthful source t)
    (hlack : ∀ l s, l ≠ [] → t.nodeAt l = some s → V.Lacked source l s) :
    ∃ p, rebuild t.hash.1 source = .ok p ∧ V.Veiled [] t p ∧ Sound p :=
  ⟨_, rebuild_eq ht hfull hs hfits hfree hempty hc he hroot htrue,
    veiled_knownTo (m := []) ht hfull hlack, sound_knownTo source t⟩

end Veil

end Stateless
