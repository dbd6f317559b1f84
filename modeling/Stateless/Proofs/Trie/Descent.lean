import Stateless.Proofs.Trie.Nodes
import Stateless.Proofs.Trie.Outline
import Stateless.Trie.Proof

/-!
# Walking through one decoded node

A walk towards a key goes through the outlines of the nodes on the way, from one long node to the
next. `Arrives` says where the walk through one outline leads: to the next long node, to the value
of the key, or to the last node on the way, behind which the key is absent. The main statement is
`descend_outline`: in a canonical trie the walk arrives wherever it does not run into a hidden part.
-/

namespace Stateless

namespace Trie

variable [Hasher]

/-- The encoding of a node at a place that is referred to by its hash. -/
def Long (t : Trie) (l : List Nibble) (e : Bytes) : Prop :=
  ∃ s, t.nodeAt l = some s ∧ s.content = .ok e ∧ hashLength ≤ e.length

/-- The end of the way towards the remaining nibbles of a key, where `matched` leads to the trie:
the last node, hidden where it is not shown, and the answer. -/
structure Ends (t : Trie) (matched remaining : Path) (p : VerifiedPath) : Prop where
  /-- The value of the key. -/
  answer : t.view remaining.toList = .ok p.value
  /-- The last node is on the way, and no other node on the way is below it. -/
  last : ∃ l s, p.matched.toList = matched.toList ++ l ∧ l <+: remaining.toList ∧
    t.nodeAt l = some s ∧ p.last = s.outline ∧
    ∀ l' s', l' <+: remaining.toList → t.nodeAt l' = some s' → s' ≠ .empty → l' <+: l

/-- Where a walk may lead when the nodes at the places `H` have to be looked up. -/
def Arrives (t : Trie) (H : List Nibble → Bytes → Prop) (matched remaining : Path) :
    Descent → Prop
  | .lookUp h m rest => ∃ l s e, m.toList = matched.toList ++ l ∧
      remaining.toList = l ++ rest.toList ∧ t.nodeAt l = some s ∧ s.content = .ok e ∧
      H l e ∧ h = digest e ∧ ∀ l' e', l' <+: remaining.toList → H l' e' → l <+: l'
  | .found key v m last => Ends t matched remaining ⟨some v, m, last⟩ ∧
      key.toList = matched.toList ++ remaining.toList ∧
      ∀ l e, l <+: remaining.toList → ¬ H l e
  | .absent m last => Ends t matched remaining ⟨none, m, last⟩ ∧
      ∀ l e, l <+: remaining.toList → ¬ H l e
  | .tooLong _ _ => False

variable {t c : Trie} {n : Nat} {matched remaining m r : Path} {p : List Nibble} {d : Descent}
variable {a : Option Bytes}

/-! ## From a child to its parent -/

/-- What ends below a node of a trie ends below the trie. -/
theorem Ends.lift {q : VerifiedPath} (hc : t.nodeAt p = some c)
    (hm : m.toList = matched.toList ++ p) (hr : remaining.toList = p ++ r.toList)
    (h : Ends c m r q) : Ends t matched remaining q := by
  obtain ⟨l, s, hl, hfront, hnode, hlast, hdeep⟩ := h.last
  refine ⟨by rw [hr, view_nodeAt hc, h.answer], p ++ l, s, ?_, ?_, ?_, hlast,
    fun l' s' hl' hs' hne => ?_⟩
  · rw [hl, hm, List.append_assoc]
  · rwa [hr, List.prefix_append_right_inj]
  · rw [nodeAt_append hc, hnode]
  · rcases List.prefix_or_prefix_of_prefix hl' (hr ▸ List.prefix_append p r.toList) with hup | hdown
    · exact hup.trans (List.prefix_append p l)
    · obtain ⟨rest, rfl⟩ := hdown
      rw [hr, List.prefix_append_right_inj] at hl'
      rw [nodeAt_append hc] at hs'
      exact (List.prefix_append_right_inj p).2 (hdeep rest s' hl' hs' hne)

/-- A child through which every way goes that leads further towards the remaining nibbles. -/
structure Leads (t c : Trie) (p : List Nibble) (remaining : Path) : Prop where
  node : t.nodeAt p = some c
  only : ∀ l s, l ≠ [] → l <+: remaining.toList → t.nodeAt l = some s → p <+: l

theorem Arrives.lift (hp : p ≠ []) (hc : Leads t c p remaining) (hm : m.toList = matched.toList ++ p)
    (hr : remaining.toList = p ++ r.toList) (h : Arrives c c.Long m r d) :
    Arrives t (fun l e => l ≠ [] ∧ t.Long l e) matched remaining d := by
  have hlong : ∀ l e, l <+: remaining.toList → l ≠ [] ∧ t.Long l e →
      ∃ rest, l = p ++ rest ∧ rest <+: r.toList ∧ c.Long rest e := by
    rintro l e hl ⟨hne, s, hs, he⟩
    obtain ⟨rest, rfl⟩ := hc.only l s hne hl hs
    rw [hr, List.prefix_append_right_inj] at hl
    rw [nodeAt_append hc.node] at hs
    exact ⟨rest, rfl, hl, s, hs, he⟩
  have hnone : (∀ l e, l <+: r.toList → ¬ c.Long l e) →
      ∀ l e, l <+: remaining.toList → ¬ (l ≠ [] ∧ t.Long l e) := fun hnot l e hl hle => by
    obtain ⟨rest, -, hrest, hle'⟩ := hlong l e hl hle
    exact hnot rest e hrest hle'
  cases d with
  | lookUp h m' rest =>
    obtain ⟨l, s, e, hl, hrest, hs, he, hle, hh, hfirst⟩ := h
    refine ⟨p ++ l, s, e, by rw [hl, hm, List.append_assoc], by rw [hr, hrest, List.append_assoc],
      by rw [nodeAt_append hc.node, hs], he,
      ⟨by simp [hp], s, by rw [nodeAt_append hc.node, hs], he, ?_⟩, hh, fun l' e' hl' hle' => ?_⟩
    · obtain ⟨s', hs', he', hlen⟩ := hle
      obtain rfl := Option.some.inj (hs.symm.trans hs')
      exact hlen
    · obtain ⟨rest', rfl, hrest', hlong'⟩ := hlong l' e' hl' hle'
      exact (List.prefix_append_right_inj p).2 (hfirst rest' e' hrest' hlong')
  | found key v m' last =>
    obtain ⟨hends, hkey, hnot⟩ := h
    refine ⟨hends.lift hc.node hm hr, ?_, hnone hnot⟩
    rw [hkey, hm, hr, List.append_assoc]
  | absent m' last => exact ⟨h.1.lift hc.node hm hr, hnone h.2⟩
  | tooLong m' k => exact h

/-- Below its parent a child is walked through if it is short and looked up if it is long. -/
theorem Arrives.curtain (hs : Sound c) (ha : c.view r.toList = .ok a)
    (h : ∃ d, c.outline.descend m r = .ok d ∧
      Arrives c (fun l e => l ≠ [] ∧ c.Long l e) m r d) :
    ∃ d, c.curtain.descend m r = .ok d ∧ Arrives c c.Long m r d := by
  cases hc : c.content with
  | error w =>
    cases c with
    | hidden d => cases ha
    | _ => simp [content] at hc
  | ok e =>
    by_cases hlen : hashLength ≤ e.length
    · rw [curtain_of_long hc hlen]
      exact ⟨_, rfl, [], c, e, by simp, rfl, by simp, hc, ⟨c, by simp, hc, hlen⟩, rfl,
        fun l' e' _ _ => List.nil_prefix⟩
    · have hcur : c.curtain = c.outline := by
        rw [outline_of_short hs hc (Nat.not_le.1 hlen)]
        simp [Trie.curtain, hc, hlen]
      have hiff : (fun l e => l ≠ [] ∧ c.Long l e) = c.Long := by
        funext l e'
        refine propext ⟨fun h => h.2, fun h => ⟨?_, h⟩⟩
        rintro rfl
        obtain ⟨s, hs', he', hlen'⟩ := h
        obtain rfl := Option.some.inj ((nodeAt_nil c).symm.trans hs')
        obtain rfl := Except.ok.inj (hc.symm.trans he')
        exact hlen hlen'
      rwa [hcur, ← hiff]

/-! ## From a node to its children -/

omit [Hasher] in
theorem leads_extension {f : Path} {mem : Option Word} (hf : f.toList ≠ []) (remaining : Path) :
    Leads (.extension f c mem) c f.toList remaining where
  node := nodeAt_extension mem hf
  only _ _ hne _ hs := prefix_of_nodeAt_extension hne hs

omit [Hasher] in
theorem leads_branch {cs : Nibble → Trie} {v : Bytes} {mem : Option Word} {i : Nibble}
    (hr : remaining.toList = i :: r.toList) : Leads (.branch cs v mem) (cs i) [i] remaining where
  node := nodeAt_nil (cs i)
  only l s hne hl _ := by
    cases l with
    | nil => exact absurd rfl hne
    | cons j l =>
      rw [hr] at hl
      obtain ⟨rfl, -⟩ := List.cons_prefix_cons.1 hl
      simp

/-- A way that ends at the node itself. -/
theorem ends_here (matched : Path) {a : Option Bytes} (ha : t.view remaining.toList = .ok a)
    (hdeep : ∀ l s, l ≠ [] → l <+: remaining.toList → t.nodeAt l = some s → s = .empty) :
    Ends t matched remaining ⟨a, matched, t.outline⟩ ∧
      ∀ l e, l <+: remaining.toList → ¬ (l ≠ [] ∧ t.Long l e) := by
  refine ⟨⟨ha, [], t, by simp, List.nil_prefix, nodeAt_nil t, rfl, fun l s hl hs hne => ?_⟩, ?_⟩
  · by_cases hempty : l = []
    · exact hempty ▸ List.nil_prefix
    · exact absurd (hdeep l s hempty hl hs) hne
  · rintro l e hl ⟨hne, s, hs, he, hlen⟩
    obtain rfl := hdeep l s hne hl hs
    obtain rfl := Except.ok.inj he
    exact absurd hlen (by decide)

/-- The way through the empty trie ends at once. -/
theorem ends_empty (k : Path) : Ends .empty .empty k ⟨none, .empty, .empty⟩ :=
  (ends_here (t := .empty) .empty rfl fun l s hne _ hl => by
    cases l with
    | nil => exact absurd rfl hne
    | cons d l => cases hl).1

/-! ## The walk -/

theorem descend_leaf {f : Path} {v : Bytes} {mem : Option Word} (matched remaining : Path)
    (hroom : matched.length + f.length ≤ maxNibbles) :
    ∃ d, (outline (.leaf f v mem)).descend matched remaining = .ok d ∧
      Arrives (.leaf f v mem) (fun l e => l ≠ [] ∧ (Trie.leaf f v mem).Long l e) matched
        remaining d := by
  have hdeep : ∀ l s, l ≠ [] → l <+: remaining.toList →
      nodeAt (.leaf f v mem) l = some s → s = .empty := fun l s hne _ hl => by
    cases l with
    | nil => exact absurd rfl hne
    | cons d l => cases hl
  have houtline : outline (.leaf f v mem) = .leaf f v none := rfl
  rw [houtline, descend, if_neg (Nat.not_lt.2 hroom)]
  by_cases hf : f = remaining
  · obtain ⟨key, hkey, hlist⟩ := Path.append_eq_ok hroom
    rw [if_pos hf, hkey]
    obtain ⟨hends, hnot⟩ := ends_here matched (a := some v)
      (by rw [view_leaf_apply, if_pos (hf ▸ rfl)]) hdeep
    exact ⟨.found key v matched (.leaf f v none), rfl, hends, hf ▸ hlist, hnot⟩
  · have hne : remaining.toList ≠ f.toList := fun h => hf (Path.ext h.symm)
    rw [if_neg hf]
    exact ⟨_, rfl, ends_here matched (by rw [view_leaf_apply, if_neg hne]) hdeep⟩

/-- A walk goes through the fragment of an extension or ends above it. -/
theorem descend_extension {f : Path} {mem : Option Word} (matched remaining : Path)
    (hf : f.toList ≠ []) (hroom : matched.length + f.length ≤ maxNibbles)
    (hchild : ∀ m r, m.toList = matched.toList ++ f.toList →
      remaining.toList = f.toList ++ r.toList →
      ∃ d, c.curtain.descend m r = .ok d ∧ Arrives c c.Long m r d) :
    ∃ d, (outline (.extension f c mem)).descend matched remaining = .ok d ∧
      Arrives (.extension f c mem) (fun l e => l ≠ [] ∧ (Trie.extension f c mem).Long l e) matched
        remaining d := by
  have hleads : Leads (.extension f c mem) c f.toList remaining := leads_extension hf remaining
  rw [outline, descend, if_neg (Nat.not_lt.2 hroom)]
  by_cases hst : remaining.startsWith f = true
  · obtain ⟨m, hm, hlist⟩ := Path.append_eq_ok hroom
    have hrest := (Path.append_drop_of_startsWith hst).symm
    obtain ⟨d, hd, harr⟩ := hchild m (remaining.drop f.length) hlist hrest
    rw [if_pos hst, hm]
    exact ⟨d, hd, harr.lift hf hleads hlist hrest⟩
  · have hnot : ¬ f.toList <+: remaining.toList := fun h => hst (Path.startsWith_iff.2 h)
    rw [if_neg hst]
    refine ⟨_, rfl, ends_here (t := .extension f c mem) matched ?_ fun l s hne hl hs => ?_⟩
    · rw [view_extension, under_off _ hnot]
    · exact absurd ((hleads.only l s hne hl hs).trans hl) hnot

/-- A walk ends at a branch with its value or at an empty child, or goes on to a child. -/
theorem descend_branch {cs : Nibble → Trie} {v : Bytes} {mem : Option Word}
    (matched remaining : Path) (hroom : matched.length < maxNibbles)
    (hchild : ∀ i m r, m.toList = matched.toList ++ [i] → remaining.toList = i :: r.toList →
      ∃ d, (cs i).curtain.descend m r = .ok d ∧ Arrives (cs i) (cs i).Long m r d) :
    ∃ d, (outline (.branch cs v mem)).descend matched remaining = .ok d ∧
      Arrives (.branch cs v mem) (fun l e => l ≠ [] ∧ (Trie.branch cs v mem).Long l e) matched
        remaining d := by
  rw [outline, descend]
  cases hu : remaining.uncons with
  | none =>
    have hr := Path.uncons_eq_none_iff.1 hu
    have hdeep : ∀ l s, l ≠ [] → l <+: remaining.toList →
        nodeAt (.branch cs v mem) l = some s → s = .empty := fun l s hne hl _ =>
      absurd (List.prefix_nil.1 (hr ▸ hl)) hne
    by_cases hv : v.isEmpty = true
    · simp only [hv, if_true]
      exact ⟨_, rfl, ends_here (t := .branch cs v mem) matched
        (by rw [hr, view_branch_nil, if_pos hv]) hdeep⟩
    · simp only [hv]
      obtain ⟨hends, hnot⟩ := ends_here (t := .branch cs v mem) matched
        (a := some v) (by rw [hr, view_branch_nil, if_neg hv]) hdeep
      exact ⟨_, rfl, hends, by rw [hr, List.append_nil], hnot⟩
  | some a =>
    obtain ⟨i, rest⟩ := a
    have hr := Path.uncons_eq_some_iff.1 hu
    have hleads : Leads (.branch cs v mem) (cs i) [i] remaining := leads_branch hr
    by_cases hi : cs i = .empty
    · have hcur : (cs i).curtain.isEmpty = true := isEmpty_iff.2 (curtain_eq_empty_iff.2 hi)
      simp only [hcur, if_true]
      refine ⟨_, rfl, ends_here (t := .branch cs v mem) matched ?_ fun l s hne hl hs => ?_⟩
      · rw [hr, view_branch_cons, hi, view_empty]
      · obtain ⟨l', rfl⟩ := hleads.only l s hne hl hs
        rw [nodeAt_append hleads.node, hi] at hs
        cases l' with
        | nil => exact (Option.some.inj hs).symm
        | cons j l' => cases hs
    · have hcur : (cs i).curtain.isEmpty = false :=
        isEmpty_eq_false_iff.2 (mt curtain_eq_empty_iff.1 hi)
      simp only [hcur]
      obtain ⟨m, hm, hlist⟩ := Path.push_eq_ok i hroom
      obtain ⟨d, hd, harr⟩ := hchild i m rest hlist hr
      exact ⟨d, by simp [hm, hd, bind, Except.bind], harr.lift (by simp) hleads hlist hr⟩

/-- In a canonical trie the walk through the outline of the root arrives if it does not run into a
hidden part. -/
theorem descend_outline (ht : Canonical n t) (hs : Sound t)
    (hroom : matched.length + n ≤ maxNibbles) (ha : t.view remaining.toList = .ok a) :
    ∃ d, t.outline.descend matched remaining = .ok d ∧
      Arrives t (fun l e => l ≠ [] ∧ t.Long l e) matched remaining d := by
  induction t generalizing n matched remaining with
  | empty =>
    refine ⟨_, rfl, ends_here (t := .empty) matched rfl fun l s hne _ hl => ?_⟩
    cases l with
    | nil => exact absurd rfl hne
    | cons d l => cases hl
  | hidden w => cases ha
  | leaf f v mem =>
    have hf : f.length ≤ n := ht.1
    exact descend_leaf matched remaining (by omega)
  | extension f c mem ih =>
    obtain ⟨hf, hfl, -, hc⟩ := ht
    refine descend_extension matched remaining hf (by omega) fun m r hm hr => ?_
    have hlen := congrArg List.length hm
    simp only [List.length_append, Path.length_toList] at hlen
    rw [hr, view_extension, under_front] at ha
    exact Arrives.curtain hs.1 ha (ih hc hs.1 (by omega) ha)
  | branch cs v mem ih =>
    obtain ⟨h1, -, hcs⟩ := ht
    refine descend_branch matched remaining (by omega) fun i m r hm hr => ?_
    have hlen := congrArg List.length hm
    simp only [List.length_append, Path.length_toList, List.length_singleton] at hlen
    rw [hr, view_branch_cons] at ha
    exact Arrives.curtain (hs.1 i) ha (ih i (hcs i) (hs.1 i) (by omega) ha)

end Trie

end Stateless
