import Mathlib.Data.List.Basic
import Stateless.Proofs.Path.Compact
import Stateless.Proofs.Rlp.Items
import Stateless.Proofs.Trie.Memos
import Stateless.Trie.Decoding

/-!
# What an encoding shows of a node

The encoding of a node shows the node with its long children hidden and its short children whole.
This is the node's outline. The main statement is `decode_grounded`: the encoding of a node in which no
extension leads to nothing decodes to the outline of the node, or not at all if it is longer than
eight bytes of length can say.
-/

namespace Stateless

namespace Trie

/-! ## Reading lists -/

/-- The bytes of a hash are written in one more byte. -/
theorem length_data_word (h : Word) : (Rlp.data h.toBytes).length = 33 := by
  have hlen := h.length_eq
  unfold Rlp.data
  split
  · next x hx => simp [hx] at hlen
  · simp [Rlp.header, hlen]

theorem payloadOf_eq_ok {item p : Bytes} (h : Rlp.payload item = .ok p) :
    payloadOf item = .ok p := by
  simp [payloadOf, h, Except.mapError]

/-- Reads a child where a node refers to one. -/
def decodeChild (item : Bytes) : Except DecodeError Trie :=
  if Rlp.isList item then decodeList item else decodeReference item

theorem decodeChild_word (h : Word) : decodeChild (Rlp.data h.toBytes) = .ok (.hidden h) := by
  have hlen : h.toBytes.length < 256 ^ 8 := by rw [h.length_eq]; omega
  have hne : h.toBytes ≠ [] := fun he => by simpa [he] using h.length_eq
  simp [decodeChild, Rlp.isList_data hlen, decodeReference,
    payloadOf_eq_ok (Rlp.frames_data hlen).payload, bind, Except.bind, hne, pure, Except.pure]

theorem decodeChild_empty : decodeChild Rlp.emptyData = .ok .empty := by
  have hframes : Rlp.Frames Rlp.emptyData [] := Rlp.frames_data (b := []) (by decide)
  have hlist : Rlp.isList Rlp.emptyData = false := by decide
  simp [decodeChild, hlist, decodeReference, payloadOf_eq_ok hframes.payload, bind, Except.bind,
    pure, Except.pure]

section

variable {b p x y v : Bytes} {f : Path} (hl : Rlp.isList b = true) (hp : Rlp.payload b = .ok p)

include hl hp

theorem decodeList_leaf (hi : Rlp.items p = [x, y])
    (hx : Rlp.payload x = .ok (f.compact true)) (hy : Rlp.payload y = .ok v) :
    decodeList b = .ok (.leaf f v none) := by
  rw [decodeList, dif_pos hl]
  split
  · next he => cases he.symm.trans hp
  · next p' hp' =>
    obtain rfl := Except.ok.inj (hp'.symm.trans hp)
    simp [hi, payloadOf_eq_ok hx, payloadOf_eq_ok hy, Path.ofCompact_compact, Except.mapError, bind,
      Except.bind, pure, Except.pure]

theorem decodeList_extension {c : Trie} (hi : Rlp.items p = [x, y])
    (hx : Rlp.payload x = .ok (f.compact false)) (hy : decodeChild y = .ok c) (hc : c ≠ .empty) :
    decodeList b = .ok (.extension f c none) := by
  rw [decodeList, dif_pos hl]
  split
  · next he => cases he.symm.trans hp
  · next p' hp' =>
    obtain rfl := Except.ok.inj (hp'.symm.trans hp)
    rw [decodeChild] at hy
    split at hy
    · next hlist =>
      simp [hi, payloadOf_eq_ok hx, hy, hlist, isEmpty_eq_false_iff.2 hc, Path.ofCompact_compact,
        Except.mapError, bind, Except.bind, pure, Except.pure]
    · next hlist =>
      simp [hi, payloadOf_eq_ok hx, hy, hlist, isEmpty_eq_false_iff.2 hc, Path.ofCompact_compact,
        Except.mapError, bind, Except.bind, pure, Except.pure]

theorem decodeList_branch {items : Nibble → Bytes} {cs : Nibble → Trie}
    (hi : Rlp.items p = Children.toList items ++ [y])
    (hitems : ∀ i, decodeChild (items i) = .ok (cs i)) (hy : Rlp.payload y = .ok v) :
    decodeList b = .ok (.branch cs v none) := by
  have hlen : (Children.toList items ++ [y]).length = 17 := by simp [Children.toList]
  rw [decodeList, dif_pos hl]
  split
  · next he => cases he.symm.trans hp
  · next p' hp' =>
    obtain rfl := Except.ok.inj (hp'.symm.trans hp)
    have hgather : Children.gather (fun i => decodeChild (items i)) =
        .ok (Children.tabulate cs) :=
      Children.gather_eq_ok.2 fun i => by rw [hitems, Children.get_tabulate]
    simp only [decodeChild] at hgather
    simp [hi, Children.toList, hgather, payloadOf_eq_ok hy, bind, Except.bind, pure, Except.pure,
      Children.get_tabulate_eq]

end

/-- Nothing stands behind a list that was written. -/
theorem decode_list {xs : List Bytes} (h : xs.flatten.length < 256 ^ 8) :
    decode (Rlp.list xs) = decodeList (Rlp.list xs) := by
  obtain ⟨x, hx, htotal⟩ := (Rlp.frames_list h).extent_self
  rw [decode, hx]
  simp only [htotal, lt_irrefl, if_false]

variable [Hasher]

/-- A child as its parent shows it: hidden if its encoding is not shorter than a hash. -/
def curtain (c : Trie) : Trie :=
  match c.content with
  | .ok e => if hashLength ≤ e.length then .hidden (digest e) else c.forget
  | .error h => .hidden h

/-- A node with its long children hidden. -/
def outline : Trie → Trie
  | .extension f c _ => .extension f c.curtain none
  | .branch cs v _ => .branch (fun i => (cs i).curtain) v none
  | t => t.forget

variable {t c : Trie} {e : Bytes} {n : Nat}

/-! ## Children -/

/-- The items that the encoding of a node lists. -/
def parts : Trie → List Bytes
  | .empty => []
  | .hidden _ => []
  | .leaf f v _ => [Rlp.data (f.compact true), Rlp.data v]
  | .extension f c _ => [Rlp.data (f.compact false), c.reference.item]
  | .branch cs v _ => Children.toList (fun i => (cs i).reference.item) ++ [Rlp.data v]

/-- The encoding of a node that is not empty is the list of its parts. -/
theorem content_eq_parts (hne : t ≠ .empty) (h : t.content = .ok e) : e = Rlp.list t.parts := by
  cases t with
  | empty => exact absurd rfl hne
  | hidden w => cases h
  | leaf f v m => exact (Except.ok.inj h).symm
  | extension f c m =>
    rw [content_extension] at h
    exact (Except.ok.inj h).symm
  | branch cs v m =>
    rw [content_branch] at h
    exact (Except.ok.inj h).symm

theorem curtain_eq_empty_iff : c.curtain = .empty ↔ c = .empty := by
  rw [curtain]
  cases hc : c.content with
  | error h =>
    simp only [reduceCtorEq, false_iff]
    rintro rfl
    cases hc
  | ok e =>
    dsimp only
    split
    · next hlen =>
      simp only [reduceCtorEq, false_iff]
      rintro rfl
      obtain rfl := Except.ok.inj hc
      exact absurd hlen (by decide)
    · exact forget_eq_empty_iff

/-- A long child is hidden. -/
theorem curtain_of_long (hc : c.content = .ok e) (hlen : hashLength ≤ e.length) :
    c.curtain = .hidden (digest e) := by
  simp [curtain, hc, hlen]

/-- A child that is referred to by its encoding is short, and nothing of it is hidden. -/
theorem curtain_of_item_short (hs : Sound c) (h : c.reference.item.length < 33) :
    ∃ e, c.content = .ok e ∧ e.length < hashLength ∧ c.reference.item = e ∧
      c.curtain = c.forget := by
  rw [hs.memoHolds.reference_eq] at h ⊢
  cases hc : c.content with
  | error w => simp [hc, Reference.ofContent, Reference.item, length_data_word] at h
  | ok e =>
    rw [hc, Reference.ofContent] at h
    by_cases hlen : e.length < hashLength
    · refine ⟨e, rfl, hlen, by simp [Reference.ofContent, hlen, Reference.item], ?_⟩
      simp [curtain, hc, Nat.not_le.2 hlen]
    · simp [hlen, Reference.item, length_data_word] at h

/-- Nothing of a short node is hidden by its parts. -/
theorem outline_of_short (hs : Sound t) (h : t.content = .ok e) (hlen : e.length < hashLength) :
    t.outline = t.forget := by
  have hshort : ∀ {xs : List Bytes} {x : Bytes}, e = Rlp.list xs → x ∈ xs → x.length < 33 := by
    intro xs x he hx
    have hle : x.length ≤ e.length :=
      he ▸ (Rlp.length_le_of_mem hx).trans (Rlp.flatten_length_le xs)
    exact (hle.trans_lt hlen).trans (by decide)
  cases t with
  | extension f c m =>
    rw [content_extension] at h
    obtain ⟨-, -, -, -, hcur⟩ :=
      curtain_of_item_short hs.1 (hshort (Except.ok.inj h).symm (by simp))
    rw [outline, hcur, forget]
  | branch cs v m =>
    rw [content_branch] at h
    have hcur : ∀ i, (cs i).curtain = (cs i).forget := fun i => by
      obtain ⟨-, -, -, -, hcur⟩ := curtain_of_item_short (hs.1 i)
        (hshort (Except.ok.inj h).symm (by simp [Children.toList]))
      exact hcur
    rw [outline, forget_branch]
    simp only [hcur]
  | _ => rfl

/-! ## Reading nodes -/

/-- The encoding of a short node is a list that can be read. -/
theorem short_list (hne : t ≠ .empty) (h : t.content = .ok e) (hlen : e.length < hashLength) :
    ∃ xs, e = Rlp.list xs ∧ xs.flatten.length < 256 ^ 8 := by
  obtain rfl := content_eq_parts hne h
  exact ⟨t.parts, rfl, (Rlp.flatten_length_le t.parts).trans_lt (hlen.trans (by decide))⟩

/-- What a parent writes for a child is an item. -/
theorem frames_reference (hs : Sound c) : ∃ p, Rlp.Frames c.reference.item p := by
  have hword : ∀ w : Word, ∃ p, Rlp.Frames (Rlp.data w.toBytes) p := fun w =>
    ⟨_, Rlp.frames_data (by rw [w.length_eq]; omega)⟩
  rw [hs.memoHolds.reference_eq]
  cases hc : c.content with
  | error w => exact hword w
  | ok e =>
    rw [Reference.ofContent]
    split
    · next hlen =>
      by_cases hne : c = .empty
      · subst hne
        obtain rfl := Except.ok.inj hc
        exact ⟨[], Rlp.frames_data (b := []) (by decide)⟩
      · obtain ⟨xs, rfl, hxs⟩ := short_list hne hc hlen
        exact ⟨_, Rlp.frames_list hxs⟩
    · exact hword _

/-- The parts of a node are items. -/
theorem frames_parts (hs : Sound t) (hlen : t.parts.flatten.length < 256 ^ 8) :
    ∀ x ∈ t.parts, ∃ p, Rlp.Frames x p := by
  have hdata : ∀ b, Rlp.data b ∈ t.parts → ∃ p, Rlp.Frames (Rlp.data b) p := by
    intro b hb
    exact ⟨b, Rlp.frames_data_of_mem hb hlen⟩
  intro x hx
  cases t with
  | empty => cases hx
  | hidden w => cases hx
  | leaf f v m =>
    rcases List.mem_pair.1 hx with rfl | rfl
    · exact hdata _ hx
    · exact hdata _ hx
  | extension f c m =>
    rcases List.mem_pair.1 hx with rfl | rfl
    · exact hdata _ hx
    · exact frames_reference hs.1
  | branch cs v m =>
    rcases List.mem_append.1 hx with hc | hv
    · obtain ⟨i, -, rfl⟩ := List.mem_map.1 hc
      exact frames_reference (hs.1 i)
    · obtain rfl := List.mem_singleton.1 hv
      exact hdata _ hx

/-- What a parent writes for a child reads back as the parent shows the child. -/
theorem decodeChild_reference (hs : Sound c)
    (hdec : ∀ e, c ≠ .empty → c.content = .ok e → e.length < hashLength →
      decodeList e = .ok c.outline) :
    decodeChild c.reference.item = .ok c.curtain := by
  rw [hs.memoHolds.reference_eq, curtain]
  cases hc : c.content with
  | error w => exact decodeChild_word w
  | ok e =>
    rw [Reference.ofContent]
    by_cases hlen : e.length < hashLength
    · simp only [hlen, if_true, Nat.not_le.2 hlen, if_false, Reference.item]
      by_cases hne : c = .empty
      · subst hne
        obtain rfl := Except.ok.inj hc
        exact decodeChild_empty
      · obtain ⟨xs, rfl, hxs⟩ := short_list hne hc hlen
        rw [decodeChild, if_pos (Rlp.isList_list hxs), hdec _ hne hc hlen,
          outline_of_short hs hc hlen]
    · simp only [hlen, if_false, Nat.not_lt.1 hlen, if_true]
      exact decodeChild_word _

/-- Whether a parent writes the whole encoding of a node for it. -/
def Embedded (c : Trie) : Prop := ∃ e, c.content = .ok e ∧ e.length < hashLength

/-- No extension leads to nothing: not the node itself, nor one that is embedded in it. -/
def Grounded : Trie → Prop
  | .extension _ c _ => c ≠ .empty ∧ (Embedded c → Grounded c)
  | .branch cs _ _ => ∀ i, Embedded (cs i) → Grounded (cs i)
  | _ => True

theorem Canonical.grounded (ht : Canonical n t) : Grounded t := by
  induction t generalizing n with
  | extension f c m ih => exact ⟨ht.2.2.1.ne_empty, fun _ => ih ht.2.2.2⟩
  | branch cs v m ih => exact fun i _ => ih i (ht.2.2 i)
  | _ => trivial

/-- The encoding of a node, if it can be read at all, is read as the node's outline. -/
theorem decodeList_content (ht : Grounded t) (hs : Sound t) (hne : t ≠ .empty)
    (h : t.content = .ok e) (hlen : e.length < 256 ^ 8 + 9) : decodeList e = .ok t.outline := by
  have hsmall : ∀ {x : Bytes}, x.length < hashLength → x.length < 256 ^ 8 + 9 :=
    fun hx => hx.trans (by decide)
  induction t generalizing e with
  | empty => exact absurd rfl hne
  | hidden w => cases h
  | leaf f v m =>
    obtain rfl := Except.ok.inj h
    have hflat := Rlp.flatten_length_lt hlen
    have hf := Rlp.frames_data_of_mem (b := f.compact true) (by simp) hflat
    have hv := Rlp.frames_data_of_mem (b := v) (by simp) hflat
    have hitems := Rlp.items_flatten _ (frames_parts hs hflat)
    exact decodeList_leaf (Rlp.isList_list hflat) (Rlp.frames_list hflat).payload hitems
      hf.payload hv.payload
  | extension f c m ih =>
    obtain ⟨hbelow, hc⟩ := ht
    rw [content_extension] at h
    obtain rfl := Except.ok.inj h
    have hflat := Rlp.flatten_length_lt hlen
    have hf := Rlp.frames_data_of_mem (b := f.compact false) (by simp) hflat
    have hitems := Rlp.items_flatten _ (frames_parts hs hflat)
    have hchild := decodeChild_reference hs.1 fun e hne he hshort =>
      ih (hc ⟨e, he, hshort⟩) hs.1 hne he (hsmall hshort)
    exact decodeList_extension (Rlp.isList_list hflat) (Rlp.frames_list hflat).payload hitems
      hf.payload hchild (mt curtain_eq_empty_iff.1 hbelow)
  | branch cs v m ih =>
    rw [content_branch] at h
    obtain rfl := Except.ok.inj h
    have hflat := Rlp.flatten_length_lt hlen
    have hv := Rlp.frames_data_of_mem (b := v) (by simp) hflat
    have hitems := Rlp.items_flatten _ (frames_parts hs hflat)
    exact decodeList_branch (Rlp.isList_list hflat) (Rlp.frames_list hflat).payload hitems
      (fun i => decodeChild_reference (hs.1 i) fun e hne he hshort =>
        ih i (ht i ⟨e, he, hshort⟩) (hs.1 i) hne he (hsmall hshort)) hv.payload

/-- The encoding of a node that is short enough for its length to be said reads back as the node's
outline. -/
theorem decode_grounded (ht : Grounded t) (hs : Sound t) (hne : t ≠ .empty)
    (h : t.content = .ok e) (hlen : e.length < 256 ^ 8 + 9) : decode e = .ok t.outline := by
  have hlist := decodeList_content ht hs hne h hlen
  obtain rfl := content_eq_parts hne h
  rw [decode_list (Rlp.flatten_length_lt hlen), hlist]

theorem decode_content (ht : Canonical n t) (hs : Sound t) (hne : t ≠ .empty)
    (h : t.content = .ok e) (hlen : e.length < 256 ^ 8 + 9) : decode e = .ok t.outline :=
  decode_grounded ht.grounded hs hne h hlen

/-- Whatever the encoding of a node is read as is the node's outline. -/
theorem outline_of_decode {s : Trie} (ht : Canonical n t) (hs : Sound t) (hne : t ≠ .empty)
    (h : t.content = .ok e) (hd : decode e = .ok s) : s = t.outline := by
  have hlen : e.length < 256 ^ 8 + 9 := by
    rw [decode] at hd
    split at hd
    · cases hd
    · next x hx =>
      split at hd
      · cases hd
      · next hle => exact (Nat.not_lt.1 hle).trans_lt (Rlp.extent_total_lt hx)
  exact Except.ok.inj (hd.symm.trans (decode_content ht hs hne h hlen))

end Trie

end Stateless
