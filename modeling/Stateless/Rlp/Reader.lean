import Stateless.Fixed

/-!
# Reading RLP

Items are read lazily: a list is split into items only as far as they can be read, and nested items
are not looked at. Values of a type are read more strictly than items. The main statement is
`Rlp.length_lt_of_mem_items`: the items of a list are shorter than the list, so reading ends.
-/

namespace Stateless

/-- Why bytes are not the item that is wanted. -/
inductive RlpError where
  /-- The bytes end before the item does, or a word has too few bytes. -/
  | tooShort
  /-- The length of a long item starts with a zero. -/
  | zeroInLength
  /-- There is a shorter way to write the value. -/
  | notShortest
  /-- The value does not fit in its type. -/
  | tooBig
  /-- A list stands where a byte string is wanted. -/
  | notData
  /-- A byte string stands where a list is wanted. -/
  | notList
  /-- A value's bytes end before it does. -/
  | cutShort
  /-- A value's end lies beyond what 64 bits can count. -/
  | endless
  deriving DecidableEq, Repr

/-- The text of a refusal. -/
def RlpError.message : RlpError → String
  | tooShort => "RlpIsTooShort"
  | zeroInLength => "RlpDataLenWithZeroPrefix"
  | notShortest => "RlpInvalidIndirection"
  | tooBig => "RlpIsTooBig"
  | notData => "RlpExpectedToBeData"
  | notList => "RlpExpectedToBeList"
  | cutShort => "RlpInconsistentLengthAndData"
  | endless => "RlpInvalidLength"

namespace Rlp

/-- The lengths of an item's two parts. -/
structure Extent where
  /-- The length of the header. -/
  header : Nat
  /-- The length of what follows it. -/
  payload : Nat
  deriving DecidableEq, Repr

/-- The length of a whole item. -/
def Extent.total (e : Extent) : Nat := e.header + e.payload

/-- The extent of an item whose length takes `k` bytes, which are in front of `rest`. -/
def longExtent (k : Nat) (rest : Bytes) : Except RlpError Extent :=
  match rest with
  | [] => .error .tooShort
  | first :: _ =>
    if first = 0 then .error .zeroInLength
    else if rest.length < k then .error .tooShort
    else if Bytes.toNat (rest.take k) ≤ 55 then .error .notShortest
    else .ok ⟨1 + k, Bytes.toNat (rest.take k)⟩

/-- What the header in front of some bytes says. -/
def declaredExtent : Bytes → Except RlpError Extent
  | [] => .error .tooShort
  | first :: rest =>
    let l := first.toNat
    if l < 0x80 then .ok ⟨0, 1⟩
    else if l < 0xb8 then .ok ⟨1, l - 0x80⟩
    else if l < 0xc0 then longExtent (l - 0xb7) rest
    else if l < 0xf8 then .ok ⟨1, l - 0xc0⟩
    else longExtent (l - 0xf7) rest

/-- The extent of the item in front of some bytes, which must hold all of it. -/
def extent (b : Bytes) : Except RlpError Extent :=
  match declaredExtent b with
  | .error e => .error e
  | .ok e => if e.total ≤ b.length then .ok e else .error .tooShort

/-- Whether the item in front is a list. -/
def isList : Bytes → Bool
  | [] => false
  | first :: _ => 0xc0 ≤ first

/-- The payload of the item in front, be it a byte string or a list. -/
def payload (b : Bytes) : Except RlpError Bytes :=
  match extent b with
  | .error e => .error e
  | .ok e => .ok ((b.drop e.header).take e.payload)

/-- The item in front, as written, and the bytes after it. -/
def takeItem (b : Bytes) : Except RlpError (Bytes × Bytes) :=
  match extent b with
  | .error e => .error e
  | .ok e => .ok (b.take e.total, b.drop e.total)

theorem header_of_longExtent {k : Nat} {rest : Bytes} {e : Extent}
    (h : longExtent k rest = .ok e) : e.header = 1 + k := by
  match rest with
  | [] => exact nomatch h
  | first :: rest =>
    simp only [longExtent] at h
    split at h
    · exact nomatch h
    · split at h
      · exact nomatch h
      · split at h
        · exact nomatch h
        · exact Except.ok.inj h ▸ rfl

theorem total_pos_of_declaredExtent {b : Bytes} {e : Extent} (h : declaredExtent b = .ok e) :
    0 < e.total := by
  match b with
  | [] => simp [declaredExtent] at h
  | first :: rest =>
    have long : ∀ k, longExtent k rest = .ok e → 0 < e.total := by
      intro k hk
      have := header_of_longExtent hk
      simp only [Extent.total]
      omega
    unfold declaredExtent at h
    dsimp only at h
    repeat' split at h
    all_goals first
      | exact long _ h
      | (simp only [Except.ok.injEq] at h; subst h; unfold Extent.total; dsimp only; omega)

theorem total_pos_of_extent {b : Bytes} {e : Extent} (h : extent b = .ok e) : 0 < e.total := by
  unfold extent at h
  split at h
  · simp at h
  · next e' he =>
    split at h
    · simp only [Except.ok.injEq] at h
      exact h ▸ total_pos_of_declaredExtent he
    · simp at h

theorem total_le_of_extent {b : Bytes} {e : Extent} (h : extent b = .ok e) :
    e.total ≤ b.length := by
  unfold extent at h
  split at h
  · simp at h
  · split at h
    · next hle =>
      simp only [Except.ok.injEq] at h
      exact h ▸ hle
    · simp at h

/-- Taking an item off splits the bytes in two, of which the first is not empty. -/
theorem takeItem_ok {b item rest : Bytes} (h : takeItem b = .ok (item, rest)) :
    item ++ rest = b ∧ 0 < item.length := by
  unfold takeItem at h
  split at h
  · simp at h
  · next e he =>
    simp only [Except.ok.injEq, Prod.mk.injEq] at h
    obtain ⟨rfl, rfl⟩ := h
    refine ⟨List.take_append_drop _ _, ?_⟩
    have h₁ := total_pos_of_extent he
    have h₂ := total_le_of_extent he
    simp
    omega

/-- The items that follow each other in some bytes, up to the first that cannot be read. -/
def items (b : Bytes) : List Bytes :=
  match _h : takeItem b with
  | .error _ => []
  | .ok (item, rest) => item :: items rest
termination_by b.length
decreasing_by
  obtain ⟨h₁, h₂⟩ := takeItem_ok _h
  rw [← h₁]
  simp
  omega

theorem length_le_of_mem_items {b item : Bytes} (h : item ∈ items b) : item.length ≤ b.length := by
  fun_induction items b with
  | case1 => simp at h
  | case2 b first rest hb ih =>
    obtain ⟨h₁, h₂⟩ := takeItem_ok hb
    rw [← h₁, List.length_append]
    rcases List.mem_cons.1 h with rfl | h
    · omega
    · have := ih h
      omega

theorem header_pos_of_isList {b : Bytes} {e : Extent} (hl : isList b = true)
    (h : extent b = .ok e) : 0 < e.header := by
  match b with
  | [] => simp [isList] at hl
  | first :: rest =>
    have hge : 0xc0 ≤ first.toNat := by
      simpa [isList, UInt8.le_iff_toNat_le] using hl
    have long : ∀ k e', longExtent k rest = .ok e' → 0 < e'.header := by
      intro k e' hk
      have := header_of_longExtent hk
      omega
    have declared : ∀ e', declaredExtent (first :: rest) = .ok e' → 0 < e'.header := by
      intro e' he'
      unfold declaredExtent at he'
      dsimp only at he'
      rw [if_neg (by omega), if_neg (by omega), if_neg (by omega)] at he'
      split at he'
      · simp only [Except.ok.injEq] at he'
        simp [← he']
      · exact long _ _ he'
    unfold extent at h
    split at h
    · simp at h
    · next e' he' =>
      split at h
      · simp only [Except.ok.injEq] at h
        exact h ▸ declared _ he'
      · simp at h

theorem length_payload_lt {b p : Bytes} (hl : isList b = true) (h : payload b = .ok p) :
    p.length < b.length := by
  unfold payload at h
  split at h
  · simp at h
  · next e he =>
    simp only [Except.ok.injEq] at h
    have h₁ := header_pos_of_isList hl he
    have h₂ := total_le_of_extent he
    have h₃ : 0 < e.total := total_pos_of_extent he
    subst h
    simp only [Extent.total] at h₂ h₃
    simp
    omega

/-- The items of a list are shorter than the list. -/
theorem length_lt_of_mem_items {b p item : Bytes} (hl : isList b = true) (hp : payload b = .ok p)
    (h : item ∈ items p) : item.length < b.length :=
  Nat.lt_of_le_of_lt (length_le_of_mem_items h) (length_payload_lt hl hp)

/-! ## Values of a type -/

/-- The bytes of a value. Bytes after the value are ignored. -/
def value (b : Bytes) : Except RlpError Bytes :=
  match b with
  | [] => .error .tooShort
  | first :: rest =>
    let l := first.toNat
    if l < 0x80 then .ok [first]
    else if l < 0xb8 then
      let n := l - 0x80
      if rest.length < n then .error .cutShort
      else if n = 1 ∧ (rest.headD 0).toNat < 0x80 then .error .notShortest
      else .ok (rest.take n)
    else if l < 0xc0 then
      let k := l - 0xb7
      if rest.length < k then .error .cutShort
      else if rest.headD 0 = 0 then .error .notShortest
      else
        let n := Bytes.toNat (rest.take k)
        if twoPow 64 ≤ 1 + k + n then .error .endless
        else if rest.length < k + n then .error .cutShort
        else .ok ((rest.drop k).take n)
    else .error .notData

/-- A number of at most 64 bits. The width is checked before a leading zero. -/
def number64 (b : Bytes) : Except RlpError UInt64 := do
  let v ← value b
  if 8 < v.length then throw .tooBig
  else if v.headD 1 = 0 then throw .notShortest
  else return UInt64.ofNat (Bytes.toNat v)

/-- A number of at most 256 bits. A leading zero is noticed before the width. -/
def number256 (b : Bytes) : Except RlpError (BitVec 256) := do
  let v ← value b
  if v.headD 1 = 0 then throw .notShortest
  else if 32 < v.length then throw .tooBig
  else return BitVec.ofNat 256 (Bytes.toNat v)

/-- A word. -/
def word (b : Bytes) : Except RlpError Word := do
  let v ← value b
  match FixedBytes.ofBytes? 32 v with
  | some w => return w
  | none => throw (if v.length < 32 then .tooShort else .tooBig)

end Rlp

end Stateless
