import Stateless.Proofs.Path.Buffer
import Stateless.Proofs.Path.Compact

/-!
# Cells written and read

The bytes, words, texts and compact forms of paths in cells are those of the paths, and what is read
into cells is the path that is read. No reader stops with a fault: it has checked the length before
the first nibble is stored. The main statements are `ofBytes_eq`, `parse_eq`, `compact_toBuffer` and
`ofCompact_eq`.
-/

namespace Stateless.Path

/-! ## Bytes and words -/

/-- What stores the two nibbles of one byte stores those of all. -/
theorem foldlM_halves {f : Buffer → UInt8 → Except Fault Buffer}
    (hf : ∀ {p r : Path} {b : UInt8}, r.toList = p.toList ++ [Nibble.upper b, Nibble.lower b] →
      f p.toBuffer b = .ok r.toBuffer)
    {p r : Path} {bs : Bytes} (hr : r.toList = p.toList ++ Bytes.nibbles bs) :
    bs.foldlM f p.toBuffer = .ok r.toBuffer := by
  induction bs generalizing p with
  | nil =>
    have hsame : r = p := ext (by rw [hr, Bytes.nibbles, List.append_nil])
    rw [hsame]
    rfl
  | cons b bs ih =>
    have hlist : r.toList = (p.toList ++ [Nibble.upper b, Nibble.lower b]) ++ Bytes.nibbles bs := by
      rw [hr, List.append_assoc]
      rfl
    obtain ⟨q, hq⟩ := exists_front hlist
    rw [List.foldlM_cons]
    refine (bind_eq_of_eq_ok (hf hq)).trans (ih ?_)
    rw [hlist, hq]

theorem writeHalves_toBuffer {p r : Path} {b : UInt8}
    (hr : r.toList = p.toList ++ [Nibble.upper b, Nibble.lower b]) :
    p.toBuffer.writeHalves b = .ok r.toBuffer := by
  have hbytes : r.bytes = p.bytes ++ [b >>> 4] ++ [b &&& 15] := by
    rw [bytes, hr, List.map_append, List.map_cons, List.map_cons, List.map_nil, Nibble.byte_upper,
      Nibble.byte_lower, List.append_assoc]
    rfl
  have hlen : (p.bytes ++ [b >>> 4] ++ [b &&& 15]).length = p.length + 2 := by
    rw [List.length_append, List.length_append, length_bytes]
    rfl
  have hroom : p.length + 2 ≤ maxNibbles := by
    rw [← hlen, ← hbytes, length_bytes]
    exact r.length_le_max
  have hupper := Cells.set_ofList (l := p.bytes) (n := b >>> 4) (by rw [length_bytes]; omega)
  have hlower := Cells.set_ofList (l := p.bytes ++ [b >>> 4]) (n := b &&& 15)
    (by rw [List.length_append, length_bytes, List.length_singleton]; omega)
  rw [length_bytes] at hupper
  rw [List.length_append, length_bytes, List.length_singleton] at hlower
  rw [toBuffer_eq hbytes hlen]
  exact (bind_eq_of_eq_ok hupper).trans (bind_eq_of_eq_ok hlower)

/-- The nibbles of bytes that are few enough. -/
theorem ofHalves_eq {bs : Bytes} {r : Path} (hr : r.toList = Bytes.nibbles bs) :
    Buffer.ofHalves bs = .ok r.toBuffer := by
  rw [Buffer.ofHalves, ← empty_toBuffer]
  exact foldlM_halves writeHalves_toBuffer hr

theorem ofWord_eq (w : Word) : Buffer.ofWord w = .ok (ofWord w).toBuffer := ofHalves_eq rfl

theorem ofBytes_eq (b : Bytes) : Buffer.ofBytes b = .ofExcept ((ofBytes b).map toBuffer) := by
  have hhalf : maxNibbles / 2 = 32 := rfl
  rw [Buffer.ofBytes, ofBytes, hhalf]
  by_cases hzero : b.length = 0
  · rw [if_pos hzero, if_pos hzero]
    rfl
  · rw [if_neg hzero, if_neg hzero]
    by_cases hfew : b.length ≤ 32
    · rw [if_neg (Nat.not_lt.2 hfew), dif_pos hfew, ofHalves_eq (r := ⟨Bytes.nibbles b, _⟩) rfl]
      rfl
    · rw [if_pos (Nat.lt_of_not_le hfew), dif_neg hfew]
      rfl

theorem ofBytes_eq_ok_iff {b : Bytes} {p : Path} :
    ofBytes b = .ok p ↔ b ≠ [] ∧ b.length ≤ 32 ∧ p.toList = Bytes.nibbles b := by
  rw [ofBytes, ← List.length_eq_zero_iff.ne]
  constructor
  · intro h
    split at h
    · cases h
    · next hsome =>
      split at h
      · next hfew =>
        rw [← Except.ok.inj h]
        exact ⟨hsome, hfew, rfl⟩
      · cases h
  · rintro ⟨hsome, hfew, hlist⟩
    rw [if_neg hsome, dif_pos hfew]
    exact congrArg Except.ok (ext hlist.symm)

/-- An even number of nibbles is put together in pairs. -/
theorem joinHalves_map_byte {l : List Nibble} (h : l.length % 2 = 0) :
    Buffer.joinHalves (l.map Nibble.byte) = .ok (Bytes.ofNibbles l) := by
  fun_induction Bytes.ofNibbles l with
  | case1 u l rest ih =>
    have hrest : rest.length % 2 = 0 := by
      rw [List.length_cons, List.length_cons] at h
      omega
    rw [List.map_cons, List.map_cons, Buffer.joinHalves, ih hrest, Nibble.byte_or_byte]
    rfl
  | case2 l hshort =>
    rcases l with _ | ⟨u, _ | ⟨v, rest⟩⟩
    · rfl
    · simp at h
    · exact absurd rfl (hshort u v rest)

theorem byteLength_toBuffer (p : Path) : p.toBuffer.byteLength = p.byteLength := rfl

theorem toBytes_toBuffer (p : Path) : p.toBuffer.toBytes = .ok p.toBytes := by
  rw [Buffer.toBytes, nibbles_toBuffer, toBytes, count_toBuffer]
  by_cases hodd : p.length % 2 = 1
  · rw [if_pos hodd, if_pos hodd]
    exact joinHalves_map_byte (l := 0 :: p.toList) (by rw [List.length_cons, length_toList]; omega)
  · rw [if_neg hodd, if_neg hodd]
    exact joinHalves_map_byte (l := p.toList) (by rw [length_toList]; omega)

theorem toWord?_toBuffer (p : Path) : p.toBuffer.toWord? = .ok p.toWord? := by
  rw [Buffer.toWord?, toBytes_toBuffer, toWord?, count_toBuffer]
  by_cases hfull : p.length = maxNibbles
  · have hlen : p.toBytes.length = 32 := by
      rw [toBytes, Bytes.length_ofNibbles, hfull]
      simp [maxNibbles, hfull]
    have hword : FixedBytes.ofBytes? 32 p.toBytes = some ⟨p.toBytes, hlen⟩ := dif_pos hlen
    rw [if_pos hfull, if_pos hfull, hword]
    refine (bind_eq_of_eq_ok rfl).trans ?_
    rw [hword]
  · rw [if_neg hfull, if_neg hfull]

/-! ## Texts -/

theorem pushDigit_toBuffer {p r : Path} {c : Char} {d : Nibble} (hc : Hex.digit? c = some d)
    (hr : r.toList = p.toList ++ [d]) : p.toBuffer.pushDigit c = .ok r.toBuffer := by
  have hbytes : r.bytes = p.bytes ++ [d.byte] := by
    rw [bytes, hr, List.map_append]
    rfl
  have hpush : p.toBuffer.push d.byte = .ok r.toBuffer := by
    rw [push_toBuffer, push_toNat_eq_ok_iff.2 hbytes]
    rfl
  simp only [Buffer.pushDigit, hc, hpush]
  rfl

/-- The digits of a text are stored one by one. -/
theorem foldlM_pushDigit_eq_ok {cs : List Char} {ds : List Nibble} {p r : Path}
    (hread : readDigits cs = .ok ds) (hr : r.toList = p.toList ++ ds) :
    cs.foldlM Buffer.pushDigit p.toBuffer = .ok r.toBuffer := by
  induction cs generalizing ds p with
  | nil =>
    obtain rfl : [] = ds := Except.ok.inj hread
    have hsame : r = p := ext (by rw [hr, List.append_nil])
    rw [hsame]
    rfl
  | cons c cs ih =>
    rw [readDigits] at hread
    cases hc : Hex.digit? c with
    | none =>
      rw [hc] at hread
      cases hread
    | some d =>
      rw [hc] at hread
      obtain ⟨ds', hrest, rfl⟩ := map_eq_ok_iff.1 hread
      rw [List.append_cons] at hr
      obtain ⟨q, hq⟩ := exists_front hr
      rw [List.foldlM_cons]
      refine (bind_eq_of_eq_ok (pushDigit_toBuffer hc hq)).trans (ih hrest ?_)
      rw [hr, hq]

/-- The first character that is no digit is refused, if there is room for the digits before it. -/
theorem foldlM_pushDigit_eq_error {cs : List Char} {e : TextError} {p : Path}
    (hread : readDigits cs = .error e) (hroom : p.length + cs.length ≤ maxNibbles) :
    cs.foldlM Buffer.pushDigit p.toBuffer = .error (.error e) := by
  induction cs generalizing p with
  | nil => cases hread
  | cons c cs ih =>
    rw [List.length_cons] at hroom
    rw [readDigits] at hread
    rw [List.foldlM_cons]
    cases hc : Hex.digit? c with
    | none =>
      rw [hc] at hread
      obtain rfl := Except.error.inj hread
      simp only [Buffer.pushDigit, hc]
      rfl
    | some d =>
      obtain ⟨q, -, hq⟩ := push_eq_ok d (p := p) (by omega)
      have hlen : q.length = p.length + 1 := by
        rw [← length_toList, hq, List.length_append, length_toList, List.length_singleton]
      refine (bind_eq_of_eq_ok (pushDigit_toBuffer hc hq)).trans (ih ?_ (by omega))
      rw [hc] at hread
      cases hrest : readDigits cs with
      | ok ds =>
        rw [hrest] at hread
        cases hread
      | error e' =>
        rw [hrest] at hread
        exact congrArg Except.error (Except.error.inj hread)

theorem parse_eq (s : String) : Buffer.parse s = .ofExcept ((parse s).map toBuffer) := by
  simp only [Buffer.parse, parse]
  by_cases hlen : utf8Length (Hex.afterMark s.toList) ≤ maxNibbles
  · rw [if_neg (Nat.not_lt.2 hlen), dif_pos hlen, ← empty_toBuffer]
    split
    · next ds hread => exact foldlM_pushDigit_eq_ok hread rfl
    · next e hread =>
      have hroom := Nat.le_trans (length_le_utf8Length (Hex.afterMark s.toList)) hlen
      refine foldlM_pushDigit_eq_error hread ?_
      rwa [length, toList_empty, List.length_nil, Nat.zero_add]
  · rw [if_pos (Nat.lt_of_not_le hlen), dif_neg hlen]
    rfl

theorem utf8Size_of_digit? {c : Char} {d : Nibble} (h : Hex.digit? c = some d) : c.utf8Size = 1 := by
  have hle : c ≤ 'f' := by
    unfold Hex.digit? at h
    split at h
    · next hc => exact Char.le_trans hc.2 (by decide)
    split at h
    · next hc => exact hc.2
    split at h
    · next hc => exact Char.le_trans hc.2 (by decide)
    · cases h
  have hval : c.val ≤ 127 := UInt32.le_trans hle (by decide)
  exact if_pos hval

theorem readDigits_eq_ok_iff {cs : List Char} {ds : List Nibble} :
    readDigits cs = .ok ds ↔ Hex.digits? cs = some ds := by
  induction cs generalizing ds with
  | nil => simp [readDigits, Hex.digits?]
  | cons c cs ih =>
    rw [Hex.digits?] at ih ⊢
    cases hc : Hex.digit? c with
    | none => simp [readDigits, hc]
    | some d => simp [readDigits, hc, map_eq_ok_iff, ih, Option.bind_eq_some_iff]

theorem utf8Length_of_digits? {cs : List Char} {ds : List Nibble} (h : Hex.digits? cs = some ds) :
    utf8Length cs = ds.length := by
  rw [← readDigits_eq_ok_iff] at h
  induction cs generalizing ds with
  | nil =>
    obtain rfl : [] = ds := Except.ok.inj h
    rfl
  | cons c cs ih =>
    rw [readDigits] at h
    cases hc : Hex.digit? c with
    | none =>
      rw [hc] at h
      cases h
    | some d =>
      rw [hc] at h
      obtain ⟨ds', hrest, rfl⟩ := map_eq_ok_iff.1 h
      rw [utf8Length, utf8Size_of_digit? hc, ih hrest, List.length_cons, Nat.add_comm]

/-- A text is read as the path of its digits. -/
theorem parse_eq_ok_iff {s : String} {p : Path} :
    parse s = .ok p ↔ Hex.digits? (Hex.afterMark s.toList) = some p.toList := by
  simp only [parse]
  constructor
  · intro h
    split at h
    · split at h
      · next ds hread =>
        rw [← Except.ok.inj h]
        exact readDigits_eq_ok_iff.1 hread
      · cases h
    · cases h
  · intro h
    have hlen : utf8Length (Hex.afterMark s.toList) ≤ maxNibbles := by
      rw [utf8Length_of_digits? h]
      exact p.length_le
    have hread := readDigits_eq_ok_iff.2 h
    rw [dif_pos hlen]
    split
    · next ds hds => exact congrArg Except.ok (ext (Except.ok.inj (hds.symm.trans hread)))
    · next e he => cases he.symm.trans hread

theorem toText_toBuffer (p : Path) : p.toBuffer.toText = .ok p.toText := by
  have hdigit : ∀ d : Nibble, Nat.toDigits 16 d.val = [Hex.digit d] := by decide
  have hdigits : p.bytes.flatMap (fun n => Nat.toDigits 16 n.toNat) = p.digits := by
    simp only [bytes, digits, List.flatMap_map, Nibble.toNat_byte, hdigit]
    exact List.map_eq_flatMap.symm
  rw [Buffer.toText, nibbles_toBuffer, toText, ← hdigits]
  rfl

theorem describe_toBuffer (p : Path) : p.toBuffer.describe = .ok p.describe := by
  rw [Buffer.describe, toText_toBuffer]
  rfl

/-! ## Compact paths -/

theorem flags_eq (isLeaf isOdd : Bool) :
    Buffer.flags isLeaf isOdd = (flag isLeaf isOdd).byte <<< 4 := by
  cases isLeaf <;> cases isOdd <;> rfl

theorem compact_toBuffer (p : Path) (isLeaf : Bool) :
    p.toBuffer.compact isLeaf = .ok (p.compact isLeaf) := by
  rw [Buffer.compact, compact, nibbles_toBuffer, count_toBuffer, cells_toBuffer]
  by_cases hodd : p.length % 2 = 1
  · rw [if_pos hodd, if_pos hodd]
    cases hp : p.toList with
    | nil => simp [← length_toList, hp] at hodd
    | cons d rest =>
      have hbytes : p.bytes = d.byte :: rest.map Nibble.byte := by rw [bytes, hp, List.map_cons]
      have hlen : p.length = rest.length + 1 := by rw [← length_toList, hp, List.length_cons]
      have hfirst : (Cells.ofList p.bytes).get 0 = .ok d.byte := by
        have hget := Cells.get_ofList p.length_bytes_le (i := 0) (by rw [length_bytes]; omega)
        simpa only [hbytes, List.getElem_cons_zero] using hget
      have hslice : slice p.bytes 1 p.length = .ok (rest.map Nibble.byte) := by
        have hwhole : p.bytes.take p.length = p.bytes := by rw [← length_bytes, List.take_length]
        rw [slice_eq_ok (by omega) (Nat.le_of_eq p.length_bytes.symm), hwhole, hbytes]
        rfl
      have hjoin := joinHalves_map_byte (l := rest) (by omega)
      have hhead : Buffer.flags isLeaf true ||| d.byte = Nibble.pack (flag isLeaf true) d := by
        rw [flags_eq, Nibble.byte_or_byte]
      rw [Bytes.ofNibbles, ← hhead]
      exact (bind_eq_of_eq_ok hfirst).trans
        ((bind_eq_of_eq_ok hslice).trans (bind_eq_of_eq_ok hjoin))
  · have hjoin := joinHalves_map_byte (l := p.toList) (by rw [length_toList]; omega)
    have hhead : Buffer.flags isLeaf false = Nibble.pack (flag isLeaf false) 0 := by
      rw [flags_eq, ← Nibble.byte_or_byte]
      exact (UInt8.or_zero).symm
    rw [if_neg hodd, if_neg hodd, Bytes.ofNibbles, ← hhead]
    exact bind_eq_of_eq_ok hjoin

theorem pushHalves_toBuffer {p r : Path} {b : UInt8}
    (hr : r.toList = p.toList ++ [Nibble.upper b, Nibble.lower b]) :
    p.toBuffer.pushHalves b = .ok r.toBuffer := by
  have hfold : p.toBuffer.pushHalves b = [b >>> 4, b &&& 15].foldlM Buffer.push p.toBuffer := by
    simp [Buffer.pushHalves]
  rw [hfold, foldlM_push_eq_ok_iff]
  refine ⟨r, ?_, rfl⟩
  rw [bytes, hr, List.map_append, List.map_cons, List.map_cons, List.map_nil, Nibble.byte_upper,
    Nibble.byte_lower]
  rfl

theorem behindFlags_eq {isOdd : Bool} {head : UInt8} {rest : Bytes} {r : Path}
    (hr : r.toList = (if isOdd then [Nibble.lower head] else []) ++ Bytes.nibbles rest) :
    Buffer.behindFlags isOdd head rest = .ok r.toBuffer := by
  cases isOdd with
  | false =>
    rw [Buffer.behindFlags, ← empty_toBuffer]
    exact foldlM_halves pushHalves_toBuffer hr
  | true =>
    have hfirst : (single (Nibble.lower head)).bytes = empty.bytes ++ [(Nibble.lower head).byte] :=
      rfl
    have hpush : Buffer.empty.push (head &&& 15) = .ok (single (Nibble.lower head)).toBuffer := by
      rw [← empty_toBuffer, push_toBuffer, ← Nibble.byte_lower, push_toNat_eq_ok_iff.2 hfirst]
      rfl
    exact (bind_eq_of_eq_ok hpush).trans (foldlM_halves pushHalves_toBuffer hr)

theorem ofCompact_eq (b : Bytes) :
    Buffer.ofCompact b = .ofExcept ((ofCompact b).map fun r => (r.1.toBuffer, r.2)) := by
  cases b with
  | nil => rfl
  | cons head rest =>
    have hhalf : maxNibbles / 2 = 32 := rfl
    have hlower : head &&& 15 = 0 ↔ Nibble.lower head = 0 := by
      rw [← Nibble.byte_lower]
      exact Nibble.byte_inj (e := 0)
    simp only [Buffer.ofCompact, ofCompact, hhalf]
    by_cases hlong : 33 < (head :: rest).length
    · rw [if_pos hlong, dif_pos hlong]
      rfl
    rw [if_neg hlong, dif_neg hlong]
    by_cases hflags : 3 < (Nibble.upper head).val
    · rw [if_pos (Or.inl hflags), if_pos hflags]
      rfl
    rw [if_neg hflags]
    by_cases heven : (Nibble.upper head).val % 2 = 0
    · have hnodd : decide ((Nibble.upper head).val % 2 = 1) = false := decide_eq_false (by omega)
      rw [if_pos heven, hnodd]
      by_cases hpad : Nibble.lower head = 0
      · rw [if_neg fun h => h.elim hflags fun h => h.2 (hlower.2 hpad),
          if_neg fun h => Bool.false_ne_true h.1, if_neg (not_not.2 hpad),
          behindFlags_eq (r := ⟨Bytes.nibbles rest, length_even_le hlong⟩) rfl]
        rfl
      · rw [if_pos (Or.inr ⟨Bool.false_ne_true, mt hlower.1 hpad⟩), if_pos hpad]
        rfl
    · have hodd : decide ((Nibble.upper head).val % 2 = 1) = true := decide_eq_true (by omega)
      rw [if_neg heven, hodd, if_neg fun h => h.elim hflags fun h => h.1 rfl]
      by_cases hfull : rest.length = 32
      · rw [if_pos ⟨rfl, hfull⟩, dif_pos hfull]
        rfl
      · rw [if_neg fun h => hfull h.2, dif_neg hfull,
          behindFlags_eq (r := ⟨_, length_odd_le (Nibble.lower head) hlong hfull⟩) rfl]
        rfl

/-- The compact form is a bijection between what can be kept in cells and what is read: it reads back,
nothing else reads as the same path, and all other bytes are refused for a reason that is true of
them. Neither direction stops with a fault. -/
theorem compact_bijection :
    (∀ (p : Buffer) (isLeaf : Bool), p.WellFormed →
      ∃ b, p.compact isLeaf = .ok b ∧ Buffer.ofCompact b = .ok (p, isLeaf)) ∧
    (∀ (b : Bytes) (p : Buffer) (isLeaf : Bool), Buffer.ofCompact b = .ok (p, isLeaf) →
      p.WellFormed ∧ p.count ≤ maxNibbles ∧ p.compact isLeaf = .ok b) ∧
    ∀ b : Bytes, (∀ (p : Buffer) (isLeaf : Bool), p.WellFormed → p.compact isLeaf ≠ .ok b) →
      ∃ e, Buffer.ofCompact b = .error (.error e) ∧ e.Describes b := by
  refine ⟨fun p isLeaf hp => ?_, fun b p isLeaf h => ?_, fun b hb => ?_⟩
  · obtain ⟨f, rfl⟩ := wellFormed_iff.1 hp
    refine ⟨f.compact isLeaf, compact_toBuffer f isLeaf, ?_⟩
    rw [ofCompact_eq, ofCompact_compact]
    rfl
  · rw [ofCompact_eq, Attempt.ofExcept_eq_ok_iff] at h
    obtain ⟨⟨f, isLeaf'⟩, hf, hp⟩ := map_eq_ok_iff.1 h
    obtain ⟨rfl, rfl⟩ := Prod.mk.inj hp
    have hback := compact_of_ofCompact hf
    refine ⟨f.wellFormed_toBuffer, f.length_le_max, ?_⟩
    rw [compact_toBuffer, hback]
  · rw [ofCompact_eq]
    cases hread : ofCompact b with
    | error e => exact ⟨e, rfl, describes_of_ofCompact hread⟩
    | ok r =>
      obtain ⟨f, isLeaf⟩ := r
      have hsame := compact_toBuffer f isLeaf
      rw [compact_of_ofCompact hread] at hsame
      exact absurd hsame (hb _ isLeaf f.wellFormed_toBuffer)

/-- A full key reads back, and a byte whose upper half is no flag is refused. -/
theorem compact_bijection_full :
    (∃ b, (ofWord .zero).toBuffer.compact true = .ok b ∧
      Buffer.ofCompact b = .ok ((ofWord .zero).toBuffer, true)) ∧
    ∃ e, Buffer.ofCompact [0x40] = .error (.error e) ∧ e.Describes [0x40] := by
  refine ⟨compact_bijection.1 _ true (wellFormed_toBuffer _),
    compact_bijection.2.2 [0x40] fun p isLeaf hp hb => ?_⟩
  obtain ⟨b, hb', hread⟩ := compact_bijection.1 p isLeaf hp
  obtain rfl := Except.ok.inj (hb'.symm.trans hb)
  cases hread

end Stateless.Path
