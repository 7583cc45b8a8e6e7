-- SUMMARY: UTF-16 and UTF-8 texts as encodings of lists of characters, with both round trips.
import Mathlib.Data.BitVec
import Mathlib.Tactic.Common

/-!
# Unicode texts

A list of characters in code units of 16 bits and in bytes. A decoder fails on
whatever is not the encoding of a text, so decoding and encoding are inverse to
each other.
-/

namespace Unicode

/-! ## UTF-16 -/

/-- A high surrogate. -/
def IsHigh (u : BitVec 16) : Prop := 0xD800 ≤ u.toNat ∧ u.toNat < 0xDC00

/-- A low surrogate. -/
def IsLow (u : BitVec 16) : Prop := 0xDC00 ≤ u.toNat ∧ u.toNat < 0xE000

instance (u : BitVec 16) : Decidable (IsHigh u) := inferInstanceAs (Decidable (_ ∧ _))

instance (u : BitVec 16) : Decidable (IsLow u) := inferInstanceAs (Decidable (_ ∧ _))

/-- The code units of a character: one, or a pair of surrogates. -/
def utf16Char (c : Char) : List (BitVec 16) :=
  if c.toNat < 0x10000 then [BitVec.ofNat 16 c.toNat]
  else
    let v := c.toNat - 0x10000
    [BitVec.ofNat 16 (0xD800 + v / 0x400), BitVec.ofNat 16 (0xDC00 + v % 0x400)]

/-- The UTF-16 text. -/
def utf16 (s : List Char) : List (BitVec 16) := s.flatMap utf16Char

/-- The character of a pair of surrogates. -/
def pairChar (u v : BitVec 16) : Char :=
  Char.ofNat (0x10000 + (u.toNat - 0xD800) * 0x400 + (v.toNat - 0xDC00))

/-- The characters of a UTF-16 text, `none` when a surrogate stands alone. -/
def ofUtf16 : List (BitVec 16) → Option (List Char)
  | [] => some []
  | [u] => if IsHigh u ∨ IsLow u then none else some [Char.ofNat u.toNat]
  | u :: v :: us =>
      if IsHigh u then
        if IsLow v then (ofUtf16 us).map (pairChar u v :: ·) else none
      else if IsLow u then none
      else (ofUtf16 (v :: us)).map (Char.ofNat u.toNat :: ·)

theorem toNat_ofNat_of_valid {n : Nat} (h : n.isValidChar) : (Char.ofNat n).toNat = n := by
  rw [Char.ofNat, dif_pos h]
  exact UInt32.toNat_ofNatLT

theorem valid_of_not_surrogate {u : BitVec 16} (hhigh : ¬IsHigh u) (hlow : ¬IsLow u) :
    u.toNat.isValidChar := by
  have hlt := u.isLt
  unfold IsHigh IsLow at *
  unfold Nat.isValidChar
  omega

theorem valid_of_pair {u v : BitVec 16} (hu : IsHigh u) (hv : IsLow v) :
    (0x10000 + (u.toNat - 0xD800) * 0x400 + (v.toNat - 0xDC00)).isValidChar := by
  unfold IsHigh IsLow at *
  unfold Nat.isValidChar
  omega

theorem toNat_valid (c : Char) : c.toNat < 0xD800 ∨ 0xDFFF < c.toNat ∧ c.toNat < 0x110000 := c.valid

/-- A character of the first plane is its code unit, which is no surrogate. -/
theorem utf16Char_single {c : Char} (h : c.toNat < 0x10000) :
    ∃ u, utf16Char c = [u] ∧ ¬IsHigh u ∧ ¬IsLow u ∧ Char.ofNat u.toNat = c := by
  refine ⟨BitVec.ofNat 16 c.toNat, if_pos h, ?_, ?_, ?_⟩
  · have := toNat_valid c
    simp only [IsHigh, BitVec.toNat_ofNat]
    omega
  · have := toNat_valid c
    simp only [IsLow, BitVec.toNat_ofNat]
    omega
  · rw [BitVec.toNat_ofNat, Nat.mod_eq_of_lt h, Char.ofNat_toNat]

/-- Another character is its pair of surrogates. -/
theorem utf16Char_pair {c : Char} (h : ¬c.toNat < 0x10000) :
    ∃ u v, utf16Char c = [u, v] ∧ IsHigh u ∧ IsLow v ∧ pairChar u v = c := by
  have hvalid := toNat_valid c
  have hu : (BitVec.ofNat 16 (0xD800 + (c.toNat - 0x10000) / 0x400)).toNat =
      0xD800 + (c.toNat - 0x10000) / 0x400 := by
    rw [BitVec.toNat_ofNat]
    omega
  have hv : (BitVec.ofNat 16 (0xDC00 + (c.toNat - 0x10000) % 0x400)).toNat =
      0xDC00 + (c.toNat - 0x10000) % 0x400 := by
    rw [BitVec.toNat_ofNat]
    omega
  refine ⟨_, _, if_neg h, ?_, ?_, ?_⟩
  · rw [IsHigh, hu]
    omega
  · rw [IsLow, hv]
    omega
  · have hsum : 0x10000 + (c.toNat - 0x10000) / 0x400 * 0x400 + (c.toNat - 0x10000) % 0x400 = c.toNat := by
      omega
    rw [pairChar, hu, hv, Nat.add_sub_cancel_left, Nat.add_sub_cancel_left, hsum, Char.ofNat_toNat]

theorem ofUtf16_single {u : BitVec 16} (hhigh : ¬IsHigh u) (hlow : ¬IsLow u) (us : List (BitVec 16)) :
    ofUtf16 (u :: us) = (ofUtf16 us).map (Char.ofNat u.toNat :: ·) := by
  cases us with
  | nil => simp [ofUtf16, hhigh, hlow]
  | cons v us => rw [ofUtf16, if_neg hhigh, if_neg hlow]

theorem ofUtf16_pair {u v : BitVec 16} (hu : IsHigh u) (hv : IsLow v) (us : List (BitVec 16)) :
    ofUtf16 (u :: v :: us) = (ofUtf16 us).map (pairChar u v :: ·) := by
  rw [ofUtf16, if_pos hu, if_pos hv]

theorem ofUtf16_utf16 (s : List Char) : ofUtf16 (utf16 s) = some s := by
  induction s with
  | nil => rfl
  | cons c s ih =>
      rw [utf16, List.flatMap_cons]
      by_cases h : c.toNat < 0x10000
      · obtain ⟨u, hchar, hhigh, hlow, hc⟩ := utf16Char_single h
        rw [hchar, List.singleton_append, ofUtf16_single hhigh hlow, ← utf16, ih, Option.map_some, hc]
      · obtain ⟨u, v, hchar, hu, hv, hc⟩ := utf16Char_pair h
        rw [hchar, List.cons_append, List.singleton_append, ofUtf16_pair hu hv, ← utf16, ih, Option.map_some, hc]

theorem utf16Char_ofNat {u : BitVec 16} (hhigh : ¬IsHigh u) (hlow : ¬IsLow u) :
    utf16Char (Char.ofNat u.toNat) = [u] := by
  rw [utf16Char, toNat_ofNat_of_valid (valid_of_not_surrogate hhigh hlow), if_pos u.isLt, BitVec.ofNat_toNat,
    BitVec.setWidth_eq]

theorem utf16Char_pairChar {u v : BitVec 16} (hu : IsHigh u) (hv : IsLow v) :
    utf16Char (pairChar u v) = [u, v] := by
  have hvalid := toNat_ofNat_of_valid (valid_of_pair hu hv)
  unfold IsHigh IsLow at *
  have hhigh : 0xD800 + (0x10000 + (u.toNat - 0xD800) * 0x400 + (v.toNat - 0xDC00) - 0x10000) / 0x400 = u.toNat := by
    omega
  have hlow : 0xDC00 + (0x10000 + (u.toNat - 0xD800) * 0x400 + (v.toNat - 0xDC00) - 0x10000) % 0x400 = v.toNat := by
    omega
  rw [utf16Char, pairChar, hvalid, if_neg (by omega)]
  simp only [hhigh, hlow, BitVec.ofNat_toNat, BitVec.setWidth_eq]

/-- The decoder gives the text of which the code units are the encoding. The induction follows the pairs. -/
theorem utf16_of_ofUtf16 {us : List (BitVec 16)} {s : List Char} (h : ofUtf16 us = some s) : utf16 s = us := by
  induction us using ofUtf16.induct generalizing s with
  | case1 =>
      obtain rfl := Option.some.inj h
      rfl
  | case2 u hsurrogate =>
      rw [ofUtf16, if_pos hsurrogate] at h
      cases h
  | case3 u hnot =>
      rw [ofUtf16, if_neg hnot] at h
      obtain rfl := Option.some.inj h
      rw [not_or] at hnot
      simp [utf16, utf16Char_ofNat hnot.1 hnot.2]
  | case4 u v us hu hv ih =>
      rw [ofUtf16_pair hu hv, Option.map_eq_some_iff] at h
      obtain ⟨t, ht, rfl⟩ := h
      rw [utf16, List.flatMap_cons, utf16Char_pairChar hu hv, ← utf16, ih ht]
      rfl
  | case5 u v us hu hv =>
      rw [ofUtf16, if_pos hu, if_neg hv] at h
      cases h
  | case6 u v us hhigh hlow =>
      rw [ofUtf16, if_neg hhigh, if_pos hlow] at h
      cases h
  | case7 u v us hhigh hlow ih =>
      rw [ofUtf16, if_neg hhigh, if_neg hlow, Option.map_eq_some_iff] at h
      obtain ⟨t, ht, rfl⟩ := h
      rw [utf16, List.flatMap_cons, utf16Char_ofNat hhigh hlow, ← utf16, ih ht]
      rfl

/-- The decoder has a result on the encodings of texts, and on nothing else. -/
theorem ofUtf16_eq_some_iff {us : List (BitVec 16)} {s : List Char} : ofUtf16 us = some s ↔ us = utf16 s := by
  constructor
  · intro h
    exact (utf16_of_ofUtf16 h).symm
  · rintro rfl
    exact ofUtf16_utf16 s

theorem utf16_injective : Function.Injective utf16 := by
  intro s s' h
  have := ofUtf16_utf16 s
  rw [h, ofUtf16_utf16] at this
  exact (Option.some.inj this).symm

theorem utf16_append (s t : List Char) : utf16 (s ++ t) = utf16 s ++ utf16 t := List.flatMap_append

theorem utf16Char_ne_nil (c : Char) : utf16Char c ≠ [] := by
  unfold utf16Char
  split <;> exact List.cons_ne_nil _ _

/-- A character other than NUL has no unit that is zero. -/
theorem zero_notMem_utf16Char {c : Char} (h : c ≠ '\x00') : (0 : BitVec 16) ∉ utf16Char c := by
  by_cases hplane : c.toNat < 0x10000
  · obtain ⟨u, hchar, -, -, hc⟩ := utf16Char_single hplane
    rw [hchar, List.mem_singleton]
    rintro rfl
    exact h hc.symm
  · obtain ⟨u, v, hchar, hu, hv, -⟩ := utf16Char_pair hplane
    rw [hchar]
    rintro (_ | ⟨_, _ | ⟨_, hmem⟩⟩)
    · exact absurd hu (by decide)
    · exact absurd hv (by decide)
    · cases hmem

theorem zero_mem_utf16_iff {s : List Char} : (0 : BitVec 16) ∈ utf16 s ↔ '\x00' ∈ s := by
  rw [utf16, List.mem_flatMap]
  constructor
  · rintro ⟨c, hc, hzero⟩
    by_contra hnot
    exact zero_notMem_utf16Char (fun hnul => hnot (hnul ▸ hc)) hzero
  · intro h
    exact ⟨_, h, by decide⟩

/-! ## UTF-8 -/

/-- The bytes of a character. -/
def utf8Char (c : Char) : List (BitVec 8) := (String.utf8EncodeChar c).map UInt8.toBitVec

/-- The UTF-8 text. -/
def utf8 (s : List Char) : List (BitVec 8) := s.flatMap utf8Char

/-- The bytes as an array of the standard library. -/
def byteArray (bs : List (BitVec 8)) : ByteArray := ⟨(bs.map UInt8.ofBitVec).toArray⟩

/-- The characters of a UTF-8 text, `none` when the bytes are not valid. -/
def ofUtf8 (bs : List (BitVec 8)) : Option (List Char) := (byteArray bs).utf8Decode?.map Array.toList

theorem byteArray_utf8 (s : List Char) : byteArray (utf8 s) = s.utf8Encode := by
  have hbytes : (utf8 s).map UInt8.ofBitVec = s.flatMap String.utf8EncodeChar := by
    rw [utf8, List.map_flatMap]
    simp only [utf8Char, List.map_map, Function.comp_def, UInt8.ofBitVec_toBitVec, List.map_id']
  rw [byteArray, hbytes]
  ext1
  simp [List.utf8Encode]

theorem byteArray_injective : Function.Injective byteArray := by
  intro bs bs' h
  have hlist : bs.map UInt8.ofBitVec = bs'.map UInt8.ofBitVec := by
    simpa [byteArray] using h
  refine List.map_injective_iff.mpr ?_ hlist
  intro b b' hb
  exact congrArg UInt8.toBitVec hb

/-- The decoder has a result on the encodings of texts, and on nothing else. -/
theorem ofUtf8_eq_some_iff {bs : List (BitVec 8)} {s : List Char} : ofUtf8 bs = some s ↔ bs = utf8 s := by
  constructor
  · intro h
    rw [ofUtf8, Option.map_eq_some_iff] at h
    obtain ⟨chars, hdecode, rfl⟩ := h
    apply byteArray_injective
    rw [byteArray_utf8]
    have hsome : ((byteArray bs).utf8Decode?).isSome := by rw [hdecode]; rfl
    have hencode := ByteArray.utf8Encode_get_utf8Decode? (b := byteArray bs) (h := hsome)
    simp only [hdecode, Option.get_some] at hencode
    exact hencode.symm
  · rintro rfl
    rw [ofUtf8, byteArray_utf8, List.utf8Decode?_utf8Encode]
    rfl

theorem ofUtf8_utf8 (s : List Char) : ofUtf8 (utf8 s) = some s := ofUtf8_eq_some_iff.mpr rfl

theorem utf8_injective : Function.Injective utf8 := by
  intro s s' h
  have := ofUtf8_utf8 s
  rw [h, ofUtf8_utf8] at this
  exact (Option.some.inj this).symm

/-! ## Characters of one byte -/

theorem length_utf8Char (c : Char) : (utf8Char c).length = c.utf8Size := by
  rw [utf8Char, List.length_map, String.length_utf8EncodeChar]

theorem utf8Char_ascii {c : Char} (h : c.toNat < 0x80) : utf8Char c = [BitVec.ofNat 8 c.toNat] := by
  have hsize : c.utf8Size = 1 := Char.utf8Size_eq_one_iff.mpr (UInt32.le_iff_toNat_le.mpr (Nat.le_of_lt_succ h))
  rw [utf8Char, String.utf8EncodeChar_eq_singleton hsize]
  rfl

theorem utf16Char_ascii {c : Char} (h : c.toNat < 0x80) : utf16Char c = [BitVec.ofNat 16 c.toNat] :=
  if_pos (Nat.lt_trans h (by decide))

/-- Any other character has more bytes than code units. -/
theorem length_utf16Char_lt {c : Char} (h : ¬c.toNat < 0x80) : (utf16Char c).length < (utf8Char c).length := by
  rw [length_utf8Char]
  have hone : c.utf8Size ≠ 1 := by
    intro hsize
    exact h (Nat.lt_succ_of_le (UInt32.le_iff_toNat_le.mp (Char.utf8Size_eq_one_iff.mp hsize)))
  have hpos := c.utf8Size_pos
  by_cases hplane : c.toNat < 0x10000
  · obtain ⟨u, hchar, -⟩ := utf16Char_single hplane
    rw [hchar, List.length_singleton]
    omega
  · have hfour : c.utf8Size = 4 := by
      rw [Char.utf8Size_eq_four_iff, UInt32.lt_iff_toNat_lt]
      exact Nat.not_le.mp fun hle => hplane (Nat.lt_succ_of_le hle)
    obtain ⟨u, v, hchar, -⟩ := utf16Char_pair hplane
    rw [hchar, hfour]
    exact Nat.lt_of_succ_lt (Nat.lt_succ_self 3)

theorem length_utf16Char_le (c : Char) : (utf16Char c).length ≤ (utf8Char c).length := by
  by_cases h : c.toNat < 0x80
  · rw [utf16Char_ascii h, utf8Char_ascii h]
    exact Nat.le_refl 1
  · exact Nat.le_of_lt (length_utf16Char_lt h)

theorem length_utf16_le (s : List Char) : (utf16 s).length ≤ (utf8 s).length := by
  induction s with
  | nil => exact Nat.le_refl 0
  | cons c s ih =>
      rw [utf16, utf8, List.flatMap_cons, List.flatMap_cons, List.length_append, List.length_append]
      exact Nat.add_le_add (length_utf16Char_le c) ih

theorem length_le_utf16 (s : List Char) : s.length ≤ (utf16 s).length := by
  induction s with
  | nil => exact Nat.le_refl 0
  | cons c s ih =>
      rw [utf16, List.flatMap_cons, List.length_append, List.length_cons, Nat.add_comm]
      exact Nat.add_le_add (List.length_pos_iff.mpr (utf16Char_ne_nil c)) ih

/-- A text has as many bytes as code units when all of its characters are of one byte, and only then. -/
theorem ascii_of_length_le {s : List Char} (h : (utf8 s).length ≤ (utf16 s).length) : ∀ c ∈ s, c.toNat < 0x80 := by
  induction s with
  | nil => simp
  | cons c s ih =>
      simp only [utf16, utf8, List.flatMap_cons, List.length_append] at h
      have hrest := length_utf16_le s
      simp only [utf16, utf8] at hrest
      by_cases hc : c.toNat < 0x80
      · rw [utf16Char_ascii hc, utf8Char_ascii hc] at h
        simp only [List.length_singleton] at h
        intro d hd
        rcases List.mem_cons.mp hd with rfl | hd
        · exact hc
        · exact ih (by simp only [utf16, utf8]; omega) d hd
      · have hlt := length_utf16Char_lt hc
        omega

/-- A byte with one of the leading bits set is not zero. -/
theorem or_ne_zero {a b : UInt8} (h : b ≠ 0) : a ||| b ≠ 0 := fun hor => h (UInt8.or_eq_zero_iff.mp hor).2

/-- A character other than NUL has no byte that is zero. -/
theorem zero_notMem_utf8Char {c : Char} (h : c ≠ '\x00') : (0 : BitVec 8) ∉ utf8Char c := by
  intro hmem
  by_cases hascii : c.toNat < 0x80
  · rw [utf8Char_ascii hascii, List.mem_singleton] at hmem
    have hnat := congrArg BitVec.toNat hmem
    rw [BitVec.toNat_ofNat, Nat.mod_eq_of_lt (by omega)] at hnat
    exact h (Char.toNat_inj.mp hnat.symm)
  · obtain ⟨b, hb, hzero⟩ := List.mem_map.mp hmem
    have hb0 : b = 0 := UInt8.toBitVec_inj.mp hzero
    have hsize : c.utf8Size = 2 ∨ c.utf8Size = 3 ∨ c.utf8Size = 4 := by
      have := c.utf8Size_pos
      have := c.utf8Size_le_four
      have hone : c.utf8Size ≠ 1 := fun hone =>
        hascii (Nat.lt_succ_of_le (UInt32.le_iff_toNat_le.mp (Char.utf8Size_eq_one_iff.mp hone)))
      omega
    rcases hsize with h2 | h3 | h4
    · rw [String.utf8EncodeChar_eq_cons_cons h2] at hb
      simp only [List.mem_cons, List.not_mem_nil, or_false] at hb
      rcases hb with hb | hb <;> exact or_ne_zero (by decide) (hb.symm.trans hb0)
    · rw [String.utf8EncodeChar_eq_cons_cons_cons h3] at hb
      simp only [List.mem_cons, List.not_mem_nil, or_false] at hb
      rcases hb with hb | hb | hb <;> exact or_ne_zero (by decide) (hb.symm.trans hb0)
    · rw [String.utf8EncodeChar_eq_cons_cons_cons_cons h4] at hb
      simp only [List.mem_cons, List.not_mem_nil, or_false] at hb
      rcases hb with hb | hb | hb | hb <;> exact or_ne_zero (by decide) (hb.symm.trans hb0)

theorem zero_mem_utf8_iff {s : List Char} : (0 : BitVec 8) ∈ utf8 s ↔ '\x00' ∈ s := by
  rw [utf8, List.mem_flatMap]
  constructor
  · rintro ⟨c, hc, hzero⟩
    by_contra hnot
    exact zero_notMem_utf8Char (fun hnul => hnot (hnul ▸ hc)) hzero
  · intro h
    exact ⟨_, h, by decide⟩

end Unicode
