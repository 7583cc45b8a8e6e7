-- SUMMARY: When a string comes back from its conversion to UTF-8, and UTF-8 from its conversion to a string.
import Mathlib.Data.List.TakeWhile
import Spacenet.LocaleTraits

/-!
# Round trips of strings

`str2utf` stops at a NUL and `utf2str` widens the bytes where it cannot convert
them. A string without a NUL comes back unless it is too long for an `int`, and
then only when all of its characters have one byte.
-/

namespace Spacenet

open Unicode

namespace LocaleTraits

variable (nls : Nls)

/-! ## What stands before the NUL -/

theorem takeWhile_of_notMem {α : Type} [DecidableEq α] {a : α} {l : List α} (h : a ∉ l) :
    l.takeWhile (· ≠ a) = l := by
  rw [List.takeWhile_eq_self_iff]
  intro x hx
  exact decide_eq_true (ne_of_mem_of_not_mem hx h)

theorem nul_notMem_takeWhile (s : List Char) : '\x00' ∉ s.takeWhile (· ≠ '\x00') := by
  intro hmem
  have hpos := List.mem_takeWhile_imp hmem
  exact of_decide_eq_true hpos rfl

theorem cString_utf16Char_append {c : Char} (h : c ≠ '\x00') (w : WString) :
    cString (utf16Char c ++ w) = utf16Char c ++ cString w := by
  rw [cString, List.takeWhile_append_of_pos]
  · rfl
  · intro u hu
    exact decide_eq_true (ne_of_mem_of_not_mem hu (zero_notMem_utf16Char h))

/-- The units before the first that is zero are those of the characters before the first NUL. -/
theorem cString_utf16 (s : List Char) : cString (utf16 s) = utf16 (s.takeWhile (· ≠ '\x00')) := by
  induction s with
  | nil => rfl
  | cons c s ih =>
      by_cases hc : c = '\x00'
      · subst hc
        rfl
      · have hfirst : (c :: s).takeWhile (· ≠ '\x00') = c :: s.takeWhile (· ≠ '\x00') :=
          List.takeWhile_cons_of_pos (decide_eq_true hc)
        rw [hfirst, utf16, utf16, List.flatMap_cons, List.flatMap_cons, cString_utf16Char_append hc]
        exact congrArg (utf16Char c ++ ·) ih

theorem str2utf_utf16 (s : List Char) :
    str2utf nls (utf16 s) = .ok (utf8 (s.takeWhile (· ≠ '\x00'))) := by
  rw [str2utf, cString_utf16, toBytes, ofUtf16_utf16]

/-! ## Where the conversion succeeds -/

theorem utf2str_utf8_of_le {s : List Char} (h : (utf8 s).length ≤ INT_MAX) : utf2str nls (utf8 s) = utf16 s := by
  have hchars : multiByteToWideChar nls (utf8 s) = utf16 s := by
    rw [multiByteToWideChar, ofUtf8_utf8]
  unfold utf2str tryConvert
  simp only [hchars, if_neg (Nat.not_lt.mpr h)]
  by_cases hnil : s = []
  · subst hnil
    rfl
  · have hpos : (utf16 s).length ≠ 0 := fun hzero =>
      hnil (utf16_injective (List.eq_nil_of_length_eq_zero hzero))
    simp only [if_neg hpos]

theorem utf2str_utf8_of_lt {s : List Char} (h : INT_MAX < (utf8 s).length) :
    utf2str nls (utf8 s) = widen (utf8 s) := by
  unfold utf2str tryConvert
  simp only [if_pos h]

/-! ## Bytes widened -/

theorem widen_append (b b' : Blob) : widen (b ++ b') = widen b ++ widen b' := List.map_append

theorem widen_utf8_ascii {s : List Char} (h : ∀ c ∈ s, c.toNat < 0x80) : widen (utf8 s) = utf16 s := by
  induction s with
  | nil => rfl
  | cons c s ih =>
      rw [List.forall_mem_cons] at h
      have hc := h.1
      have hrest : widen (s.flatMap utf8Char) = s.flatMap utf16Char := ih h.2
      rw [utf8, utf16, List.flatMap_cons, List.flatMap_cons, widen_append, hrest, utf8Char_ascii hc,
        utf16Char_ascii hc, widen, List.map_singleton]
      congr 2
      rw [BitVec.signExtend_eq_setWidth_of_msb_false]
      · exact BitVec.setWidth_ofNat_of_le_of_lt (by decide) (Nat.lt_of_lt_of_le hc (by decide))
      · rw [BitVec.msb_eq_decide, BitVec.toNat_ofNat]
        exact decide_eq_false (by omega)

theorem length_widen (b : Blob) : (widen b).length = b.length := List.length_map _

theorem signExtend_eq_zero {c : BitVec 8} : c.signExtend 16 = 0 → c = 0 := by
  revert c
  decide

theorem zero_notMem_widen {b : Blob} (h : 0 ∉ b) : 0 ∉ widen b := by
  intro hmem
  obtain ⟨c, hc, hzero⟩ := List.mem_map.mp hmem
  exact h (signExtend_eq_zero hzero ▸ hc)

/-- The character that a byte becomes. One of 128 or more takes three bytes. -/
def widenedChar (c : BitVec 8) : Char := Char.ofNat (c.signExtend 16).toNat

theorem not_surrogate_signExtend (c : BitVec 8) : ¬IsHigh (c.signExtend 16) ∧ ¬IsLow (c.signExtend 16) := by
  revert c
  decide

theorem widen_eq_utf16 (b : Blob) : widen b = utf16 (b.map widenedChar) := by
  induction b with
  | nil => rfl
  | cons c b ih =>
      have hunit := utf16Char_ofNat (not_surrogate_signExtend c).1 (not_surrogate_signExtend c).2
      rw [List.map_cons, utf16, List.flatMap_cons, widenedChar, hunit, ← utf16, ← ih]
      rfl

/-! ## The round trips -/

theorem takeWhile_ne_nul {s : List Char} (h : s.takeWhile (· ≠ '\x00') = s) : '\x00' ∉ s := by
  intro hmem
  have hpos := List.takeWhile_eq_self_iff.mp h _ hmem
  exact of_decide_eq_true hpos rfl

/-- A string is the same after its conversion to UTF-8 and back if and only if it has no NUL and is
within the limit of an `int` or of one byte a character. -/
theorem utf2str_str2utf_iff (s : List Char) :
    (∃ b, str2utf nls (utf16 s) = .ok b ∧ utf2str nls b = utf16 s) ↔
      '\x00' ∉ s ∧ ((utf8 s).length ≤ INT_MAX ∨ ∀ c ∈ s, c.toNat < 0x80) := by
  constructor
  · rintro ⟨b, hb, hback⟩
    rw [str2utf_utf16, Except.ok.injEq] at hb
    subst hb
    have hnul := nul_notMem_takeWhile s
    rcases Nat.lt_or_ge INT_MAX (utf8 (s.takeWhile (· ≠ '\x00'))).length with hlong | hshort
    · rw [utf2str_utf8_of_lt nls hlong] at hback
      have hs : '\x00' ∉ s := by
        rw [← zero_mem_utf16_iff, ← hback]
        exact zero_notMem_widen (zero_mem_utf8_iff.not.mpr hnul)
      rw [takeWhile_of_notMem hs] at hback
      refine ⟨hs, Or.inr (ascii_of_length_le ?_)⟩
      rw [← hback, length_widen]
    · rw [utf2str_utf8_of_le nls hshort] at hback
      have hs := utf16_injective hback
      rw [hs] at hnul hshort
      exact ⟨hnul, Or.inl hshort⟩
  · rintro ⟨hnul, hlength⟩
    refine ⟨utf8 s, by rw [str2utf_utf16, takeWhile_of_notMem hnul], ?_⟩
    rcases Nat.lt_or_ge INT_MAX (utf8 s).length with hlong | hshort
    · have hascii := hlength.resolve_left (Nat.not_le.mpr hlong)
      rw [utf2str_utf8_of_lt nls hlong, widen_utf8_ascii hascii]
    · exact utf2str_utf8_of_le nls hshort

/-- UTF-8 is the same after its conversion to a string and back in the same cases. -/
theorem str2utf_utf2str_iff (s : List Char) :
    str2utf nls (utf2str nls (utf8 s)) = .ok (utf8 s) ↔
      '\x00' ∉ s ∧ ((utf8 s).length ≤ INT_MAX ∨ ∀ c ∈ s, c.toNat < 0x80) := by
  rcases Nat.lt_or_ge INT_MAX (utf8 s).length with hlong | hshort
  · rw [utf2str_utf8_of_lt nls hlong, widen_eq_utf16, str2utf_utf16, Except.ok.injEq]
    constructor
    · intro h
      have hs := utf8_injective h
      have hnul : '\x00' ∉ s := by
        rw [← hs]
        exact nul_notMem_takeWhile _
      have hwidened : '\x00' ∉ (utf8 s).map widenedChar := by
        rw [← zero_mem_utf16_iff, ← widen_eq_utf16]
        exact zero_notMem_widen (zero_mem_utf8_iff.not.mpr hnul)
      rw [takeWhile_of_notMem hwidened] at hs
      have hlength := congrArg List.length hs
      rw [List.length_map] at hlength
      exact ⟨hnul, Or.inr (ascii_of_length_le (hlength ▸ length_le_utf16 s))⟩
    · rintro ⟨hnul, hlength⟩
      have hascii := hlength.resolve_left (Nat.not_le.mpr hlong)
      have hs : (utf8 s).map widenedChar = s := utf16_injective (by rw [← widen_eq_utf16, widen_utf8_ascii hascii])
      rw [hs, takeWhile_of_notMem hnul]
  · rw [utf2str_utf8_of_le nls hshort, str2utf_utf16, Except.ok.injEq]
    constructor
    · intro h
      exact ⟨takeWhile_ne_nul (utf8_injective h), Or.inl hshort⟩
    · rintro ⟨hnul, -⟩
      rw [takeWhile_of_notMem hnul]

end LocaleTraits

end Spacenet
