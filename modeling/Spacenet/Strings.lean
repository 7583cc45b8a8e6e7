-- SUMMARY: The strings of the program: `std::wstring` as UTF-16 code units, UTF-8 text as its characters, and which strings can be converted.
import Spacenet.Library.Unicode

/-!
# Strings

`string` is `std::wstring`, with the 16-bit `wchar_t` of Windows. The file system
gives any sequence of units for a name, also one that is no UTF-16 because a
surrogate stands alone in it. Such a string has no UTF-8 form.
-/

namespace Spacenet

open Unicode

/-- Text in UTF-8, as its sequence of characters. -/
abbrev Text := List Char

abbrev WChar := BitVec 16

abbrev WString := List WChar

/-- `CPPX_U` of a character. -/
def cppxU (c : Char) : WChar := BitVec.ofNat 16 c.toNat

instance : Coe Char WChar := ⟨cppxU⟩

/-- `path_delimiter[0]`. -/
def delimiterChar : WChar := cppxU '\\'

/-! ## Conversion -/

/-- The string is UTF-16. `str2utf` converts such a string, and throws `std::range_error` on any other. -/
def WellFormed (s : WString) : Prop := (ofUtf16 s).isSome = true

instance (s : WString) : Decidable (WellFormed s) := inferInstanceAs (Decidable (_ = _))

theorem wellFormed_iff {s : WString} : WellFormed s ↔ ∃ text, s = utf16 text := by
  rw [WellFormed, Option.isSome_iff_exists]
  exact exists_congr fun _ => ofUtf16_eq_some_iff

theorem WellFormed.append {s s' : WString} (h : WellFormed s) (h' : WellFormed s') : WellFormed (s ++ s') := by
  obtain ⟨text, rfl⟩ := wellFormed_iff.mp h
  obtain ⟨text', rfl⟩ := wellFormed_iff.mp h'
  exact wellFormed_iff.mpr ⟨text ++ text', (utf16_append text text').symm⟩

/-! ## `.*` -/

/-- The line terminators of the ECMAScript grammar. -/
def lineTerminators : List WChar := [0x000A, 0x000D, 0x2028, 0x2029]

/-- `std::regex_match` with `.*`. The dot matches no line terminator. -/
def matchesDotStar (s : WString) : Bool := s.all (· ∉ lineTerminators)

end Spacenet
