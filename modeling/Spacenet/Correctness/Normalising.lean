-- SUMMARY: `path2rel` normalises a path if and only if there is nothing to replace in it and at most one delimiter to take off.
import Spacenet.Path2rel

/-!
# Normalising a path

The search range of `path2rel` is the slash with the terminating NUL behind it, so a
slash stays where it is unless a NUL follows, and there the NUL is lost with it. Of
the delimiters at the end one is taken off.
-/

namespace Spacenet

open Occurrences

/-! ## A normalised path -/

/-- A slash becomes a backslash. -/
def backslashed (c : WChar) : WChar := if c = cppxU '/' then delimiterChar else c

/-- The paths are the same apart from a final delimiter. -/
def SameButBack (r path : WString) : Prop :=
  r = path ∨ r = path ++ [delimiterChar] ∨ r ++ [delimiterChar] = path

/-- What is expected of the value `r` for a path. -/
structure NormalForm (path : WString) (noBackSlash : Bool) (r : WString) : Prop where
  noSlash : cppxU '/' ∉ r
  kept : SameButBack r (path.map backslashed)
  back : path ≠ [] → (r.getLast? = some delimiterChar ↔ noBackSlash = false)
  again : Returns r noBackSlash r

def Normalises (path : WString) (noBackSlash : Bool) : Prop :=
  ∃ r, Returns path noBackSlash r ∧ NormalForm path noBackSlash r

/-! ## The last character -/

theorem setBack_sameButBack (path : WString) (noBackSlash : Bool) : SameButBack (setBack path noBackSlash) path := by
  unfold setBack
  cases noBackSlash with
  | true =>
      simp only [if_true]
      split
      · next hlast =>
          obtain ⟨front, rfl⟩ := List.getLast?_eq_some_iff.mp hlast
          exact .inr (.inr (by rw [List.dropLast_concat]))
      · exact .inl rfl
  | false =>
      simp only [Bool.false_eq_true, if_false]
      split
      · exact .inr (.inl rfl)
      · exact .inl rfl

section

variable {r path : WString} {c : WChar}

theorem SameButBack.mem_iff (h : SameButBack r path) (hc : c ≠ delimiterChar) : c ∈ r ↔ c ∈ path := by
  rcases h with rfl | rfl | rfl <;> simp [hc]

theorem SameButBack.count_eq (h : SameButBack r path) (hc : c ≠ delimiterChar) : r.count c = path.count c := by
  rcases h with rfl | rfl | rfl <;> simp [List.count_append, hc.symm]

end

/-- With no backslash at the end wanted, one is taken off. -/
theorem setBack_true_back (path : WString) :
    (setBack path true).getLast? = some delimiterChar ↔ [delimiterChar, delimiterChar] <:+ path := by
  unfold setBack
  simp only [if_true]
  constructor
  · intro h
    split at h
    · next hlast =>
        obtain ⟨front, rfl⟩ := List.getLast?_eq_some_iff.mp hlast
        rw [List.dropLast_concat] at h
        obtain ⟨front', rfl⟩ := List.getLast?_eq_some_iff.mp h
        exact ⟨front', by simp⟩
    · next hlast => exact absurd h hlast
  · rintro ⟨front, rfl⟩
    have hsplit : front ++ [delimiterChar, delimiterChar] = (front ++ [delimiterChar]) ++ [delimiterChar] := by simp
    rw [hsplit, if_pos (by simp), List.dropLast_concat]
    simp

theorem setBack_false_back (path : WString) : (setBack path false).getLast? = some delimiterChar := by
  unfold setBack
  simp only [Bool.false_eq_true, if_false]
  split
  · simp
  · next hlast => exact not_not.mp hlast

/-- A path that ends as wanted stays as it is. -/
theorem setBack_eq_self {path : WString} {noBackSlash : Bool}
    (h : path.getLast? = some delimiterChar ↔ noBackSlash = false) : setBack path noBackSlash = path := by
  unfold setBack
  cases noBackSlash with
  | true =>
      have hback : path.getLast? ≠ some delimiterChar := fun hlast => Bool.noConfusion (h.mp hlast)
      simp only [if_true, if_neg hback]
  | false =>
      have hback := h.mpr rfl
      simp [hback]

/-! ## The slashes -/

/-- Each replacement costs a NUL. -/
theorem count_nul_gaps {path : WString} {gaps : List WString} (h : Gaps (literal [cppxU '/']) path gaps) :
    ([delimiterChar].intercalate gaps).count 0 + gaps.length = path.count 0 + 1 := by
  induction h with
  | last _ => rw [List.intercalate_singleton, List.length_singleton]
  | @next gap rest gaps _ hrest ih =>
      have hslash : (literal [cppxU '/']).count 0 = 1 := by decide
      have hdelimiter : [delimiterChar].count 0 = 0 := by decide
      rw [List.intercalate_cons_of_ne_nil hrest.ne_nil]
      simp only [List.count_append, List.length_cons, hslash, hdelimiter]
      omega

theorem count_nul_backslashed (path : WString) : (path.map backslashed).count 0 = path.count 0 := by
  induction path with
  | nil => rfl
  | cons c path ih =>
      have hc : (backslashed c == 0) = (c == 0) := by
        unfold backslashed
        split
        · next h => rw [h]; decide
        · rfl
      rw [List.map_cons, List.count_cons, List.count_cons, ih, hc]

theorem map_backslashed {path : WString} (h : cppxU '/' ∉ path) : path.map backslashed = path := by
  have hsame : ∀ c ∈ path, backslashed c = id c := by
    intro c hc
    have hne : c ≠ cppxU '/' := by
      rintro rfl
      exact h hc
    exact if_neg hne
  rw [List.map_congr_left hsame, List.map_id]

theorem gaps_of_not_mem {path : WString} (h : cppxU '/' ∉ path) : Gaps (literal [cppxU '/']) path [path] := by
  apply Gaps.last
  intro hinfix
  have hchars := hinfix.subset
  exact h (hchars (by simp [literal]))

/-- A path with no slash changes at its end only. -/
theorem returns_of_not_mem {path : WString} (hpath : path ≠ []) (h : cppxU '/' ∉ path) {noBackSlash : Bool}
    {r : WString} : Returns path noBackSlash r ↔ r = setBack path noBackSlash := by
  rw [returns_iff hpath (gaps_of_not_mem h), List.intercalate_singleton]

/-- A path whose NULs are kept is searched in vain, and its slashes are kept as well. -/
theorem not_mem_of_normalForm {path r : WString} {noBackSlash : Bool} (hreturns : Returns path noBackSlash r)
    (h : NormalForm path noBackSlash r) : cppxU '/' ∉ path := by
  intro hmem
  have hpath := List.ne_nil_of_mem hmem
  obtain ⟨gaps, hgaps⟩ := exists_gaps (show literal [cppxU '/'] ≠ [] by decide) path
  obtain rfl := (returns_iff hpath hgaps).mp hreturns
  have hback := setBack_sameButBack ([delimiterChar].intercalate gaps) noBackSlash
  have hnul := (hback.count_eq (c := 0) (by decide)).symm.trans (h.kept.count_eq (by decide))
  rw [count_nul_backslashed] at hnul
  have hcount := count_nul_gaps hgaps
  obtain ⟨gap, rfl⟩ := List.length_eq_one_iff.mp (show gaps.length = 1 by omega)
  obtain rfl : gap = path := by simpa using hgaps.intercalate_eq
  have hslash := h.noSlash
  rw [List.intercalate_singleton] at hback hslash
  exact hslash ((hback.mem_iff (by decide)).mpr hmem)

/-- `path2rel` normalises the paths with no slash in them, and with no backslash at the end wanted those
that do not end with two. -/
theorem path2rel_normalises_iff (path : WString) (noBackSlash : Bool) :
    Normalises path noBackSlash ↔
      cppxU '/' ∉ path ∧ (noBackSlash = true → ¬[delimiterChar, delimiterChar] <:+ path) := by
  constructor
  · rintro ⟨r, hreturns, hnormal⟩
    have hslash := not_mem_of_normalForm hreturns hnormal
    refine ⟨hslash, ?_⟩
    rintro rfl hsuffix
    have hpath : path ≠ [] := by
      rintro rfl
      simp at hsuffix
    obtain rfl := (returns_of_not_mem hpath hslash).mp hreturns
    have hback := (hnormal.back hpath).mp ((setBack_true_back path).mpr hsuffix)
    cases hback
  · rintro ⟨hslash, hsuffix⟩
    by_cases hpath : path = []
    · subst hpath
      exact ⟨[], returns_nil.mpr rfl, by simp, .inl rfl, fun h => absurd rfl h, returns_nil.mpr rfl⟩
    · have hsame := setBack_sameButBack path noBackSlash
      have hnoSlash : cppxU '/' ∉ setBack path noBackSlash := fun h => hslash ((hsame.mem_iff (by decide)).mp h)
      have hback : (setBack path noBackSlash).getLast? = some delimiterChar ↔ noBackSlash = false := by
        cases noBackSlash with
        | true =>
            rw [setBack_true_back]
            simpa using hsuffix rfl
        | false =>
            rw [setBack_false_back]
            simp
      refine ⟨_, (returns_of_not_mem hpath hslash).mpr rfl, hnoSlash, ?_, fun _ => hback, ?_⟩
      · rw [map_backslashed hslash]
        exact hsame
      · by_cases hr : setBack path noBackSlash = []
        · rw [hr]
          exact returns_nil.mpr rfl
        · exact (returns_of_not_mem hr hnoSlash).mpr (setBack_eq_self hback).symm

/-- The path `a/b` is left with its slash. -/
theorem path2rel_keeps_slash :
    Returns (utf2str "a/b".toList) false (utf2str "a/b\\".toList) ∧ ¬Normalises (utf2str "a/b".toList) false := by
  have hgaps : Gaps (literal [cppxU '/']) (utf2str "a/b".toList) [utf2str "a/b".toList] := .last (by decide)
  have hreturns : ∀ r, Returns (utf2str "a/b".toList) false r ↔
      r = setBack ([delimiterChar].intercalate [utf2str "a/b".toList]) false :=
    fun r => returns_iff (by decide) hgaps
  refine ⟨(hreturns _).mpr (by decide), ?_⟩
  rintro ⟨r, hr, hnormal⟩
  obtain rfl := (hreturns r).mp hr
  exact hnormal.noSlash (by decide)

end Spacenet
