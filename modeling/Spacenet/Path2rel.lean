-- SUMMARY: `path2rel` on the Windows branch, with the arrays of its string literals.
import Spacenet.StdExt
import Spacenet.Tracker

/-!
# Relative paths

`path2rel` passes string literals to `str_replace`. Between the iterators of an
array is the terminating NUL as well, while `append` takes a pointer to it and
stops there.
-/

namespace Spacenet

open Occurrences

/-- The array of a string literal. -/
def literal (s : WString) : WString := s ++ [0]

/-- What `append` of a pointer to the array appends. -/
def cString (array : WString) : WString := array.takeWhile (· ≠ 0)

/-- The last character of `path2rel`: `pop_back` or `push_back`. -/
def setBack (filePath : WString) (noBackSlash : Bool) : WString :=
  if noBackSlash then
    if filePath.getLast? = some delimiterChar then filePath.dropLast else filePath
  else if filePath.getLast? ≠ some delimiterChar then filePath ++ [delimiterChar]
  else filePath

/-- `path2rel`. -/
def path2rel (fuel : Nat) (path : WString) (noBackSlash : Bool) : Option WString :=
  let filePath := path
  if ¬filePath.isEmpty then do
    let filePath ← strReplace fuel filePath (literal [cppxU '/']) (cString (literal [cppxU '\\']))
    return setBack filePath noBackSlash
  else some filePath

/-- `path2rel` ends with this value. -/
def Returns (path : WString) (noBackSlash : Bool) (r : WString) : Prop :=
  ∃ fuel, path2rel fuel path noBackSlash = some r

@[simp] theorem cString_literal_backslash : cString (literal [cppxU '\\']) = [delimiterChar] := rfl

theorem returns_nil {noBackSlash : Bool} {r : WString} : Returns [] noBackSlash r ↔ r = [] := by
  simp [Returns, path2rel, eq_comm]

theorem returns_iff {path : WString} (hpath : path ≠ []) {gaps : List WString}
    (h : Gaps (literal [cppxU '/']) path gaps) {noBackSlash : Bool} {r : WString} :
    Returns path noBackSlash r ↔ r = setBack ([delimiterChar].intercalate gaps) noBackSlash := by
  have hliteral : literal [cppxU '/'] ≠ [] := by decide
  have heq : ∀ fuel, path2rel fuel path noBackSlash =
      (strReplace fuel path (literal [cppxU '/']) [delimiterChar]).map (setBack · noBackSlash) := by
    intro fuel
    simp only [path2rel, List.isEmpty_iff, hpath, not_false_eq_true, if_true, cString_literal_backslash]
    cases strReplace fuel path (literal [cppxU '/']) [delimiterChar] <;> rfl
  constructor
  · rintro ⟨fuel, hfuel⟩
    rw [heq, Option.map_eq_some_iff] at hfuel
    obtain ⟨filePath, hreplace, rfl⟩ := hfuel
    rw [strReplace_unique hliteral h hreplace]
  · rintro rfl
    refine ⟨path.length + 1, ?_⟩
    rw [heq, strReplace_of_gaps hliteral h (Nat.lt_succ_self _)]
    rfl

end Spacenet
