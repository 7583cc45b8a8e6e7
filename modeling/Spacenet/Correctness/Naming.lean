-- SUMMARY: Which tracked directories share a database.
import Spacenet.Tracker

/-!
# Database names

A name with forbidden characters is replaced by the digest of what is left of
it, so that names which differ in forbidden characters only share a database.
-/

namespace Spacenet

/-- The name of one directory is spelled as the replaced name of the other. -/
def Spells (s s' : WString) : Prop :=
  ¬Altered s ∧ Altered s' ∧ s = cppxU '-' :: shortDigest (removeForbiddenCharacters s')

/-- Two trackers of distinct names, where distinct texts without the forbidden characters have
distinct short digests: their databases have distinct names unless both names have forbidden
characters and are the same without them, or one spells the replaced name of the other. -/
theorem dbName_ne_iff {tracker tracker' : DirectoryTracker} (hne : tracker.name ≠ tracker'.name)
    (hdigest : removeForbiddenCharacters tracker.name ≠ removeForbiddenCharacters tracker'.name →
      shortDigest (removeForbiddenCharacters tracker.name) ≠
        shortDigest (removeForbiddenCharacters tracker'.name)) :
    tracker.dbName ≠ tracker'.dbName ↔
      ¬(Altered tracker.name ∧ Altered tracker'.name ∧
          removeForbiddenCharacters tracker.name = removeForbiddenCharacters tracker'.name) ∧
        ¬Spells tracker.name tracker'.name ∧ ¬Spells tracker'.name tracker.name := by
  have hname : tracker.dbName = tracker'.dbName ↔ makeName tracker.name = makeName tracker'.name :=
    List.append_left_inj _
  rw [ne_eq, hname]
  generalize tracker.name = s at hne hdigest ⊢
  generalize tracker'.name = s' at hne hdigest ⊢
  by_cases hs : Altered s
  · by_cases hs' : Altered s'
    · have hsame : shortDigest (removeForbiddenCharacters s) = shortDigest (removeForbiddenCharacters s') ↔
          removeForbiddenCharacters s = removeForbiddenCharacters s' := by
        constructor
        · intro h
          by_contra hdiff
          exact hdigest hdiff h
        · intro h
          rw [h]
      rw [makeName_of_altered hs, makeName_of_altered hs', List.cons_inj_right, hsame]
      simp only [hs, hs', true_and, Spells, not_true_eq_false, false_and, not_false_eq_true, and_true]
    · rw [makeName_of_altered hs, makeName_of_not_altered hs']
      simp only [hs, hs', true_and, Spells, not_true_eq_false, false_and, not_false_eq_true]
      rw [eq_comm]
  · by_cases hs' : Altered s'
    · rw [makeName_of_not_altered hs, makeName_of_altered hs']
      simp only [hs, hs', true_and, Spells, not_true_eq_false, false_and, not_false_eq_true, and_true]
    · rw [makeName_of_not_altered hs, makeName_of_not_altered hs']
      simp only [hs, hs', hne, Spells, false_and, and_false, not_false_eq_true, and_true]

/-- The tracker of a directory without a name of its own. -/
def pathTracker (path : String) : DirectoryTracker := ⟨[], utf2str path.toList⟩

/-- The digests of two paths with forbidden characters. -/
theorem dbName_ne_iff_sibling :
    (pathTracker "C:\\ab").dbName ≠ (pathTracker "C:\\abc").dbName ↔
      ¬(Altered (pathTracker "C:\\ab").name ∧ Altered (pathTracker "C:\\abc").name ∧
          removeForbiddenCharacters (pathTracker "C:\\ab").name =
            removeForbiddenCharacters (pathTracker "C:\\abc").name) ∧
        ¬Spells (pathTracker "C:\\ab").name (pathTracker "C:\\abc").name ∧
        ¬Spells (pathTracker "C:\\abc").name (pathTracker "C:\\ab").name :=
  dbName_ne_iff (by decide) (fun _ => by decide +kernel)

/-- Two directories of which the paths differ in a delimiter share a database. -/
theorem dbName_not_injective :
    ¬∀ tracker tracker' : DirectoryTracker, tracker.name ≠ tracker'.name →
      (removeForbiddenCharacters tracker.name ≠ removeForbiddenCharacters tracker'.name →
        shortDigest (removeForbiddenCharacters tracker.name) ≠
          shortDigest (removeForbiddenCharacters tracker'.name)) →
      tracker.dbName ≠ tracker'.dbName := by
  intro h
  have hfilter : removeForbiddenCharacters (pathTracker "C:\\ab").name =
      removeForbiddenCharacters (pathTracker "C:\\a\\b").name := by decide
  apply h (pathTracker "C:\\ab") (pathTracker "C:\\a\\b") (by decide)
  · intro hdiff
    exact absurd hfilter hdiff
  · rw [DirectoryTracker.dbName, DirectoryTracker.dbName, makeName_of_altered (by decide),
      makeName_of_altered (by decide), hfilter]

end Spacenet
