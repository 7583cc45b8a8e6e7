-- SUMMARY: `str_replace` replaces the leftmost occurrences that do not overlap, and only an empty search sequence keeps it from ending.
import Spacenet.StdExt

/-!
# Replacing in a string

The search goes on behind an occurrence in the subject, and never in what has been
written. An empty sequence is found where the search starts.
-/

namespace Spacenet

open Machine Occurrences

variable {α : Type} [DecidableEq α]

/-- The result is the gaps that the occurrences leave in the subject with the replacement between them,
after as many iterations as there are gaps. -/
theorem strReplace_eq {search : List α} (hsearch : search ≠ []) (subject replace : List α) :
    ∃ gaps, Gaps search subject gaps ∧ (∀ gaps', Gaps search subject gaps' → gaps' = gaps) ∧
      search.intercalate gaps = subject ∧
      ∀ fuel, subject.length < fuel → strReplace fuel subject search replace = some (replace.intercalate gaps) := by
  obtain ⟨gaps, hgaps⟩ := exists_gaps hsearch subject
  refine ⟨gaps, hgaps, ?_, hgaps.intercalate_eq, ?_⟩
  · intro gaps' hgaps'
    exact hgaps'.unique hgaps
  · intro fuel hfuel
    exact strReplace_of_gaps hsearch hgaps hfuel

theorem strReplace_eq_overlapping :
    ∃ gaps, Gaps [1, 1] [1, 1, 1, 0, 1, 1] gaps ∧ (∀ gaps', Gaps [1, 1] [1, 1, 1, 0, 1, 1] gaps' → gaps' = gaps) ∧
      [1, 1].intercalate gaps = [1, 1, 1, 0, 1, 1] ∧
      ∀ fuel, [1, 1, 1, 0, 1, 1].length < fuel →
        strReplace fuel [1, 1, 1, 0, 1, 1] [1, 1] [2, 1, 1] = some ([2, 1, 1].intercalate gaps) :=
  strReplace_eq (by decide) _ _

example : strReplace 7 [1, 1, 1, 0, 1, 1] [1, 1] [2, 1, 1] = some [2, 1, 1, 1, 0, 2, 1, 1] := by decide

/-- An empty sequence is replaced in front of the same element again and again. -/
theorem strReplace_nil {subject : List α} (hsubject : subject ≠ []) (replace : List α) (fuel : Nat) :
    strReplace fuel subject [] replace = none := by
  have hpos := List.length_pos_iff.mpr hsubject
  have hrun : ∀ s, run (strReplaceStep subject [] replace) fuel ⟨s, 0⟩ = none := by
    induction fuel with
    | zero => exact fun s => rfl
    | succ fuel ih =>
        intro s
        have hi : searchFrom subject [] 0 = 0 := by simp [searchFrom]
        have hstep : strReplaceStep subject [] replace ⟨s, 0⟩ = .inl ⟨s ++ range subject 0 0 ++ replace, 0⟩ := by
          simp only [strReplaceStep, hi, if_neg (Nat.ne_of_lt hpos), List.length_nil]
        simp only [run, hstep]
        exact ih _
  exact hrun []

end Spacenet
