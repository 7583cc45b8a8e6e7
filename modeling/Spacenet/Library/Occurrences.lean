-- SUMMARY: The occurrences of a pattern in a list, taken from the left without overlaps, and the gaps that they leave.
import Mathlib.Data.List.Infix
import Mathlib.Data.Nat.Find

/-!
# Occurrences of a pattern

A list is cut at the first occurrence of a pattern, and on behind it. What is left
are the gaps, one more than occurrences have been cut out.
-/

namespace Occurrences

variable {α : Type} {pattern l gap gap' rest rest' : List α} {gaps gaps' : List (List α)}

/-- The pattern between `gap` and `rest` is its first occurrence in the list they make up. -/
def Leftmost (pattern gap rest : List α) : Prop :=
  ∀ gap' rest', gap ++ pattern ++ rest = gap' ++ pattern ++ rest' → gap.length ≤ gap'.length

/-- The gaps that the occurrences of the pattern leave. -/
inductive Gaps (pattern : List α) : List α → List (List α) → Prop where
  | last {l : List α} (h : ¬pattern <:+: l) : Gaps pattern l [l]
  | next {gap rest : List α} {gaps : List (List α)} (h : Leftmost pattern gap rest) (hrest : Gaps pattern rest gaps) :
      Gaps pattern (gap ++ pattern ++ rest) (gap :: gaps)

theorem Gaps.ne_nil (h : Gaps pattern l gaps) : gaps ≠ [] := by
  cases h <;> simp

/-- With the pattern between the gaps the list is whole again. -/
theorem Gaps.intercalate_eq (h : Gaps pattern l gaps) : pattern.intercalate gaps = l := by
  induction h with
  | last _ => exact List.intercalate_singleton
  | next _ hrest ih => rw [List.intercalate_cons_of_ne_nil hrest.ne_nil, ih]

theorem Gaps.length_le (hpattern : pattern ≠ []) (h : Gaps pattern l gaps) : gaps.length ≤ l.length + 1 := by
  have hpos := List.length_pos_iff.mpr hpattern
  induction h with
  | last _ => simp
  | next _ _ ih =>
      simp only [List.length_cons, List.length_append]
      omega

theorem Leftmost.unique (h : Leftmost pattern gap rest) (h' : Leftmost pattern gap' rest')
    (heq : gap ++ pattern ++ rest = gap' ++ pattern ++ rest') : gap = gap' ∧ rest = rest' := by
  have hlength := Nat.le_antisymm (h gap' rest' heq) (h' gap rest heq.symm)
  rw [List.append_assoc, List.append_assoc] at heq
  obtain ⟨hgap, hbehind⟩ := List.append_inj heq hlength
  exact ⟨hgap, List.append_cancel_left hbehind⟩

theorem Gaps.unique (h : Gaps pattern l gaps) (h' : Gaps pattern l gaps') : gaps = gaps' := by
  induction h generalizing gaps' with
  | last hnone =>
      generalize hl : l = l' at h'
      cases h' with
      | last _ => rfl
      | next _ _ =>
          subst hl
          exact absurd (List.infix_append _ _ _) hnone
  | @next gap rest gaps hleft hrest ih =>
      generalize hl : gap ++ pattern ++ rest = l' at h'
      cases h' with
      | last hnone =>
          subst hl
          exact absurd (List.infix_append _ _ _) hnone
      | next hleft' hrest' =>
          obtain ⟨rfl, rfl⟩ := hleft.unique hleft' hl
          rw [ih hrest']

theorem exists_leftmost (h : pattern <:+: l) : ∃ gap rest, l = gap ++ pattern ++ rest ∧ Leftmost pattern gap rest := by
  classical
  have hlength : ∃ n gap rest, l = gap ++ pattern ++ rest ∧ gap.length = n := by
    obtain ⟨gap, rest, heq⟩ := h
    exact ⟨_, gap, rest, heq.symm, rfl⟩
  obtain ⟨gap, rest, rfl, hn⟩ := Nat.find_spec hlength
  refine ⟨gap, rest, rfl, ?_⟩
  intro gap' rest' heq
  rw [hn]
  exact Nat.find_min' hlength ⟨gap', rest', heq, rfl⟩

theorem exists_gaps (hpattern : pattern ≠ []) (l : List α) : ∃ gaps, Gaps pattern l gaps := by
  have hpos := List.length_pos_iff.mpr hpattern
  induction hn : l.length using Nat.strongRecOn generalizing l with
  | ind n ih =>
      by_cases hinfix : pattern <:+: l
      · obtain ⟨gap, rest, rfl, hleft⟩ := exists_leftmost hinfix
        simp only [List.length_append] at hn
        obtain ⟨gaps, hgaps⟩ := ih rest.length (by omega) rest rfl
        exact ⟨gap :: gaps, .next hleft hgaps⟩
      · exact ⟨[l], .last hinfix⟩

/-! ## Search -/

section

variable [BEq α] [LawfulBEq α]

theorem dropInfix?_eq_none (h : ¬pattern <:+: l) : l.dropInfix? pattern = none := by
  cases hdrop : l.dropInfix? pattern with
  | none => rfl
  | some found =>
      obtain ⟨⟨pattern', heq, hbeq⟩, -⟩ := List.dropInfix?_eq_some_iff.mp hdrop
      rw [eq_of_beq hbeq] at heq
      exact absurd ⟨_, _, heq.symm⟩ h

theorem Leftmost.dropInfix?_eq (h : Leftmost pattern gap rest) :
    (gap ++ pattern ++ rest).dropInfix? pattern = some (gap, rest) := by
  apply List.dropInfix?_eq_some_iff.mpr
  refine ⟨⟨pattern, rfl, BEq.rfl⟩, ?_⟩
  intro gap' pattern' rest' heq hbeq
  rw [eq_of_beq hbeq] at heq
  exact h gap' rest' heq

end

end Occurrences
