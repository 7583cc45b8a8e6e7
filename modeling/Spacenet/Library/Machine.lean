-- SUMMARY: Deterministic step machines: running with fuel, and what a run leads to.
import Mathlib.Logic.Relation
import Mathlib.Tactic.Common

/-!
# Step machines

A machine steps from a state to the next state or to its result. `run` executes
it with a bound on the number of steps. `Leads` says what it does whatever the
bound, once that is large enough; it relates the outcomes of steps, so that a run
can be followed from inside a step as well as from a state.
-/

namespace Machine

variable {S R : Type} (step : S → S ⊕ R)

/-- Run for at most `n` steps. -/
def run : Nat → S → Option R
  | 0, _ => none
  | n + 1, s =>
      match step s with
      | .inl s' => run n s'
      | .inr r => some r

/-- Run on from the outcome of a step. -/
def resume (n : Nat) : S ⊕ R → Option R
  | .inl s => run step n s
  | .inr r => some r

/-- After finitely many steps from `x` the machine is at `y`. -/
def Leads (x y : S ⊕ R) : Prop := ∃ k, ∀ n, resume step (n + k) x = resume step n y

/-- From `s` the machine ends with `r`. -/
def Halts (s : S) (r : R) : Prop := Leads step (.inl s) (.inr r)

variable {step}

theorem Leads.refl (x : S ⊕ R) : Leads step x x := ⟨0, fun _ => rfl⟩

theorem Leads.of_eq {x y : S ⊕ R} (h : x = y) : Leads step x y := h ▸ Leads.refl x

theorem Leads.trans {x y z : S ⊕ R} (h : Leads step x y) (h' : Leads step y z) :
    Leads step x z := by
  obtain ⟨k, hk⟩ := h
  obtain ⟨k', hk'⟩ := h'
  refine ⟨k' + k, fun n => ?_⟩
  rw [← Nat.add_assoc, hk, hk']

theorem Leads.of_state (s : S) : Leads step (.inl s) (step s) := by
  refine ⟨1, fun n => ?_⟩
  simp only [resume, run]

/-- More fuel does not change a result. -/
theorem run_add {n : Nat} {s : S} {r : R} (h : run step n s = some r) (k : Nat) :
    run step (n + k) s = some r := by
  induction n generalizing s with
  | zero => cases h
  | succ n ih =>
      rw [Nat.succ_add]
      simp only [run] at h ⊢
      cases hs : step s with
      | inl s' =>
          simp only [hs] at h ⊢
          exact ih h
      | inr r' =>
          simp only [hs] at h ⊢
          exact h

theorem halts_iff {s : S} {r : R} : Halts step s r ↔ ∃ n, run step n s = some r := by
  constructor
  · rintro ⟨k, hk⟩
    exact ⟨0 + k, hk 0⟩
  · rintro ⟨n, h⟩
    refine ⟨n, fun m => ?_⟩
    rw [Nat.add_comm]
    exact run_add h m

theorem Halts.unique {s : S} {r r' : R} (h : Halts step s r) (h' : Halts step s r') : r = r' := by
  obtain ⟨k, hk⟩ := h
  obtain ⟨k', hk'⟩ := h'
  have h₁ := hk k'
  have h₂ := hk' k
  rw [Nat.add_comm] at h₂
  exact Option.some.inj (h₁.symm.trans h₂)

/-! ## Two machines -/

/-- The simulation rule: machines whose steps keep their states related have related results. -/
theorem run_liftRel {S' R' : Type} {step' : S' → S' ⊕ R'} {I : S → S' → Prop} {J : R → R' → Prop}
    (hstep : ∀ s s', I s s' → Sum.LiftRel I J (step s) (step' s')) (n : Nat) {s : S} {s' : S'} (h : I s s') :
    Option.Rel J (run step n s) (run step' n s') := by
  induction n generalizing s s' with
  | zero => exact .none
  | succ n ih =>
      have hnexts := hstep s s' h
      simp only [run]
      generalize step s = x at hnexts ⊢
      generalize step' s' = x' at hnexts ⊢
      cases hnexts with
      | inl hnext => exact ih hnext
      | inr hresult => exact .some hresult

/-! ## Reachable states -/

/-- The machine goes from one state to the other in finitely many steps. -/
abbrev Reaches (step : S → S ⊕ R) : S → S → Prop := Relation.ReflTransGen fun s s' => step s = .inl s'

/-- The machine goes from one state to the other in finitely many steps, and in one at least. -/
abbrev Proceeds (step : S → S ⊕ R) : S → S → Prop := Relation.TransGen fun s s' => step s = .inl s'

theorem Reaches.leads {s s' : S} (h : Reaches step s s') : Leads step (.inl s) (.inl s') := by
  induction h with
  | refl => exact Leads.refl _
  | tail _ hstep ih => exact ih.trans ((Leads.of_state _).trans (Leads.of_eq hstep))

/-- The invariant rule: what every step keeps holds of every reachable state. -/
theorem Reaches.invariant {P : S → Prop} (hstep : ∀ s s', P s → step s = .inl s' → P s') {s s' : S}
    (h : Reaches step s s') (hs : P s) : P s' := by
  induction h with
  | refl => exact hs
  | tail _ hnext ih => exact hstep _ _ ih hnext

/-- A run that ends does so with the result of a reachable state. -/
theorem exists_reaches_of_run {n : Nat} {s : S} {r : R} (h : run step n s = some r) :
    ∃ s', Reaches step s s' ∧ step s' = .inr r := by
  induction n generalizing s with
  | zero => cases h
  | succ n ih =>
      simp only [run] at h
      cases hs : step s with
      | inl s₁ =>
          simp only [hs] at h
          obtain ⟨s', hreach, hr⟩ := ih h
          exact ⟨s', .head hs hreach, hr⟩
      | inr r' =>
          simp only [hs, Option.some.injEq] at h
          exact ⟨s, .refl, h ▸ hs⟩

/-- A run that ends needs less fuel from a later state. -/
theorem Proceeds.run_lt {s s' : S} (h : Proceeds step s s') {n : Nat} {r : R}
    (hrun : run step n s = some r) : ∃ k < n, run step k s' = some r := by
  have one : ∀ {n : Nat} {s s' : S}, step s = .inl s' → run step n s = some r →
      ∃ k < n, run step k s' = some r := by
    intro n s s' hstep hrun
    cases n with
    | zero => cases hrun
    | succ n =>
        simp only [run, hstep] at hrun
        exact ⟨n, Nat.lt_succ_self n, hrun⟩
  induction h with
  | single hstep => exact one hstep hrun
  | tail _ hstep ih =>
      obtain ⟨k, hk, hrun'⟩ := ih
      obtain ⟨j, hj, hrun''⟩ := one hstep hrun'
      exact ⟨j, Nat.lt_trans hj hk, hrun''⟩

/-- A machine that always comes from a state of `P` to another one runs forever. -/
theorem not_halts_of_proceeds {P : S → Prop} (hP : ∀ s, P s → ∃ s', P s' ∧ Proceeds step s s') {s : S}
    (hs : P s) (r : R) : ¬Halts step s r := by
  intro hhalts
  obtain ⟨n, hrun⟩ := halts_iff.mp hhalts
  induction n using Nat.strongRecOn generalizing s with
  | ind n ih =>
      obtain ⟨s', hs', hproceeds⟩ := hP s hs
      obtain ⟨k, hk, hrun'⟩ := hproceeds.run_lt hrun
      exact ih k hk hs' (halts_iff.mpr ⟨k, hrun'⟩) hrun'

end Machine
