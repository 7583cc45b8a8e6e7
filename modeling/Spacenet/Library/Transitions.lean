-- SUMMARY: Labelled transitions: runs with their actions, invariants of a run, and bounds on what a run can do.
import Mathlib.Data.List.Basic
import Mathlib.Tactic.Common

/-!
# Transitions

The parties of a system act in any order. A run is a sequence of actions, each of
them a step from the state that the last one left. An invariant may speak of the
actions so far. A rank that no step increases bounds how often the actions can
come that decrease it.
-/

namespace Transitions

variable {σ α : Type}

/-- The actions lead from the first state to the second. -/
inductive Runs (step : σ → α → σ → Prop) (s : σ) : List α → σ → Prop where
  | refl : Runs step s [] s
  | snoc {as : List α} {a : α} {s₁ s₂ : σ} (before : Runs step s as s₁) (last : step s₁ a s₂) :
      Runs step s (as ++ [a]) s₂

variable {step : σ → α → σ → Prop} {s s' s'' : σ} {as bs : List α} {a : α}

theorem Runs.single (h : step s a s') : Runs step s [a] s' := .snoc .refl h

theorem Runs.trans (h : Runs step s as s') (h' : Runs step s' bs s'') : Runs step s (as ++ bs) s'' := by
  induction h' with
  | refl =>
      rw [List.append_nil]
      exact h
  | snoc _ last ih =>
      rw [← List.append_assoc]
      exact .snoc ih last

/-- The last step of a run. -/
theorem Runs.of_snoc (h : Runs step s (as ++ [a]) s') : ∃ s₁, Runs step s as s₁ ∧ step s₁ a s' := by
  generalize heq : as ++ [a] = as' at h
  cases h with
  | refl => simp at heq
  | snoc before last =>
      obtain ⟨rfl, hlast⟩ := List.append_inj' heq rfl
      obtain rfl := List.singleton_inj.mp hlast
      exact ⟨_, before, last⟩

/-- The run lemma: what holds at the beginning and is kept by every step holds behind every run. -/
theorem Runs.invariant {I : List α → σ → Prop} (h : Runs step s as s') (hstart : I [] s)
    (hstep : ∀ as s a s', I as s → step s a s' → I (as ++ [a]) s') : I as s' := by
  induction h with
  | refl => exact hstart
  | snoc _ last ih => exact hstep _ _ _ _ ih last

/-- Runs of a system whose steps are steps of another one are runs of that one. -/
theorem Runs.map {τ : Type} {step' : τ → α → τ → Prop} (f : σ → τ)
    (hstep : ∀ s a s', step s a s' → step' (f s) a (f s')) (h : Runs step s as s') : Runs step' (f s) as (f s') := by
  induction h with
  | refl => exact .refl
  | snoc _ last ih => exact .snoc ih (hstep _ _ _ last)

/-- The ranking rule: while the actions are of `ok`, a step keeps `P` and does not increase the rank, and a
counted one decreases it. -/
theorem Runs.count_le (P : σ → Prop) (ok : α → Prop) (counted : α → Bool) (rank : σ → Nat)
    (hstep : ∀ s a s', P s → ok a → step s a s' → P s' ∧ rank s' + (if counted a then 1 else 0) ≤ rank s)
    (h : Runs step s as s') (hs : P s) (hok : ∀ a ∈ as, ok a) :
    P s' ∧ rank s' + as.countP counted ≤ rank s := by
  induction h with
  | refl => exact ⟨hs, Nat.le_refl _⟩
  | @snoc as a s₁ s₂ _ last ih =>
      obtain ⟨hs₁, hrank⟩ := ih fun a ha => hok a (List.mem_append_left _ ha)
      obtain ⟨hs₂, hlast⟩ := hstep _ _ _ hs₁ (hok a (List.mem_append_right _ List.mem_cons_self)) last
      refine ⟨hs₂, ?_⟩
      have hcount : (as ++ [a]).countP counted = as.countP counted + (if counted a then 1 else 0) := by
        rw [List.countP_append, List.countP_singleton]
      omega

/-! ## Steps that are computed -/

/-- The transitions of a function that computes the next state, where the action is enabled. -/
def enabled (next : σ → α → Option σ) (s : σ) (a : α) (s' : σ) : Prop := next s a = some s'

theorem Runs.unique {next : σ → α → Option σ} (h : Runs (enabled next) s as s') (h' : Runs (enabled next) s as s'') :
    s' = s'' := by
  induction h generalizing s'' with
  | refl =>
      generalize hnil : [] = as' at h'
      cases h' with
      | refl => rfl
      | snoc => simp at hnil
  | snoc before last ih =>
      obtain ⟨s₁, hbefore, hlast⟩ := h'.of_snoc
      obtain rfl := ih hbefore
      exact Option.some.inj (last.symm.trans hlast)

/-- Runs of computed steps are computed. -/
theorem runs_of_foldlM {next : σ → α → Option σ} (h : as.foldlM next s = some s') :
    Runs (enabled next) s as s' := by
  induction as generalizing s with
  | nil =>
      obtain rfl := Option.some.inj h
      exact .refl
  | cons a as ih =>
      obtain ⟨s₁, hfirst, hrest⟩ := Option.bind_eq_some_iff.mp h
      exact (Runs.single hfirst).trans (ih hrest)

end Transitions
