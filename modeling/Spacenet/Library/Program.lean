-- SUMMARY: Weakest preconditions for programs with a state and exceptions, with scope guards and state lenses.
import Mathlib.Tactic.Common

/-!
# Programs with state and exceptions

A program is an `EStateM ε σ α`: it ends with a value or with an exception, and
keeps the state it had reached in both cases. `wp m Q E` has one postcondition
for each of the two ways to end.
-/

namespace Prog

variable {ε σ τ α β : Type}

/-- The weakest precondition: run from `s`, `m` returns with `Q` or throws with `E`. -/
def wp (m : EStateM ε σ α) (Q : α → σ → Prop) (E : ε → σ → Prop) (s : σ) : Prop :=
  match m s with
  | .ok a s' => Q a s'
  | .error e s' => E e s'

theorem wp_of_ok {m : EStateM ε σ α} {Q : α → σ → Prop} {E : ε → σ → Prop} {s s' : σ} {a : α}
    (h : wp m Q E s) (hm : m s = .ok a s') : Q a s' := by
  simpa only [wp, hm] using h

theorem wp_of_error {m : EStateM ε σ α} {Q : α → σ → Prop} {E : ε → σ → Prop} {s s' : σ} {e : ε}
    (h : wp m Q E s) (hm : m s = .error e s') : E e s' := by
  simpa only [wp, hm] using h

/-- A program that cannot throw returns. -/
theorem wp.returns {m : EStateM ε σ α} {Q : α → σ → Prop} {s : σ}
    (h : wp m Q (fun _ _ => False) s) : ∃ a s', m s = .ok a s' ∧ Q a s' := by
  cases hm : m s with
  | ok a s' => exact ⟨a, s', rfl, wp_of_ok h hm⟩
  | error e s' => exact (wp_of_error h hm).elim

theorem wp.mono {m : EStateM ε σ α} {Q Q' : α → σ → Prop} {E E' : ε → σ → Prop} {s : σ}
    (h : wp m Q E s) (hQ : ∀ a s', Q a s' → Q' a s') (hE : ∀ e s', E e s' → E' e s') :
    wp m Q' E' s := by
  unfold wp at h ⊢
  cases hm : m s with
  | ok a s' => rw [hm] at h; exact hQ a s' h
  | error e s' => rw [hm] at h; exact hE e s' h

theorem wp.and {m : EStateM ε σ α} {Q Q' : α → σ → Prop} {E E' : ε → σ → Prop} {s : σ}
    (h : wp m Q E s) (h' : wp m Q' E' s) :
    wp m (fun a s' => Q a s' ∧ Q' a s') (fun e s' => E e s' ∧ E' e s') s := by
  unfold wp at h h' ⊢
  cases hm : m s with
  | ok a s' => rw [hm] at h h'; exact ⟨h, h'⟩
  | error e s' => rw [hm] at h h'; exact ⟨h, h'⟩

/-! ## Structural rules -/

@[simp] theorem wp_pure (a : α) (Q : α → σ → Prop) (E : ε → σ → Prop) (s : σ) :
    wp (pure a : EStateM ε σ α) Q E s = Q a s := rfl

@[simp] theorem wp_throw (e : ε) (Q : α → σ → Prop) (E : ε → σ → Prop) (s : σ) :
    wp (throw e : EStateM ε σ α) Q E s = E e s := rfl

@[simp] theorem wp_get (Q : σ → σ → Prop) (E : ε → σ → Prop) (s : σ) :
    wp (get : EStateM ε σ σ) Q E s = Q s s := rfl

@[simp] theorem wp_set (s' : σ) (Q : PUnit → σ → Prop) (E : ε → σ → Prop) (s : σ) :
    wp (set s' : EStateM ε σ PUnit) Q E s = Q ⟨⟩ s' := rfl

@[simp] theorem wp_modify (f : σ → σ) (Q : PUnit → σ → Prop) (E : ε → σ → Prop) (s : σ) :
    wp (modify f : EStateM ε σ PUnit) Q E s = Q ⟨⟩ (f s) := rfl

@[simp] theorem wp_bind (m : EStateM ε σ α) (f : α → EStateM ε σ β) (Q : β → σ → Prop)
    (E : ε → σ → Prop) (s : σ) :
    wp (m >>= f) Q E s = wp m (fun a s' => wp (f a) Q E s') E s := by
  simp only [wp, bind, EStateM.bind]
  cases m s <;> rfl

@[simp] theorem wp_ite {c : Prop} [Decidable c] (m m' : EStateM ε σ α) (Q : α → σ → Prop)
    (E : ε → σ → Prop) (s : σ) :
    wp (if c then m else m') Q E s = if c then wp m Q E s else wp m' Q E s := by
  split <;> rfl

/-! ## Invariants -/

/-- The program keeps `I`, whether it returns or throws. -/
def Keeps (I : σ → Prop) (m : EStateM ε σ α) : Prop :=
  ∀ s, I s → wp m (fun _ s' => I s') (fun _ s' => I s') s

theorem Keeps.pure (I : σ → Prop) (a : α) : Keeps I (Pure.pure a : EStateM ε σ α) := fun _ h => h

theorem Keeps.throw (I : σ → Prop) (e : ε) : Keeps I (MonadExcept.throw e : EStateM ε σ α) := fun _ h => h

theorem Keeps.bind {I : σ → Prop} {m : EStateM ε σ α} {f : α → EStateM ε σ β} (hm : Keeps I m)
    (hf : ∀ a, Keeps I (f a)) : Keeps I (m >>= f) := by
  intro s hs
  rw [wp_bind]
  exact (hm s hs).mono (fun a s' hs' => hf a s' hs') (fun _ _ hs' => hs')

theorem Keeps.get_bind {I : σ → Prop} {f : σ → EStateM ε σ β} (hf : ∀ s, Keeps I (f s)) : Keeps I (get >>= f) :=
  Keeps.bind (fun _ h => h) hf

theorem Keeps.ite {I : σ → Prop} {c : Prop} [Decidable c] {m m' : EStateM ε σ α} (hm : Keeps I m)
    (hm' : Keeps I m') : Keeps I (if c then m else m') := by
  split
  · exact hm
  · exact hm'

theorem Keeps.modify {I : σ → Prop} {f : σ → σ} (hf : ∀ s, I s → I (f s)) :
    Keeps I (modify f : EStateM ε σ PUnit) := hf

/-! ## Scope guards -/

/-- Run `m`, then `exit` on the state it leaves, whether it returned or threw. -/
def atScopeExit (exit : σ → σ) (m : EStateM ε σ α) : EStateM ε σ α := fun s =>
  match m s with
  | .ok a s' => .ok a (exit s')
  | .error e s' => .error e (exit s')

@[simp] theorem wp_atScopeExit (exit : σ → σ) (m : EStateM ε σ α) (Q : α → σ → Prop)
    (E : ε → σ → Prop) (s : σ) :
    wp (atScopeExit exit m) Q E s = wp m (fun a s' => Q a (exit s')) (fun e s' => E e (exit s')) s := by
  simp only [wp, atScopeExit]
  cases m s <;> rfl

/-! ## Programs on a part of the state -/

/-- Run a program of the part of the state that `get` reads and `put` writes. -/
def onPart (get : τ → σ) (put : σ → τ → τ) (m : EStateM ε σ α) : EStateM ε τ α := fun t =>
  match m (get t) with
  | .ok a s => .ok a (put s t)
  | .error e s => .error e (put s t)

@[simp] theorem wp_onPart (get : τ → σ) (put : σ → τ → τ) (m : EStateM ε σ α) (Q : α → τ → Prop)
    (E : ε → τ → Prop) (t : τ) :
    wp (onPart get put m) Q E t =
      wp m (fun a s => Q a (put s t)) (fun e s => E e (put s t)) (get t) := by
  simp only [wp, onPart]
  cases m (get t) <;> rfl

theorem Keeps.onPart {I : σ → Prop} {get : τ → σ} {put : σ → τ → τ} {m : EStateM ε σ α} (hm : Keeps I m)
    (hput : ∀ s t, get (put s t) = s) : Keeps (fun t => I (get t)) (Prog.onPart get put m) := by
  intro t ht
  rw [wp_onPart]
  have hkeep : ∀ s, I s → I (get (put s t)) := by
    intro s hs
    rw [hput]
    exact hs
  exact (hm (get t) ht).mono (fun _ s hs => hkeep s hs) (fun _ s hs => hkeep s hs)

end Prog
