-- SUMMARY: Relational weakest preconditions: two programs with state and exceptions that end in the same way.
import Spacenet.Library.Program

/-!
# Simulations of programs

Two programs over different states, run side by side. `rwp m m' Q E` says that
both return, with `Q`, or that both throw the same exception, with `E`. A program
that prepares its state before it does what the other one does takes steps alone.
-/

namespace Prog

variable {ε σ τ σ' τ' α β α' β' : Type}

/-- The two results are of one kind. -/
def Related (Q : α → σ → β → τ → Prop) (E : σ → τ → Prop) :
    EStateM.Result ε σ α → EStateM.Result ε τ β → Prop
  | .ok a s, .ok b t => Q a s b t
  | .error e s, .error e' t => e = e' ∧ E s t
  | _, _ => False

/-- The relational weakest precondition: run from `s` and from `t`, both programs return, or both
throw the same exception. -/
def rwp (m : EStateM ε σ α) (m' : EStateM ε τ β) (Q : α → σ → β → τ → Prop) (E : σ → τ → Prop)
    (s : σ) (t : τ) : Prop :=
  Related Q E (m s) (m' t)

/-- Related results are two values or one exception. -/
theorem related_iff {Q : α → σ → β → τ → Prop} {E : σ → τ → Prop} {r : EStateM.Result ε σ α}
    {r' : EStateM.Result ε τ β} :
    Related Q E r r' ↔
      (∃ a s b t, r = .ok a s ∧ r' = .ok b t ∧ Q a s b t) ∨
        ∃ e s t, r = .error e s ∧ r' = .error e t ∧ E s t := by
  constructor
  · intro h
    cases r with
    | ok a s =>
        cases r' with
        | ok b t => exact .inl ⟨a, s, b, t, rfl, rfl, h⟩
        | error e t => exact h.elim
    | error e s =>
        cases r' with
        | ok b t => exact h.elim
        | error e' t =>
            obtain ⟨rfl, hE⟩ := h
            exact .inr ⟨e, s, t, rfl, rfl, hE⟩
  · rintro (⟨a, s, b, t, rfl, rfl, h⟩ | ⟨e, s, t, rfl, rfl, h⟩)
    · exact h
    · exact ⟨rfl, h⟩

theorem Related.mono {Q Q' : α → σ → β → τ → Prop} {E E' : σ → τ → Prop} {r : EStateM.Result ε σ α}
    {r' : EStateM.Result ε τ β} (h : Related Q E r r') (hQ : ∀ a s b t, Q a s b t → Q' a s b t)
    (hE : ∀ s t, E s t → E' s t) : Related Q' E' r r' := by
  rcases related_iff.mp h with ⟨a, s, b, t, rfl, rfl, hok⟩ | ⟨e, s, t, rfl, rfl, herror⟩
  · exact hQ _ _ _ _ hok
  · exact ⟨rfl, hE _ _ herror⟩

theorem rwp.mono {m : EStateM ε σ α} {m' : EStateM ε τ β} {Q Q' : α → σ → β → τ → Prop}
    {E E' : σ → τ → Prop} {s : σ} {t : τ} (h : rwp m m' Q E s t)
    (hQ : ∀ a s b t, Q a s b t → Q' a s b t) (hE : ∀ s t, E s t → E' s t) : rwp m m' Q' E' s t :=
  Related.mono h hQ hE

/-! ## Both programs take a step -/

theorem rwp_pure {a : α} {b : β} {Q : α → σ → β → τ → Prop} {E : σ → τ → Prop} {s : σ} {t : τ}
    (h : Q a s b t) : rwp (pure a : EStateM ε σ α) (pure b : EStateM ε τ β) Q E s t := h

theorem rwp_throw (e : ε) {Q : α → σ → β → τ → Prop} {E : σ → τ → Prop} {s : σ} {t : τ} (h : E s t) :
    rwp (throw e : EStateM ε σ α) (throw e : EStateM ε τ β) Q E s t := ⟨rfl, h⟩

theorem rwp_modify {f : σ → σ} {g : τ → τ} {Q : PUnit → σ → PUnit → τ → Prop} {E : σ → τ → Prop} {s : σ}
    {t : τ} (h : Q ⟨⟩ (f s) ⟨⟩ (g t)) :
    rwp (modify f : EStateM ε σ PUnit) (modify g : EStateM ε τ PUnit) Q E s t := h

theorem rwp_bind {m : EStateM ε σ α} {m' : EStateM ε τ β} {f : α → EStateM ε σ α'} {f' : β → EStateM ε τ β'}
    {Q : α' → σ → β' → τ → Prop} {E : σ → τ → Prop} {s : σ} {t : τ}
    (h : rwp m m' (fun a s b t => rwp (f a) (f' b) Q E s t) E s t) :
    rwp (m >>= f) (m' >>= f') Q E s t := by
  rcases related_iff.mp h with ⟨a, s', b, t', hm, hm', hok⟩ | ⟨e, s', t', hm, hm', herror⟩
  · simp only [rwp, bind, EStateM.bind, hm, hm']
    exact hok
  · simp only [rwp, bind, EStateM.bind, hm, hm']
    exact ⟨rfl, herror⟩

theorem rwp_ite {c c' : Prop} [Decidable c] [Decidable c'] {m n : EStateM ε σ α} {m' n' : EStateM ε τ β}
    {Q : α → σ → β → τ → Prop} {E : σ → τ → Prop} {s : σ} {t : τ} (hc : c ↔ c')
    (hm : c' → rwp m m' Q E s t) (hn : ¬c' → rwp n n' Q E s t) :
    rwp (if c then m else n) (if c' then m' else n') Q E s t := by
  by_cases h : c'
  · rw [if_pos (hc.mpr h), if_pos h]
    exact hm h
  · rw [if_neg (hc.not.mpr h), if_neg h]
    exact hn h

theorem rwp_atScopeExit {exit : σ → σ} {exit' : τ → τ} {m : EStateM ε σ α} {m' : EStateM ε τ β}
    {Q : α → σ → β → τ → Prop} {E : σ → τ → Prop} {s : σ} {t : τ}
    (h : rwp m m' (fun a s b t => Q a (exit s) b (exit' t)) (fun s t => E (exit s) (exit' t)) s t) :
    rwp (atScopeExit exit m) (atScopeExit exit' m') Q E s t := by
  rcases related_iff.mp h with ⟨a, s', b, t', hm, hm', hok⟩ | ⟨e, s', t', hm, hm', herror⟩
  · simp only [rwp, atScopeExit, hm, hm']
    exact hok
  · simp only [rwp, atScopeExit, hm, hm']
    exact ⟨rfl, herror⟩

theorem rwp_onPart {get : τ → σ} {put : σ → τ → τ} {get' : τ' → σ'} {put' : σ' → τ' → τ'}
    {m : EStateM ε σ α} {m' : EStateM ε σ' β} {Q : α → τ → β → τ' → Prop} {E : τ → τ' → Prop} {t : τ} {t' : τ'}
    (h : rwp m m' (fun a s b s' => Q a (put s t) b (put' s' t')) (fun s s' => E (put s t) (put' s' t'))
      (get t) (get' t')) :
    rwp (onPart get put m) (onPart get' put' m') Q E t t' := by
  rcases related_iff.mp h with ⟨a, s, b, s', hm, hm', hok⟩ | ⟨e, s, s', hm, hm', herror⟩
  · simp only [rwp, onPart, hm, hm']
    exact hok
  · simp only [rwp, onPart, hm, hm']
    exact ⟨rfl, herror⟩

/-! ## One program takes a step -/

theorem bind_of_ok {m : EStateM ε σ α} {f : α → EStateM ε σ β} {s s' : σ} {a : α} (hm : m s = .ok a s') :
    (m >>= f) s = f a s' := by
  simp only [bind, EStateM.bind, hm]

theorem bind_get {f : σ → EStateM ε σ β} {s : σ} : (get >>= f) s = f s s := rfl

/-- Two programs that read their states first. -/
theorem rwp_get_bind {f : σ → EStateM ε σ α} {g : τ → EStateM ε τ β} {Q : α → σ → β → τ → Prop} {E : σ → τ → Prop}
    {s : σ} {t : τ} (h : rwp (f s) (g t) Q E s t) : rwp (get >>= f) (get >>= g) Q E s t := h

theorem rwp_left {m : EStateM ε σ α} {f : α → EStateM ε σ α'} {m' : EStateM ε τ β}
    {Q : α' → σ → β → τ → Prop} {E : σ → τ → Prop} {s s' : σ} {t : τ} {a : α} (hm : m s = .ok a s')
    (h : rwp (f a) m' Q E s' t) : rwp (m >>= f) m' Q E s t := by
  rw [rwp, bind_of_ok hm]
  exact h

theorem rwp_after {m : EStateM ε σ α} {f : α → EStateM ε σ β} {m' : EStateM ε τ β}
    {Q : β → σ → β → τ → Prop} {E : σ → τ → Prop} {s : σ} {t : τ}
    (h : rwp m m' (fun a s b t => rwp (f a) (pure b) Q E s t) E s t) : rwp (m >>= f) m' Q E s t := by
  rw [← bind_pure m']
  exact rwp_bind h

end Prog
