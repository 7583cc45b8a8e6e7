-- SUMMARY: The batch `isaac` backwards: where the accumulator of every step can be recovered, the state behind a batch determines the state before it.
import Spacenet.Library.WordBits
import Spacenet.Rand.Isaac

/-!
# The batch backwards

A step leaves the pointers where they show which cell it has written last. That
cell and the accumulators give back the old cell first, then the memory as it was,
and with it the cells that the step has read. What remains is the accumulator `a`,
of which only its xor with the mixing expression is left.
-/

namespace Spacenet

open Cells

namespace Rand

variable {T : WordType} {alpha : Nat}

/-! ## One step -/

/-- What the state behind a step tells about the state before it. -/
structure Stepped (mix : T.Word) (s s₁ : Locals T alpha) : Prop where
  x : load s.randmem s.m = s₁.b - ind T s₁.randmem (load s₁.randmem s.m >>> alpha)
  randmem : s.randmem = store s₁.randmem s.m (load s.randmem s.m)
  b : s.b = load s₁.randmem s.m - (ind T s.randmem (load s.randmem s.m) + s₁.a)
  a : s.a ^^^ mix = s₁.a - load s.randmem s.m2

theorem rngstep_stepped (mix : T.Word) {s : Locals T alpha} (hm : s.m < N alpha) :
    Stepped mix s (rngstep mix s) := by
  have hcell : load (rngstep mix s).randmem s.m
      = ind T s.randmem (load s.randmem s.m) + (rngstep mix s).a + s.b := load_store_self hm
  refine ⟨?_, (store_store_load s.randmem s.m _).symm, ?_, ?_⟩
  · rw [hcell]
    have hb : (rngstep mix s).b = ind T (rngstep mix s).randmem
        ((ind T s.randmem (load s.randmem s.m) + (rngstep mix s).a + s.b) >>> alpha)
          + load s.randmem s.m := rfl
    rw [hb, BitVec.add_comm, BitVec.add_sub_cancel]
  · rw [hcell, BitVec.add_comm _ s.b, BitVec.add_sub_cancel]
  · exact (BitVec.add_sub_cancel _ _).symm

/-- The states differ in the results at most. -/
structure Alike (s s' : Locals T alpha) : Prop where
  a : s.a = s'.a
  b : s.b = s'.b
  randmem : s.randmem = s'.randmem
  m : s.m = s'.m
  m2 : s.m2 = s'.m2

section

variable {s s' : Locals T alpha}

theorem Alike.rngstep (h : Alike s s') (mix : T.Word) : Alike (rngstep mix s) (rngstep mix s') := by
  obtain ⟨a, b, randmem, randrsl, m, m2, r⟩ := s
  obtain ⟨a', b', randmem', randrsl', m', m2', r'⟩ := s'
  obtain ⟨rfl, rfl, rfl, rfl, rfl⟩ := h
  exact ⟨rfl, rfl, rfl, rfl, rfl⟩

/-- The step backwards: the old cell, the memory, and the two accumulators. -/
theorem alike_of_rngstep {mix : T.Word → T.Word} (hmix : Function.Injective fun a => a ^^^ mix a)
    (hm : s.m < N alpha) (h : Alike (rngstep (mix s.a) s) (rngstep (mix s'.a) s')) : Alike s s' := by
  have hptr : s.m = s'.m := Nat.succ.inj h.m
  have hptr2 : s.m2 = s'.m2 := Nat.succ.inj h.m2
  have hs := rngstep_stepped (mix s.a) hm
  have hs' := rngstep_stepped (mix s'.a) (hptr ▸ hm)
  have hx : load s.randmem s.m = load s'.randmem s'.m := by
    rw [hs.x, hs'.x, h.b, h.randmem, hptr]
  have hrandmem : s.randmem = s'.randmem := by
    rw [hs.randmem, hs'.randmem, hx, h.randmem, hptr]
  have hb : s.b = s'.b := by
    rw [hs.b, hs'.b, hx, h.randmem, h.a, hrandmem, hptr]
  have ha : s.a ^^^ mix s.a = s'.a ^^^ mix s'.a := by
    rw [hs.a, hs'.a, h.a, hrandmem, hptr2]
  exact ⟨hmix ha, hb, hrandmem, hptr, hptr2⟩

theorem alike_rngstep_iff {mix : T.Word → T.Word} (hmix : Function.Injective fun a => a ^^^ mix a)
    (hm : s.m < N alpha) : Alike (rngstep (mix s.a) s) (rngstep (mix s'.a) s') ↔ Alike s s' := by
  constructor
  · exact alike_of_rngstep hmix hm
  · intro h
    rw [h.a]
    exact h.rngstep (mix s'.a)

/-! ## The loops -/

/-- What the body of the loops does to the internal state can be undone. -/
def Recoverable (T : WordType) (alpha : Nat) : Prop :=
  ∀ s s' : Locals T alpha, s.m + 4 ≤ N alpha → (Alike (isaacSteps T s) (isaacSteps T s') ↔ Alike s s')

theorem alike_fourSteps_iff {mix₀ mix₁ mix₂ mix₃ : T.Word → T.Word}
    (h₀ : Function.Injective fun a => a ^^^ mix₀ a) (h₁ : Function.Injective fun a => a ^^^ mix₁ a)
    (h₂ : Function.Injective fun a => a ^^^ mix₂ a) (h₃ : Function.Injective fun a => a ^^^ mix₃ a)
    (hm : s.m + 4 ≤ N alpha) :
    Alike (fourSteps mix₀ mix₁ mix₂ mix₃ s) (fourSteps mix₀ mix₁ mix₂ mix₃ s') ↔ Alike s s' := by
  unfold fourSteps
  rw [alike_rngstep_iff h₃ (by simp only [rngstep_m]; omega),
    alike_rngstep_iff h₂ (by simp only [rngstep_m]; omega),
    alike_rngstep_iff h₁ (by simp only [rngstep_m]; omega), alike_rngstep_iff h₀ (by omega)]

theorem alike_iterate_iff (hT : Recoverable T alpha) {n : Nat} (hm : s.m + 4 * n ≤ N alpha) :
    Alike ((isaacSteps T)^[n] s) ((isaacSteps T)^[n] s') ↔ Alike s s' := by
  induction n generalizing s s' with
  | zero => exact Iff.rfl
  | succ n ih =>
      rw [Function.iterate_succ_apply, Function.iterate_succ_apply, ih (by rw [isaacSteps_m]; omega)]
      exact hT s s' (by omega)

end

/-! ## The batch -/

/-- The internal state. -/
structure Internal (T : WordType) (alpha : Nat) where
  randmem : Vector T.Word (N alpha)
  randa : T.Word
  randb : T.Word
  randc : T.Word

instance Internal.instFinite : Finite (Internal T alpha) := by
  apply Finite.of_injective fun s : Internal T alpha => (s.randmem, s.randa, s.randb, s.randc)
  intro s s' h
  cases s
  cases s'
  simpa only [Prod.mk.injEq, Internal.mk.injEq] using h

def Randctx.internal (ctx : Randctx T alpha) : Internal T alpha :=
  ⟨ctx.randmem, ctx.randa, ctx.randb, ctx.randc⟩

theorem alike_finish_iff (hT : Recoverable T alpha) (h : 3 ≤ alpha) (ctx ctx' : Randctx T alpha) :
    Alike (Locals.finish ctx) (Locals.finish ctx') ↔ Alike (Locals.start ctx) (Locals.start ctx') := by
  obtain ⟨blocks, -, hN⟩ := exists_eight h
  have hfirst : (Locals.start ctx).m + 4 * (N alpha / 8) ≤ N alpha := by
    show 0 + _ ≤ _
    omega
  have hsecond : ((isaacSteps T)^[N alpha / 8] (Locals.start ctx)).m + 4 * (N alpha / 8) ≤ N alpha := by
    rw [iterate_m]
    show 0 + _ + _ ≤ _
    omega
  have hm2 : ∀ s s' : Locals T alpha, s.m2 = s'.m2 →
      (Alike { s with m2 := 0 } { s' with m2 := 0 } ↔ Alike s s') := by
    intro s s' hm2
    exact ⟨fun h => ⟨h.a, h.b, h.randmem, h.m, hm2⟩, fun h => ⟨h.a, h.b, h.randmem, h.m, rfl⟩⟩
  unfold Locals.finish
  rw [alike_iterate_iff hT (by exact hsecond), hm2, alike_iterate_iff hT hfirst]
  rw [iterate_m2, iterate_m2]
  rfl

/-- The internal states behind two batches are the same just when those before them are. -/
theorem isaac_internal_iff (hT : Recoverable T alpha) (h : 3 ≤ alpha) (ctx ctx' : Randctx T alpha) :
    (isaac ctx).internal = (isaac ctx').internal ↔ ctx.internal = ctx'.internal := by
  have hloops := alike_finish_iff hT h ctx ctx'
  have hptr : ∀ ctx : Randctx T alpha, (Locals.finish ctx).m = 0 + 4 * (N alpha / 8) + 4 * (N alpha / 8)
      ∧ (Locals.finish ctx).m2 = 0 + 4 * (N alpha / 8) := by
    intro ctx
    rw [Locals.finish, iterate_m, iterate_m2]
    exact ⟨congrArg (· + _) (iterate_m _ _), rfl⟩
  simp only [isaac_eq h, Randctx.internal, Internal.mk.injEq]
  constructor
  · rintro ⟨hrandmem, ha, hb, hc⟩
    have hm := (hptr ctx).1.trans (hptr ctx').1.symm
    have hm2 := (hptr ctx).2.trans (hptr ctx').2.symm
    have hstart := hloops.mp ⟨ha, hb, hrandmem, hm, hm2⟩
    have hrandc : ctx.randc = ctx'.randc := BitVec.add_left_inj _ |>.mp hc
    have hrandb : ctx.randb + (ctx.randc + 1) = ctx'.randb + (ctx'.randc + 1) := hstart.b
    rw [hrandc] at hrandb
    exact ⟨hstart.randmem, hstart.a, BitVec.add_left_inj _ |>.mp hrandb, hrandc⟩
  · rintro ⟨hrandmem, ha, hb, hc⟩
    have hsum : ctx.randb + (ctx.randc + 1) = ctx'.randb + (ctx'.randc + 1) := by rw [hb, hc]
    have hfinish := hloops.mpr ⟨ha, hsum, hrandmem, rfl, rfl⟩
    exact ⟨hfinish.randmem, hfinish.a, hfinish.b, by rw [hc]⟩

end Rand

end Spacenet
