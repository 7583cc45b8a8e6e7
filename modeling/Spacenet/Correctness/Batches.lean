-- SUMMARY: The batch `isaac` never merges two internal states for 32-bit words; for 64-bit words every internal state merges with another one.
import Mathlib.Dynamics.PeriodicPts.Lemmas
import Spacenet.Rand.Reversal

/-!
# Merging states

`rngstep` xors its argument to the accumulator. The 32-bit batch passes it a shift
of the accumulator, and a word xored with its own shift can be told from the
result. The 64-bit batch passes it expressions that are xored with the accumulator
already. The first of them leaves the complement of the shift alone, and the bits
that it shifts out are lost.
-/

namespace Spacenet

open WordBits

namespace Rand

variable {T : WordType} {alpha : Nat}

/-- Different internal states have different successors. -/
def NeverMerges (T : WordType) (alpha : Nat) : Prop :=
  ∀ ctx ctx' : Randctx T alpha, (isaac ctx).internal = (isaac ctx').internal → ctx.internal = ctx'.internal

/-! ## 32 bits -/

theorem recoverable_uint32 (alpha : Nat) : Recoverable .uint32 alpha := by
  intro s s' hm
  have h₀ : Function.Injective fun a : U32 => a ^^^ a <<< 13 := xor_shiftLeft_injective (by decide)
  have h₁ : Function.Injective fun a : U32 => a ^^^ a >>> 6 := xor_ushiftRight_injective (by decide)
  have h₂ : Function.Injective fun a : U32 => a ^^^ a <<< 2 := xor_shiftLeft_injective (by decide)
  have h₃ : Function.Injective fun a : U32 => a ^^^ a >>> 16 := xor_ushiftRight_injective (by decide)
  unfold isaacSteps
  exact alike_fourSteps_iff h₀ h₁ h₂ h₃ hm

/-- The successor of an internal state, computed with no results of an earlier batch. -/
def Internal.next (s : Internal T alpha) : Internal T alpha :=
  (isaac ⟨Vector.replicate (N alpha) 0, s.randmem, s.randa, s.randb, s.randc, 0⟩).internal

theorem internal_semiconj (hT : Recoverable T alpha) (h : 3 ≤ alpha) :
    Function.Semiconj (Randctx.internal : Randctx T alpha → Internal T alpha) isaac Internal.next :=
  fun ctx => (isaac_internal_iff hT h ctx _).mpr rfl

theorem Internal.next_injective (hT : Recoverable T alpha) (h : 3 ≤ alpha) :
    Function.Injective (Internal.next : Internal T alpha → Internal T alpha) :=
  fun _ _ heq => (isaac_internal_iff hT h _ _).mp heq

theorem iterate_isaac_internal (hT : Recoverable T alpha) (h : 3 ≤ alpha) (n : Nat) (ctx : Randctx T alpha) :
    (isaac^[n] ctx).internal = Internal.next^[n] ctx.internal :=
  (internal_semiconj hT h).iterate_right n ctx

/-- The batches run in circles: every internal state comes back. -/
theorem isaac_uint32_returns (h : 3 ≤ alpha) (ctx : Randctx .uint32 alpha) :
    ∃ n, 0 < n ∧ (isaac^[n] ctx).internal = ctx.internal := by
  have hT := recoverable_uint32 alpha
  obtain ⟨n, hpos, hperiod⟩ := (Internal.next_injective hT h).mem_periodicPts ctx.internal
  refine ⟨n, hpos, ?_⟩
  rw [iterate_isaac_internal hT h]
  exact hperiod

/-- The internal state has one successor, two of them have different ones, and they differ behind any
number of batches. -/
theorem neverMerges_uint32 (h : 3 ≤ alpha) :
    (∀ ctx ctx' : Randctx .uint32 alpha, ctx.internal = ctx'.internal → (isaac ctx).internal = (isaac ctx').internal) ∧
      NeverMerges .uint32 alpha ∧
      ∀ n (ctx ctx' : Randctx .uint32 alpha), ctx.internal ≠ ctx'.internal →
        (isaac^[n] ctx).internal ≠ (isaac^[n] ctx').internal := by
  have hT := recoverable_uint32 alpha
  refine ⟨?_, ?_, ?_⟩
  · intro ctx ctx' heq
    exact (isaac_internal_iff hT h ctx ctx').mpr heq
  · intro ctx ctx' heq
    exact (isaac_internal_iff hT h ctx ctx').mp heq
  · intro n ctx ctx' hne
    rw [iterate_isaac_internal hT h, iterate_isaac_internal hT h]
    exact ((Internal.next_injective hT h).iterate n).ne hne

theorem neverMerges_uint32_eight :
    (∀ ctx ctx' : Randctx .uint32 8, ctx.internal = ctx'.internal → (isaac ctx).internal = (isaac ctx').internal) ∧
      NeverMerges .uint32 8 ∧
      ∀ n (ctx ctx' : Randctx .uint32 8), ctx.internal ≠ ctx'.internal →
        (isaac^[n] ctx).internal ≠ (isaac^[n] ctx').internal :=
  neverMerges_uint32 (by decide)

/-! ## 64 bits -/

/-- The accumulator is seen through its xor with the mixing expression alone. -/
theorem rngstep_congr (s : Locals T alpha) {a a' mix mix' : T.Word} (h : a ^^^ mix = a' ^^^ mix') :
    rngstep mix { s with a := a } = rngstep mix' { s with a := a' } := by
  unfold rngstep
  simp only [h]

/-- What the first mixing expression leaves of the accumulator. -/
theorem xor_not_xor (a b : U64) : a ^^^ ~~~(a ^^^ b) = ~~~b := by
  rw [BitVec.not_xor_left, ← BitVec.xor_assoc]
  grind

theorem isaacSteps_uint64_congr (s : Locals .uint64 alpha) {a a' : U64} (h : a <<< 21 = a' <<< 21) :
    isaacSteps .uint64 { s with a := a } = isaacSteps .uint64 { s with a := a' } := by
  have hfirst : rngstep (T := .uint64) (~~~(a ^^^ a <<< 21)) { s with a := a }
      = rngstep (T := .uint64) (~~~(a' ^^^ a' <<< 21)) { s with a := a' } := by
    apply rngstep_congr
    rw [xor_not_xor, xor_not_xor, h]
  unfold isaacSteps fourSteps
  simp only [hfirst]

/-- The highest 21 bits of `randa` have no effect. -/
theorem isaac_uint64_congr (h : 3 ≤ alpha) (ctx : Randctx .uint64 alpha) {a a' : U64} (ha : a <<< 21 = a' <<< 21) :
    isaac { ctx with randa := a } = isaac { ctx with randa := a' } := by
  obtain ⟨blocks, hpos, hN⟩ := exists_eight h
  obtain ⟨last, rfl⟩ := Nat.exists_eq_add_one_of_ne_zero (Nat.ne_of_gt hpos)
  have hcount : N alpha / 8 = last + 1 := by omega
  have hstart : isaacSteps .uint64 (Locals.start { ctx with randa := a })
      = isaacSteps .uint64 (Locals.start { ctx with randa := a' }) :=
    isaacSteps_uint64_congr (Locals.start ctx) ha
  have hfinish : Locals.finish { ctx with randa := a } = Locals.finish { ctx with randa := a' } := by
    unfold Locals.finish
    rw [hcount, Function.iterate_succ_apply _ last (Locals.start _), hstart, ← Function.iterate_succ_apply]
  rw [isaac_eq h, isaac_eq h, hfinish]

/-- `randa` with its highest bit turned over. -/
def turned (a : U64) : U64 := a ^^^ 0x8000000000000000

theorem turned_shiftLeft (a : U64) : turned a <<< 21 = a <<< 21 := by
  rw [turned, BitVec.shiftLeft_xor_distrib]
  exact BitVec.xor_zero

theorem turned_ne (a : U64) : turned a ≠ a := by
  intro h
  have hzero : a ^^^ turned a = 0#64 := by rw [h, BitVec.xor_self]
  rw [turned, ← BitVec.xor_assoc, BitVec.xor_self, BitVec.zero_xor] at hzero
  exact absurd hzero (by decide)

/-- The state with the highest bit of `randa` turned over has the same successor. -/
theorem isaac_turned (h : 3 ≤ alpha) (ctx : Randctx .uint64 alpha) :
    isaac { ctx with randa := turned ctx.randa } = isaac ctx :=
  isaac_uint64_congr h ctx (turned_shiftLeft ctx.randa)

theorem internal_turned_ne (ctx : Randctx .uint64 alpha) :
    ({ ctx with randa := turned ctx.randa } : Randctx .uint64 alpha).internal ≠ ctx.internal := by
  intro heq
  exact turned_ne ctx.randa (congrArg Internal.randa heq)

/-- All words are zero. -/
def Randctx.zero (T : WordType) (alpha : Nat) : Randctx T alpha where
  randrsl := Vector.replicate (N alpha) 0
  randmem := Vector.replicate (N alpha) 0
  randa := 0
  randb := 0
  randc := 0
  randcnt := 0

/-- Every internal state merges with another one. -/
theorem not_neverMerges_uint64 (h : 3 ≤ alpha) :
    ¬NeverMerges .uint64 alpha ∧
      ∀ ctx : Randctx .uint64 alpha, ∃ ctx' : Randctx .uint64 alpha,
        ctx'.internal ≠ ctx.internal ∧ (isaac ctx').internal = (isaac ctx).internal := by
  have hmerge : ∀ ctx : Randctx .uint64 alpha, ∃ ctx' : Randctx .uint64 alpha,
      ctx'.internal ≠ ctx.internal ∧ (isaac ctx').internal = (isaac ctx).internal := by
    intro ctx
    exact ⟨_, internal_turned_ne ctx, congrArg Randctx.internal (isaac_turned h ctx)⟩
  refine ⟨?_, hmerge⟩
  intro hnever
  obtain ⟨ctx', hne, heq⟩ := hmerge (.zero .uint64 alpha)
  exact hne (hnever ctx' _ heq)

theorem not_neverMerges_uint64_eight :
    ¬NeverMerges .uint64 8 ∧
      ∀ ctx : Randctx .uint64 8, ∃ ctx' : Randctx .uint64 8,
        ctx'.internal ≠ ctx.internal ∧ (isaac ctx').internal = (isaac ctx).internal :=
  not_neverMerges_uint64 (by decide)

/-- With all words zero, and with the highest bit of `randa` set. -/
theorem zero_merges :
    (Randctx.zero .uint64 8).internal
        ≠ ({ Randctx.zero .uint64 8 with randa := 0x8000000000000000#64 } : Randctx .uint64 8).internal ∧
      (isaac (Randctx.zero .uint64 8)).internal
        = (isaac ({ Randctx.zero .uint64 8 with randa := 0x8000000000000000#64 } : Randctx .uint64 8)).internal := by
  constructor
  · exact (internal_turned_ne (Randctx.zero .uint64 8)).symm
  · exact (congrArg Randctx.internal (isaac_turned (by decide) (Randctx.zero .uint64 8))).symm

end Rand

end Spacenet
