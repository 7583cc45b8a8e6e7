-- SUMMARY: The batch `isaac` as a run of steps over the cells of the memory; its results and the memory behind it determine the memory before it.
import Mathlib.Logic.Function.Iterate
import Spacenet.Rand

/-!
# The batch

Each of the two loops of `isaac` takes half of the steps, and step `i` reads cell
`i` of the memory for the first time it has changed, overwrites it and writes
result `i`. The result holds the old cell masked by one cell of the memory, and the
position of the masking cell shows in the new cell.
-/

namespace Spacenet

open Cells

namespace Rand

variable {T : WordType} {alpha : Nat}

/-! ## Blocks of eight -/

theorem exists_eight (h : 3 ≤ alpha) : ∃ blocks, 0 < blocks ∧ N alpha = 8 * blocks := by
  refine ⟨1 <<< (alpha - 3), ?_, ?_⟩
  · rw [Nat.one_shiftLeft]
    exact Nat.two_pow_pos _
  · have hsum : alpha = 3 + (alpha - 3) := by omega
    rw [N, Nat.one_shiftLeft, Nat.one_shiftLeft]
    conv_lhs => rw [hsum, Nat.pow_add]

/-! ## Steps -/

/-- The cell that `ind` reads. -/
def position (n : Nat) : (T : WordType) → T.Word → Nat
  | .uint32, x => (x &&& BitVec.ofNat 32 ((n - 1) <<< 2)).toNat / 4
  | .uint64, x => (x &&& BitVec.ofNat 64 ((n - 1) <<< 3)).toNat / 8

theorem ind_eq {n : Nat} (mm : Vector T.Word n) (x : T.Word) : ind T mm x = load mm (position n T x) := by
  cases T <;> rfl

section

variable (mix : T.Word) (s : Locals T alpha)

@[simp] theorem rngstep_m : (rngstep mix s).m = s.m + 1 := rfl
@[simp] theorem rngstep_r : (rngstep mix s).r = s.r + 1 := rfl

end

/-- A property that every step keeps as long as there is a cell left, whatever it mixes in. -/
structure Kept (P : Locals T alpha → Prop) : Prop where
  step : ∀ mix s, s.m < N alpha → P s → P (rngstep mix s)

section

variable {P : Locals T alpha → Prop} {s : Locals T alpha}

theorem Kept.four (h : Kept P) (mix₀ mix₁ mix₂ mix₃ : T.Word → T.Word) (hm : s.m + 4 ≤ N alpha) (hs : P s) :
    P (fourSteps mix₀ mix₁ mix₂ mix₃ s) := by
  unfold fourSteps
  apply h.step _ _ (by simp only [rngstep_m]; omega)
  apply h.step _ _ (by simp only [rngstep_m]; omega)
  apply h.step _ _ (by simp only [rngstep_m]; omega)
  exact h.step _ _ (by omega) hs

/-- The overloads differ in what they mix in. -/
theorem isaacSteps_eq (T : WordType) (alpha : Nat) : ∃ mix₀ mix₁ mix₂ mix₃ : T.Word → T.Word,
    (isaacSteps T : Locals T alpha → Locals T alpha) = fourSteps mix₀ mix₁ mix₂ mix₃ := by
  cases T with
  | uint32 => exact ⟨(· <<< 13), (· >>> 6), (· <<< 2), (· >>> 16), rfl⟩
  | uint64 =>
      exact ⟨fun a => ~~~(a ^^^ a <<< 21), fun a => a ^^^ a >>> 5, fun a => a ^^^ a <<< 12,
        fun a => a ^^^ a >>> 33, rfl⟩

theorem Kept.body (h : Kept P) (hm : s.m + 4 ≤ N alpha) (hs : P s) : P (isaacSteps T s) := by
  obtain ⟨mix₀, mix₁, mix₂, mix₃, heq⟩ := isaacSteps_eq T alpha
  rw [heq]
  exact h.four mix₀ mix₁ mix₂ mix₃ hm hs

theorem isaacSteps_m (s : Locals T alpha) : (isaacSteps T s).m = s.m + 4 := by
  obtain ⟨mix₀, mix₁, mix₂, mix₃, heq⟩ := isaacSteps_eq T alpha
  rw [heq]
  rfl

theorem isaacSteps_m2 (s : Locals T alpha) : (isaacSteps T s).m2 = s.m2 + 4 := by
  obtain ⟨mix₀, mix₁, mix₂, mix₃, heq⟩ := isaacSteps_eq T alpha
  rw [heq]
  rfl

/-- A loop takes its steps until the pointer has reached the end. -/
theorem loopBelow_eq {p : Locals T alpha → Nat} (hp : ∀ s, p (isaacSteps T s) = p s + 4) {n fuel : Nat}
    (hfuel : n ≤ fuel) {mend : Nat} (hs : p s + 4 * n = mend) :
    loopBelow p mend fuel s = (isaacSteps T)^[n] s := by
  induction n generalizing s fuel with
  | zero =>
      cases fuel with
      | zero => rfl
      | succ fuel => rw [loopBelow, if_neg (by omega), Function.iterate_zero, id]
  | succ n ih =>
      cases fuel with
      | zero => omega
      | succ fuel =>
          rw [loopBelow, if_pos (by omega), ih (by omega) (by rw [hp]; omega), Function.iterate_succ_apply]

theorem Kept.iterate (h : Kept P) {n : Nat} (hm : s.m + 4 * n ≤ N alpha) (hs : P s) :
    P ((isaacSteps T)^[n] s) := by
  induction n generalizing s with
  | zero => exact hs
  | succ n ih =>
      rw [Function.iterate_succ_apply]
      exact ih (by rw [isaacSteps_m]; omega) (h.body (by omega) hs)

theorem iterate_m (n : Nat) (s : Locals T alpha) : ((isaacSteps T)^[n] s).m = s.m + 4 * n := by
  induction n generalizing s with
  | zero => rfl
  | succ n ih => rw [Function.iterate_succ_apply, ih, isaacSteps_m]; omega

theorem iterate_m2 (n : Nat) (s : Locals T alpha) : ((isaacSteps T)^[n] s).m2 = s.m2 + 4 * n := by
  induction n generalizing s with
  | zero => rfl
  | succ n ih => rw [Function.iterate_succ_apply, ih, isaacSteps_m2]; omega

end

/-! ## The batch -/

/-- The locals of `isaac` before its first loop. -/
def Locals.start (ctx : Randctx T alpha) : Locals T alpha where
  a := ctx.randa
  b := ctx.randb + (ctx.randc + 1)
  randmem := ctx.randmem
  randrsl := ctx.randrsl
  m := 0
  m2 := N alpha / 2
  r := 0

/-- The locals of `isaac` behind its second loop. -/
def Locals.finish (ctx : Randctx T alpha) : Locals T alpha :=
  (isaacSteps T)^[N alpha / 8] { (isaacSteps T)^[N alpha / 8] (Locals.start ctx) with m2 := 0 }

theorem isaac_eq (h : 3 ≤ alpha) (ctx : Randctx T alpha) :
    isaac ctx = { ctx with
      randmem := (Locals.finish ctx).randmem
      randrsl := (Locals.finish ctx).randrsl
      randa := (Locals.finish ctx).a
      randb := (Locals.finish ctx).b
      randc := ctx.randc + 1 } := by
  obtain ⟨blocks, -, hblocks⟩ := exists_eight h
  have hfirst : loopBelow Locals.m (N alpha / 2) (N alpha) (Locals.start ctx)
      = (isaacSteps T)^[N alpha / 8] (Locals.start ctx) :=
    loopBelow_eq isaacSteps_m (by omega) (by simp only [Locals.start]; omega)
  have hsecond : ∀ s : Locals T alpha, loopBelow Locals.m2 (N alpha / 2) (N alpha) { s with m2 := 0 }
      = (isaacSteps T)^[N alpha / 8] { s with m2 := 0 } := by
    intro s
    exact loopBelow_eq isaacSteps_m2 (by omega) (by show 0 + _ = _; omega)
  have hloops : Locals.finish ctx = loopBelow Locals.m2 (N alpha / 2) (N alpha)
      { loopBelow Locals.m (N alpha / 2) (N alpha) (Locals.start ctx) with m2 := 0 } := by
    rw [hsecond, hfirst, Locals.finish]
  rw [hloops]
  rfl

/-- What holds at the start, is kept by every step, and does not depend on `m2`, holds at the end,
where all cells have been visited. -/
theorem Kept.finish {P : Locals T alpha → Prop} (hP : Kept P) (h : 3 ≤ alpha) {ctx : Randctx T alpha}
    (hstart : P (Locals.start ctx)) (hm2 : ∀ s : Locals T alpha, P s → P { s with m2 := 0 }) :
    P (Locals.finish ctx) ∧ (Locals.finish ctx).m = N alpha := by
  obtain ⟨blocks, -, hblocks⟩ := exists_eight h
  have hmiddle : ((isaacSteps T)^[N alpha / 8] (Locals.start ctx)).m = 0 + 4 * (N alpha / 8) := iterate_m _ _
  constructor
  · refine hP.iterate ?_ (hm2 _ (hP.iterate ?_ hstart))
    · show ((isaacSteps T)^[N alpha / 8] (Locals.start ctx)).m + _ ≤ _
      omega
    · show 0 + _ ≤ _
      omega
  · rw [Locals.finish, iterate_m]
    show ((isaacSteps T)^[N alpha / 8] (Locals.start ctx)).m + _ = _
    omega

/-! ## The memory before a batch -/

/-- The memory was `mem` at the start: the cells to come are untouched, and each result is the old
cell and the cell that the new one points to, as it was in that step. -/
structure Recorded (mem : Vector T.Word (N alpha)) (s : Locals T alpha) : Prop where
  r_eq : s.r = s.m
  ahead : ∀ i, s.m ≤ i → load s.randmem i = load mem i
  written : ∀ i < s.m, ∀ k, k = position (N alpha) T (load s.randmem i >>> alpha) →
    load s.randrsl i = (if k ≤ i then load s.randmem k else load mem k) + load mem i

theorem recorded_kept (mem : Vector T.Word (N alpha)) : Kept (Recorded mem) where
  step mix s hm h := by
    have hx : load s.randmem s.m = load mem s.m := h.ahead s.m (Nat.le_refl _)
    generalize hy : ind T s.randmem (load s.randmem s.m) + ((s.a ^^^ mix) + load s.randmem s.m2) + s.b = y
    have hrandmem : (rngstep mix s).randmem = store s.randmem s.m y := by rw [← hy]; rfl
    have hrandrsl : (rngstep mix s).randrsl = store s.randrsl s.r
        (ind T (store s.randmem s.m y) (y >>> alpha) + load s.randmem s.m) := by rw [← hy]; rfl
    refine ⟨?_, ?_, ?_⟩
    · rw [rngstep_r, rngstep_m, h.r_eq]
    · intro i hi
      rw [rngstep_m] at hi
      rw [hrandmem, load_store_ne (by omega), h.ahead i (by omega)]
    · intro i hi k hk
      rw [rngstep_m] at hi
      rw [hrandmem] at hk ⊢
      rw [hrandrsl, h.r_eq]
      rcases Nat.lt_succ_iff_lt_or_eq.mp hi with hbefore | rfl
      · rw [load_store_ne (by omega)] at hk ⊢
        rw [h.written i hbefore k hk]
        split
        · rw [load_store_ne (by omega)]
        · rfl
      · rw [load_store_self hm] at hk ⊢
        rw [ind_eq, ← hk, hx]
        split
        · rfl
        · rw [load_store_ne (by omega), h.ahead k (by omega)]

/-- By induction from the last cell to the first: the masking cell is one of the new cells, or an old
one that is known already. -/
theorem recorded_unique {mem mem' : Vector T.Word (N alpha)} {s : Locals T alpha} (h : Recorded mem s)
    (h' : Recorded mem' s) (hm : s.m = N alpha) : mem = mem' := by
  have key : ∀ n i, N alpha ≤ i + n → load mem i = load mem' i := by
    intro n
    induction n with
    | zero =>
        intro i hi
        rw [Nat.add_zero] at hi
        rw [load_of_ge hi, load_of_ge hi]
    | succ n ih =>
        intro i hi
        rcases Nat.lt_or_ge i (N alpha) with hlt | hge
        · have hsum := (h.written i (by omega) _ rfl).symm.trans (h'.written i (by omega) _ rfl)
          generalize position (N alpha) T (load s.randmem i >>> alpha) = k at hsum
          have hmask : (if k ≤ i then load s.randmem k else load mem k)
              = if k ≤ i then load s.randmem k else load mem' k := by
            split
            · rfl
            · exact ih k (by omega)
          rw [hmask] at hsum
          exact BitVec.add_right_inj _ |>.mp hsum
        · rw [load_of_ge hge, load_of_ge hge]
  exact ext_load fun i _ => key (N alpha) i (by omega)

theorem finish_recorded (h : 3 ≤ alpha) (ctx : Randctx T alpha) :
    Recorded ctx.randmem (Locals.finish ctx) ∧ (Locals.finish ctx).m = N alpha := by
  refine (recorded_kept ctx.randmem).finish h ⟨rfl, fun i _ => rfl, ?_⟩ ?_
  · intro i hi
    exact absurd hi (Nat.not_lt_zero i)
  · intro s hs
    exact ⟨hs.r_eq, hs.ahead, hs.written⟩

/-- The results of a batch and the memory behind it determine the memory before it, whatever the
accumulators were. -/
theorem randmem_eq_of_isaac_eq (h : 3 ≤ alpha) {ctx ctx' : Randctx T alpha}
    (hmem : (isaac ctx).randmem = (isaac ctx').randmem) (hrsl : (isaac ctx).randrsl = (isaac ctx').randrsl) :
    ctx.randmem = ctx'.randmem := by
  obtain ⟨hrec, hm⟩ := finish_recorded h ctx
  obtain ⟨hrec', hm'⟩ := finish_recorded h ctx'
  simp only [isaac_eq h] at hmem hrsl
  refine recorded_unique hrec ⟨hrec.r_eq, ?_, ?_⟩ hm
  · intro i hi
    rw [load_of_ge (hm ▸ hi), load_of_ge (hm ▸ hi)]
  · intro i hi k hk
    have hwritten := hrec'.written i (by omega) k
    rw [← hmem, ← hrsl] at hwritten
    exact hwritten hk

end Rand

end Spacenet
