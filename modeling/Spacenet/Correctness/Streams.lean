-- SUMMARY: The stream of values: every batch is given out backwards and once, the 32-bit stream comes back to its beginning, and which seeds give the same generator.
import Spacenet.Correctness.Batches
import Spacenet.Rand.Randinit

/-!
# The stream of values

`get` counts the results of a batch down and makes the next batch when they are
used up. The results of a batch depend on the internal state alone, so the stream
repeats when the internal states do. A seed of three words is put into the
accumulators in front of the first batch.
-/

namespace Spacenet

open Cells

namespace Rand

variable {T : WordType} {alpha : Nat}

/-! ## Batches -/

/-- The state with another counter. -/
def Randctx.counted (ctx : Randctx T alpha) (randcnt : Nat) : Randctx T alpha := { ctx with randcnt }

@[simp] theorem Randctx.counted_randrsl (ctx : Randctx T alpha) (c : Nat) : (ctx.counted c).randrsl = ctx.randrsl := rfl
@[simp] theorem Randctx.counted_randcnt (ctx : Randctx T alpha) (c : Nat) : (ctx.counted c).randcnt = c := rfl
@[simp] theorem Randctx.counted_internal (ctx : Randctx T alpha) (c : Nat) : (ctx.counted c).internal = ctx.internal := rfl
@[simp] theorem Randctx.counted_counted (ctx : Randctx T alpha) (c c' : Nat) : (ctx.counted c).counted c' = ctx.counted c' := rfl

/-- The counter plays no part in a batch. -/
theorem isaac_counted (ctx : Randctx T alpha) (c : Nat) : isaac (ctx.counted c) = (isaac ctx).counted c := rfl

theorem iterate_isaac_counted (n : Nat) (ctx : Randctx T alpha) (c : Nat) :
    isaac^[n] (ctx.counted c) = (isaac^[n] ctx).counted c := by
  induction n generalizing ctx with
  | zero => rfl
  | succ n ih => rw [Function.iterate_succ_apply, isaac_counted, ih, Function.iterate_succ_apply]

/-- The state behind `i` calls of `get`. -/
def behind (rc : Randctx T alpha) (i : Nat) : Randctx T alpha := (fun rc => (get rc).2)^[i] rc

/-- The value of call `i`. -/
def valueAt (rc : Randctx T alpha) (i : Nat) : T.Word := (get (behind rc i)).1

theorem values_eq_map (rc : Randctx T alpha) (n : Nat) : values rc n = (List.range n).map (valueAt rc) := by
  induction n generalizing rc with
  | zero => rfl
  | succ n ih =>
      rw [values, ih, List.range_succ_eq_map, List.map_cons, List.map_map]
      rfl

theorem N_pos (alpha : Nat) : 0 < N alpha := by
  rw [N, Nat.one_shiftLeft]
  exact Nat.two_pow_pos alpha

theorem get_used_up {rc : Randctx T alpha} (h : rc.randcnt = 0) :
    get rc = (load (isaac rc).randrsl (N alpha - 1), (isaac rc).counted (N alpha - 1)) := by
  simp only [get, h, if_true]
  rfl

theorem get_left {rc : Randctx T alpha} {c : Nat} (h : rc.randcnt = c + 1) :
    get rc = (load rc.randrsl c, rc.counted c) := by
  simp only [get, h, Nat.succ_ne_zero, if_false, Nat.add_sub_cancel]
  rfl

/-- The calls of `get` since the beginning of the batch that the state is in. -/
def given (rc : Randctx T alpha) : Nat := N alpha - rc.randcnt

/-- The step lemma: the value of a call, and the state behind it, where `given` and the calls so far have come
to `k` results of batch `q`. -/
theorem get_counted {rc : Randctx T alpha} {q c : Nat} (hc : c ≤ N alpha) :
    ∃ q' c', (get ((isaac^[q] rc).counted c)).2 = (isaac^[q'] rc).counted c' ∧ c' < N alpha ∧
      (get ((isaac^[q] rc).counted c)).1 = load (isaac^[q'] rc).randrsl c' ∧
      (q' + 1) * N alpha + c = (q + 1) * N alpha + c' + 1 := by
  cases c with
  | zero =>
      have hpos := N_pos alpha
      refine ⟨q + 1, N alpha - 1, ?_, Nat.sub_lt hpos Nat.one_pos, ?_, ?_⟩
      · rw [get_used_up rfl, Function.iterate_succ_apply', isaac_counted, Randctx.counted_counted]
      · rw [get_used_up rfl, Function.iterate_succ_apply', isaac_counted, Randctx.counted_randrsl]
      · rw [Nat.succ_mul (q + 1)]
        omega
  | succ c =>
      refine ⟨q, c, ?_, hc, ?_, ?_⟩
      · rw [get_left rfl, Randctx.counted_counted]
      · rw [get_left rfl, Randctx.counted_randrsl]
      · omega

/-- The run lemma. -/
theorem behind_eq (rc : Randctx T alpha) (hcnt : rc.randcnt ≤ N alpha) (i : Nat) :
    ∃ q c, behind rc i = (isaac^[q] rc).counted c ∧ c ≤ N alpha ∧ (q + 1) * N alpha = given rc + i + c := by
  induction i with
  | zero =>
      refine ⟨0, rc.randcnt, rfl, hcnt, ?_⟩
      unfold given
      omega
  | succ i ih =>
      obtain ⟨q, c, hstate, hc, hsum⟩ := ih
      obtain ⟨q', c', hnext, hc', -, hsum'⟩ := @get_counted _ _ rc q _ hc
      refine ⟨q', c', ?_, Nat.le_of_lt hc', by omega⟩
      rw [behind, Function.iterate_succ_apply']
      rw [behind] at hstate
      rw [hstate, hnext]

/-- The value of a call: batches are counted from the one that the state is in. -/
theorem valueAt_eq (rc : Randctx T alpha) (hcnt : rc.randcnt ≤ N alpha) (i : Nat) :
    valueAt rc i = load (isaac^[(given rc + i) / N alpha] rc).randrsl (N alpha - 1 - (given rc + i) % N alpha) := by
  obtain ⟨q, c, hstate, hc, hsum⟩ := behind_eq rc hcnt i
  obtain ⟨q', c', -, hc', hvalue, hsum'⟩ := @get_counted _ _ rc q _ hc
  have hk : given rc + i = q' * N alpha + (N alpha - 1 - c') := by
    rw [Nat.succ_mul] at hsum'
    omega
  have hlt : N alpha - 1 - c' < N alpha := by omega
  have hquot : (given rc + i) / N alpha = q' := by
    rw [hk, Nat.mul_comm, Nat.mul_add_div (Nat.zero_lt_of_lt hc'), Nat.div_eq_of_lt hlt, Nat.add_zero]
  have hrem : (given rc + i) % N alpha = N alpha - 1 - c' := by
    rw [hk, Nat.mul_comm, Nat.mul_add_mod, Nat.mod_eq_of_lt hlt]
  have hback : N alpha - 1 - (N alpha - 1 - c') = c' := by omega
  rw [valueAt, hstate, hvalue, hquot, hrem, hback]

/-- The first words of an array, backwards. -/
theorem map_load_backwards {n c : Nat} (words : Vector T.Word n) (hc : c ≤ n) :
    (List.range c).map (fun i => load words (c - 1 - i)) = (words.toList.take c).reverse := by
  refine List.ext_getElem (by simp [hc]) fun i hi _ => ?_
  have hic : i < c := by simpa using hi
  have hlt : c - 1 - i < n := by omega
  simp [load_of_lt hlt, hc]

/-- The results of every batch are given out from the last to the first, each of them once, before the next batch is
made. -/
theorem values_batches (rc : Randctx T alpha) (hcnt : rc.randcnt ≤ N alpha) (m : Nat) :
    values rc (rc.randcnt + m * N alpha) = (rc.randrsl.toList.take rc.randcnt).reverse ++
      (List.range m).flatMap fun q => (isaac^[q + 1] rc).randrsl.toList.reverse := by
  have hgiven : given rc + rc.randcnt = N alpha := Nat.sub_add_cancel hcnt
  rw [values_eq_map]
  induction m with
  | zero =>
      rw [← map_load_backwards _ hcnt, Nat.zero_mul, Nat.add_zero, List.range_zero, List.flatMap_nil, List.append_nil]
      refine List.map_congr_left fun i hi => ?_
      have hlt : given rc + i < N alpha := by
        have := List.mem_range.mp hi
        omega
      have hback : N alpha - 1 - (given rc + i) = rc.randcnt - 1 - i := by omega
      rw [valueAt_eq rc hcnt, Nat.div_eq_of_lt hlt, Nat.mod_eq_of_lt hlt, hback]
      rfl
  | succ m ih =>
      have hlast : (List.range (N alpha)).map (fun i => valueAt rc (rc.randcnt + m * N alpha + i)) =
          (isaac^[m + 1] rc).randrsl.toList.reverse := by
        have hlength : (isaac^[m + 1] rc).randrsl.toList.length ≤ N alpha := by rw [Vector.length_toList]
        rw [← List.take_of_length_le hlength, ← map_load_backwards _ (Nat.le_refl _)]
        refine List.map_congr_left fun i hi => ?_
        have hk : given rc + (rc.randcnt + m * N alpha + i) = i + (m + 1) * N alpha := by
          rw [Nat.succ_mul]
          omega
        rw [valueAt_eq rc hcnt, hk, Nat.add_mul_div_right _ _ (N_pos alpha), Nat.add_mul_mod_self_right,
          Nat.div_eq_of_lt (List.mem_range.mp hi), Nat.mod_eq_of_lt (List.mem_range.mp hi), Nat.zero_add]
      rw [Nat.succ_mul, ← Nat.add_assoc, List.range_add, List.map_append, ih, List.range_succ, List.flatMap_append,
        List.append_assoc, List.map_map]
      congr 1
      congr 1
      rw [List.flatMap_singleton, ← hlast]
      rfl

/-- A seeded generator in the middle of its first batch. -/
theorem values_batches_seeded :
    let rc := behind (srandWords (Randctx.zero .uint32 3) 1 2 3) 3
    rc.randcnt = 5 ∧ values rc (rc.randcnt + 2 * N 3) = (rc.randrsl.toList.take rc.randcnt).reverse ++
      (List.range 2).flatMap fun q => (isaac^[q + 1] rc).randrsl.toList.reverse := by
  intro rc
  have hcnt : rc.randcnt = 5 := by decide +kernel
  have hle : rc.randcnt ≤ N 3 := le_of_eq_of_le hcnt (by decide)
  exact ⟨hcnt, values_batches rc hle 2⟩

/-! ## The period -/

/-- The results of a batch depend on the internal state before it and on the memory behind it. -/
theorem randrsl_congr (h : 3 ≤ alpha) {ctx ctx' : Randctx T alpha} (hmem : ctx.randmem = ctx'.randmem)
    (hbehind : (isaac ctx).randmem = (isaac ctx').randmem) : (isaac ctx).randrsl = (isaac ctx').randrsl := by
  obtain ⟨hrec, hm⟩ := finish_recorded h ctx
  obtain ⟨hrec', hm'⟩ := finish_recorded h ctx'
  simp only [isaac_eq h] at hbehind ⊢
  refine ext_load fun i hi => ?_
  rw [hrec.written i (hm ▸ hi) _ rfl, hrec'.written i (hm' ▸ hi) _ rfl, hbehind, hmem]

theorem iterate_isaac_periodic (h : 3 ≤ alpha) (ctx : Randctx .uint32 alpha) :
    ∃ p, 0 < p ∧ ∀ n, (isaac^[n + 1 + p] ctx).randrsl = (isaac^[n + 1] ctx).randrsl := by
  have hT := recoverable_uint32 alpha
  obtain ⟨p, hpos, hperiod⟩ := isaac_uint32_returns h ctx
  refine ⟨p, hpos, fun n => ?_⟩
  have hinternal : ∀ n, (isaac^[n + p] ctx).internal = (isaac^[n] ctx).internal := by
    intro n
    rw [Function.iterate_add_apply, iterate_isaac_internal hT h, hperiod, ← iterate_isaac_internal hT h]
  have hbehind := hinternal (n + 1)
  rw [Nat.add_right_comm] at hbehind ⊢
  rw [Function.iterate_succ_apply', Function.iterate_succ_apply'] at hbehind ⊢
  exact randrsl_congr h (congrArg Internal.randmem (hinternal n)) (congrArg Internal.randmem hbehind)

/-- The stream of a 32-bit generator comes back to its beginning, whatever the seed: it is periodic from its
first value on. -/
theorem values_periodic_uint32 (h : 3 ≤ alpha) (ctx : Randctx .uint32 alpha) (bUseSeed : Bool) :
    ∃ p, 0 < p ∧ ∀ n i, i + p < n →
      (values (randinit ctx bUseSeed) n)[i + p]? = (values (randinit ctx bUseSeed) n)[i]? := by
  obtain ⟨before, hbefore⟩ : ∃ before : Randctx .uint32 alpha, randinit ctx bUseSeed =
      (isaac before).counted (N alpha) := ⟨_, rfl⟩
  obtain ⟨p, hpos, hperiod⟩ := iterate_isaac_periodic h before
  have hcnt : (randinit ctx bUseSeed).randcnt ≤ N alpha := by
    rw [hbefore, Randctx.counted_randcnt]
  have hgiven : given (randinit ctx bUseSeed) = 0 := by
    rw [given, hbefore, Randctx.counted_randcnt, Nat.sub_self]
  have hrsl : ∀ q, (isaac^[q] (randinit ctx bUseSeed)).randrsl = (isaac^[q + 1] before).randrsl := by
    intro q
    rw [hbefore, iterate_isaac_counted, Function.iterate_succ_apply, Randctx.counted_randrsl]
  refine ⟨p * N alpha, Nat.mul_pos hpos (N_pos alpha), fun n i hi => ?_⟩
  have hi' : i < n := Nat.lt_of_le_of_lt (Nat.le_add_right _ _) hi
  rw [values_eq_map, List.getElem?_map, List.getElem?_map, List.getElem?_range hi, List.getElem?_range hi',
    Option.map_some, Option.map_some, valueAt_eq _ hcnt, valueAt_eq _ hcnt, hgiven, Nat.zero_add, Nat.zero_add, hrsl, hrsl,
    Nat.add_mul_div_right _ _ (N_pos alpha), Nat.add_mul_mod_self_right, Nat.add_right_comm, hperiod]

theorem values_periodic_uint32_zero :
    ∃ p, 0 < p ∧ ∀ n i, i + p < n → (values (randinit (Randctx.zero .uint32 8) true) n)[i + p]? =
      (values (randinit (Randctx.zero .uint32 8) true) n)[i]? :=
  values_periodic_uint32 (by decide) _ _

/-! ## Seeds of three words -/

/-- What `srand(a, b, c)` gives to its first batch. -/
def wordsSeeded (rc : Randctx T alpha) (a b c : T.Word) : Randctx T alpha :=
  let rc := { rc with randrsl := Vector.replicate (N alpha) 0, randa := a, randb := b, randc := c }
  { rc with randmem := initialMem rc true }

section

variable {rc rc' : Randctx T alpha} {a b c a' b' c' : T.Word}

theorem srandWords_counted (rc : Randctx T alpha) (a b c : T.Word) :
    srandWords rc a b c = (isaac (wordsSeeded rc a b c)).counted (N alpha) := rfl

theorem wordsSeeded_accumulators (rc : Randctx T alpha) (a b c : T.Word) :
    (wordsSeeded rc a b c).randa = a ∧ (wordsSeeded rc a b c).randb = b ∧ (wordsSeeded rc a b c).randc = c :=
  ⟨rfl, rfl, rfl⟩

/-- The three words play no part in the memory. -/
theorem wordsSeeded_randmem (h : 3 ≤ alpha) : (wordsSeeded rc a b c).randmem = (wordsSeeded rc' a' b' c').randmem :=
  initialMem_congr h rfl

theorem wordsSeeded_internal_iff (h : 3 ≤ alpha) :
    (wordsSeeded rc a b c).internal = (wordsSeeded rc' a' b' c').internal ↔ a = a' ∧ b = b' ∧ c = c' := by
  have hmem : (wordsSeeded rc a b c).randmem = (wordsSeeded rc' a' b' c').randmem := wordsSeeded_randmem h
  simp only [Randctx.internal, Internal.mk.injEq, hmem, true_and]
  exact Iff.rfl

end

/-- Different seeds of three words never lead a 32-bit generator to the same internal state, whatever it was used
for before, and behind any number of batches. -/
theorem srandWords_uint32_iff (h : 3 ≤ alpha) (rc rc' : Randctx .uint32 alpha) (a b c a' b' c' : U32) (n : Nat) :
    (isaac^[n] (srandWords rc a b c)).internal = (isaac^[n] (srandWords rc' a' b' c')).internal ↔
      a = a' ∧ b = b' ∧ c = c' := by
  have hT := recoverable_uint32 alpha
  rw [iterate_isaac_internal hT h, iterate_isaac_internal hT h,
    ((Internal.next_injective hT h).iterate n).eq_iff, srandWords_counted, srandWords_counted, Randctx.counted_internal,
    Randctx.counted_internal, isaac_internal_iff hT h]
  exact wordsSeeded_internal_iff h

theorem srandWords_uint32_iff_eight :
    (isaac^[5] (srandWords (Randctx.zero .uint32 8) 0 1 2)).internal =
      (isaac^[5] (srandWords (Randctx.zero .uint32 8) 0x80000000#32 1 2)).internal ↔
    (0 : U32) = 0x80000000#32 ∧ (1 : U32) = 1 ∧ (2 : U32) = 2 :=
  srandWords_uint32_iff (by decide) _ _ _ _ _ _ _ _ _

/-! ### 64 bits -/

/-- A cell that is written stays. -/
theorem written_kept (k : Nat) (y : T.Word) :
    Kept fun s : Locals T alpha => k < s.m ∧ load s.randmem k = y where
  step mix s hm h := by
    obtain ⟨hk, hy⟩ := h
    refine ⟨Nat.lt_succ_of_lt hk, ?_⟩
    exact (load_store_ne (Nat.ne_of_gt hk)).trans hy

/-- What the first iteration leaves, and every step keeps, holds at the end. -/
theorem Kept.finish_of_first {P : Locals T alpha → Prop} (hP : Kept P) (h : 3 ≤ alpha) {ctx : Randctx T alpha}
    (hfirst : P (isaacSteps T (Locals.start ctx))) (hm2 : ∀ s : Locals T alpha, P s → P { s with m2 := 0 }) :
    P (Locals.finish ctx) := by
  obtain ⟨blocks, hpos, hN⟩ := exists_eight h
  obtain ⟨last, rfl⟩ := Nat.exists_eq_add_one_of_ne_zero (Nat.ne_of_gt hpos)
  have hcount : N alpha / 8 = last + 1 := by omega
  have hm : (isaacSteps T (Locals.start ctx)).m = 0 + 4 := isaacSteps_m _
  have hmiddle := hP.iterate (n := last) (by rw [hm]; omega) hfirst
  rw [Locals.finish, hcount, Function.iterate_succ_apply _ last (Locals.start ctx)]
  refine hP.iterate ?_ (hm2 _ hmiddle)
  show ((isaacSteps T)^[last] _).m + _ ≤ _
  rw [iterate_m, hm]
  omega

/-- The 64-bit steps of the first two cells. -/
def firstStep (s : Locals .uint64 alpha) : Locals .uint64 alpha := rngstep (T := .uint64) (~~~(s.a ^^^ s.a <<< 21)) s

def secondStep (s : Locals .uint64 alpha) : Locals .uint64 alpha := rngstep (T := .uint64) (s.a ^^^ s.a >>> 5) s

/-- The first two cells behind the batch are those that its first two steps have written. -/
theorem finish_cells (h : 3 ≤ alpha) (ctx : Randctx .uint64 alpha) :
    load (Locals.finish ctx).randmem 0 = load (firstStep (Locals.start ctx)).randmem 0 ∧
      load (Locals.finish ctx).randmem 1 = load (secondStep (firstStep (Locals.start ctx))).randmem 1 := by
  have hN : 8 ≤ N alpha := by
    obtain ⟨blocks, hpos, hblocks⟩ := exists_eight h
    omega
  let s₂ := secondStep (firstStep (Locals.start ctx))
  have hm₂ : s₂.m = 2 := rfl
  -- the steps behind the second keep what the first two have written
  have hkept : ∀ k, k < 2 → load (Locals.finish ctx).randmem k = load s₂.randmem k := by
    intro k hk
    have hP : Kept fun s : Locals .uint64 alpha => k < s.m ∧ load s.randmem k = load s₂.randmem k := written_kept k _
    refine (hP.finish_of_first h ?_ fun s hs => hs).2
    have h₂ : k < s₂.m ∧ load s₂.randmem k = load s₂.randmem k := ⟨hk, rfl⟩
    exact hP.step _ _ (by show 3 < N alpha; omega) (hP.step _ _ (by show 2 < N alpha; omega) h₂)
  refine ⟨?_, hkept 1 (by decide)⟩
  rw [hkept 0 (by decide)]
  exact load_store_ne Nat.one_ne_zero

/-- The lowest 21 bits of an accumulator that the first step has left are known. -/
theorem eq_of_ushiftRight_eq {u u' w a a' : U64} (ha : ~~~(a <<< 21) = u - w) (ha' : ~~~(a' <<< 21) = u' - w)
    (hu : u >>> 5 = u' >>> 5) : u = u' := by
  have hnat := congrArg BitVec.toNat ha
  have hnat' := congrArg BitVec.toNat ha'
  have hquot := congrArg BitVec.toNat hu
  simp only [BitVec.toNat_not, BitVec.toNat_shiftLeft, BitVec.toNat_sub, BitVec.toNat_ushiftRight, Nat.shiftLeft_eq,
    Nat.shiftRight_eq_div_pow] at hnat hnat' hquot
  apply BitVec.eq_of_toNat_eq
  have hbound := u.isLt
  have hbound' := u'.isLt
  omega

theorem rngstep_randmem (mix : T.Word) {s : Locals T alpha} (hm : s.m < N alpha) :
    (rngstep mix s).randmem = store s.randmem s.m (load (rngstep mix s).randmem s.m) := by
  have hself : load (rngstep mix s).randmem s.m
      = ind T s.randmem (load s.randmem s.m) + ((s.a ^^^ mix) + load s.randmem s.m2) + s.b := load_store_self hm
  rw [hself]
  rfl

/-- What a step has written tells the accumulator `b` behind it, where the memory before it is known. -/
theorem rngstep_b_eq {mix mix' : T.Word} {s s' : Locals T alpha} (hm : s.m < N alpha) (hptr : s.m = s'.m)
    (hmem : s.randmem = s'.randmem)
    (hcell : load (rngstep mix s).randmem s.m = load (rngstep mix' s').randmem s.m) :
    (rngstep mix s).randmem = (rngstep mix' s').randmem ∧ (rngstep mix s).b = (rngstep mix' s').b := by
  have hbehind : (rngstep mix s).randmem = (rngstep mix' s').randmem := by
    rw [rngstep_randmem mix hm, rngstep_randmem mix' (hptr ▸ hm), hcell, hmem, hptr]
  have hx := (rngstep_stepped mix hm).x
  have hx' := (rngstep_stepped mix' (hptr ▸ hm)).x
  rw [← hmem, ← hptr, ← hbehind] at hx'
  exact ⟨hbehind, BitVec.sub_left_inj _ |>.mp (hx.symm.trans hx')⟩

/-- The two steps of the first two cells backwards, where the memory before them is known. -/
theorem eq_of_steps {s s' : Locals .uint64 alpha} (hN : 2 ≤ N alpha) (hm : s.m = 0) (hptr : s.m = s'.m)
    (hm2 : s.m2 = s'.m2) (hmem : s.randmem = s'.randmem)
    (hfirst : load (firstStep s).randmem 0 = load (firstStep s').randmem 0)
    (hsecond : load (secondStep (firstStep s)).randmem 1 = load (secondStep (firstStep s')).randmem 1) :
    s.a <<< 21 = s'.a <<< 21 ∧ s.b = s'.b := by
  have hlt : s.m < N alpha := by omega
  have hlt₁ : (firstStep s).m < N alpha := by
    show s.m + 1 < N alpha
    omega
  have hptr₁ : (firstStep s).m = (firstStep s').m := congrArg Nat.succ hptr
  have hfirst' : load (firstStep s).randmem s.m = load (firstStep s').randmem s.m := by
    rw [hm]
    exact hfirst
  obtain ⟨hmem₁, hb₁⟩ : (firstStep s).randmem = (firstStep s').randmem ∧ (firstStep s).b = (firstStep s').b :=
    rngstep_b_eq hlt hptr hmem hfirst'
  have hstep : Stepped (~~~(s.a ^^^ s.a <<< 21)) s (firstStep s) := rngstep_stepped _ hlt
  have hstep' : Stepped (~~~(s'.a ^^^ s'.a <<< 21)) s' (firstStep s') := rngstep_stepped _ (hptr ▸ hlt)
  have hnext : Stepped ((firstStep s).a ^^^ (firstStep s).a >>> 5) (firstStep s) (secondStep (firstStep s)) :=
    rngstep_stepped _ hlt₁
  have hnext' : Stepped ((firstStep s').a ^^^ (firstStep s').a >>> 5) (firstStep s') (secondStep (firstStep s')) :=
    rngstep_stepped _ (hptr₁ ▸ hlt₁)
  -- the second step tells its own accumulator, which tells all but five bits of the one before
  have hcell : load (secondStep (firstStep s)).randmem (firstStep s).m =
      load (secondStep (firstStep s')).randmem (firstStep s).m := by
    have hone : (firstStep s).m = 1 := congrArg Nat.succ hm
    rw [hone]
    exact hsecond
  have ha₂ : (secondStep (firstStep s)).a = (secondStep (firstStep s')).a := by
    have hb := hnext.b.symm.trans (hb₁.trans hnext'.b)
    rw [← hmem₁, ← hptr₁, ← hcell] at hb
    exact (BitVec.add_right_inj _).mp ((BitVec.sub_right_inj _).mp hb)
  have hshift : (firstStep s).a >>> 5 = (firstStep s').a >>> 5 := by
    have hxor : ∀ u : U64, u ^^^ (u ^^^ u >>> 5) = u >>> 5 := by
      intro u
      rw [← BitVec.xor_assoc, BitVec.xor_self, BitVec.zero_xor]
    have hptr2 : (firstStep s).m2 = (firstStep s').m2 := congrArg Nat.succ hm2
    rw [← hxor, hnext.a, ← hxor (firstStep s').a, hnext'.a, ← hmem₁, ← hptr2, ha₂]
  have hword := hstep.a
  have hword' := hstep'.a
  rw [xor_not_xor] at hword hword'
  rw [← hmem, ← hm2] at hword'
  have ha₁ : (firstStep s).a = (firstStep s').a := eq_of_ushiftRight_eq hword hword' hshift
  constructor
  · rw [ha₁, ← hword'] at hword
    exact BitVec.not_inj.mp hword
  · rw [hstep.b, hstep'.b, ← hmem, ← hptr, hfirst', ha₁]

/-- From the same memory, the state behind a 64-bit batch tells the accumulators before it, but for the highest
21 bits of `randa`. -/
theorem accumulators_of_isaac_uint64 (h : 3 ≤ alpha) {ctx ctx' : Randctx .uint64 alpha}
    (hmem : ctx.randmem = ctx'.randmem) (hbehind : (isaac ctx).internal = (isaac ctx').internal) :
    ctx.randa <<< 21 = ctx'.randa <<< 21 ∧ ctx.randb = ctx'.randb ∧ ctx.randc = ctx'.randc := by
  have hN : 2 ≤ N alpha := by
    obtain ⟨blocks, hpos, hblocks⟩ := exists_eight h
    omega
  simp only [isaac_eq h, Randctx.internal, Internal.mk.injEq] at hbehind
  obtain ⟨hrandmem, -, -, hc⟩ := hbehind
  have hrandc : ctx.randc = ctx'.randc := BitVec.add_left_inj _ |>.mp hc
  obtain ⟨hcell₀, hcell₁⟩ := finish_cells h ctx
  obtain ⟨hcell₀', hcell₁'⟩ := finish_cells h ctx'
  rw [hrandmem] at hcell₀ hcell₁
  obtain ⟨ha, hb⟩ := @eq_of_steps _ (Locals.start ctx) (Locals.start ctx') hN rfl rfl rfl hmem
    (hcell₀.symm.trans hcell₀') (hcell₁.symm.trans hcell₁')
  have hsum : ctx.randb + (ctx.randc + 1) = ctx'.randb + (ctx'.randc + 1) := hb
  rw [hrandc] at hsum
  exact ⟨ha, BitVec.add_left_inj _ |>.mp hsum, hrandc⟩

/-- Two seeds of three words give the same 64-bit generator exactly when they differ in the highest 21 bits of the
first word at most. -/
theorem srandWords_uint64_iff (h : 3 ≤ alpha) (rc rc' : Randctx .uint64 alpha) (a b c a' b' c' : U64) :
    srandWords rc a b c = srandWords rc' a' b' c' ↔ a <<< 21 = a' <<< 21 ∧ b = b' ∧ c = c' := by
  have hmem : (wordsSeeded rc a b c).randmem = (wordsSeeded rc' a' b' c').randmem := wordsSeeded_randmem h
  rw [srandWords_counted, srandWords_counted]
  constructor
  · intro heq
    have hinternal : (isaac (wordsSeeded rc a b c)).internal = (isaac (wordsSeeded rc' a' b' c')).internal := by
      rw [← Randctx.counted_internal _ (N alpha), heq, Randctx.counted_internal]
    have hacc := accumulators_of_isaac_uint64 h hmem hinternal
    simpa only [wordsSeeded_accumulators] using hacc
  · rintro ⟨ha, rfl, rfl⟩
    have hsame : wordsSeeded rc' a' b c = { (wordsSeeded rc a b c).counted rc'.randcnt with randa := a' } :=
      congrArg (fun mem => (⟨Vector.replicate (N alpha) 0, mem, a', b, c, rc'.randcnt⟩ : Randctx .uint64 alpha)) hmem.symm
    have hbatch := isaac_uint64_congr h ((wordsSeeded rc a b c).counted rc'.randcnt) ha
    rw [hsame, ← hbatch]
    rfl

/-- Two seeds that the highest bit of the first word tells apart. -/
theorem srandWords_uint64_iff_top :
    srandWords (Randctx.zero .uint64 8) 0 1 2 = srandWords (Randctx.zero .uint64 8) 0x8000000000000000#64 1 2 ↔
      (0 : U64) <<< 21 = 0x8000000000000000#64 <<< 21 ∧ (1 : U64) = 1 ∧ (2 : U64) = 2 :=
  srandWords_uint64_iff (by decide) _ _ _ _ _ _ _ _

end Rand

end Spacenet
