-- SUMMARY: The passes of `randinit` block by block: what they write depends on the seed alone, and a difference in the last byte of the seed is seen in the memory.
import Mathlib.Data.List.Range
import Spacenet.Rand.Isaac
import Spacenet.Rand.Shuffle

/-!
# Filling the memory

Both passes run over the blocks of eight words with the same accumulators. A block
is read before it is written, so the second pass is the first one with the memory
for the seed.
-/

namespace Spacenet

open WordBits

namespace Rand

variable {T : WordType} {alpha : Nat}

/-! ## Blocks of an array -/

namespace Eight

variable {n : Nat} {words words' : Vector T.Word n} {v : Eight T.Word} {i j : Nat}

theorem load_store_self (h : i + 8 ≤ n) : load (store words i v) i = v := by
  unfold load store
  simp (disch := omega) only [Cells.load_store_self, Cells.load_store_ne]

theorem load_store_of_apart (h : i + 8 ≤ j ∨ j + 8 ≤ i) : load (store words i v) j = load words j := by
  unfold load store
  simp (disch := omega) only [Cells.load_store_ne]

/-- Arrays with the same blocks are the same. -/
theorem ext_blocks {blocks : Nat} (hn : n = 8 * blocks)
    (h : ∀ k < blocks, load words (8 * k) = load words' (8 * k)) : words = words' := by
  apply Cells.ext_load
  intro i hi
  obtain ⟨ha, hb, hc, hd, he, hf, hg, hh⟩ := Eight.mk.inj (h (i / 8) (by omega))
  have hcell : i = 8 * (i / 8) + i % 8 := (Nat.div_add_mod i 8).symm
  have hlt : i % 8 < 8 := Nat.mod_lt i (by decide)
  rw [hcell]
  generalize i % 8 = k at hlt
  match k, hlt with
  | 0, _ => exact ha
  | 1, _ => exact hb
  | 2, _ => exact hc
  | 3, _ => exact hd
  | 4, _ => exact he
  | 5, _ => exact hf
  | 6, _ => exact hg
  | 7, _ => exact hh

end Eight

/-! ## A pass -/

attribute [ext] Filling

/-- The accumulators behind `k` blocks of the seed `r`. -/
def accumulated (r : Vector T.Word (N alpha)) (v : Eight T.Word) : Nat → Eight T.Word
  | 0 => v
  | k + 1 => shuffle T (Eight.add (accumulated r v k) (Eight.load r (8 * k)))

/-- The first `k` iterations of `forBlocks`. -/
def blocksDone (body : Filling T alpha → Nat → Filling T alpha) (s : Filling T alpha) (k : Nat) : Filling T alpha :=
  (List.range' 0 k 8).foldl body s

theorem blocksDone_succ (body : Filling T alpha → Nat → Filling T alpha) (s : Filling T alpha) (k : Nat) :
    blocksDone body s (k + 1) = body (blocksDone body s k) (8 * k) := by
  rw [blocksDone, List.range'_concat, List.foldl_append, Nat.zero_add]
  rfl

/-- `k` blocks have been written, each with the accumulators of its iteration. -/
structure Filled (r mem : Vector T.Word (N alpha)) (v : Eight T.Word) (k : Nat) (s : Filling T alpha) : Prop where
  acc : s.v = accumulated r v k
  done : ∀ j < k, Eight.load s.m (8 * j) = accumulated r v (j + 1)
  ahead : ∀ j, k ≤ j → Eight.load s.m (8 * j) = Eight.load mem (8 * j)

theorem Filled.put {r mem : Vector T.Word (N alpha)} {v : Eight T.Word} {k : Nat} {s : Filling T alpha}
    (h : Filled r mem v k s) (hk : 8 * k + 8 ≤ N alpha) :
    Filled r mem v (k + 1) (s.put (8 * k) (Eight.add s.v (Eight.load r (8 * k)))) := by
  have hacc : shuffle T (Eight.add s.v (Eight.load r (8 * k))) = accumulated r v (k + 1) := by
    rw [h.acc]
    rfl
  refine ⟨hacc, ?_, ?_⟩
  · intro j hj
    show Eight.load (Eight.store s.m (8 * k) _) (8 * j) = _
    rcases Nat.lt_succ_iff_lt_or_eq.mp hj with hlt | rfl
    · rw [Eight.load_store_of_apart (by omega), h.done j hlt]
    · rw [Eight.load_store_self hk, hacc]
  · intro j hj
    show Eight.load (Eight.store s.m (8 * k) _) (8 * j) = _
    rw [Eight.load_store_of_apart (by omega), h.ahead j (by omega)]

theorem fromSeed_filled (r : Vector T.Word (N alpha)) (s : Filling T alpha) {k : Nat} (hk : 8 * k ≤ N alpha) :
    Filled r s.m s.v k (blocksDone (fromSeed r) s k) := by
  induction k with
  | zero => exact ⟨rfl, fun j hj => absurd hj (Nat.not_lt_zero j), fun j _ => rfl⟩
  | succ k ih =>
      rw [blocksDone_succ]
      exact (ih (by omega)).put (by omega)

/-- The second pass reads each block as the first pass has left it. -/
theorem secondPass_filled (s : Filling T alpha) {k : Nat} (hk : 8 * k ≤ N alpha) :
    Filled s.m s.m s.v k (blocksDone secondPass s k) := by
  induction k with
  | zero => exact ⟨rfl, fun j hj => absurd hj (Nat.not_lt_zero j), fun j _ => rfl⟩
  | succ k ih =>
      have hfilled := ih (by omega)
      rw [blocksDone_succ, secondPass, hfilled.ahead k (Nat.le_refl k)]
      exact hfilled.put (by omega)

/-! ## The memory before isaac -/

/-- The memory behind the first pass. -/
def firstMem (ctx : Randctx T alpha) : Filling T alpha :=
  forBlocks (fromSeed ctx.randrsl) ⟨scrambled T, ctx.randmem⟩

variable {ctx ctx' : Randctx T alpha} {blocks : Nat}

theorem forBlocks_eq (hN : N alpha = 8 * blocks) (body : Filling T alpha → Nat → Filling T alpha)
    (s : Filling T alpha) : forBlocks body s = blocksDone body s blocks := by
  have hblocks : N alpha / 8 = blocks := by omega
  rw [forBlocks, hblocks]
  rfl

theorem firstMem_filled (hN : N alpha = 8 * blocks) (ctx : Randctx T alpha) :
    Filled ctx.randrsl ctx.randmem (scrambled T) blocks (firstMem ctx) := by
  have hk : 8 * blocks ≤ N alpha := by omega
  rw [firstMem, forBlocks_eq hN]
  exact fromSeed_filled ctx.randrsl ⟨scrambled T, ctx.randmem⟩ hk

/-- Block `k` of the memory before `isaac`. -/
theorem load_initialMem (hN : N alpha = 8 * blocks) (ctx : Randctx T alpha) {k : Nat} (hk : k < blocks) :
    Eight.load (initialMem ctx true) (8 * k) = accumulated (firstMem ctx).m (firstMem ctx).v (k + 1) := by
  have hmem : initialMem ctx true = (forBlocks secondPass (firstMem ctx)).m := rfl
  rw [hmem, forBlocks_eq hN]
  exact (secondPass_filled (firstMem ctx) (by omega)).done k hk

theorem firstMem_congr (hN : N alpha = 8 * blocks) (h : ctx.randrsl = ctx'.randrsl) :
    firstMem ctx = firstMem ctx' := by
  have hfilled := firstMem_filled hN ctx
  have hfilled' := firstMem_filled hN ctx'
  rw [← h] at hfilled'
  have hv : (firstMem ctx).v = (firstMem ctx').v := hfilled.acc.trans hfilled'.acc.symm
  have hm : (firstMem ctx).m = (firstMem ctx').m :=
    Eight.ext_blocks hN fun k hk => (hfilled.done k hk).trans (hfilled'.done k hk).symm
  exact Filling.ext hv hm

/-- The memory that is filled is not read. -/
theorem initialMem_congr (h : 3 ≤ alpha) (hrsl : ctx.randrsl = ctx'.randrsl) :
    initialMem ctx true = initialMem ctx' true := by
  obtain ⟨blocks, -, hN⟩ := exists_eight h
  apply Eight.ext_blocks hN
  intro k hk
  rw [load_initialMem hN ctx hk, load_initialMem hN ctx' hk, firstMem_congr hN hrsl]

/-! ## Seeds that differ at their end -/

/-- Arrays that differ in the last word alone, and there first in the lowest bit of its top byte. -/
structure DifferAtEnd (r r' : Vector T.Word (N alpha)) : Prop where
  same : ∀ i, i + 1 ≠ N alpha → Cells.load r i = Cells.load r' i
  below : SameBelow (T.bits - 8) (Cells.load r (N alpha - 1)) (Cells.load r' (N alpha - 1))
  differ : ¬ SameBelow (T.bits - 7) (Cells.load r (N alpha - 1)) (Cells.load r' (N alpha - 1))

section

variable {r r' : Vector T.Word (N alpha)}

theorem DifferAtEnd.store (h : DifferAtEnd r r') {i : Nat} (hi : i + 1 < N alpha) (x : T.Word) :
    DifferAtEnd (Cells.store r i x) (Cells.store r' i x) := by
  refine ⟨fun j hj => ?_, ?_, ?_⟩
  · rw [Cells.load_store (by omega), Cells.load_store (by omega), h.same j hj]
  · rw [Cells.load_store_ne (by omega), Cells.load_store_ne (by omega)]
    exact h.below
  · rw [Cells.load_store_ne (by omega), Cells.load_store_ne (by omega)]
    exact h.differ

theorem DifferAtEnd.load_eq (h : DifferAtEnd r r') (hN : N alpha = 8 * (blocks + 1)) {k : Nat} (hk : k < blocks) :
    Eight.load r (8 * k) = Eight.load r' (8 * k) := by
  unfold Eight.load
  simp (disch := omega) only [h.same]

theorem DifferAtEnd.load_last (h : DifferAtEnd r r') (hN : N alpha = 8 * (blocks + 1)) :
    DifferOnTop (Eight.load r (8 * blocks)) (Eight.load r' (8 * blocks)) := by
  have hlast : N alpha - 1 = 8 * blocks + 7 := by omega
  have hbelow := h.below
  have hdiffer := h.differ
  rw [hlast] at hbelow hdiffer
  constructor <;> first | exact h.same _ (by omega) | assumption

theorem DifferOnTop.add {v v' : Eight T.Word} (h : DifferOnTop v v') (u : Eight T.Word) :
    DifferOnTop (Eight.add u v) (Eight.add u v') where
  a := congrArg (u.a + ·) h.a
  b := congrArg (u.b + ·) h.b
  c := congrArg (u.c + ·) h.c
  d := congrArg (u.d + ·) h.d
  e := congrArg (u.e + ·) h.e
  f := congrArg (u.f + ·) h.f
  g := congrArg (u.g + ·) h.g
  below := (SameBelow.refl u.h).add (Nat.sub_le _ _) h.below
  differ hsame := h.differ (hsame.of_add (Nat.sub_le _ _))

theorem accumulated_congr {v : Eight T.Word} {k : Nat}
    (h : ∀ j < k, Eight.load r (8 * j) = Eight.load r' (8 * j)) : accumulated r v k = accumulated r' v k := by
  induction k with
  | zero => rfl
  | succ k ih => rw [accumulated, accumulated, ih (fun j hj => h j (by omega)), h k (Nat.lt_succ_self k)]

end

/-- The first block of the second pass sees a difference in the last block of the seed: through the
accumulators, or in a single block through the doubled sum. -/
theorem initialMem_ne (h : 3 ≤ alpha) (hdiffer : DifferAtEnd ctx.randrsl ctx'.randrsl) :
    initialMem ctx true ≠ initialMem ctx' true := by
  intro heq
  obtain ⟨count, hpos, hcount⟩ := exists_eight h
  obtain ⟨last, rfl⟩ := Nat.exists_eq_add_one_of_ne_zero (Nat.ne_of_gt hpos)
  have hfirst := congrArg (Eight.load · (8 * 0)) heq
  simp only [load_initialMem hcount _ hpos, accumulated] at hfirst
  have hsum := shuffle_injective T hfirst
  have hfilled := firstMem_filled hcount ctx
  have hfilled' := firstMem_filled hcount ctx'
  rw [hfilled.done 0 hpos, hfilled'.done 0 hpos, hfilled.acc, hfilled'.acc] at hsum
  cases last with
  | zero => exact double_shuffle_ne ((hdiffer.load_last hcount).add (scrambled T)) hsum
  | succ last =>
      have hone : accumulated ctx.randrsl (scrambled T) 1 = accumulated ctx'.randrsl (scrambled T) 1 :=
        accumulated_congr fun j hj => hdiffer.load_eq hcount (by omega)
      rw [hone] at hsum
      have hlast := shuffle_injective T (Eight.add_left_injective _ hsum)
      rw [accumulated_congr fun j hj => hdiffer.load_eq hcount hj] at hlast
      exact ((hdiffer.load_last hcount).add _).ne hlast

end Rand

end Spacenet
