-- SUMMARY: With two blocks or more, `randinit` maps the seed arrays one to one onto the memories before `isaac`.
import Spacenet.Rand.Randinit

/-!
# Distinct seeds

Two neighbouring accumulators determine the block that was read between them. In
the second pass these blocks are the accumulators of the first one, whose last
is where the second pass starts, so both passes can be undone from their end. A
single block would be added to itself there.
-/

namespace Spacenet

namespace Rand

variable {T : WordType} {alpha : Nat}

theorem Eight.add_right_injective (v : Eight T.Word) : Function.Injective (Eight.add v) := by
  intro r r' h
  obtain ⟨ha, hb, hc, hd, he, hf, hg, hh⟩ := Eight.mk.inj h
  cases r
  cases r'
  simp only [BitVec.add_right_inj] at ha hb hc hd he hf hg hh
  simp_all only

/-- The block between two accumulators. -/
theorem load_eq_of_accumulated_eq {r r' : Vector T.Word (N alpha)} {v v' : Eight T.Word} {k : Nat}
    (h : accumulated r v k = accumulated r' v' k)
    (hnext : accumulated r v (k + 1) = accumulated r' v' (k + 1)) :
    Eight.load r (8 * k) = Eight.load r' (8 * k) := by
  have hsum := shuffle_injective T hnext
  rw [h] at hsum
  exact Eight.add_right_injective _ hsum

section

variable {ctx ctx' : Randctx T alpha} {blocks : Nat}

/-- The second pass backwards. -/
theorem firstMem_eq_of_initialMem_eq (hN : N alpha = 8 * blocks) (hblocks : 2 ≤ blocks)
    (h : initialMem ctx true = initialMem ctx' true) : firstMem ctx = firstMem ctx' := by
  have hfilled := firstMem_filled hN ctx
  have hfilled' := firstMem_filled hN ctx'
  have hacc : ∀ k < blocks, accumulated (firstMem ctx).m (firstMem ctx).v (k + 1)
      = accumulated (firstMem ctx').m (firstMem ctx').v (k + 1) := by
    intro k hk
    rw [← load_initialMem hN ctx hk, h, load_initialMem hN ctx' hk]
  have hbehind : ∀ k, k + 1 < blocks →
      Eight.load (firstMem ctx).m (8 * (k + 1)) = Eight.load (firstMem ctx').m (8 * (k + 1)) :=
    fun k hk => load_eq_of_accumulated_eq (hacc k (by omega)) (hacc (k + 1) hk)
  -- the last of these blocks is also the accumulator where the second pass starts
  have hv : (firstMem ctx).v = (firstMem ctx').v := by
    obtain ⟨last, rfl⟩ : ∃ last, blocks = last + 2 := ⟨blocks - 2, by omega⟩
    rw [hfilled.acc, hfilled'.acc, ← hfilled.done (last + 1) (by omega), ← hfilled'.done (last + 1) (by omega)]
    exact hbehind last (by omega)
  have hfirst := load_eq_of_accumulated_eq (k := 0) hv (hacc 0 (by omega))
  have hm : (firstMem ctx).m = (firstMem ctx').m := by
    apply Eight.ext_blocks hN
    intro k hk
    cases k with
    | zero => exact hfirst
    | succ k => exact hbehind k hk
  exact Filling.ext hv hm

/-- The first pass backwards. -/
theorem randrsl_eq_of_firstMem_eq (hN : N alpha = 8 * blocks) (h : firstMem ctx = firstMem ctx') :
    ctx.randrsl = ctx'.randrsl := by
  have hfilled := firstMem_filled hN ctx
  have hfilled' := firstMem_filled hN ctx'
  rw [← h] at hfilled'
  have hacc : ∀ k ≤ blocks, accumulated ctx.randrsl (scrambled T) k = accumulated ctx'.randrsl (scrambled T) k := by
    intro k hk
    cases k with
    | zero => rfl
    | succ k => rw [← hfilled.done k hk, hfilled'.done k hk]
  apply Eight.ext_blocks hN
  intro k hk
  exact load_eq_of_accumulated_eq (hacc k (by omega)) (hacc (k + 1) hk)

end

/-- The map from the seed array to the memory before `isaac`. -/
def memOfSeed (ctx : Randctx T alpha) (randrsl : Vector T.Word (N alpha)) : Vector T.Word (N alpha) :=
  initialMem { ctx with randrsl } true

theorem memOfSeed_injective (h : 4 ≤ alpha) (ctx : Randctx T alpha) : Function.Injective (memOfSeed ctx) := by
  intro r r' heq
  obtain ⟨blocks, -, hN⟩ := exists_eight (Nat.le_of_succ_le h)
  have hN16 : 16 ≤ N alpha := by
    rw [N, Nat.one_shiftLeft]
    exact Nat.pow_le_pow_right (n := 2) (by decide) h
  exact randrsl_eq_of_firstMem_eq hN (firstMem_eq_of_initialMem_eq hN (by omega) heq)

/-- From 16 words on, every memory comes from exactly one seed. -/
theorem memOfSeed_bijective (h : 4 ≤ alpha) (ctx : Randctx T alpha) : Function.Bijective (memOfSeed ctx) :=
  Finite.injective_iff_bijective.mp (memOfSeed_injective h ctx)

theorem memOfSeed_bijective_sixteen : Function.Bijective
    (memOfSeed (⟨Vector.replicate 16 0, Vector.replicate 16 0, 0, 0, 0, 0⟩ : Randctx .uint32 4)) :=
  memOfSeed_bijective (by decide) _

/-! ## A single block -/

theorem N_three : N 3 = 8 * 1 := rfl

theorem firstMem_v (ctx : Randctx T 3) : (firstMem ctx).v = Eight.load (firstMem ctx).m 0 := by
  have hfilled := firstMem_filled N_three ctx
  exact hfilled.acc.trans (hfilled.done 0 (by decide)).symm

/-- The memory behind the first pass as a map of the seed. -/
theorem firstMem_bijective (ctx : Randctx T 3) :
    Function.Bijective fun r : Vector T.Word (N 3) => (firstMem { ctx with randrsl := r }).m := by
  apply Finite.injective_iff_bijective.mp
  intro r r' hm
  have hv : (firstMem { ctx with randrsl := r }).v = (firstMem { ctx with randrsl := r' }).v := by
    rw [firstMem_v, firstMem_v]
    exact congrArg (Eight.load · 0) hm
  exact randrsl_eq_of_firstMem_eq N_three (Filling.ext hv hm)

/-- The only block is added to itself. -/
theorem load_initialMem_double (ctx : Randctx T 3) :
    Eight.load (initialMem ctx true) 0
      = shuffle T (Eight.add (Eight.load (firstMem ctx).m 0) (Eight.load (firstMem ctx).m 0)) := by
  have hload := load_initialMem N_three ctx Nat.one_pos
  rw [accumulated, accumulated, firstMem_v] at hload
  exact hload

/-- With eight words the second pass doubles what the first one has left, and the highest bits are lost. -/
theorem memOfSeed_not_injective (ctx : Randctx T 3) : ¬Function.Injective (memOfSeed ctx) := by
  intro hinjective
  let top : T.Word := BitVec.intMin T.bits
  have hdouble : top + top = 0 := by cases T <;> decide
  have hne : top ≠ 0 := by cases T <;> decide
  let zeros : Vector T.Word (N 3) := Vector.replicate (N 3) 0
  let single : Vector T.Word (N 3) := Cells.store zeros 0 top
  obtain ⟨r, hr⟩ := (firstMem_bijective ctx).surjective zeros
  obtain ⟨r', hr'⟩ := (firstMem_bijective ctx).surjective single
  simp only at hr hr'
  have hzero : ∀ i, Cells.load zeros i = 0 := by
    intro i
    simp only [Cells.load, zeros, Vector.getElem?_replicate]
    split <;> rfl
  have hadd : Eight.add (Eight.load zeros 0) (Eight.load zeros 0)
      = Eight.add (Eight.load single 0) (Eight.load single 0) := by
    have hself : Cells.load single 0 = top := Cells.load_store_self (by decide)
    have hother : ∀ i, 0 ≠ i → Cells.load single i = 0 := fun i hi => (Cells.load_store_ne hi).trans (hzero i)
    simp only [Eight.load, Eight.add, Nat.zero_add, hzero, hself, hdouble]
    simp (disch := decide) only [hother]
    rfl
  have hmem : memOfSeed ctx r = memOfSeed ctx r' := by
    apply Eight.ext_blocks N_three
    intro k hk
    obtain rfl := Nat.lt_one_iff.mp hk
    have hload := (load_initialMem_double { ctx with randrsl := r }).trans (by rw [hr, hadd])
    have hload' := load_initialMem_double { ctx with randrsl := r' }
    rw [hr'] at hload'
    exact hload.trans hload'.symm
  have hmemory : zeros = single := by rw [← hr, ← hr', hinjective hmem]
  have hcell : Cells.load zeros 0 = top := hmemory ▸ Cells.load_store_self (by decide)
  exact hne (hcell.symm.trans (hzero 0))

end Rand

end Spacenet
