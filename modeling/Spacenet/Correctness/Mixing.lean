-- SUMMARY: What the digest `cdc512` keeps: the words of the context it started from, and the length of the data.
import Spacenet.Cdc512.Groups
import Spacenet.Library.WordBits

/-!
# What the digest keeps

Absorbing any data and finishing are bijections of the words of a context, so
that digests tell contexts apart. The length that `finish` mixes in tells data
apart that the padding of the last group has made the same.
-/

namespace Spacenet

open Cdc512Data

/-! ## The words of the context -/

instance Cdc512Data.instFinite : Finite Cdc512Data := by
  apply Finite.of_injective fun v : Cdc512Data => (v.a, v.b, v.c, v.d, v.e, v.f, v.g, v.h)
  intro v w h
  cases v
  cases w
  simpa only [Prod.mk.injEq, Cdc512Data.mk.injEq] using h

/-- Of two contexts with the same count, the digests behind the same data are equal if and only if
their words were equal: `update` and `finish` are bijections of the words. -/
theorem update_finish_digest_eq_iff (data : Blob) {ctx ctx' : Cdc512} (hp : ctx.p = ctx'.p) :
    ((ctx.update data).finish.digest = (ctx'.update data).finish.digest ↔
        ctx.toCdc512Data = ctx'.toCdc512Data) ∧
      Function.Bijective (Cdc512.updateState data) ∧
      Function.Bijective (Cdc512.finishState (ctx.update data).p) := by
  have hupdate := Cdc512.updateState_injective data
  have hfinish := Cdc512.finishState_injective (ctx.update data).p
  refine ⟨?_, Finite.injective_iff_bijective.mp hupdate, Finite.injective_iff_bijective.mp hfinish⟩
  have hp' : (ctx'.update data).p = (ctx.update data).p := by
    rw [Cdc512.update_p, Cdc512.update_p, hp]
  rw [Cdc512.digest_eq_iff, Cdc512.finish_toCdc512Data, Cdc512.finish_toCdc512Data,
    Cdc512.update_toCdc512Data, Cdc512.update_toCdc512Data, hp']
  exact hfinish.eq_iff.trans hupdate.eq_iff

theorem update_finish_digest_eq_iff_init :
    ((Cdc512.init.update [1, 2]).finish.digest = ((⟨⟨0, 0, 0, 0, 0, 0, 0, 0⟩, [], 0⟩ : Cdc512).update
          [1, 2]).finish.digest ↔ Cdc512.init.toCdc512Data = ⟨0, 0, 0, 0, 0, 0, 0, 0⟩) ∧
      Function.Bijective (Cdc512.updateState [1, 2]) ∧
      Function.Bijective (Cdc512.finishState (Cdc512.init.update [1, 2]).p) :=
  update_finish_digest_eq_iff [1, 2] rfl

/-! ## The length of the data -/

/-- The copies of the length cancel in the lanes of `f` and `g` but for the shifted ones, which hold
all of its bits between them. -/
theorem absorb_length_injective (s : Cdc512Data) :
    Function.Injective fun p : U64 => s.absorb ⟨p, p, p, p, p, p, p, p⟩ := by
  intro p q h
  have hlanes := shuffle_injective h
  obtain ⟨-, -, -, -, -, hf, hg, -⟩ := Cdc512Data.mk.inj hlanes
  simp only [BitVec.sub_add_cancel, BitVec.xor_right_inj] at hf hg
  apply BitVec.eq_of_getLsbD_eq
  intro i hi
  by_cases hlow : i < 9
  · have hbit := congrArg (fun word => word.getLsbD (i + 9)) hg
    have hlt : i + 9 < 64 := by omega
    simpa only [BitVec.getLsbD_shiftLeft, hlt, decide_true, Nat.not_lt.mpr (Nat.le_add_left 9 i),
      decide_false, Bool.not_false, Bool.true_and, Nat.add_sub_cancel] using hbit
  · have hbit := congrArg (fun word => word.getLsbD (i - 9)) hf
    have hsum : 9 + (i - 9) = i := by omega
    simpa only [BitVec.getLsbD_ushiftRight, hsum] using hbit

theorem finishState_length_injective (s : Cdc512Data) {p q : U64} (hp : p ≠ 0) (hq : q ≠ 0)
    (h : Cdc512.finishState p s = Cdc512.finishState q s) : p = q := by
  unfold Cdc512.finishState at h
  rw [if_pos hp, if_pos hq] at h
  exact absorb_length_injective s h

/-- Data that is not empty and the same data with zeros behind it have different digests when both
have the same number of groups. -/
theorem cdc512_append_zeros_ne {data : Blob} {k : Nat} (hne : data ≠ [])
    (hlength : data.length < 2 ^ 64 - 64) (hk : 1 ≤ k)
    (hgroups : blockCount size (data ++ List.replicate k 0) = blockCount size data) :
    cdc512 data ≠ cdc512 (data ++ List.replicate k 0) := by
  intro h
  have hpos := List.length_pos_iff.mpr hne
  have hsum : (data ++ List.replicate k 0).length = data.length + k := by
    rw [List.length_append, List.length_replicate]
  -- the zeros fit into the last group, so the count does not wrap around
  have hroom : data.length + k < data.length + 64 := by
    simp only [blockCount, hsum, size] at hgroups
    omega
  have hstate : Cdc512.updateState (data ++ List.replicate k 0) = Cdc512.updateState data := by
    funext s
    rw [Cdc512.updateState_eq_foldl, Cdc512.updateState_eq_foldl, groups_append_zeros data hgroups]
  have hfinish := Cdc512.digest_eq_iff.mp h
  rw [Cdc512.finish_toCdc512Data, Cdc512.finish_toCdc512Data, Cdc512.update_toCdc512Data,
    Cdc512.update_toCdc512Data, hstate, Cdc512.update_p, Cdc512.update_p, hsum] at hfinish
  have hnat : ∀ n, 0 < n → n < 2 ^ 64 → Cdc512.init.p + BitVec.ofNat 64 n ≠ 0 := by
    intro n hn hlt hzero
    have hval := congrArg BitVec.toNat hzero
    simp only [Cdc512.init, BitVec.toNat_add, BitVec.toNat_ofNat] at hval
    omega
  have hcount := finishState_length_injective _ (hnat _ hpos (by omega))
    (hnat _ (by omega) (by omega)) hfinish
  have hval := congrArg BitVec.toNat hcount
  simp only [Cdc512.init, BitVec.toNat_add, BitVec.toNat_ofNat] at hval
  omega

theorem cdc512_append_zeros_ne_one : cdc512 [1] ≠ cdc512 ([1] ++ List.replicate 1 0) :=
  cdc512_append_zeros_ne (by decide) (by decide) (Nat.le_refl 1) (by decide)

end Spacenet
