-- SUMMARY: The rounds of `cdc512` as bijections of the chaining state, up to the digest.
import Mathlib.Data.Fintype.EquivFin
import Spacenet.Cdc512.Words

/-!
# The rounds

The self shuffle is a sequence of eight steps, each the same up to a rotation of
the words and a shift. A step is invertible whatever the shift, and so is every
round, the absorption of data, `finish` and the digest.
-/

namespace Spacenet

namespace Cdc512Data

/-- A line of `shuffle()`, with the words renamed so that the next line reads the same. -/
def step (shift : U64 → U64) (v : Cdc512Data) : Cdc512Data :=
  let a := v.a - v.e
  ⟨v.b, v.c, v.d, v.e, v.f ^^^ shift v.h, v.g, v.h + a, a⟩

theorem step_injective (shift : U64 → U64) : Function.Injective (step shift) := by
  intro v w h
  obtain ⟨hb, hc, hd, he, hf, hg, hh, ha⟩ := Cdc512Data.mk.inj h
  have hh' : v.h = w.h := by
    rw [ha] at hh
    exact BitVec.add_left_inj _ |>.mp hh
  have hf' : v.f = w.f := by
    rw [hh'] at hf
    exact BitVec.xor_left_inj _ |>.mp hf
  have ha' : v.a = w.a := by
    rw [he] at ha
    exact BitVec.sub_left_inj _ |>.mp ha
  cases v
  cases w
  simp_all only

/-- `shuffle()` is its eight lines. -/
theorem shuffle_eq_steps (v : Cdc512Data) :
    v.shuffle = step (· <<< 14) (step (· >>> 17) (step (· <<< 20) (step (· >>> 14) (step (· <<< 15)
      (step (· >>> 23) (step (· <<< 9) (step (· >>> 9) v))))))) := rfl

theorem shuffle_injective : Function.Injective shuffle := by
  intro v w h
  simp only [shuffle_eq_steps] at h
  iterate 8 apply step_injective at h
  exact h

/-- Data is mixed into each word alone. -/
theorem shuffleWith_injective (v : Cdc512Data) : Function.Injective fun s => shuffleWith s v := by
  intro s t h
  obtain ⟨ha, hb, hc, hd, he, hf, hg, hh⟩ := Cdc512Data.mk.inj h
  cases s
  cases t
  simp only [BitVec.add_left_inj, BitVec.sub_left_inj, BitVec.xor_left_inj] at ha hb hc hd he hf hg hh
  simp_all only

theorem absorb_injective (v : Cdc512Data) : Function.Injective fun s => absorb s v := by
  intro s t h
  exact shuffleWith_injective v (shuffle_injective h)

theorem absorbChunks_injective (n : Nat) (data : Blob) :
    Function.Injective fun s => (absorbChunks n s data).1 := by
  induction n generalizing data with
  | zero => exact fun _ _ h => h
  | succ n ih => exact (ih _).comp (absorb_injective _)

end Cdc512Data

namespace Cdc512

open Cdc512Data

/-- The chaining state behind `update`. -/
def updateState (data : Blob) (s : Cdc512Data) : Cdc512Data :=
  let (s, rest) := absorbChunks (data.length / size) s data
  if rest.length > 0 then s.absorb (load (rest ++ List.replicate (size - rest.length) 0)) else s

/-- The chaining state behind `finish`, with the length `p`. -/
def finishState (p : U64) (s : Cdc512Data) : Cdc512Data :=
  if p ≠ 0 then s.absorb ⟨p, p, p, p, p, p, p, p⟩ else s

theorem update_toCdc512Data (ctx : Cdc512) (data : Blob) :
    (ctx.update data).toCdc512Data = updateState data ctx.toCdc512Data := rfl

theorem update_p (ctx : Cdc512) (data : Blob) :
    (ctx.update data).p = ctx.p + BitVec.ofNat 64 data.length := rfl

theorem finish_toCdc512Data (ctx : Cdc512) :
    ctx.finish.toCdc512Data = finishState ctx.p ctx.toCdc512Data := rfl

theorem updateState_injective (data : Blob) : Function.Injective (updateState data) := by
  intro s t h
  simp only [updateState, absorbChunks_snd] at h
  split at h
  · exact absorbChunks_injective _ _ (absorb_injective _ h)
  · exact absorbChunks_injective _ _ h

theorem finishState_injective (p : U64) : Function.Injective (finishState p) := by
  intro s t h
  unfold finishState at h
  split at h
  · exact absorb_injective _ h
  · exact h

/-- The digest is stored as eight words. -/
theorem digest_finish (ctx : Cdc512) :
    ctx.finish.digest = (ctx.finish.toCdc512Data.words.map vhtobe64).flatMap storeWord := rfl

/-- The digest determines the state behind `finish`. -/
theorem digest_eq_iff {ctx ctx' : Cdc512} :
    ctx.finish.digest = ctx'.finish.digest ↔ ctx.finish.toCdc512Data = ctx'.finish.toCdc512Data := by
  rw [digest_finish, digest_finish]
  generalize ctx.finish.toCdc512Data = v
  generalize ctx'.finish.toCdc512Data = w
  constructor
  · intro h
    have hload := congrArg load h
    have hwords : ∀ v : Cdc512Data, v.words.map vhtobe64 =
        words ⟨vhtobe64 v.a, vhtobe64 v.b, vhtobe64 v.c, vhtobe64 v.d, vhtobe64 v.e, vhtobe64 v.f,
          vhtobe64 v.g, vhtobe64 v.h⟩ := fun _ => rfl
    rw [hwords, hwords, load_storeWords, load_storeWords] at hload
    obtain ⟨ha, hb, hc, hd, he, hf, hg, hh⟩ := Cdc512Data.mk.inj hload
    apply words_injective
    simp only [words, vhtobe64_injective ha, vhtobe64_injective hb, vhtobe64_injective hc,
      vhtobe64_injective hd, vhtobe64_injective he, vhtobe64_injective hf, vhtobe64_injective hg,
      vhtobe64_injective hh]
  · intro h
    rw [h]

end Cdc512

end Spacenet
