-- SUMMARY: `shuffle` of both word types is injective, and a difference in the top byte of its last word reaches bits below the highest.
import Spacenet.Cdc512.Rounds
import Spacenet.Library.WordBits
import Spacenet.Rand

/-!
# shuffle

Every line of `shuffle` changes a word by one that it does not change, so nothing
is lost. A shift moves differences down: words that differ in the last one alone,
and there in no bit below its top byte, are not just turned over in their highest
bits.
-/

namespace Spacenet

open WordBits

namespace Rand

/-! ## Injectivity -/

namespace Eight

/-- A line of `shuffle32`, with the words renamed so that the next line reads the same. -/
def step32 (shift : U32 → U32) (v : Eight U32) : Eight U32 :=
  let a := v.a ^^^ shift v.b
  ⟨v.b + v.c, v.c, v.d + a, v.e, v.f, v.g, v.h, a⟩

theorem step32_injective (shift : U32 → U32) : Function.Injective (step32 shift) := by
  intro v w h
  obtain ⟨hb, hc, hd, he, hf, hg, hh, ha⟩ := Eight.mk.inj h
  have hb' : v.b = w.b := by
    rw [hc] at hb
    exact BitVec.add_left_inj _ |>.mp hb
  have ha' : v.a = w.a := by
    rw [hb'] at ha
    exact BitVec.xor_left_inj _ |>.mp ha
  have hd' : v.d = w.d := by
    rw [ha] at hd
    exact BitVec.add_left_inj _ |>.mp hd
  cases v
  cases w
  simp_all only

/-- The eight words as those of a digest, which are shuffled in the same way. -/
def toCdc512Data (v : Eight U64) : Cdc512Data := ⟨v.a, v.b, v.c, v.d, v.e, v.f, v.g, v.h⟩

theorem toCdc512Data_injective : Function.Injective toCdc512Data := by
  intro v w h
  cases v
  cases w
  simpa [toCdc512Data] using h

end Eight

open Eight

/-- `shuffle32` is its eight lines. -/
theorem shuffle32_eq_steps (v : Eight U32) :
    shuffle32 v = step32 (· >>> 9) (step32 (· <<< 8) (step32 (· >>> 4) (step32 (· <<< 10) (step32 (· >>> 16)
      (step32 (· <<< 8) (step32 (· >>> 2) (step32 (· <<< 11) v))))))) := rfl

theorem shuffle32_injective : Function.Injective shuffle32 := by
  intro v w h
  simp only [shuffle32_eq_steps] at h
  iterate 8 apply step32_injective at h
  exact h

theorem shuffle64_toCdc512Data (v : Eight U64) : (shuffle64 v).toCdc512Data = v.toCdc512Data.shuffle := rfl

theorem shuffle64_injective : Function.Injective shuffle64 := by
  intro v w h
  have hdata := congrArg toCdc512Data h
  rw [shuffle64_toCdc512Data, shuffle64_toCdc512Data] at hdata
  exact toCdc512Data_injective (Cdc512Data.shuffle_injective hdata)

theorem shuffle_injective (T : WordType) : Function.Injective (shuffle T) := by
  cases T with
  | uint32 => exact shuffle32_injective
  | uint64 => exact shuffle64_injective

theorem Eight.add_left_injective {T : WordType} (r : Eight T.Word) : Function.Injective fun v => Eight.add v r := by
  intro v w h
  obtain ⟨ha, hb, hc, hd, he, hf, hg, hh⟩ := Eight.mk.inj h
  cases v
  cases w
  simp only [BitVec.add_left_inj] at ha hb hc hd he hf hg hh
  simp_all only

/-! ## The top byte -/

/-- The words differ in the last one alone, and there first in the lowest bit of its top byte. -/
structure DifferOnTop {T : WordType} (v v' : Eight T.Word) : Prop where
  a : v.a = v'.a
  b : v.b = v'.b
  c : v.c = v'.c
  d : v.d = v'.d
  e : v.e = v'.e
  f : v.f = v'.f
  g : v.g = v'.g
  below : SameBelow (T.bits - 8) v.h v'.h
  differ : ¬ SameBelow (T.bits - 7) v.h v'.h

/-- The word `g` behind `shuffle32`: the last word is added, and its shift does not bring the top byte. -/
theorem shuffle32_g (a b c d e f g : U32) : ∃ x y : U32, ∀ h,
    (shuffle32 ⟨a, b, c, d, e, f, g, h⟩).g = (x + h) <<< 8 ^^^ (y + (x + h)) := by
  refine ⟨?_, ?_, fun h => ?_⟩
  rotate_left 2
  · rw [BitVec.xor_comm, BitVec.add_comm _ h]
    rfl

theorem not_sameBelow_shuffle32 {v v' : Eight U32} (h : DifferOnTop (T := .uint32) v v') :
    ¬ SameBelow 31 (shuffle32 v).g (shuffle32 v').g := by
  intro hg
  obtain ⟨a, b, c, d, e, f, g, z⟩ := v
  obtain ⟨a', b', c', d', e', f', g', z'⟩ := v'
  obtain ⟨rfl, rfl, rfl, rfl, rfl, rfl, rfl, hbelow, hdiffer⟩ := h
  obtain ⟨x, y, heq⟩ := shuffle32_g a b c d e f g
  have hshift : (x + z) <<< 8 = (x + z') <<< 8 :=
    ((SameBelow.refl x).add (by decide) hbelow).shiftLeft_eq (by decide)
  rw [heq, heq, hshift] at hg
  have hsum : SameBelow 25 (y + (x + z)) (y + (x + z')) := .of_xor (.refl _) (hg.mono (by decide))
  exact hdiffer ((hsum.of_add (by decide)).of_add (by decide))

/-- The words `h` and `d` behind `shuffle64` give back what the third line made of `h`. -/
theorem shuffle64_h_add_d (a b c d e f g h : U64) :
    (shuffle64 ⟨a, b, c, d, e, f, g, h⟩).h + (shuffle64 ⟨a, b, c, d, e, f, g, h⟩).d =
      (a - e + h) ^^^ (b - (f ^^^ h >>> 9)) >>> 23 := by
  rw [BitVec.add_comm (a - e) h]
  exact BitVec.sub_add_cancel _ _

theorem not_sameBelow_shuffle64 {v v' : Eight U64} (h : DifferOnTop (T := .uint64) v v') :
    ¬ (SameBelow 63 (shuffle64 v).h (shuffle64 v').h ∧ SameBelow 63 (shuffle64 v).d (shuffle64 v').d) := by
  rintro ⟨hh, hd⟩
  obtain ⟨a, b, c, d, e, f, g, z⟩ := v
  obtain ⟨a', b', c', d', e', f', g', z'⟩ := v'
  obtain ⟨rfl, rfl, rfl, rfl, rfl, rfl, rfl, hbelow, hdiffer⟩ := h
  have hthird := (hh.add (by decide) hd).mono (m := 25) (by decide)
  rw [shuffle64_h_add_d, shuffle64_h_add_d] at hthird
  -- the bits of `h` that are known to agree, moved down by the shifts by 9 and 23
  have hfirst : SameBelow 47 (f ^^^ z >>> 9) (f ^^^ z' >>> 9) :=
    (SameBelow.refl f).xor (SameBelow.ushiftRight (n := 47) hbelow)
  have hsecond : SameBelow 47 (b - (f ^^^ z >>> 9)) (b - (f ^^^ z' >>> 9)) :=
    (SameBelow.refl b).sub (by decide) hfirst
  have hsum : SameBelow 25 (a - e + z) (a - e + z') :=
    (SameBelow.refl (a - e)).add (by decide) (hbelow.mono (by decide))
  -- and one more bit from the third line, moved up again
  have hsecond' : SameBelow 48 (b - (f ^^^ z >>> 9)) (b - (f ^^^ z' >>> 9)) :=
    hsecond.of_ushiftRight (by decide) (hsum.of_xor hthird)
  have hfirst' : SameBelow 48 (z >>> 9) (z' >>> 9) := .of_xor (.refl f) (hsecond'.of_sub (by decide))
  exact hdiffer (hbelow.of_ushiftRight (by decide) hfirst')

/-- Words that differ in the top byte of the last one stay apart when they are shuffled and doubled. -/
theorem double_shuffle_ne {T : WordType} {v v' : Eight T.Word} (h : DifferOnTop v v') :
    Eight.add (shuffle T v) (shuffle T v) ≠ Eight.add (shuffle T v') (shuffle T v') := by
  intro heq
  obtain ⟨-, -, -, hd, -, -, hg, hh⟩ := Eight.mk.inj heq
  cases T with
  | uint32 => exact not_sameBelow_shuffle32 h (sameBelow_of_double_eq hg)
  | uint64 => exact not_sameBelow_shuffle64 h ⟨sameBelow_of_double_eq hh, sameBelow_of_double_eq hd⟩

theorem DifferOnTop.ne {T : WordType} {v v' : Eight T.Word} (h : DifferOnTop v v') : v ≠ v' := by
  rintro rfl
  exact h.differ (.refl v.h)

end Rand

end Spacenet
