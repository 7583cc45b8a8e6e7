-- SUMMARY: When the short texts of two digests differ: the words are written without padding and separator.
import Mathlib.Data.List.GetD
import Spacenet.Library.Digits
import Spacenet.Tracker

/-!
# The short text of a digest

`to_short_string` writes each word of the digest with as many base-50 digits as it
needs and puts nothing between the words. So the text does not say where a word
ends, and two digests have one text when their words are pieces of one number.
-/

namespace Spacenet

open Digits

theorem shortAlphabet_nodup : shortAlphabet.Nodup := by decide

theorem one_lt_shortAlphabet_length : 1 < shortAlphabet.length := by decide

/-- The words of the digest in the order in which `to_short_string` writes them. -/
def Cdc512.shortWords (ctx : Cdc512) : List Nat := ctx.digest64.reverse.map BitVec.toNat

/-- The number whose base-50 digits the short text shows: the words from the last to the first, each
above the digits of the words before it. -/
def Cdc512.shortNumber (ctx : Cdc512) : Nat := stack shortAlphabet.length ctx.shortWords

/-- A digit is found again from its character. -/
theorem shortAlphabet_getD_injective {i j : Nat} (hi : i < shortAlphabet.length)
    (hj : j < shortAlphabet.length) (h : shortAlphabet.getD i '.' = shortAlphabet.getD j '.') : i = j := by
  rw [List.getD_eq_getElem _ _ hi, List.getD_eq_getElem _ _ hj] at h
  exact (List.Nodup.getElem_inj_iff shortAlphabet_nodup).mp h

theorem Cdc512.toShortString_eq (ctx : Cdc512) :
    ctx.toShortString =
      (Nat.digits shortAlphabet.length ctx.shortNumber).map fun i => shortAlphabet.getD i '.' := by
  rw [shortNumber, ← flatMap_digits one_lt_shortAlphabet_length, shortWords, List.flatMap_map,
    List.map_flatMap]
  rfl

/-- The short texts of two digests are the same if and only if their numbers are. -/
theorem Cdc512.toShortString_eq_iff {ctx ctx' : Cdc512} :
    ctx.toShortString = ctx'.toShortString ↔ ctx.shortNumber = ctx'.shortNumber := by
  constructor
  · intro h
    rw [toShortString_eq, toShortString_eq] at h
    have hbound : ∀ n, ∀ i ∈ Nat.digits shortAlphabet.length n, i < shortAlphabet.length :=
      fun n i hi => Nat.digits_lt_base one_lt_shortAlphabet_length hi
    have hdigits : Nat.digits shortAlphabet.length ctx.shortNumber =
        Nat.digits shortAlphabet.length ctx'.shortNumber := by
      apply List.ext_getElem
      · simpa using congrArg List.length h
      · intro k hk hk'
        refine shortAlphabet_getD_injective (hbound _ _ (List.getElem_mem hk))
          (hbound _ _ (List.getElem_mem hk')) ?_
        have hchar := congrArg (fun text => text[k]?) h
        simpa [List.getElem?_map, List.getElem?_eq_getElem hk, List.getElem?_eq_getElem hk'] using hchar
    exact Nat.digits_inj_iff.mp hdigits
  · intro h
    rw [toShortString_eq, toShortString_eq, h]

/-- Digests whose words have the same numbers of digits are told apart by the short text. -/
theorem Cdc512.digest_eq_of_places {ctx ctx' : Cdc512}
    (hplaces : ctx.shortWords.map (places shortAlphabet.length) =
      ctx'.shortWords.map (places shortAlphabet.length))
    (h : ctx.toShortString = ctx'.toShortString) : ctx.digest = ctx'.digest := by
  have hwords := stack_injective one_lt_shortAlphabet_length hplaces (toShortString_eq_iff.mp h)
  have hreverse : ctx.digest64.reverse = ctx'.digest64.reverse :=
    List.map_injective_iff.mpr (fun _ _ hnat => BitVec.eq_of_toNat_eq hnat) hwords
  rw [digest, digest, List.reverse_injective hreverse]

/-- The short texts of two digests differ if and only if the numbers differ that their words make up. -/
theorem toShortString_ne_iff (ctx ctx' : Cdc512) :
    ctx.toShortString ≠ ctx'.toShortString ↔ ctx.shortNumber ≠ ctx'.shortNumber :=
  not_congr Cdc512.toShortString_eq_iff

/-- A state whose digest has `x` and `y` for its last two words. -/
def lastWords (x y : U64) : Cdc512 :=
  Cdc512.finish ⟨⟨0, 0, 0, 0, 0, 0, vhtobe64 x, vhtobe64 y⟩, [], 0⟩

/-- A one in the last word and a one in the word before it have the same short text. -/
theorem toShortString_lastWords_collide :
    (lastWords 0 1).digest ≠ (lastWords 1 0).digest ∧
      (lastWords 0 1).toShortString = (lastWords 1 0).toShortString := by
  decide +kernel

end Spacenet
