-- SUMMARY: Words and their bytes: loading what was stored, blocks of eight words, and the byte swap.
import Mathlib.Tactic.IntervalCases
import Spacenet.Cdc512
import Spacenet.Library.Bytes

/-!
# Words in memory

A word is determined by its eight bytes, and a block of 64 bytes by its eight
words. The byte swap of `vhtobe64` loses nothing.
-/

namespace Spacenet

open Bytes

/-! ## Bytes -/

theorem loadWord_eq (bytes : Blob) : loadWord bytes = ofBytes 64 (bytes.take 8) := rfl

theorem storeWord_eq (word : U64) : storeWord word = toBytes word := rfl

theorem storeWord_length (word : U64) : (storeWord word).length = 8 := rfl

theorem loadWord_storeWord (word : U64) (data : Blob) : loadWord (storeWord word ++ data) = word := by
  rw [loadWord_eq, List.take_left' (storeWord_length word), storeWord_eq, ofBytes_toBytes (by decide)]

/-- Two runs of eight bytes with the same word are the same. -/
theorem loadWord_injective {bytes bytes' : Blob} (hlength : bytes.length = 8)
    (hlength' : bytes'.length = 8) (h : loadWord bytes = loadWord bytes') : bytes = bytes' := by
  rw [loadWord_eq, loadWord_eq, List.take_of_length_le (Nat.le_of_eq hlength),
    List.take_of_length_le (Nat.le_of_eq hlength')] at h
  rw [← toBytes_ofBytes (w := 64) hlength, h, toBytes_ofBytes (w := 64) hlength']

namespace Cdc512Data

/-- The words of a block in order. -/
def words (v : Cdc512Data) : List U64 := [v.a, v.b, v.c, v.d, v.e, v.f, v.g, v.h]

theorem words_injective {v w : Cdc512Data} (h : v.words = w.words) : v = w := by
  cases v
  cases w
  simpa [words] using h

/-- The words that were stored are loaded again. -/
theorem load_storeWords (v : Cdc512Data) : load (v.words.flatMap storeWord) = v := by
  have hdrop : ∀ word data, (storeWord word ++ data).drop 8 = data :=
    fun word data => List.drop_left' (storeWord_length word)
  cases v with
  | mk a b c d e f g h =>
      have hbytes : words ⟨a, b, c, d, e, f, g, h⟩ = [a, b, c, d, e, f, g, h] := rfl
      simp only [hbytes, List.flatMap_cons, List.flatMap_nil]
      have hskip : ∀ n word data, (storeWord word ++ data).drop (n + 8) = data.drop n := by
        intro n word data
        rw [Nat.add_comm, ← List.drop_drop, hdrop]
      simp only [load, hskip 48, hskip 40, hskip 32, hskip 24, hskip 16, hskip 8, hskip 0,
        List.drop_zero, loadWord_storeWord]

/-- Two blocks of 64 bytes with the same words are the same. -/
theorem load_injective {data data' : Blob} (hlength : data.length = size) (hlength' : data'.length = size)
    (h : load data = load data') : data = data' := by
  have hword : ∀ k, k < 8 → (data.drop (8 * k)).take 8 = (data'.drop (8 * k)).take 8 := by
    intro k hk
    have htake : ∀ bytes : Blob, loadWord (bytes.take 8) = loadWord bytes := by
      intro bytes
      simp only [loadWord, List.take_take, Nat.min_self]
    apply loadWord_injective
    · rw [List.length_take, List.length_drop, hlength]
      simp only [size]
      omega
    · rw [List.length_take, List.length_drop, hlength']
      simp only [size]
      omega
    · rw [htake, htake]
      have hfields := Cdc512Data.mk.inj h
      interval_cases k
      · exact hfields.1
      · exact hfields.2.1
      · exact hfields.2.2.1
      · exact hfields.2.2.2.1
      · exact hfields.2.2.2.2.1
      · exact hfields.2.2.2.2.2.1
      · exact hfields.2.2.2.2.2.2.1
      · exact hfields.2.2.2.2.2.2.2
  apply List.ext_getElem (hlength.trans hlength'.symm)
  intro i hi hi'
  have hk : i / 8 < 8 := by
    simp only [hlength, size] at hi
    omega
  have hbyte := congrArg (fun bytes => bytes[i % 8]?) (hword (i / 8) hk)
  have hmod : i % 8 < 8 := Nat.mod_lt i (by decide)
  simp only [List.getElem?_take_of_lt hmod, List.getElem?_drop, Nat.div_add_mod] at hbyte
  rw [List.getElem?_eq_getElem hi, List.getElem?_eq_getElem hi'] at hbyte
  exact Option.some.inj hbyte

end Cdc512Data

/-! ## The byte swap -/

/-- Groups of `k` bits that `m` selects change places with the groups above them. -/
theorem getLsbD_swapGroups {k : Nat} {m : U64} (hk : 0 < k)
    (hm : ∀ i, i < 64 → m.getLsbD i = decide (i / k % 2 = 0)) (x : U64) {i : Nat} (hi : i < 64) :
    ((x &&& m) <<< k ||| (x >>> k &&& m)).getLsbD i =
      if i / k % 2 = 0 then x.getLsbD (i + k) else x.getLsbD (i - k) := by
  simp only [BitVec.getLsbD_or, BitVec.getLsbD_shiftLeft, BitVec.getLsbD_and,
    BitVec.getLsbD_ushiftRight, hi, decide_true, Bool.true_and, hm i hi]
  by_cases hlow : i < k
  · have hdiv : i / k = 0 := Nat.div_eq_of_lt hlow
    simp [hlow, hdiv, Nat.add_comm]
  · obtain ⟨j, rfl⟩ := Nat.exists_eq_add_of_le (Nat.le_of_not_lt hlow)
    have hdiv : (k + j) / k = j / k + 1 := by rw [Nat.add_div_left _ hk]
    have hj : j < 64 := by omega
    rw [Nat.add_sub_cancel_left, hm j hj, hdiv]
    by_cases heven : j / k % 2 = 0
    · have hodd : ¬(j / k + 1) % 2 = 0 := by omega
      simp [hlow, heven, hodd]
    · have hodd : (j / k + 1) % 2 = 0 := by omega
      simp [heven, hodd, Nat.add_comm]

/-- The two halves of a word change places. -/
theorem getLsbD_swapHalves (x : U64) {i : Nat} (hi : i < 64) :
    (x <<< 32 ||| x >>> 32).getLsbD i = if i < 32 then x.getLsbD (i + 32) else x.getLsbD (i - 32) := by
  simp only [BitVec.getLsbD_or, BitVec.getLsbD_shiftLeft, BitVec.getLsbD_ushiftRight, hi, decide_true,
    Bool.true_and]
  by_cases hlow : i < 32
  · simp [hlow, Nat.add_comm]
  · have hhigh : x.getLsbD (32 + i) = false := BitVec.getLsbD_of_ge x _ (by omega)
    simp [hlow, hhigh]

/-- The bytes of the word change places from one end to the other. -/
theorem getLsbD_vhtobe64 (x : U64) {i : Nat} (hi : i < 64) :
    (vhtobe64 x).getLsbD i = x.getLsbD (56 - i / 8 * 8 + i % 8) := by
  have hhalves : ∀ {j}, j < 64 → (x <<< 32 ||| x >>> 32).getLsbD j =
      x.getLsbD (if j < 32 then j + 32 else j - 32) := by
    intro j hj
    rw [getLsbD_swapHalves x hj, apply_ite x.getLsbD]
  have hpairs : ∀ {j} (y : U64), j < 64 → ((y &&& 0x0000ffff0000ffff) <<< 16 |||
      (y >>> 16 &&& 0x0000ffff0000ffff)).getLsbD j = y.getLsbD (if j / 16 % 2 = 0 then j + 16 else j - 16) := by
    intro j y hj
    rw [getLsbD_swapGroups (by decide) (by decide) y hj, apply_ite y.getLsbD]
  have hbytes : ∀ {j} (y : U64), j < 64 → ((y &&& 0x00ff00ff00ff00ff) <<< 8 |||
      (y >>> 8 &&& 0x00ff00ff00ff00ff)).getLsbD j = y.getLsbD (if j / 8 % 2 = 0 then j + 8 else j - 8) := by
    intro j y hj
    rw [getLsbD_swapGroups (by decide) (by decide) y hj, apply_ite y.getLsbD]
  unfold vhtobe64
  rw [hbytes _ hi, hpairs _ (by split <;> omega), hhalves (by split <;> split <;> omega)]
  congr 1
  split <;> split <;> split <;> omega

theorem vhtobe64_injective {x y : U64} (h : vhtobe64 x = vhtobe64 y) : x = y := by
  apply BitVec.eq_of_getLsbD_eq
  intro i hi
  -- the bit that comes to the place of `i`
  have hplace : 56 - (56 - i / 8 * 8 + i % 8) / 8 * 8 + (56 - i / 8 * 8 + i % 8) % 8 = i := by omega
  have hlt : 56 - i / 8 * 8 + i % 8 < 64 := by omega
  have hbit := congrArg (fun z => z.getLsbD (56 - i / 8 * 8 + i % 8)) h
  simpa only [getLsbD_vhtobe64 _ hlt, hplace] using hbit

end Spacenet
