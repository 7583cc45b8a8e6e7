-- SUMMARY: Words in the memory of a little-endian machine: their bytes, and arrays of words as runs of bytes.
import Mathlib.Data.List.Basic

/-!
# Words and bytes

A word of `w` bits, `w` a multiple of 8, is stored as `w / 8` bytes, the lowest
first. An array of words is the run of the bytes of its words.
-/

namespace Bytes

variable {w n : Nat}

/-! ## A word -/

/-- The word that a run of bytes holds. -/
def ofBytes (w : Nat) (bytes : List (BitVec 8)) : BitVec w :=
  bytes.foldr (fun byte word => word <<< 8 ||| byte.setWidth w) 0

/-- The bytes of a word. -/
def toBytes (word : BitVec w) : List (BitVec 8) :=
  (List.range (w / 8)).map fun i => (word >>> (8 * i)).setWidth 8

@[simp] theorem length_toBytes (word : BitVec w) : (toBytes word).length = w / 8 := by
  simp [toBytes]

theorem getLsbD_ofBytes (bytes : List (BitVec 8)) {i : Nat} (hi : i < w) :
    (ofBytes w bytes).getLsbD i = (bytes[i / 8]?.getD 0).getLsbD (i % 8) := by
  induction bytes generalizing i with
  | nil => simp [ofBytes]
  | cons byte bytes ih =>
      have hcons : ofBytes w (byte :: bytes) = ofBytes w bytes <<< 8 ||| byte.setWidth w := rfl
      simp only [hcons, BitVec.getLsbD_or, BitVec.getLsbD_shiftLeft, BitVec.getLsbD_setWidth, hi, decide_true,
        Bool.true_and]
      by_cases hlow : i < 8
      · have hdiv : i / 8 = 0 := Nat.div_eq_of_lt hlow
        have hmod : i % 8 = i := Nat.mod_eq_of_lt hlow
        simp [hlow, hdiv, hmod]
      · have hdiv : i / 8 = (i - 8) / 8 + 1 := by omega
        have hmod : i % 8 = (i - 8) % 8 := by omega
        have hhigh : byte.getLsbD i = false := BitVec.getLsbD_of_ge byte i (by omega)
        rw [ih (by omega), hdiv, hmod, hhigh]
        simp [hlow]

/-- A bit of a byte of a word. -/
theorem getLsbD_toBytes (word : BitVec w) {k j : Nat} (hk : k < w / 8) (hj : j < 8) :
    ((toBytes word)[k]?.getD 0).getLsbD j = word.getLsbD (8 * k + j) := by
  simp [toBytes, List.getElem?_range hk, hj]

theorem ofBytes_toBytes (hw : 8 ∣ w) (word : BitVec w) : ofBytes w (toBytes word) = word := by
  apply BitVec.eq_of_getLsbD_eq
  intro i hi
  have hbit : 8 * (i / 8) + i % 8 = i := Nat.div_add_mod i 8
  rw [getLsbD_ofBytes _ hi, getLsbD_toBytes word (by omega) (Nat.mod_lt i (by decide)), hbit]

theorem toBytes_ofBytes {bytes : List (BitVec 8)} (hlength : bytes.length = w / 8) :
    toBytes (ofBytes w bytes) = bytes := by
  apply List.ext_getElem (by rw [length_toBytes, hlength])
  intro k hk hk'
  apply BitVec.eq_of_getLsbD_eq
  intro j hj
  rw [length_toBytes] at hk
  have hdiv : (8 * k + j) / 8 = k := by omega
  have hmod : (8 * k + j) % 8 = j := by omega
  have hbyte := getLsbD_toBytes (ofBytes w bytes) hk hj
  rw [getLsbD_ofBytes _ (by omega), hdiv, hmod, List.getElem?_eq_getElem hk',
    List.getElem?_eq_getElem (by rwa [length_toBytes])] at hbyte
  exact hbyte

/-! ## An array -/

/-- The bytes of an array of words. -/
def arrayBytes (words : Vector (BitVec w) n) : List (BitVec 8) := words.toList.flatMap toBytes

/-- The array of words that a run of bytes holds. -/
def arrayOf (n : Nat) (bytes : List (BitVec 8)) : Vector (BitVec w) n :=
  Vector.ofFn fun i => ofBytes w ((bytes.drop (w / 8 * i)).take (w / 8))

theorem getElem_arrayOf (bytes : List (BitVec 8)) {i : Nat} (hi : i < n) :
    (arrayOf n bytes : Vector (BitVec w) n)[i] = ofBytes w ((bytes.drop (w / 8 * i)).take (w / 8)) := by
  simp [arrayOf]

/-- A run of bytes, cut into pieces of `k`. -/
theorem flatMap_pieces (k n : Nat) (bytes : List (BitVec 8)) :
    ((List.range n).flatMap fun i => (bytes.drop (k * i)).take k) = bytes.take (k * n) := by
  induction n with
  | zero => simp
  | succ n ih =>
      rw [List.range_succ, List.flatMap_append, ih, List.flatMap_singleton, Nat.mul_succ, List.take_add]

theorem arrayBytes_arrayOf {bytes : List (BitVec 8)} (hlength : bytes.length = w / 8 * n) :
    arrayBytes (arrayOf n bytes : Vector (BitVec w) n) = bytes := by
  have hpieces : ∀ i ∈ List.range n, toBytes (ofBytes w ((bytes.drop (w / 8 * i)).take (w / 8)))
      = (bytes.drop (w / 8 * i)).take (w / 8) := by
    intro i hi
    have hin := Nat.mul_le_mul_left (w / 8) (Nat.succ_le_of_lt (List.mem_range.mp hi))
    apply toBytes_ofBytes
    rw [List.length_take, List.length_drop, hlength]
    rw [Nat.mul_succ] at hin
    omega
  have hwords : (arrayOf n bytes : Vector (BitVec w) n).toList
      = (List.range n).map fun i => ofBytes w ((bytes.drop (w / 8 * i)).take (w / 8)) := by
    apply List.ext_getElem (by simp)
    intro i hi hi'
    simp [arrayOf]
  rw [arrayBytes, hwords, List.flatMap_map, List.flatMap_congr hpieces, flatMap_pieces, ← hlength, List.take_length]

theorem length_arrayBytes (words : Vector (BitVec w) n) : (arrayBytes words).length = w / 8 * n := by
  simp [arrayBytes, List.length_flatMap, Nat.mul_comm]

/-- All words but the last leave out the last byte. -/
theorem getElem_arrayOf_concat {bytes : List (BitVec 8)} (byte byte' : BitVec 8) {i : Nat}
    (hlength : bytes.length + 1 = w / 8 * n) (hi : i + 1 < n) :
    (arrayOf n (bytes ++ [byte]) : Vector (BitVec w) n)[i] = (arrayOf n (bytes ++ [byte']))[i] := by
  have hpos : 0 < w / 8 := by
    rw [Nat.pos_iff_ne_zero]
    intro hzero
    rw [hzero, Nat.zero_mul] at hlength
    omega
  have hin := Nat.mul_le_mul_left (w / 8) hi
  rw [Nat.mul_succ, Nat.mul_succ] at hin
  have hpiece : ∀ b, ((bytes ++ [b]).drop (w / 8 * i)).take (w / 8) = (bytes.drop (w / 8 * i)).take (w / 8) := by
    intro b
    rw [List.drop_append_of_le_length (by omega), List.take_append_of_le_length]
    rw [List.length_drop]
    omega
  rw [getElem_arrayOf, getElem_arrayOf, hpiece, hpiece]

/-- The last byte is the highest of the last word. -/
theorem getLsbD_arrayOf_concat {bytes : List (BitVec 8)} (byte : BitVec 8) {i : Nat} (hw : 8 ∣ w)
    (hlength : bytes.length + 1 = w / 8 * n) (hi : i + 1 = n) {j : Nat} (hj : j < w) :
    (arrayOf n (bytes ++ [byte]) : Vector (BitVec w) n)[i].getLsbD j =
      if j < w - 8 then ((bytes.drop (w / 8 * i))[j / 8]?.getD 0).getLsbD (j % 8)
      else byte.getLsbD (j % 8) := by
  rw [← hi, Nat.mul_succ] at hlength
  have hlast : (bytes.drop (w / 8 * i)).length + 1 = w / 8 := by
    rw [List.length_drop]
    omega
  rw [getElem_arrayOf, getLsbD_ofBytes _ hj, List.drop_append_of_le_length (by omega),
    List.take_of_length_le (by rw [List.length_append, List.length_singleton]; omega)]
  split
  · next hlow => rw [List.getElem?_append_left (by omega)]
  · next hhigh =>
      have hindex : j / 8 - (bytes.drop (w / 8 * i)).length = 0 := by omega
      rw [List.getElem?_append_right (by omega), hindex, List.getElem?_cons_zero, Option.getD_some]

end Bytes
