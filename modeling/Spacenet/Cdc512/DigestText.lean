-- SUMMARY: `cdc512::to_string`: the bytes of the digest in hexadecimal, a dash behind every second.
import Spacenet.Cdc512.Words
import Spacenet.Library.Digits

/-!
# The text of a digest

`to_string` writes the bytes of the digest in memory order into a stream that is
set to upper-case hexadecimal with fill `0`. The bytes of a stored word are those
of the word from the highest to the lowest, since `vhtobe64` has turned them round.
-/

namespace Spacenet

/-! ## Formatting -/

/-- A number in a stream with `std::ios::hex | std::ios::uppercase`. -/
def hexText (n : Nat) : Text := (Nat.toDigits 16 n).map Char.toUpper

/-- What `std::setw(width)` makes of a text in a stream with `fill('0')`. -/
def setw (width : Nat) (text : Text) : Text := List.replicate (width - text.length) '0' ++ text

/-- `std::setw(2) << uint16_t(byte)`. -/
def insertByte (byte : U8) : Text := setw 2 (hexText byte.toNat)

/-- The text behind `n` iterations of the `for`. -/
def insertBytes (digest : Blob) : (n : Nat) → Text
  | 0 => []
  | i + 1 =>
      insertBytes digest i ++ insertByte (digest.getD i 0) ++ if i % 2 ≠ 0 then ['-'] else []

/-- `to_string`. The last byte has no dash behind it. -/
def Cdc512.toString (ctx : Cdc512) : Text :=
  insertBytes ctx.digest (Cdc512Data.size - 1) ++ insertByte (ctx.digest.getD (Cdc512Data.size - 1) 0)

/-! ## Hexadecimal digits -/

/-- An upper-case hexadecimal digit. -/
def hexDigit (n : Nat) : Char := "0123456789ABCDEF".toList.getD n '0'

theorem hexDigit_injective {m n : Nat} (hm : m < 16) (hn : n < 16) (h : hexDigit m = hexDigit n) : m = n := by
  have key : ∀ m < 16, ∀ n < 16, hexDigit m = hexDigit n → m = n := by decide
  exact key m hm n hn h

theorem hexDigit_ne_dash {n : Nat} (hn : n < 16) : hexDigit n ≠ '-' := by
  have key : ∀ n < 16, hexDigit n ≠ '-' := by decide
  exact key n hn

/-- A byte is written with two digits. -/
theorem insertByte_eq (byte : U8) :
    insertByte byte = [hexDigit (byte.toNat / 16), hexDigit (byte.toNat % 16)] := by
  have key : ∀ n < 256, setw 2 (hexText n) = [hexDigit (n / 16), hexDigit (n % 16)] := by decide +kernel
  exact key byte.toNat byte.isLt

theorem length_insertByte (byte : U8) : (insertByte byte).length = 2 := by
  rw [insertByte_eq]
  rfl

theorem insertByte_injective (byte byte' : U8) (h : insertByte byte = insertByte byte') : byte = byte' := by
  have hlt := byte.isLt
  have hlt' := byte'.isLt
  rw [insertByte_eq, insertByte_eq] at h
  obtain ⟨hhigh, hlow⟩ := List.cons.inj h
  have hdiv := hexDigit_injective (by omega) (by omega) hhigh
  have hmod := hexDigit_injective (by omega) (by omega) (List.cons.inj hlow).1
  apply BitVec.eq_of_toNat_eq
  omega

/-- The 16 hexadecimal digits of a word, the highest first. -/
def hexWord (w : U64) : Text := (List.range 16).map fun i => hexDigit (w.toNat / 16 ^ (15 - i) % 16)

/-- The bytes of a word turned round by `vhtobe64`. -/
theorem storeWord_vhtobe64 (w : U64) : storeWord (vhtobe64 w) = (storeWord w).reverse := by
  apply List.ext_getElem
  · rw [List.length_reverse, storeWord_length, storeWord_length]
  · intro k hk hk'
    rw [storeWord_length] at hk
    apply BitVec.eq_of_getLsbD_eq
    intro j hj
    have hsource : 8 * k + j < 64 := by omega
    have hbit : (vhtobe64 w).getLsbD (8 * k + j) = w.getLsbD (8 * (7 - k) + j) := by
      rw [getLsbD_vhtobe64 w hsource]
      congr 1
      omega
    simpa [storeWord, hj] using hbit

/-- The two digits of a byte of a word. -/
theorem insertByte_of_word (w : U64) (m : Nat) : insertByte ((w >>> (8 * m)).setWidth 8) =
    [hexDigit (w.toNat / 16 ^ (2 * m + 1) % 16), hexDigit (w.toNat / 16 ^ (2 * m) % 16)] := by
  have hpow : 16 ^ (2 * m + 1) = 16 ^ (2 * m) * 16 := pow_succ 16 (2 * m)
  have hshift : 2 ^ (8 * m) = 16 ^ (2 * m) := by
    rw [Nat.pow_mul 2 8 m, Nat.pow_mul 16 2 m]
  have hbyte : ((w >>> (8 * m)).setWidth 8).toNat = w.toNat / 16 ^ (2 * m) % 256 := by
    rw [BitVec.toNat_setWidth, BitVec.toNat_ushiftRight, Nat.shiftRight_eq_div_pow, hshift]
  rw [insertByte_eq, hbyte, hpow, ← Nat.div_div_eq_div_mul]
  generalize w.toNat / 16 ^ (2 * m) = n
  have hhigh : n % 256 / 16 = n / 16 % 16 := by omega
  have hlow : n % 256 % 16 = n % 16 := by omega
  rw [hhigh, hlow]

/-- The bytes of a word that `finish` stores are written with the digits of the word. -/
theorem flatMap_insertByte_word (w : U64) : (storeWord (vhtobe64 w)).flatMap insertByte = hexWord w := by
  have hbytes : (storeWord w).reverse = (List.range 8).reverse.map fun m => (w >>> (8 * m)).setWidth 8 :=
    List.map_reverse.symm
  rw [storeWord_vhtobe64, hbytes, List.flatMap_map]
  simp only [insertByte_of_word]
  rfl

end Spacenet
