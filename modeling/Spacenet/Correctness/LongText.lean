-- SUMMARY: The long text of a digest is the big-endian hexadecimal of the final words, in groups of four digits.
import Mathlib.Data.List.GetD
import Spacenet.Cdc512.DigestText

/-!
# The long text of a digest

Behind `finish`, `to_string` shows the words `a` to `h` with 16 digits each, in
groups of four with dashes between them. The dashes carry nothing, so the text is
taken apart again by leaving them out.
-/

namespace Spacenet

/-- The final words in hexadecimal. -/
def Cdc512Data.hexDigits (v : Cdc512Data) : Text := v.words.flatMap hexWord

/-- 32 groups of four digits with dashes between them. -/
def dashed (digits : Text) : Text :=
  ['-'].intercalate ((List.range 32).map fun k => (digits.drop (4 * k)).take 4)

/-! ## The loop -/

/-- The text of the bytes `2 * k` and `2 * k + 1`. -/
def pairText (digest : Blob) (k : Nat) : Text :=
  insertByte (digest.getD (2 * k) 0) ++ insertByte (digest.getD (2 * k + 1) 0)

/-- Two iterations of the `for` write a group and a dash. -/
theorem insertBytes_pairs (digest : Blob) (k : Nat) :
    insertBytes digest (2 * k) = (List.range k).flatMap fun j => pairText digest j ++ ['-'] := by
  induction k with
  | zero => rfl
  | succ k ih =>
      have heven : ¬2 * k % 2 ≠ 0 := by omega
      have hodd : (2 * k + 1) % 2 ≠ 0 := by omega
      rw [Nat.mul_succ, List.range_succ, List.flatMap_append, ← ih]
      simp only [insertBytes, if_neg heven, if_pos hodd, pairText, List.append_nil, List.flatMap_cons,
        List.flatMap_nil, List.append_assoc]

theorem intercalate_concat (sep : Text) (pieces : List Text) (last : Text) :
    sep.intercalate (pieces ++ [last]) = (pieces.flatMap fun piece => piece ++ sep) ++ last := by
  induction pieces with
  | nil => simp [List.intercalate]
  | cons piece pieces ih =>
      rw [List.flatMap_cons, List.append_assoc, ← ih]
      cases pieces with
      | nil => simp [List.intercalate]
      | cons piece' pieces => simp [List.intercalate]

/-- The text of a digest of 64 bytes: dashes between the pairs. -/
theorem Cdc512.toString_eq_pairs (ctx : Cdc512) :
    ctx.toString = ['-'].intercalate ((List.range 32).map (pairText ctx.digest)) := by
  have hodd : insertBytes ctx.digest (Cdc512Data.size - 1) =
      insertBytes ctx.digest (2 * 31) ++ insertByte (ctx.digest.getD (2 * 31) 0) := by
    have heven : ¬2 * 31 % 2 ≠ 0 := by decide
    show insertBytes ctx.digest (2 * 31 + 1) = _
    rw [insertBytes, if_neg heven, List.append_nil]
  have hrange : (List.range 32).map (pairText ctx.digest) =
      (List.range 31).map (pairText ctx.digest) ++ [pairText ctx.digest 31] := by
    rw [List.range_succ, List.map_append]
    rfl
  rw [toString, hodd, insertBytes_pairs, hrange, intercalate_concat, List.flatMap_map, List.append_assoc]
  rfl

/-- The pairs are the groups of four digits. -/
theorem pairText_eq {digest : Blob} (hlength : digest.length = 64) {k : Nat} (hk : k < 32) :
    pairText digest k = ((digest.flatMap insertByte).drop (4 * k)).take 4 := by
  have hfirst : 2 * k < digest.length := by omega
  have hsecond : 2 * k + 1 < digest.length := by omega
  have hmul : 4 * k = 2 * (2 * k) := by omega
  have hfour : 4 = 2 * 2 := rfl
  have htwo : (digest.drop (2 * k)).take 2 = [digest[2 * k], digest[2 * k + 1]] := by
    rw [List.drop_eq_getElem_cons hfirst, List.drop_eq_getElem_cons hsecond]
    rfl
  rw [hmul, Digits.drop_flatMap length_insertByte, hfour, Digits.take_flatMap length_insertByte, htwo,
    pairText, List.getD_eq_getElem _ _ hfirst, List.getD_eq_getElem _ _ hsecond]
  simp

/-! ## The digest -/

theorem Cdc512.finish_digest64 (ctx : Cdc512) :
    ctx.finish.digest64 = ctx.finish.toCdc512Data.words.map vhtobe64 := rfl

theorem Cdc512.length_finish_digest (ctx : Cdc512) : ctx.finish.digest.length = 64 := by
  rw [digest, Digits.length_flatMap storeWord_length, finish_digest64, List.length_map]
  rfl

theorem Cdc512.flatMap_finish_digest (ctx : Cdc512) :
    ctx.finish.digest.flatMap insertByte = ctx.finish.toCdc512Data.hexDigits := by
  rw [digest, finish_digest64, List.flatMap_map, List.flatMap_assoc]
  simp only [flatMap_insertByte_word]
  rfl

theorem Cdc512.finish_toString (ctx : Cdc512) :
    ctx.finish.toString = dashed ctx.finish.toCdc512Data.hexDigits := by
  rw [toString_eq_pairs, dashed, ← flatMap_finish_digest]
  congr 1
  apply List.map_congr_left
  intro k hk
  exact pairText_eq ctx.length_finish_digest (List.mem_range.mp hk)

/-! ## Taking the text apart -/

theorem insertByte_filter (byte : U8) : (insertByte byte).filter (· ≠ '-') = insertByte byte := by
  have hlt := byte.isLt
  apply List.filter_eq_self.mpr
  intro c hc
  rw [insertByte_eq] at hc
  rcases List.mem_cons.mp hc with rfl | hc
  · simpa using hexDigit_ne_dash (by omega)
  · obtain rfl := List.mem_singleton.mp hc
    simpa using hexDigit_ne_dash (by omega)

theorem insertBytes_filter (digest : Blob) {n : Nat} (hn : n ≤ digest.length) :
    (insertBytes digest n).filter (· ≠ '-') = (digest.take n).flatMap insertByte := by
  induction n with
  | zero => rfl
  | succ n ih =>
      have hdash : (if n % 2 ≠ 0 then ['-'] else []).filter (· ≠ '-') = [] := by
        split <;> rfl
      have hlt : n < digest.length := hn
      rw [insertBytes, List.filter_append, List.filter_append, hdash, insertByte_filter,
        ih (Nat.le_of_lt hlt), List.take_succ_eq_append_getElem hlt, List.flatMap_append,
        List.getD_eq_getElem _ _ hlt]
      simp

/-- Without its dashes the text is that of the bytes. -/
theorem Cdc512.toString_filter {ctx : Cdc512} (hlength : ctx.digest.length = 64) :
    ctx.toString.filter (· ≠ '-') = ctx.digest.flatMap insertByte := by
  have hlast : 63 < ctx.digest.length := by omega
  have hdigest : ctx.digest = ctx.digest.take 63 ++ [ctx.digest[63]] := by
    rw [← List.take_succ_eq_append_getElem hlast, List.take_of_length_le (Nat.le_of_eq hlength)]
  have htext : ctx.toString = insertBytes ctx.digest 63 ++ insertByte ctx.digest[63] := by
    rw [← List.getD_eq_getElem _ 0 hlast]
    rfl
  rw [htext, List.filter_append, insertByte_filter, insertBytes_filter _ (Nat.le_of_lt hlast)]
  conv_rhs => rw [hdigest, List.flatMap_append]
  simp

theorem Cdc512.head_toString (ctx : Cdc512) : ctx.toString.head? ≠ some '-' := by
  have hlt := (ctx.digest.getD (2 * 0) 0).isLt
  rw [toString_eq_pairs, List.range_succ_eq_map, List.map_cons]
  have hcons : ∀ (piece : Text) pieces, piece ≠ [] →
      (['-'].intercalate (piece :: pieces)).head? = piece.head? := by
    intro piece pieces hne
    cases pieces with
    | nil => simp [List.intercalate]
    | cons piece' pieces => simp [List.intercalate, List.head?_append_of_ne_nil _ hne]
  rw [hcons _ _ (by simp [pairText, insertByte_eq]), pairText, insertByte_eq]
  simpa using hexDigit_ne_dash (by omega)

theorem Cdc512.getLast_toString (ctx : Cdc512) : ctx.toString.getLast? ≠ some '-' := by
  have hlt := (ctx.digest.getD (Cdc512Data.size - 1) 0).isLt
  rw [toString, insertByte_eq]
  simpa using hexDigit_ne_dash (by omega)

/-- Behind `finish` the text is the hexadecimal of the final words in groups of four digits, with no dash
at its ends, and it tells digests apart. -/
theorem toString_hexadecimal (ctx : Cdc512) :
    ctx.finish.toString = dashed ctx.finish.toCdc512Data.hexDigits ∧
    ctx.finish.toCdc512Data.hexDigits.length = 128 ∧
    ctx.finish.toString.head? ≠ some '-' ∧ ctx.finish.toString.getLast? ≠ some '-' ∧
    ∀ ctx' : Cdc512, ctx.finish.digest ≠ ctx'.finish.digest → ctx.finish.toString ≠ ctx'.finish.toString := by
  refine ⟨ctx.finish_toString, ?_, ctx.finish.head_toString, ctx.finish.getLast_toString, ?_⟩
  · have hword : ∀ w, (hexWord w).length = 16 := fun w => by
      rw [hexWord, List.length_map, List.length_range]
    rw [Cdc512Data.hexDigits, Digits.length_flatMap hword]
    rfl
  · intro ctx' hdigest htext
    apply hdigest
    apply Digits.flatMap_injective length_insertByte Nat.two_pos insertByte_injective
    rw [← Cdc512.toString_filter ctx.length_finish_digest, htext,
      Cdc512.toString_filter ctx'.length_finish_digest]

/-- The first text of `cdc512_test`. -/
example : (Cdc512.init.update ((List.range 240).map (BitVec.ofNat 8))).finish.toString =
    ("F427-CCD4-183C-79B9-731E-1E79-2796-7C54-560A-DD7F-6AA4-D302-354C-5F15-02B2-3D6B-1B46-F16C-AEA6-7A55-" ++
      "2A3A-F4D2-F388-5916-7769-8A3A-160A-3DBD-79B4-150B-026D-CEA0").toList := by
  decide +kernel

end Spacenet
