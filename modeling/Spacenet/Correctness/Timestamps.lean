-- SUMMARY: Modification times that are not too far apart have different `fmtim`, and the database gives `fmtim` back.
import Mathlib.Data.BitVec
import Mathlib.Data.Nat.ModEq
import Spacenet.Indexer

/-!
# Timestamps

`fmtim` is computed from a FILETIME through seconds since 1970 in a signed `time_t`
and nanoseconds. Modulo 2^64 it is 100 times the FILETIME less a constant, so it
determines the FILETIME modulo 2^62. The database stores it as a signed integer.
-/

namespace Spacenet

/-! ## Conversions -/

/-- `ULARGE_INTEGER` of a FILETIME. -/
def FileTime.quadPart (ft : FileTime) : U64 := ft.dwHighDateTime ++ ft.dwLowDateTime

/-- `time_t(x)`, a signed integer of 64 bits. -/
def timeT (x : U64) : Int := x.toInt

/-- A `time_t` in a variable of type `uint64_t`. -/
def ofTimeT (t : Int) : U64 := BitVec.ofInt 64 t

/-- `fmtim` of a FILETIME: the seconds of `unpack_FILETIME` pass through `time_t`. -/
def FileTime.fmtim (ft : FileTime) : U64 :=
  ofTimeT (timeT (unpackFILETIME ft).1) * 1000000000 + (unpackFILETIME ft).2.setWidth 64

/-- `statement::bind(int, long long unsigned)`: the value that SQLite stores. -/
def bindInt64 (value : U64) : Int := value.toInt

/-- `get<uint64_t>` of a stored integer. -/
def getUint64 (column : Int) : U64 := BitVec.ofInt 64 column

theorem ofTimeT_timeT (x : U64) : ofTimeT (timeT x) = x := BitVec.ofInt_toInt

theorem getUint64_bindInt64 (value : U64) : getUint64 (bindInt64 value) = value := BitVec.ofInt_toInt

/-- The reader's members give the `fmtim` of the entry's write time. -/
theorem DirectoryReader.publish_fmtim (dr : DirectoryReader) (fdw : FindData) :
    (dr.publish fdw).fmtim = fdw.stat.ftLastWriteTime.fmtim := by
  rw [FileTime.fmtim, ofTimeT_timeT]
  rfl

/-! ## fmtim -/

theorem FileTime.quadPart_injective {ft ft' : FileTime} (h : ft.quadPart = ft'.quadPart) : ft = ft' := by
  have hhigh := congrArg (BitVec.extractLsb' 32 32) h
  have hlow := congrArg (BitVec.extractLsb' 0 32) h
  simp only [quadPart, BitVec.extractLsb'_append_eq_left, BitVec.extractLsb'_append_eq_right] at hhigh hlow
  cases ft
  cases ft'
  simp_all

/-- The seconds and the rest of a count of 100 ns, in nanoseconds. -/
theorem nanoseconds_eq (q : U64) :
    q / 10000000 * 1000000000 + (((q % 10000000) * 100).setWidth 32).setWidth 64 = 100 * q := by
  have hsecond : (10000000 : U64).toNat = 10000000 := rfl
  have hnano : (1000000000 : U64).toNat = 1000000000 := rfl
  have hhundred : (100 : U64).toNat = 100 := rfl
  have hlt : q.toNat % 10000000 * 100 < 2 ^ 32 := by omega
  have hlt' : q.toNat % 10000000 * 100 < 2 ^ 64 := by omega
  have hseconds : (q / 10000000 * 1000000000).toNat = q.toNat / 10000000 * 1000000000 % 2 ^ 64 := by
    rw [BitVec.toNat_mul, BitVec.toNat_udiv, hsecond, hnano]
  have hrest : ((((q % 10000000) * 100).setWidth 32).setWidth 64 : U64).toNat = q.toNat % 10000000 * 100 := by
    rw [BitVec.toNat_setWidth, BitVec.toNat_setWidth, BitVec.toNat_mul, BitVec.toNat_umod, hsecond, hhundred,
      Nat.mod_eq_of_lt hlt', Nat.mod_eq_of_lt hlt, Nat.mod_eq_of_lt hlt']
  have hsum : q.toNat / 10000000 * 1000000000 + q.toNat % 10000000 * 100 = 100 * q.toNat := by omega
  apply BitVec.eq_of_toNat_eq
  rw [BitVec.toNat_add, hseconds, hrest, Nat.mod_add_mod, hsum, BitVec.toNat_mul, hhundred]

/-- `fmtim` is 100 times the FILETIME less the nanoseconds between the epochs. -/
theorem FileTime.fmtim_eq (ft : FileTime) :
    ft.fmtim = 100 * ft.quadPart - 11644473600 * 1000000000 := by
  have hseconds : (unpackFILETIME ft).1 = ft.quadPart / 10000000 - 11644473600 := rfl
  have hrest : (unpackFILETIME ft).2 = ((ft.quadPart % 10000000) * 100).setWidth 32 := rfl
  rw [fmtim, ofTimeT_timeT, hseconds, hrest, ← nanoseconds_eq ft.quadPart, sub_mul, sub_add_eq_add_sub]

/-- Counts of 100 ns that differ by less than `m` differ in nanoseconds modulo `4 * m`: 25 divides out. -/
theorem eq_of_modEq_hundred {a b m : Nat} (hm : Nat.Coprime m 25) (ha : a < b + m) (hb : b < a + m)
    (h : 100 * a ≡ 100 * b [MOD 4 * m]) : a = b := by
  have h25 : 25 * a ≡ 25 * b [MOD m] := by
    apply Nat.ModEq.mul_left_cancel' (c := 4) (by decide)
    rwa [← Nat.mul_assoc, ← Nat.mul_assoc]
  have hmod : a ≡ b [MOD m] := h25.cancel_left_of_coprime hm
  apply hmod.eq_of_abs_lt
  rw [abs_lt]
  constructor
  · omega
  · omega

/-- For FILETIMEs that differ by less than 2^62, the values of `fmtim` are the same if and only if the
FILETIMEs are; and what the database gives back is the value that was stored. -/
theorem fmtim_eq_iff {fdw fdw' : FindData} (dr dr' : DirectoryReader)
    (hnear : fdw.stat.ftLastWriteTime.quadPart.toNat < fdw'.stat.ftLastWriteTime.quadPart.toNat + 2 ^ 62)
    (hnear' : fdw'.stat.ftLastWriteTime.quadPart.toNat < fdw.stat.ftLastWriteTime.quadPart.toNat + 2 ^ 62) :
    ((dr.publish fdw).fmtim = (dr'.publish fdw').fmtim ↔
      fdw.stat.ftLastWriteTime = fdw'.stat.ftLastWriteTime) ∧
    getUint64 (bindInt64 (dr.publish fdw).fmtim) = (dr.publish fdw).fmtim := by
  refine ⟨?_, getUint64_bindInt64 _⟩
  rw [DirectoryReader.publish_fmtim, DirectoryReader.publish_fmtim]
  generalize fdw.stat.ftLastWriteTime = ft at hnear hnear' ⊢
  generalize fdw'.stat.ftLastWriteTime = ft' at hnear hnear' ⊢
  constructor
  · intro h
    rw [FileTime.fmtim_eq, FileTime.fmtim_eq] at h
    have hhundred : (100 : U64).toNat = 100 := rfl
    have hmul := congrArg BitVec.toNat (sub_left_inj.mp h)
    rw [BitVec.toNat_mul, BitVec.toNat_mul, hhundred] at hmul
    have hcoprime : Nat.Coprime (2 ^ 62) 25 := Nat.Coprime.pow_left 62 (by decide)
    exact FileTime.quadPart_injective
      (BitVec.eq_of_toNat_eq (eq_of_modEq_hundred hcoprime hnear hnear' hmul))
  · rintro rfl
    rfl

/-- The data of a file with the given times. -/
def stamped (ft : FileTime) : FindData := ⟨['f'], false, ⟨0, 0, ft, ft, ft⟩⟩

theorem fmtim_eq_iff_adjacent :
    ((indexReader.publish (stamped ⟨0, 1⟩)).fmtim = (indexReader.publish (stamped ⟨1, 1⟩)).fmtim ↔
      (stamped ⟨0, 1⟩).stat.ftLastWriteTime = (stamped ⟨1, 1⟩).stat.ftLastWriteTime) ∧
    getUint64 (bindInt64 (indexReader.publish (stamped ⟨0, 1⟩)).fmtim) =
      (indexReader.publish (stamped ⟨0, 1⟩)).fmtim := by
  have hfirst : (stamped ⟨0, 1⟩).stat.ftLastWriteTime.quadPart.toNat = 4294967296 := rfl
  have hsecond : (stamped ⟨1, 1⟩).stat.ftLastWriteTime.quadPart.toNat = 4294967297 := rfl
  refine fmtim_eq_iff indexReader indexReader ?_ ?_
  · rw [hfirst, hsecond]
    omega
  · rw [hfirst, hsecond]
    omega

end Spacenet
