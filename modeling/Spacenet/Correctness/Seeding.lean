-- SUMMARY: Seeding from a buffer uses exactly the seed when the buffer is empty or fills the whole array, and in no other case.
import Spacenet.Rand.Randinit

/-!
# Seeding

`srand` copies the seed to the front of `randrsl`, and the fill with zero bytes
starts at the front too. Between them the last byte of the array stays as it was,
and it is seen in the state behind `randinit`.
-/

namespace Spacenet

open Bytes WordBits

namespace Rand

variable {T : WordType} {alpha : Nat}

/-! ## The state that the seed describes -/

/-- The array with the seed at its front and zero bytes behind it. -/
def seedArray (T : WordType) (alpha : Nat) (data : Blob) : Vector T.Word (N alpha) :=
  let size := sizeofRandrsl T alpha
  arrayOf (N alpha) (data.take size ++ List.replicate (size - data.length) 0)

/-- The generator with this array for the seed and nothing else in it. -/
def ofSeed (r : Vector T.Word (N alpha)) : Randctx T alpha where
  randrsl := r
  randmem := Vector.replicate (N alpha) 0
  randa := 0
  randb := 0
  randc := 0
  randcnt := 0

@[simp] theorem ofSeed_randrsl (r : Vector T.Word (N alpha)) : (ofSeed r).randrsl = r := rfl

/-- The state to which the seed leads. -/
def seeded (T : WordType) (alpha : Nat) (data : Blob) : Randctx T alpha :=
  randinit (shuffleSeed (ofSeed (seedArray T alpha data))) true

/-- Whatever the state was before, seeding leads to the state that the seed describes, and so to the
same stream of values. -/
def SeedsExactly (T : WordType) (alpha : Nat) (data : Blob) : Prop :=
  ∀ rc : Randctx T alpha, srandData rc data = seeded T alpha data ∧
    ∀ n, values (srandData rc data) n = values (seeded T alpha data) n

/-! ## Behind the copy -/

/-- `randinit` with a seed reads `randrsl` and the three words, and overwrites the rest. -/
theorem randinit_congr (h : 3 ≤ alpha) {ctx ctx' : Randctx T alpha} (hrsl : ctx.randrsl = ctx'.randrsl)
    (ha : ctx.randa = ctx'.randa) (hb : ctx.randb = ctx'.randb) (hc : ctx.randc = ctx'.randc) :
    randinit ctx true = randinit ctx' true := by
  unfold randinit
  simp only [if_true, initialMem_congr h hrsl, isaac_eq h, Locals.finish, Locals.start, hrsl, ha, hb, hc]

/-- The overload on three words uses nothing of the state before. -/
theorem srandWords_eq (h : 3 ≤ alpha) (rc rc' : Randctx T alpha) (a b c : T.Word) :
    srandWords rc a b c = srandWords rc' a b c :=
  randinit_congr h rfl rfl rfl rfl

/-- Of the state before, only the bytes that the copy and the fill leave are used. -/
theorem srandData_eq (h : 3 ≤ alpha) (rc : Randctx T alpha) (data : Blob) :
    srandData rc data =
      randinit (shuffleSeed (ofSeed (arrayOf (N alpha) (seedBytes T alpha (arrayBytes rc.randrsl) data)))) true :=
  randinit_congr h rfl rfl rfl rfl

theorem dvd_bits (T : WordType) : 8 ∣ T.bits := by
  cases T <;> decide

theorem seedBytes_eq_min (randrsl data : Blob) :
    seedBytes T alpha randrsl data =
      memset (memcpy randrsl data (min data.length (sizeofRandrsl T alpha))) 0
        (sizeofRandrsl T alpha - min data.length (sizeofRandrsl T alpha)) := by
  have hl : (if data.length < sizeofRandrsl T alpha then data.length else sizeofRandrsl T alpha)
      = min data.length (sizeofRandrsl T alpha) := by
    split <;> omega
  simp only [seedBytes, hl]

/-- An empty seed, or one that fills the array: every byte is written once. -/
theorem seedBytes_eq {randrsl data : Blob} (hlength : randrsl.length = sizeofRandrsl T alpha)
    (h : data = [] ∨ sizeofRandrsl T alpha ≤ data.length) :
    seedBytes T alpha randrsl data = data.take (sizeofRandrsl T alpha)
      ++ List.replicate (sizeofRandrsl T alpha - data.length) 0 := by
  rw [seedBytes_eq_min, ← hlength] at *
  unfold memset memcpy
  rcases h with rfl | hfull
  · simp
  · rw [Nat.min_eq_right hfull, Nat.sub_self, Nat.sub_eq_zero_of_le hfull]
    simp

/-- A shorter seed: the last byte of the array is written neither by the copy nor by the fill. -/
theorem seedBytes_concat {data bytes : Blob} (byte : U8) (hlength : bytes.length + 1 = sizeofRandrsl T alpha)
    (hne : data ≠ []) (hshort : data.length < sizeofRandrsl T alpha) :
    seedBytes T alpha (bytes ++ [byte]) data =
      List.replicate (sizeofRandrsl T alpha - data.length) 0
        ++ (data ++ bytes.drop data.length).drop (sizeofRandrsl T alpha - data.length) ++ [byte] := by
  have hpos := List.length_pos_iff.mpr hne
  rw [seedBytes_eq_min, Nat.min_eq_left (Nat.le_of_lt hshort)]
  unfold memset memcpy
  have hcopied : data.take data.length ++ (bytes ++ [byte]).drop data.length
      = data ++ bytes.drop data.length ++ [byte] := by
    rw [List.take_length, List.drop_append_of_le_length (by omega), List.append_assoc]
  have hbehind : sizeofRandrsl T alpha - data.length ≤ (data ++ bytes.drop data.length).length := by
    rw [List.length_append, List.length_drop]
    omega
  rw [hcopied, List.drop_append_of_le_length hbehind, List.append_assoc]

/-! ## A byte that stays -/

section

variable {bytes : Blob}

/-- Two seeds that differ in the last byte, which is 0 or 1. -/
theorem differAtEnd_arrayOf (h : 3 ≤ alpha) (hlength : bytes.length + 1 = sizeofRandrsl T alpha) :
    DifferAtEnd (arrayOf (N alpha) (bytes ++ [0]) : Vector T.Word (N alpha)) (arrayOf (N alpha) (bytes ++ [1])) := by
  obtain ⟨blocks, hpos, hN⟩ := exists_eight h
  have hlast : N alpha - 1 + 1 = N alpha := by omega
  have hbits : 8 ≤ T.bits := by cases T <;> decide
  have hmod : (T.bits - 8) % 8 = 0 := by cases T <;> rfl
  have hbit : ∀ byte : U8, ∀ j < T.bits,
      (Cells.load (arrayOf (N alpha) (bytes ++ [byte]) : Vector T.Word (N alpha)) (N alpha - 1)).getLsbD j =
        if j < T.bits - 8 then ((bytes.drop (T.bits / 8 * (N alpha - 1)))[j / 8]?.getD 0).getLsbD (j % 8)
        else byte.getLsbD (j % 8) := by
    intro byte j hj
    rw [Cells.load_of_lt (by omega)]
    exact getLsbD_arrayOf_concat byte (dvd_bits T) hlength hlast hj
  refine ⟨fun i hi => ?_, ?_, ?_⟩
  · rcases Nat.lt_or_ge i (N alpha) with hlt | hge
    · rw [Cells.load_of_lt hlt, Cells.load_of_lt hlt]
      exact getElem_arrayOf_concat 0 1 hlength (by omega)
    · rw [Cells.load_of_ge hge, Cells.load_of_ge hge]
  · apply sameBelow_of_getLsbD
    intro j hj
    rw [hbit 0 j (by omega), hbit 1 j (by omega), if_pos hj, if_pos hj]
  · intro hsame
    have htop := hsame.getLsbD_eq (i := T.bits - 8) (by omega)
    rw [hbit 0 _ (by omega), hbit 1 _ (by omega), if_neg (by omega), if_neg (by omega), hmod] at htop
    exact absurd htop (by decide)

/-- The shuffle before `randinit` does not reach the last word. -/
theorem differAtEnd_shuffleSeed (h : 3 ≤ alpha) {r r' : Vector T.Word (N alpha)} (hdiffer : DifferAtEnd r r') :
    DifferAtEnd (shuffleSeed (ofSeed r)).randrsl (shuffleSeed (ofSeed r')).randrsl := by
  obtain ⟨blocks, hpos, hN⟩ := exists_eight h
  unfold shuffleSeed ofSeed
  simp only [hdiffer.same 0 (by omega), hdiffer.same 1 (by omega), hdiffer.same 2 (by omega),
    hdiffer.same 3 (by omega), hdiffer.same 4 (by omega)]
  exact ((((hdiffer.store (by omega) _).store (by omega) _).store (by omega) _).store (by omega) _).store
    (by omega) _

/-- `randinit` tells such seeds apart. -/
theorem randinit_ne (h : 3 ≤ alpha) {ctx ctx' : Randctx T alpha} (hdiffer : DifferAtEnd ctx.randrsl ctx'.randrsl) :
    randinit ctx true ≠ randinit ctx' true := by
  intro heq
  have hmem := congrArg Randctx.randmem heq
  have hrsl := congrArg Randctx.randrsl heq
  simp only [randinit, if_true] at hmem hrsl
  exact initialMem_ne h hdiffer (randmem_eq_of_isaac_eq h hmem hrsl)

end

/-- Under a seed shorter than the array, the last byte of the array can be any before `shuffle`. -/
theorem exists_srandData_eq (h : 3 ≤ alpha) {data : Blob} (hne : data ≠ [])
    (hshort : data.length < sizeofRandrsl T alpha) :
    ∃ bytes : Blob, bytes.length + 1 = sizeofRandrsl T alpha ∧ ∀ byte, ∃ rc : Randctx T alpha,
      srandData rc data = randinit (shuffleSeed (ofSeed (arrayOf (N alpha) (bytes ++ [byte])))) true := by
  obtain ⟨size, hsize⟩ := Nat.exists_eq_add_one_of_ne_zero (Nat.ne_zero_of_lt hshort)
  have hbefore : (List.replicate size (0 : U8)).length + 1 = sizeofRandrsl T alpha := by
    rw [List.length_replicate, hsize]
  refine ⟨List.replicate (sizeofRandrsl T alpha - data.length) 0
    ++ (data ++ (List.replicate size 0).drop data.length).drop (sizeofRandrsl T alpha - data.length), ?_,
    fun byte => ⟨ofSeed (arrayOf (N alpha) (List.replicate size 0 ++ [byte])), ?_⟩⟩
  · have hpos := List.length_pos_iff.mpr hne
    rw [List.length_append, List.length_replicate, List.length_drop, List.length_append, List.length_drop,
      List.length_replicate]
    omega
  · have hbytes : arrayBytes (arrayOf (N alpha) (List.replicate size 0 ++ [byte]) : Vector T.Word (N alpha))
        = List.replicate size 0 ++ [byte] := by
      apply arrayBytes_arrayOf
      rw [List.length_append, List.length_singleton]
      exact hbefore
    rw [srandData_eq h, ofSeed_randrsl, hbytes, seedBytes_concat byte hbefore hne hshort]

/-- Two states before that such a seed does not make the same. -/
theorem exists_srandData_ne (h : 3 ≤ alpha) {data : Blob} (hne : data ≠ [])
    (hshort : data.length < sizeofRandrsl T alpha) :
    ∃ rc rc' : Randctx T alpha, srandData rc data ≠ srandData rc' data := by
  obtain ⟨bytes, hlength, hrun⟩ := exists_srandData_eq h hne hshort
  obtain ⟨rc, hrc⟩ := hrun 0
  obtain ⟨rc', hrc'⟩ := hrun 1
  refine ⟨rc, rc', ?_⟩
  rw [hrc, hrc']
  exact randinit_ne h (differAtEnd_shuffleSeed h (differAtEnd_arrayOf h hlength))

/-- Seeding uses exactly the seed if and only if there is no seed, or no byte of the array behind it. -/
theorem seedsExactly_iff (T : WordType) (h : 3 ≤ alpha) (data : Blob) :
    SeedsExactly T alpha data ↔ data = [] ∨ sizeofRandrsl T alpha ≤ data.length := by
  constructor
  · intro hexact
    by_contra hneither
    rw [not_or, Nat.not_le] at hneither
    obtain ⟨rc, rc', hstates⟩ := exists_srandData_ne h hneither.1 hneither.2
    exact hstates ((hexact rc).1.trans (hexact rc').1.symm)
  · intro hlength rc
    have hstate : srandData rc data = seeded T alpha data := by
      rw [srandData_eq h, seedBytes_eq (length_arrayBytes rc.randrsl) hlength]
      rfl
    exact ⟨hstate, fun n => by rw [hstate]⟩

theorem seedsExactly_iff_full : SeedsExactly .uint64 3 (List.replicate 64 7) :=
  (seedsExactly_iff .uint64 (by decide) (List.replicate 64 7)).mpr (.inr (by decide))

/-- A seed of eight bytes, in a generator with all bits of `randrsl` set: another first value. -/
theorem srandData_keeps_byte :
    values (srandData (ofSeed (Vector.replicate (N 3) (-1)) : Randctx .uint32 3) [1, 2, 3, 4, 5, 6, 7, 8]) 1 ≠
        values (seeded .uint32 3 [1, 2, 3, 4, 5, 6, 7, 8]) 1 ∧
      ¬ SeedsExactly .uint32 3 [1, 2, 3, 4, 5, 6, 7, 8] := by
  have hvalues : values (srandData (ofSeed (Vector.replicate (N 3) (-1)) : Randctx .uint32 3)
      [1, 2, 3, 4, 5, 6, 7, 8]) 1 ≠ values (seeded .uint32 3 [1, 2, 3, 4, 5, 6, 7, 8]) 1 := by
    decide +kernel
  exact ⟨hvalues, fun hexact => hvalues ((hexact _).2 1)⟩

end Rand

end Spacenet
