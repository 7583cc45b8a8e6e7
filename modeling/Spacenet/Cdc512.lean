-- SUMMARY: The digest `cdc512`: its context, the absorption of data by 64-byte chunks, and the digest bytes.
import Spacenet.Sqlite.Tables

/-!
# cdc512

The digest of `cdc512.hpp` on a little-endian machine. A context is eight words
of state and the count of the bytes absorbed.
-/

namespace Spacenet

/-! ## Bytes of a word -/

/-- The word that eight bytes of memory hold. -/
def loadWord (bytes : Blob) : U64 :=
  (bytes.take 8).foldr (fun byte word => word <<< 8 ||| byte.setWidth 64) 0

/-- The eight bytes of memory that hold a word. -/
def storeWord (word : U64) : Blob :=
  (List.range 8).map fun i => (word >>> (8 * i)).setWidth 8

/-- `vhtobe64`, which is also `chtobe64`. -/
def vhtobe64 (x : U64) : U64 :=
  let x := x <<< 32 ||| x >>> 32
  let x := (x &&& 0x0000ffff0000ffff) <<< 16 ||| (x >>> 16 &&& 0x0000ffff0000ffff)
  (x &&& 0x00ff00ff00ff00ff) <<< 8 ||| (x >>> 8 &&& 0x00ff00ff00ff00ff)

/-! ## The state -/

/-- `cdc512_data`. -/
structure Cdc512Data where
  a : U64
  b : U64
  c : U64
  d : U64
  e : U64
  f : U64
  g : U64
  h : U64
deriving DecidableEq

namespace Cdc512Data

/-- `shuffle()`. -/
def shuffle (v : Cdc512Data) : Cdc512Data :=
  let ⟨a, b, c, d, e, f, g, h⟩ := v
  let a := a - e; let f := f ^^^ h >>> 9;  let h := h + a
  let b := b - f; let g := g ^^^ a <<< 9;  let a := a + b
  let c := c - g; let h := h ^^^ b >>> 23; let b := b + c
  let d := d - h; let a := a ^^^ c <<< 15; let c := c + d
  let e := e - a; let b := b ^^^ d >>> 14; let d := d + e
  let f := f - b; let c := c ^^^ e <<< 20; let e := e + f
  let g := g - c; let d := d ^^^ f >>> 17; let f := f + g
  let h := h - d; let e := e ^^^ g <<< 14; let g := g + h
  ⟨a, b, c, d, e, f, g, h⟩

/-- `shuffle(const cdc512_data & v)`. -/
def shuffleWith (s v : Cdc512Data) : Cdc512Data :=
  let ⟨a, b, c, d, e, f, g, h⟩ := s
  let a := a - v.e; let f := f ^^^ v.h >>> 9;  let h := h + v.a
  let b := b - v.f; let g := g ^^^ v.a <<< 9;  let a := a + v.b
  let c := c - v.g; let h := h ^^^ v.b >>> 23; let b := b + v.c
  let d := d - v.h; let a := a ^^^ v.c <<< 15; let c := c + v.d
  let e := e - v.a; let b := b ^^^ v.d >>> 14; let d := d + v.e
  let f := f - v.b; let c := c ^^^ v.e <<< 20; let e := e + v.f
  let g := g - v.c; let d := d ^^^ v.f >>> 17; let f := f + v.g
  let h := h - v.d; let e := e ^^^ v.g <<< 14; let g := g + v.h
  ⟨a, b, c, d, e, f, g, h⟩

/-- `sizeof(cdc512_data)`. -/
def size : Nat := 64

theorem size_pos : 0 < size := by decide

/-- `*reinterpret_cast<const cdc512_data *>(data)`. -/
def load (data : Blob) : Cdc512Data where
  a := loadWord data
  b := loadWord (data.drop 8)
  c := loadWord (data.drop 16)
  d := loadWord (data.drop 24)
  e := loadWord (data.drop 32)
  f := loadWord (data.drop 40)
  g := loadWord (data.drop 48)
  h := loadWord (data.drop 56)

/-- Both shuffles that follow on one chunk. -/
def absorb (s v : Cdc512Data) : Cdc512Data := (s.shuffleWith v).shuffle

/-- `n` iterations of the `while` of `update`: the state and the data that are left. -/
def absorbChunks : Nat → Cdc512Data → Blob → Cdc512Data × Blob
  | 0, s, data => (s, data)
  | n + 1, s, data => absorbChunks n (s.absorb (load data)) (data.drop size)

end Cdc512Data

/-! ## The context -/

/-- `cdc512`. `digest64` is empty until `finish` writes it. -/
structure Cdc512 extends Cdc512Data where
  digest64 : List U64
  p : U64
deriving DecidableEq

namespace Cdc512

open Cdc512Data

def init : Cdc512 where
  a := vhtobe64 0xA640524A5B44F1FC
  b := vhtobe64 0xC535059705F0BB7E
  c := vhtobe64 0xC8ED76CF6B6EA626
  d := vhtobe64 0x531D1E8E254EA59E
  e := vhtobe64 0x8C0FE7F3E46E2A80
  f := vhtobe64 0x1C53F41FD1E3A7F8
  g := vhtobe64 0x08D4DEAAA1C33335
  h := vhtobe64 0x4C592980FBE9B011
  digest64 := []
  p := 0

/-- `update(data, size)`. The `while` runs once for each whole chunk. -/
def update (ctx : Cdc512) (data : Blob) : Cdc512 :=
  let (s, rest) := absorbChunks (data.length / size) ctx.toCdc512Data data
  let s :=
    if rest.length > 0 then s.absorb (load (rest ++ List.replicate (size - rest.length) 0)) else s
  { toCdc512Data := s, digest64 := ctx.digest64, p := ctx.p + BitVec.ofNat 64 data.length }

def finish (ctx : Cdc512) : Cdc512 :=
  let p := ctx.p
  let s := ctx.toCdc512Data
  let s := if p ≠ 0 then s.absorb ⟨p, p, p, p, p, p, p, p⟩ else s
  { toCdc512Data := s
    digest64 := [s.a, s.b, s.c, s.d, s.e, s.f, s.g, s.h].map vhtobe64
    p := p }

/-- The bytes of the digest. -/
def digest (ctx : Cdc512) : Blob := ctx.digest64.flatMap storeWord

end Cdc512

/-- The digest that the constructor `cdc512(c, first, last)` assigns to `c`. -/
def cdc512 (data : Blob) : Blob := (Cdc512.init.update data).finish.digest

/-! ## Data in pieces -/

namespace Cdc512Data

theorem loadWord_append {data data' : Blob} (h : 8 ≤ data.length) :
    loadWord (data ++ data') = loadWord data := by
  unfold loadWord
  rw [List.take_append_of_le_length h]

theorem load_append {data data' : Blob} (h : size ≤ data.length) :
    load (data ++ data') = load data := by
  have hword : ∀ k, k + 8 ≤ size → loadWord ((data ++ data').drop k) = loadWord (data.drop k) := by
    intro k hk
    rw [List.drop_append_of_le_length (by omega)]
    apply loadWord_append
    rw [List.length_drop]
    omega
  have h₀ := hword 0 (by decide)
  simp only [List.drop_zero] at h₀
  simp only [load, h₀, hword 8 (by decide), hword 16 (by decide), hword 24 (by decide),
    hword 32 (by decide), hword 40 (by decide), hword 48 (by decide), hword 56 (by decide)]

theorem absorbChunks_add (n n' : Nat) (s : Cdc512Data) (data : Blob) :
    absorbChunks (n + n') s data =
      absorbChunks n' (absorbChunks n s data).1 (absorbChunks n s data).2 := by
  induction n generalizing s data with
  | zero => simp [absorbChunks]
  | succ n ih =>
      rw [Nat.succ_add]
      exact ih _ _

theorem absorbChunks_snd (n : Nat) (s : Cdc512Data) (data : Blob) :
    (absorbChunks n s data).2 = data.drop (n * size) := by
  induction n generalizing s data with
  | zero => simp [absorbChunks]
  | succ n ih =>
      simp only [absorbChunks]
      rw [ih, List.drop_drop, Nat.succ_mul, Nat.add_comm]

theorem absorbChunks_append (n : Nat) (s : Cdc512Data) (data data' : Blob)
    (h : n * size ≤ data.length) :
    (absorbChunks n s (data ++ data')).1 = (absorbChunks n s data).1 := by
  induction n generalizing s data with
  | zero => rfl
  | succ n ih =>
      have hsize : size ≤ data.length := by
        rw [Nat.succ_mul] at h
        omega
      simp only [absorbChunks]
      rw [load_append hsize, List.drop_append_of_le_length hsize]
      apply ih
      rw [List.length_drop]
      rw [Nat.succ_mul] at h
      omega

end Cdc512Data

theorem Cdc512.update_nil (ctx : Cdc512) : ctx.update [] = ctx := by
  have hp : ctx.p + BitVec.ofNat 64 0 = ctx.p := BitVec.add_zero ctx.p
  simp [Cdc512.update, Cdc512Data.absorbChunks, hp]

open Cdc512Data in
/-- Data whose first piece ends at a chunk boundary may be absorbed in two pieces. -/
theorem Cdc512.update_append (ctx : Cdc512) (data data' : Blob) (h : size ∣ data.length) :
    (ctx.update data).update data' = ctx.update (data ++ data') := by
  obtain ⟨n, hn⟩ := h
  have hchunks : data.length / size = n := by
    rw [hn, Nat.mul_div_cancel_left _ size_pos]
  have hchunks' : (data ++ data').length / size = n + data'.length / size := by
    rw [List.length_append, hn, Nat.mul_add_div size_pos]
  have hwhole : n * size = data.length := by rw [hn, Nat.mul_comm]
  have hrest : (absorbChunks n ctx.toCdc512Data data).2 = [] := by
    rw [absorbChunks_snd, hwhole, List.drop_length]
  have hrest' : (absorbChunks n ctx.toCdc512Data (data ++ data')).2 = data' := by
    rw [absorbChunks_snd, hwhole, List.drop_left]
  have hfirst := absorbChunks_append n ctx.toCdc512Data data data' (Nat.le_of_eq hwhole)
  have hp : ctx.p + BitVec.ofNat 64 data.length + BitVec.ofNat 64 data'.length =
      ctx.p + BitVec.ofNat 64 (data ++ data').length := by
    rw [List.length_append, BitVec.ofNat_add, BitVec.add_assoc]
  unfold Cdc512.update
  simp only [hchunks, hrest, hchunks', absorbChunks_add, hfirst, hrest', hp, List.length_nil,
    gt_iff_lt, Nat.lt_irrefl, if_false]

end Spacenet
