-- SUMMARY: The random number generator of `rand.hpp` for both word types and every `ALPHA`: seeding, the batch `isaac`, and the stream of values.
import Spacenet.Library.Bytes
import Spacenet.Library.Cells
import Spacenet.Sqlite.Tables

/-!
# The random number generator

The template `rand<ALPHA, T>`. The overloads on the word type are functions of
the type. A pointer into an array is the index it has reached, and arrays of
words are little-endian bytes where the code copies into them.
-/

namespace Spacenet

open Bytes Cells

/-- The parameter `T`: `uint32_t` or `uint64_t`. -/
inductive WordType where
  | uint32
  | uint64
deriving DecidableEq

namespace WordType

@[reducible] def bits : WordType → Nat
  | uint32 => 32
  | uint64 => 64

abbrev Word (T : WordType) := BitVec T.bits

/-- `sizeof(T)`. -/
def size (T : WordType) : Nat := T.bits / 8

end WordType

namespace Rand

/-- `N`, the number of the words of an array. -/
def N (alpha : Nat) : Nat := 1 <<< alpha

/-- The variables `a` to `h` of `randinit`. -/
structure Eight (α : Type) where
  a : α
  b : α
  c : α
  d : α
  e : α
  f : α
  g : α
  h : α
deriving DecidableEq

/-- `randctx`. -/
structure Randctx (T : WordType) (alpha : Nat) where
  randrsl : Vector T.Word (N alpha)
  randmem : Vector T.Word (N alpha)
  randa : T.Word
  randb : T.Word
  randc : T.Word
  randcnt : Nat
deriving DecidableEq

variable {T : WordType} {alpha : Nat}

/-! ## shuffle -/

/-- `shuffle` of eight `uint32_t`. -/
def shuffle32 (v : Eight U32) : Eight U32 :=
  let ⟨a, b, c, d, e, f, g, h⟩ := v
  let a := a ^^^ b <<< 11; let d := d + a; let b := b + c
  let b := b ^^^ c >>> 2;  let e := e + b; let c := c + d
  let c := c ^^^ d <<< 8;  let f := f + c; let d := d + e
  let d := d ^^^ e >>> 16; let g := g + d; let e := e + f
  let e := e ^^^ f <<< 10; let h := h + e; let f := f + g
  let f := f ^^^ g >>> 4;  let a := a + f; let g := g + h
  let g := g ^^^ h <<< 8;  let b := b + g; let h := h + a
  let h := h ^^^ a >>> 9;  let c := c + h; let a := a + b
  ⟨a, b, c, d, e, f, g, h⟩

/-- `shuffle` of eight `uint64_t`. -/
def shuffle64 (v : Eight U64) : Eight U64 :=
  let ⟨a, b, c, d, e, f, g, h⟩ := v
  let a := a - e; let f := f ^^^ h >>> 9;  let h := h + a
  let b := b - f; let g := g ^^^ a <<< 9;  let a := a + b
  let c := c - g; let h := h ^^^ b >>> 23; let b := b + c
  let d := d - h; let a := a ^^^ c <<< 15; let c := c + d
  let e := e - a; let b := b ^^^ d >>> 14; let d := d + e
  let f := f - b; let c := c ^^^ e <<< 20; let e := e + f
  let g := g - c; let d := d ^^^ f >>> 17; let f := f + g
  let h := h - d; let e := e ^^^ g <<< 14; let g := g + h
  ⟨a, b, c, d, e, f, g, h⟩

def shuffle : (T : WordType) → Eight T.Word → Eight T.Word
  | .uint32 => shuffle32
  | .uint64 => shuffle64

/-! ## isaac -/

/-- The word at the byte offset that `x` has under the mask `(N - 1) << shift`. -/
def indWith {w n : Nat} (shift : Nat) (mm : Vector (BitVec w) n) (x : BitVec w) : BitVec w :=
  load mm ((x &&& BitVec.ofNat w ((n - 1) <<< shift)).toNat / (w / 8))

/-- `ind`. -/
def ind {n : Nat} : (T : WordType) → Vector T.Word n → T.Word → T.Word
  | .uint32 => indWith 2
  | .uint64 => indWith 3

/-- The locals of `isaac`, with the arrays that its pointers lead into: `mm`, `m` and `m2` into
`randmem`, `r` into `randrsl`. -/
structure Locals (T : WordType) (alpha : Nat) where
  a : T.Word
  b : T.Word
  randmem : Vector T.Word (N alpha)
  randrsl : Vector T.Word (N alpha)
  m : Nat
  m2 : Nat
  r : Nat

/-- `rngstep`. -/
def rngstep (mix : T.Word) (s : Locals T alpha) : Locals T alpha :=
  let x := load s.randmem s.m
  let a := (s.a ^^^ mix) + load s.randmem s.m2
  let y := ind T s.randmem x + a + s.b
  let randmem := store s.randmem s.m y
  let b := ind T randmem (y >>> alpha) + x
  { a, b, randmem, randrsl := store s.randrsl s.r b, m := s.m + 1, m2 := s.m2 + 1, r := s.r + 1 }

/-- The body of the two loops, with the four mixing expressions of the overload. -/
def fourSteps (mix₀ mix₁ mix₂ mix₃ : T.Word → T.Word) (s : Locals T alpha) : Locals T alpha :=
  let s := rngstep (mix₀ s.a) s
  let s := rngstep (mix₁ s.a) s
  let s := rngstep (mix₂ s.a) s
  rngstep (mix₃ s.a) s

/-- The body of the loops of `isaac`. -/
def isaacSteps : (T : WordType) → Locals T alpha → Locals T alpha
  | .uint32 => fourSteps (· <<< 13) (· >>> 6) (· <<< 2) (· >>> 16)
  | .uint64 => fourSteps (fun a => ~~~(a ^^^ a <<< 21)) (fun a => a ^^^ a >>> 5)
      (fun a => a ^^^ a <<< 12) (fun a => a ^^^ a >>> 33)

/-- `for( ; p<mend; )`. The body moves every pointer, so as many iterations as there are words are
enough. -/
def loopBelow (p : Locals T alpha → Nat) (mend : Nat) : (fuel : Nat) → Locals T alpha → Locals T alpha
  | 0, s => s
  | fuel + 1, s => if p s < mend then loopBelow p mend fuel (isaacSteps T s) else s

/-- `isaac`. -/
def isaac (ctx : Randctx T alpha) : Randctx T alpha :=
  let randc := ctx.randc + 1
  let mend := N alpha / 2
  let s : Locals T alpha := {
    a := ctx.randa
    b := ctx.randb + randc
    randmem := ctx.randmem
    randrsl := ctx.randrsl
    m := 0
    m2 := N alpha / 2
    r := 0 }
  let s := loopBelow Locals.m mend (N alpha) s
  let s := loopBelow Locals.m2 mend (N alpha) { s with m2 := 0 }
  { ctx with randmem := s.randmem, randrsl := s.randrsl, randa := s.a, randb := s.b, randc }

/-! ## randinit -/

/-- `GOLDEN_RATIO`. -/
def goldenRatio : (T : WordType) → T.Word
  | .uint32 => (0x9e3779b9 : U32)
  | .uint64 => (0x9e3779b97f4a7c13 : U64)

namespace Eight

/-- The words `[i]` to `[i+7]` of an array. -/
def load {n : Nat} (words : Vector T.Word n) (i : Nat) : Eight T.Word :=
  ⟨Cells.load words i, Cells.load words (i + 1), Cells.load words (i + 2), Cells.load words (i + 3),
    Cells.load words (i + 4), Cells.load words (i + 5), Cells.load words (i + 6), Cells.load words (i + 7)⟩

def store {n : Nat} (words : Vector T.Word n) (i : Nat) (v : Eight T.Word) : Vector T.Word n :=
  let words := Cells.store words i v.a
  let words := Cells.store words (i + 1) v.b
  let words := Cells.store words (i + 2) v.c
  let words := Cells.store words (i + 3) v.d
  let words := Cells.store words (i + 4) v.e
  let words := Cells.store words (i + 5) v.f
  let words := Cells.store words (i + 6) v.g
  Cells.store words (i + 7) v.h

/-- `a+=r[i]; b+=r[i+1]; ...`. -/
def add (v r : Eight T.Word) : Eight T.Word :=
  ⟨v.a + r.a, v.b + r.b, v.c + r.c, v.d + r.d, v.e + r.e, v.f + r.f, v.g + r.g, v.h + r.h⟩

end Eight

/-- The variables `a` to `h`, and `m`. -/
structure Filling (T : WordType) (alpha : Nat) where
  v : Eight T.Word
  m : Vector T.Word (N alpha)

/-- `shuffle`, and `m[i]=a; m[i+1]=b; ...`. -/
def Filling.put (i : Nat) (v : Eight T.Word) (s : Filling T alpha) : Filling T alpha :=
  let v := shuffle T v
  ⟨v, Eight.store s.m i v⟩

/-- The body of the loop that reads the seed `r`. -/
def fromSeed (r : Vector T.Word (N alpha)) (s : Filling T alpha) (i : Nat) : Filling T alpha :=
  s.put i (s.v.add (.load r i))

/-- The body of the second pass. -/
def secondPass (s : Filling T alpha) (i : Nat) : Filling T alpha := s.put i (s.v.add (.load s.m i))

/-- The body of the loop without a seed. -/
def messyStuff (s : Filling T alpha) (i : Nat) : Filling T alpha := s.put i s.v

/-- `for( int i = 0; i < N; i += 8 )`. -/
def forBlocks (body : Filling T alpha → Nat → Filling T alpha) (s : Filling T alpha) : Filling T alpha :=
  (List.range' 0 (N alpha / 8) 8).foldl body s

/-- The variables `a` to `h` behind the four rounds that scramble them. -/
def scrambled (T : WordType) : Eight T.Word :=
  let g := goldenRatio T
  shuffle T (shuffle T (shuffle T (shuffle T ⟨g, g, g, g, g, g, g, g⟩)))

/-- `randmem` just before the call of `isaac` in `randinit`. -/
def initialMem (ctx : Randctx T alpha) (bUseSeed : Bool) : Vector T.Word (N alpha) :=
  let s : Filling T alpha := ⟨scrambled T, ctx.randmem⟩
  if bUseSeed then
    let s := forBlocks (fromSeed ctx.randrsl) s
    (forBlocks secondPass s).m
  else (forBlocks messyStuff s).m

/-- `randinit`. -/
def randinit (ctx : Randctx T alpha) (bUseSeed : Bool) : Randctx T alpha :=
  let ctx := if bUseSeed then ctx else { ctx with randa := 0, randb := 0, randc := 0 }
  let ctx := isaac { ctx with randmem := initialMem ctx bUseSeed }
  { ctx with randcnt := N alpha }

/-! ## srand and get -/

/-- `srand(T a, T b, T c)`. -/
def srandWords (rc : Randctx T alpha) (a b c : T.Word) : Randctx T alpha :=
  randinit { rc with randrsl := Vector.replicate (N alpha) 0, randa := a, randb := b, randc := c } true

/-- `memcpy` to the front of an array. -/
def memcpy (dst src : Blob) (count : Nat) : Blob := src.take count ++ dst.drop count

/-- `memset` at the front of an array. -/
def memset (dst : Blob) (value : U8) (count : Nat) : Blob := List.replicate count value ++ dst.drop count

/-- `sizeof(rc_.randrsl)`. -/
def sizeofRandrsl (T : WordType) (alpha : Nat) : Nat := T.size * N alpha

/-- `rc_.randa = rc_.randrsl[0]` and so on, and the call of `shuffle`. -/
def shuffleSeed (rc : Randctx T alpha) : Randctx T alpha :=
  let r := rc.randrsl
  let v := shuffle T ⟨load r 0, load r 1, load r 2, load r 0, load r 1, load r 2, load r 3, load r 4⟩
  let r := store r 0 v.d
  let r := store r 1 v.e
  let r := store r 2 v.f
  let r := store r 3 v.g
  let r := store r 4 v.h
  { rc with randrsl := r, randa := v.a, randb := v.b, randc := v.c }

/-- The bytes of `randrsl` behind `memcpy` and `memset`. Both write from the start of the array. -/
def seedBytes (T : WordType) (alpha : Nat) (randrsl data : Blob) : Blob :=
  let size := sizeofRandrsl T alpha
  let l := if data.length < size then data.length else size
  let randrsl := memcpy randrsl data l
  memset randrsl 0 (size - l)

/-- `srand(const void * data, size_t count)`, with `count` the length of `data`. -/
def srandData (rc : Randctx T alpha) (data : Blob) : Randctx T alpha :=
  let rc := { rc with randrsl := arrayOf (N alpha) (seedBytes T alpha (arrayBytes rc.randrsl) data) }
  randinit (shuffleSeed rc) true

/-- `get`. -/
def get (rc : Randctx T alpha) : T.Word × Randctx T alpha :=
  let rc := if rc.randcnt = 0 then { isaac rc with randcnt := N alpha } else rc
  let randcnt := rc.randcnt - 1
  (load rc.randrsl randcnt, { rc with randcnt })

/-- The values of `n` calls of `get`. -/
def values (rc : Randctx T alpha) : (n : Nat) → List T.Word
  | 0 => []
  | n + 1 => (get rc).1 :: values (get rc).2 n

end Rand

end Spacenet
