-- SUMMARY: The words of a block that a lane of `shuffle(const cdc512_data & v)` links, and the words that determine the others.
import Mathlib.Data.Fintype.Defs
import Spacenet.Cdc512.Rounds
import Spacenet.Library.WordBits

/-!
# Lanes

Each lane of `shuffle(const cdc512_data & v)` takes three words of the block, so
that a lane with the same result for two blocks links three of their words. Some
words in which two blocks agree are handed on from lane to lane until the blocks
agree in all of them.
-/

namespace Spacenet

open Cdc512Data WordBits

/-! ## The words of a block -/

/-- The names of the words of a block. -/
inductive Word where
  | a | b | c | d | e | f | g | h
deriving DecidableEq

instance : Fintype Word where
  elems := {.a, .b, .c, .d, .e, .f, .g, .h}
  complete := by
    intro x
    cases x <;> decide

namespace Cdc512Data

def word (v : Cdc512Data) : Word → U64
  | .a => v.a
  | .b => v.b
  | .c => v.c
  | .d => v.d
  | .e => v.e
  | .f => v.f
  | .g => v.g
  | .h => v.h

/-- The blocks have the same words where the set has names. -/
def AgreeOn (S : Finset Word) (v w : Cdc512Data) : Prop := ∀ x ∈ S, v.word x = w.word x

instance (S : Finset Word) (v w : Cdc512Data) : Decidable (AgreeOn S v w) :=
  inferInstanceAs (Decidable (∀ x ∈ S, _))

end Cdc512Data

def Word.no : Word → Nat
  | .a => 0
  | .b => 1
  | .c => 2
  | .d => 3
  | .e => 4
  | .f => 5
  | .g => 6
  | .h => 7

theorem word_eq_getD (v : Cdc512Data) (x : Word) : v.word x = v.words.getD x.no 0 := by
  cases x <;> rfl

/-! ## The lanes -/

def lane (x y z : Word) (shift : Shift) : Link := ⟨x.no, y.no, z.no, shift⟩

/-- The words that `shuffle(const cdc512_data & v)` links in the lanes of `a` to `h`. -/
def lanes : List Link :=
  [lane .e .b .c (.left 15), lane .f .c .d (.right 14), lane .g .d .e (.left 20),
    lane .h .e .f (.right 17), lane .a .f .g (.left 14), lane .b .g .h (.right 9),
    lane .c .h .a (.left 9), lane .a .d .b (.right 23)]

theorem lanes_hold {s v w : Cdc512Data} (h : s.absorb v = s.absorb w) :
    ∀ l ∈ lanes, l.Holds (v.words.getD · 0) (w.words.getD · 0) := by
  obtain ⟨ha, hb, hc, hd, he, hf, hg, hh⟩ := Cdc512Data.mk.inj (shuffle_injective h)
  simp only [lanes, List.forall_mem_cons, List.not_mem_nil, false_implies, implies_true, and_true]
  refine ⟨?_, ?_, ?_, ?_, ?_, ?_, ?_, ?_⟩
  · exact Linked.of_sub_add_xor ha
  · exact Linked.of_sub_add_xor hb
  · exact Linked.of_sub_add_xor hc
  · exact Linked.of_sub_add_xor hd
  · exact Linked.of_sub_add_xor he
  · exact Linked.of_xor_sub_add hf
  · exact Linked.of_xor_sub_add hg
  · exact Linked.of_add_xor_sub hh

/-- Words that determine the others, which the lanes hand on. -/
def determining : List (List Word) :=
  [[.a, .b], [.a, .d], [.a, .f], [.a, .g], [.b, .d], [.b, .f], [.b, .g], [.b, .h], [.c, .d], [.c, .f],
    [.c, .g], [.d, .f], [.d, .h], [.e, .f], [.e, .h], [.f, .g], [.f, .h], [.g, .h], [.a, .c, .e]]

/-- The masks of a block of which some words are known. -/
def knownWords (known : List Word) : List Nat :=
  (List.range 8).map fun i => if i ∈ known.map Word.no then 2 ^ 64 - 1 else 0

/-- Twelve rounds over the lanes are enough. -/
theorem closure_knownWords : ∀ known ∈ determining, ∀ i < 8,
    (closure 64 lanes 12 (knownWords known)).getD i 0 % 2 ^ 64 = 2 ^ 64 - 1 := by
  decide +kernel

theorem eq_of_determining {s v w : Cdc512Data} {known : List Word} (hknown : known ∈ determining)
    (hwords : ∀ x ∈ known, v.word x = w.word x) (h : s.absorb v = s.absorb w) : v = w := by
  have hstart : Known (knownWords known) (v.words.getD · 0) (w.words.getD · 0) := by
    intro i
    simp only [knownWords, List.getD_eq_getElem?_getD, List.getElem?_map]
    cases hi : (List.range 8)[i]? with
    | none => exact Agree.zero _ _
    | some j =>
        obtain ⟨hlt, rfl⟩ := List.getElem?_eq_some_iff.mp hi
        simp only [Option.map_some, Option.getD_some, List.getElem_range]
        split
        · rename_i hmem
          obtain ⟨x, hx, rfl⟩ := List.mem_map.mp hmem
          apply agree_of_eq
          simpa only [word_eq_getD, List.getD_eq_getElem?_getD] using hwords x hx
        · exact Agree.zero _ _
  have hclosed := hstart.closure (lanes_hold h) 12
  have hword : ∀ i, i < 8 → v.words.getD i 0 = w.words.getD i 0 := by
    intro i hi
    exact (hclosed i).eq (closure_knownWords known hknown i hi)
  apply words_injective
  apply List.ext_getElem (show v.words.length = w.words.length from rfl)
  intro i hi hi'
  have hi'' := hword i hi
  rwa [List.getD_eq_getElem _ _ hi, List.getD_eq_getElem _ _ hi'] at hi''

end Spacenet
