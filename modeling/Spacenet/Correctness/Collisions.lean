-- SUMMARY: Blocks that `cdc512` takes for each other, by the words in which they agree.
import Mathlib.Data.Fintype.Powerset
import Spacenet.Cdc512.Groups
import Spacenet.Cdc512.Lanes

/-!
# Collisions of blocks

Distinct blocks may lead to the same state. Whether blocks that agree in a set of
their words do so depends on the set alone: five sets and what lies inside them
leave room for a collision, and every other set leaves none.
-/

namespace Spacenet

open Cdc512Data

/-! ## Gaps -/

/-- The largest sets of words in which blocks that are taken for each other may agree. -/
def gaps : List (Finset Word) := [{.a, .c, .h}, {.b, .c, .e}, {.d, .e, .g}, {.a, .e}, {.f}]

/-- A set of words that lies in no gap has words that determine the others. -/
theorem exists_determining : ∀ S : Finset Word, ¬(∃ gap ∈ gaps, S ⊆ gap) →
    ∃ known ∈ determining, ∀ x ∈ known, x ∈ S := by
  decide +kernel

/-- Two blocks that a fresh context takes for each other. They differ in five words. -/
def collided : Cdc512Data :=
  ⟨0x90073650839c4e1, 0x48002c2d705ab000, 0x8089a399842a3d, 0, 0x62c0e3f9b427ece8,
    0x7ffffff0b843b5c1, 0, 0xffffcf7e74c60a29⟩

def collided' : Cdc512Data :=
  ⟨0x900738397b38706, 0x47cff3d24f803000, 0x8089c228fdec62, 0, 0x62c0e3f9b427ece8,
    0x8000000f47bd77e6, 0, 0x14c00fc60a4e⟩

/-- Two blocks that a fresh context takes for each other, for each of the gaps. -/
def collisions : List (Finset Word × Cdc512Data × Cdc512Data) :=
  [({.a, .c, .h},
      ⟨0xb829f2b177fafba8, 0xbfffedd55df482c6, 0xc6492094ee918900, 0x480f0c077e,
        0xbfffe1d2dbaf016d, 0xbffdd72a735fff66, 0xe6a64dd42fcfffd0, 0xfa07a22627ade082⟩,
      ⟨0xb829f2b177fafba8, 0xc000122fa864901b, 0xc6492094ee918900, 0xffffffa1ff0c14d3,
        0xc000062d261f0ec2, 0xc0004a0a98053f66, 0xe6a6722e7a400d25, 0xfa07a22627ade082⟩),
    ({.b, .c, .e},
      ⟨0x6409f008075ce5c1, 0x86597eea104707e, 0xd0c5dffa6908f8a3, 0x130d4c22a0,
        0x47d993577f80, 0x20008d7f940f5af6, 0x336ec291eeebec8a, 0x5ea53d93f8491fe0⟩,
      ⟨0x6409f000bcbd3147, 0x86597eea104707e, 0xd0c5dffa6908f8a3, 0xffffffecb86b9822,
        0x47d993577f80, 0x1fff12806c0e267c, 0x336ec26b9a0b620c, 0x5ea54e6a3aa21be0⟩),
    ({.d, .e, .g}, collided, collided'),
    ({.a, .e},
      ⟨0x50828a0b2cd2f951, 0x47fffff34bed07cc, 0x3441c5582b1f7edd, 0x7ffffff81202b400,
        0x862b44551a0280a1, 0xd0595fa0b2ee2a40, 0x3fffffffbb70218b, 0xb6b054b2f8eb08d7⟩,
      ⟨0x50828a0b2cd2f951, 0x48000000a20287cc, 0x3441c55fd4e02200, 0x800000056bfb53cf,
        0x862b44551a0280a1, 0xd0560b227b21ea40, 0x4000000d1568c15a, 0xb6b054baa2ababfa⟩),
    ({.f},
      ⟨0x451a4ff1d5c4c47a, 0xe06fed94a9943bd, 0xec6ffd19bc6e0ff7, 0xfecd26dd92f6180e,
        0x5c956a6315747d82, 0x4aed70f97a8ace1, 0x2a9ea89f7e7ac306, 0x2c7490b936929fc8⟩,
      ⟨0x348771f783e8c47a, 0x74005f7562995820, 0xec703cdc0143a45a, 0xee3a48073f8f5fbe,
        0x22719d89024a11e5, 0x4aed70f97a8ace1, 0x906b1723e9840ab6, 0xf250c3df2368342b⟩)]

theorem collisions_collide : ∀ c ∈ collisions, AgreeOn c.1 c.2.1 c.2.2 ∧ c.2.1 ≠ c.2.2 ∧
    Cdc512.init.toCdc512Data.absorb c.2.1 = Cdc512.init.toCdc512Data.absorb c.2.2 := by
  decide +kernel

theorem gaps_collide : ∀ gap ∈ gaps, ∃ c ∈ collisions, c.1 = gap := by
  decide +kernel

/-- For every set inside a gap there is a collision of blocks that agree in it. -/
theorem exists_collision {S gap : Finset Word} (hgap : gap ∈ gaps) (hS : S ⊆ gap) :
    ∃ v w : Cdc512Data, AgreeOn S v w ∧ v ≠ w ∧
      Cdc512.init.toCdc512Data.absorb v = Cdc512.init.toCdc512Data.absorb w := by
  obtain ⟨⟨T, v, w⟩, hmem, rfl⟩ := gaps_collide gap hgap
  obtain ⟨hagree, hne, habsorb⟩ := collisions_collide _ hmem
  exact ⟨v, w, fun x hx => hagree x (hS hx), hne, habsorb⟩

theorem absorb_ne_of_agreeOn {S : Finset Word} (hS : ¬∃ gap ∈ gaps, S ⊆ gap) {s v w : Cdc512Data}
    (hagree : AgreeOn S v w) (hne : v ≠ w) : s.absorb v ≠ s.absorb w := by
  intro h
  obtain ⟨known, hknown, hsub⟩ := exists_determining S hS
  exact hne (eq_of_determining hknown (fun x hx => hagree x (hsub x hx)) h)

/-! ## Messages of 64 bytes -/

/-- The bytes of a block. -/
def Cdc512Data.bytes (v : Cdc512Data) : Blob := v.words.flatMap storeWord

theorem length_bytes (v : Cdc512Data) : v.bytes.length = size := rfl

/-- Messages of one group have the same digest when their blocks are taken for each other. -/
theorem cdc512_eq_iff_absorb {m m' : Blob} (hm : m.length = size) (hm' : m'.length = size) :
    cdc512 m = cdc512 m' ↔ Cdc512.init.toCdc512Data.absorb (load m) =
      Cdc512.init.toCdc512Data.absorb (load m') := by
  have hgroup : ∀ {m : Blob}, m.length = size → Cdc512.updateState m Cdc512.init.toCdc512Data =
      Cdc512.init.toCdc512Data.absorb (load m) := by
    intro m hm
    have happend : Cdc512.updateState (m ++ []) Cdc512.init.toCdc512Data = _ :=
      Cdc512.updateState_append hm Cdc512.init.toCdc512Data
    rwa [List.append_nil, Cdc512.updateState_nil] at happend
  unfold cdc512
  rw [Cdc512.digest_eq_iff, Cdc512.finish_toCdc512Data, Cdc512.finish_toCdc512Data, Cdc512.update_p,
    Cdc512.update_p, hm, hm', Cdc512.update_toCdc512Data, Cdc512.update_toCdc512Data, hgroup hm,
    hgroup hm']
  exact (Cdc512.finishState_injective _).eq_iff

/-- Two distinct blocks that agree in the words of a set are never taken for each other, from no
state and as no messages, if and only if the set lies in no gap. -/
theorem absorb_ne_iff (S : Finset Word) :
    ((∀ s v w : Cdc512Data, AgreeOn S v w → v ≠ w → s.absorb v ≠ s.absorb w) ↔
        ¬∃ gap ∈ gaps, S ⊆ gap) ∧
      ((∀ m m' : Blob, m.length = size → m'.length = size → AgreeOn S (load m) (load m') → m ≠ m' →
          cdc512 m ≠ cdc512 m') ↔ ¬∃ gap ∈ gaps, S ⊆ gap) := by
  constructor
  · constructor
    · rintro h ⟨gap, hgap, hS⟩
      obtain ⟨v, w, hagree, hne, habsorb⟩ := exists_collision hgap hS
      exact h _ v w hagree hne habsorb
    · intro hS s v w
      exact absorb_ne_of_agreeOn hS
  · constructor
    · rintro h ⟨gap, hgap, hS⟩
      obtain ⟨v, w, hagree, hne, habsorb⟩ := exists_collision hgap hS
      have hload : ∀ v : Cdc512Data, load v.bytes = v := load_storeWords
      refine h v.bytes w.bytes (length_bytes v) (length_bytes w) ?_ ?_ ?_
      · rw [hload, hload]
        exact hagree
      · intro heq
        apply hne
        rw [← hload v, heq, hload]
      · rw [cdc512_eq_iff_absorb (length_bytes v) (length_bytes w), hload, hload]
        exact habsorb
    · intro hS m m' hm hm' hagree hne heq
      refine absorb_ne_of_agreeOn hS hagree ?_ ((cdc512_eq_iff_absorb hm hm').mp heq)
      exact fun hload => hne (load_injective hm hm' hload)

/-- Two distinct blocks have the same state behind them, and as messages the same digest. -/
theorem absorb_not_injective :
    (¬∀ s v w : Cdc512Data, v ≠ w → s.absorb v ≠ s.absorb w) ∧
      ¬∀ m m' : Blob, m.length = size → m'.length = size → m ≠ m' → cdc512 m ≠ cdc512 m' := by
  have hne : collided ≠ collided' := by decide
  have habsorb : Cdc512.init.toCdc512Data.absorb collided =
      Cdc512.init.toCdc512Data.absorb collided' := by decide +kernel
  have hload : ∀ v : Cdc512Data, load v.bytes = v := load_storeWords
  constructor
  · intro h
    exact h _ _ _ hne habsorb
  · intro h
    refine h collided.bytes collided'.bytes (length_bytes _) (length_bytes _) ?_ ?_
    · intro heq
      apply hne
      rw [← hload collided, heq, hload]
    · rw [cdc512_eq_iff_absorb (length_bytes _) (length_bytes _), hload, hload]
      exact habsorb

end Spacenet
