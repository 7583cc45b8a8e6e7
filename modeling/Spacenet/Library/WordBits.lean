-- SUMMARY: Two words that agree in the bits of a mask, and the bits that addition, subtraction, xor and shifts then make agree.
import Mathlib.Data.Finite.Prod
import Mathlib.Data.Nat.Bitwise

/-!
# Agreement of words bit by bit

Addition and subtraction carry upwards only, so that words which agree below a
bit have sums and differences that agree below it. An equation between such sums
on both sides therefore hands agreement on: of the words in it, all but one that
agree below a bit make the last one agree below it.

The bits in which words are known to agree are kept as masks, one for each word,
and equations enlarge the masks.
-/

namespace WordBits

variable {w : Nat}

instance instFinite : Finite (BitVec w) := Finite.of_injective BitVec.toFin fun _ _ h => BitVec.eq_of_toFin_eq h

/-! ## Agreement below a bit -/

/-- The words have the same bits below `n`. -/
def SameBelow (n : Nat) (x x' : BitVec w) : Prop := x.setWidth n = x'.setWidth n

section

variable {n : Nat} {x x' y y' : BitVec w}

theorem SameBelow.refl (x : BitVec w) : SameBelow n x x := rfl

theorem SameBelow.add (hn : n ≤ w) (h : SameBelow n x x') (h' : SameBelow n y y') :
    SameBelow n (x + y) (x' + y') := by
  unfold SameBelow at *
  rw [BitVec.setWidth_add _ _ hn, BitVec.setWidth_add _ _ hn, h, h']

theorem SameBelow.sub (hn : n ≤ w) (h : SameBelow n x x') (h' : SameBelow n y y') :
    SameBelow n (x - y) (x' - y') := by
  rw [BitVec.sub_eq_add_neg, BitVec.sub_eq_add_neg]
  refine h.add hn ?_
  unfold SameBelow at *
  rw [BitVec.setWidth_neg_of_le hn, BitVec.setWidth_neg_of_le hn, h']

theorem SameBelow.xor (h : SameBelow n x x') (h' : SameBelow n y y') :
    SameBelow n (x ^^^ y) (x' ^^^ y') := by
  unfold SameBelow at *
  rw [BitVec.setWidth_xor, BitVec.setWidth_xor, h, h']

theorem SameBelow.getLsbD_eq (h : SameBelow n x x') {i : Nat} (hi : i < n) :
    x.getLsbD i = x'.getLsbD i := by
  have hbit := congrArg (fun z => z.getLsbD i) h
  simpa only [BitVec.getLsbD_setWidth, hi, decide_true, Bool.true_and] using hbit

theorem sameBelow_of_getLsbD (h : ∀ i < n, x.getLsbD i = x'.getLsbD i) : SameBelow n x x' := by
  apply BitVec.eq_of_getLsbD_eq
  intro i hi
  simp only [BitVec.getLsbD_setWidth, h i hi]

theorem SameBelow.mono {m : Nat} (h : SameBelow n x x') (hm : m ≤ n) : SameBelow m x x' :=
  sameBelow_of_getLsbD fun _ hi => h.getLsbD_eq (Nat.lt_of_lt_of_le hi hm)

/-- Agreement of a sum with a common summand. -/
theorem SameBelow.of_add (hn : n ≤ w) {z : BitVec w} (h : SameBelow n (z + x) (z + x')) : SameBelow n x x' := by
  have hsub := h.sub hn (SameBelow.refl z)
  rwa [BitVec.add_comm z, BitVec.add_comm z, BitVec.add_sub_cancel, BitVec.add_sub_cancel] at hsub

/-- Agreement of a difference from a common word. -/
theorem SameBelow.of_sub (hn : n ≤ w) {z : BitVec w} (h : SameBelow n (z - x) (z - x')) : SameBelow n x x' := by
  have hcancel : ∀ x : BitVec w, z - (z - x) = x := by grind
  have hsub := (SameBelow.refl z).sub hn h
  rwa [hcancel, hcancel] at hsub

theorem SameBelow.of_xor (hy : SameBelow n y y') (h : SameBelow n (y ^^^ x) (y' ^^^ x')) : SameBelow n x x' := by
  have hxor := hy.xor h
  rwa [← BitVec.xor_assoc, ← BitVec.xor_assoc, BitVec.xor_self, BitVec.xor_self, BitVec.zero_xor,
    BitVec.zero_xor] at hxor

theorem SameBelow.shiftLeft {k : Nat} (h : SameBelow n x x') : SameBelow (n + k) (x <<< k) (x' <<< k) := by
  apply sameBelow_of_getLsbD
  intro i hi
  rw [BitVec.getLsbD_shiftLeft, BitVec.getLsbD_shiftLeft]
  by_cases hlow : i < k
  · simp [hlow]
  · rw [h.getLsbD_eq (by omega)]

theorem SameBelow.eq (h : SameBelow w x x') : x = x' := by
  unfold SameBelow at h
  rwa [BitVec.setWidth_eq, BitVec.setWidth_eq] at h

/-- The bits that a left shift leaves. -/
theorem SameBelow.shiftLeft_eq {k : Nat} (h : SameBelow n x x') (hk : w ≤ n + k) : x <<< k = x' <<< k :=
  (h.shiftLeft.mono hk).eq

theorem SameBelow.ushiftRight {k : Nat} (h : SameBelow (n + k) x x') : SameBelow n (x >>> k) (x' >>> k) := by
  apply sameBelow_of_getLsbD
  intro i hi
  rw [BitVec.getLsbD_ushiftRight, BitVec.getLsbD_ushiftRight, h.getLsbD_eq (by omega)]

theorem SameBelow.of_ushiftRight {k m : Nat} (hlow : SameBelow m x x') (hm : k ≤ m)
    (h : SameBelow n (x >>> k) (x' >>> k)) : SameBelow (n + k) x x' := by
  apply sameBelow_of_getLsbD
  intro i hi
  by_cases hik : i < k
  · exact hlow.getLsbD_eq (by omega)
  · have hbit := h.getLsbD_eq (i := i - k) (by omega)
    rwa [BitVec.getLsbD_ushiftRight, BitVec.getLsbD_ushiftRight, Nat.add_sub_cancel' (by omega)] at hbit

/-- From the lowest bit up. -/
theorem xor_shiftLeft_injective {k : Nat} (hk : 0 < k) :
    Function.Injective fun x : BitVec w => x ^^^ x <<< k := by
  intro x x' heq
  have key : ∀ n, SameBelow n x x' := by
    intro n
    induction n with
    | zero => exact sameBelow_of_getLsbD fun i hi => absurd hi (Nat.not_lt_zero i)
    | succ n ih =>
        have hshift : SameBelow (n + 1) (x <<< k) (x' <<< k) := ih.shiftLeft.mono (by omega)
        apply hshift.of_xor
        rw [BitVec.xor_comm _ x, BitVec.xor_comm _ x']
        exact congrArg (BitVec.setWidth (n + 1)) heq
  exact (key w).eq

/-- From the highest bit down. -/
theorem xor_ushiftRight_injective {k : Nat} (hk : 0 < k) :
    Function.Injective fun x : BitVec w => x ^^^ x >>> k := by
  intro x x' heq
  have key : ∀ n i, w ≤ i + n → x.getLsbD i = x'.getLsbD i := by
    intro n
    induction n with
    | zero =>
        intro i hi
        rw [BitVec.getLsbD_of_ge x i hi, BitVec.getLsbD_of_ge x' i hi]
    | succ n ih =>
        intro i hi
        have hbit := congrArg (fun z => z.getLsbD i) heq
        simp only [BitVec.getLsbD_xor, BitVec.getLsbD_ushiftRight, ih (k + i) (by omega)] at hbit
        exact Bool.xor_left_inj.mp hbit
  exact BitVec.eq_of_getLsbD_eq fun i _ => key w i (by omega)

/-- Doubling loses the highest bit only. -/
theorem sameBelow_of_double_eq (h : x + x = x' + x') : SameBelow (w - 1) x x' := by
  apply sameBelow_of_getLsbD
  intro i hi
  have hdouble : ∀ z : BitVec w, z + z = z <<< 1 := by
    intro z
    apply BitVec.eq_of_toNat_eq
    rw [BitVec.toNat_add, BitVec.toNat_shiftLeft, Nat.shiftLeft_eq]
    congr 1
    omega
  rw [hdouble, hdouble] at h
  have hbit := congrArg (fun z => z.getLsbD (i + 1)) h
  have hlt : i + 1 < w := by omega
  simpa only [BitVec.getLsbD_shiftLeft, hlt, decide_true, Bool.true_and, Nat.not_lt.mpr (Nat.le_add_left 1 i),
    decide_false, Bool.not_false, Nat.add_sub_cancel] using hbit

end

/-- Of three pairs of words, two that agree below a bit make the third one agree below it. -/
structure Linked (x y z x' y' z' : BitVec w) : Prop where
  fst : ∀ n ≤ w, SameBelow n y y' → SameBelow n z z' → SameBelow n x x'
  snd : ∀ n ≤ w, SameBelow n x x' → SameBelow n z z' → SameBelow n y y'
  thd : ∀ n ≤ w, SameBelow n x x' → SameBelow n y y' → SameBelow n z z'

section

variable {x y z x' y' z' : BitVec w}

/-- Words that are functions of each other through sums, differences and xors. -/
theorem Linked.of_sub_add_xor {s : BitVec w} (h : (s - x + y) ^^^ z = (s - x' + y') ^^^ z') :
    Linked x y z x' y' z' := by
  generalize hv : (s - x + y) ^^^ z = v at h
  have hz : ∀ {x y z}, (s - x + y) ^^^ z = v → z = v ^^^ (s - x + y) := by
    intro x y z hv
    rw [← hv, BitVec.xor_comm _ z, BitVec.xor_assoc, BitVec.xor_self, BitVec.xor_zero]
  have hsum : ∀ {x y z}, (s - x + y) ^^^ z = v → s - x + y = v ^^^ z := by
    intro x y z hv
    rw [← hv, BitVec.xor_assoc, BitVec.xor_self, BitVec.xor_zero]
  have hy : ∀ {x y z}, (s - x + y) ^^^ z = v → y = (v ^^^ z) - (s - x) := by
    intro x y z hv
    rw [← hsum hv, BitVec.add_comm, BitVec.add_sub_cancel]
  have hx : ∀ {x y z}, (s - x + y) ^^^ z = v → x = s + y - (v ^^^ z) := by
    intro x y z hv
    rw [← hsum hv]
    grind
  constructor
  · intro n hn hyy hzz
    rw [hx hv, hx h.symm]
    exact ((SameBelow.refl s).add hn hyy).sub hn ((SameBelow.refl v).xor hzz)
  · intro n hn hxx hzz
    rw [hy hv, hy h.symm]
    exact ((SameBelow.refl v).xor hzz).sub hn ((SameBelow.refl s).sub hn hxx)
  · intro n hn hxx hyy
    rw [hz hv, hz h.symm]
    exact (SameBelow.refl v).xor (((SameBelow.refl s).sub hn hxx).add hn hyy)

theorem Linked.of_xor_sub_add {s : BitVec w} (h : (s ^^^ z) - x + y = (s ^^^ z') - x' + y') :
    Linked x y z x' y' z' := by
  generalize hv : (s ^^^ z) - x + y = v at h
  have hy : ∀ {x y z}, (s ^^^ z) - x + y = v → y = v - ((s ^^^ z) - x) := by grind
  have hx : ∀ {x y z}, (s ^^^ z) - x + y = v → x = (s ^^^ z) + y - v := by grind
  have hz : ∀ {x y z}, (s ^^^ z) - x + y = v → z = s ^^^ (v - y + x) := by
    intro x y z hv
    have hsum : v - y + x = s ^^^ z := by grind
    rw [hsum, ← BitVec.xor_assoc, BitVec.xor_self, BitVec.zero_xor]
  constructor
  · intro n hn hyy hzz
    rw [hx hv, hx h.symm]
    exact (((SameBelow.refl s).xor hzz).add hn hyy).sub hn (.refl v)
  · intro n hn hxx hzz
    rw [hy hv, hy h.symm]
    exact (SameBelow.refl v).sub hn (((SameBelow.refl s).xor hzz).sub hn hxx)
  · intro n hn hxx hyy
    rw [hz hv, hz h.symm]
    exact (SameBelow.refl s).xor (((SameBelow.refl v).sub hn hyy).add hn hxx)

theorem Linked.of_add_xor_sub {s : BitVec w} (h : ((s + x) ^^^ z) - y = ((s + x') ^^^ z') - y') :
    Linked x y z x' y' z' := by
  generalize hv : ((s + x) ^^^ z) - y = v at h
  have hsum : ∀ {x y z}, ((s + x) ^^^ z) - y = v → (s + x) ^^^ z = v + y := by grind
  have hy : ∀ {x y z}, ((s + x) ^^^ z) - y = v → y = ((s + x) ^^^ z) - v := by grind
  have hx : ∀ {x y z}, ((s + x) ^^^ z) - y = v → x = ((v + y) ^^^ z) - s := by
    intro x y z hv
    rw [← hsum hv, BitVec.xor_assoc, BitVec.xor_self, BitVec.xor_zero, BitVec.add_comm,
      BitVec.add_sub_cancel]
  have hz : ∀ {x y z}, ((s + x) ^^^ z) - y = v → z = (s + x) ^^^ (v + y) := by
    intro x y z hv
    rw [← hsum hv, ← BitVec.xor_assoc, BitVec.xor_self, BitVec.zero_xor]
  constructor
  · intro n hn hyy hzz
    rw [hx hv, hx h.symm]
    exact (((SameBelow.refl v).add hn hyy).xor hzz).sub hn (.refl s)
  · intro n hn hxx hzz
    rw [hy hv, hy h.symm]
    exact (((SameBelow.refl s).add hn hxx).xor hzz).sub hn (.refl v)
  · intro n hn hxx hyy
    rw [hz hv, hz h.symm]
    exact ((SameBelow.refl s).add hn hxx).xor ((SameBelow.refl v).add hn hyy)

end

/-! ## Agreement in the bits of a mask -/

/-- The words have the same bits where the mask has ones. -/
def Agree (m : Nat) (x x' : BitVec w) : Prop := ∀ i, m.testBit i → x.getLsbD i = x'.getLsbD i

/-- The ones of a mask below its lowest zero. -/
def lowOnes (m : Nat) : Nat := (m ^^^ (m + 1)) >>> 1

theorem testBit_lowOnes_eq (m i : Nat) :
    (lowOnes m).testBit i = (m.testBit (i + 1) ^^ (m + 1).testBit (i + 1)) := by
  rw [lowOnes, Nat.testBit_shiftRight, Nat.testBit_xor, Nat.add_comm 1 i]

theorem testBit_lowOnes (m i : Nat) : (lowOnes m).testBit i ↔ ∀ j ≤ i, m.testBit j := by
  induction i generalizing m with
  | zero =>
      rw [testBit_lowOnes_eq, Nat.testBit_succ, Nat.testBit_succ]
      simp only [Nat.testBit_zero, Nat.le_zero, forall_eq]
      grind
  | succ i ih =>
      rw [testBit_lowOnes_eq, Nat.testBit_succ, Nat.testBit_succ (m + 1)]
      rcases Nat.mod_two_eq_zero_or_one m with heven | hodd
      · -- the lowest bit is a zero
        have hhalf : (m + 1) / 2 = m / 2 := by omega
        have hfirst : m.testBit 0 = false := by simp [Nat.testBit_zero, heven]
        rw [hhalf, Bool.xor_self]
        constructor
        · intro h
          cases h
        · intro h
          rw [← hfirst]
          exact h 0 (Nat.zero_le _)
      · have hhalf : (m + 1) / 2 = m / 2 + 1 := by omega
        have hfirst : m.testBit 0 = true := by simp [Nat.testBit_zero, hodd]
        rw [hhalf, ← testBit_lowOnes_eq, ih]
        constructor
        · intro h j hj
          cases j with
          | zero => exact hfirst
          | succ j =>
              rw [Nat.testBit_succ]
              exact h j (Nat.le_of_succ_le_succ hj)
        · intro h j hj
          rw [← Nat.testBit_succ]
          exact h (j + 1) (Nat.succ_le_succ hj)

section

variable {m m' : Nat} {x x' y y' z z' : BitVec w}

theorem Agree.zero (x x' : BitVec w) : Agree 0 x x' := by
  intro i hi
  simp at hi

theorem Agree.or (h : Agree m x x') (h' : Agree m' x x') : Agree (m ||| m') x x' := by
  intro i hi
  rw [Nat.testBit_or, Bool.or_eq_true] at hi
  rcases hi with hi | hi
  · exact h i hi
  · exact h' i hi

theorem Agree.eq (h : Agree m x x') (hm : m % 2 ^ w = 2 ^ w - 1) : x = x' := by
  apply BitVec.eq_of_getLsbD_eq
  intro i hi
  apply h
  have hbit := congrArg (fun m => m.testBit i) hm
  simpa only [Nat.testBit_mod_two_pow, Nat.testBit_two_pow_sub_one, hi, decide_true,
    Bool.true_and] using hbit

theorem agree_of_eq (m : Nat) (h : x = x') : Agree m x x' := by
  intro i _
  rw [h]

/-- A low one of the mask makes the words agree below it and in it. -/
theorem Agree.sameBelow (h : Agree m x x') {i : Nat} (hi : (lowOnes m).testBit i) :
    SameBelow (i + 1) x x' := by
  apply sameBelow_of_getLsbD
  intro j hj
  exact h j ((testBit_lowOnes m i).mp hi j (Nat.le_of_lt_succ hj))

/-- What a link hands on: where two words agree below a bit, the third does. -/
theorem agree_lowOnes_and (hlink : ∀ n ≤ w, SameBelow n x x' → SameBelow n y y' → SameBelow n z z')
    (h : Agree m x x') (h' : Agree m' y y') : Agree (lowOnes m &&& lowOnes m') z z' := by
  intro i hi
  rw [Nat.testBit_and, Bool.and_eq_true] at hi
  by_cases hlt : i < w
  · have hbelow := hlink (i + 1) hlt (h.sameBelow hi.1) (h'.sameBelow hi.2)
    exact hbelow.getLsbD_eq (Nat.lt_succ_self i)
  · rw [BitVec.getLsbD_of_ge z _ (by omega), BitVec.getLsbD_of_ge z' _ (by omega)]

end

/-! ## Shifts -/

/-- A shift that loses the bits it moves out of the word. -/
inductive Shift where
  | left (k : Nat)
  | right (k : Nat)

namespace Shift

def apply (x : BitVec w) : Shift → BitVec w
  | left k => x <<< k
  | right k => x >>> k

/-- Where shifted words agree, when the words agree where the mask has ones. -/
def mask (w m : Nat) : Shift → Nat
  | left k => m <<< k ||| (2 ^ k - 1)
  | right k => m >>> k ||| (2 ^ k - 1) <<< (w - k)

/-- Where words agree, when the shifted words agree where the mask has ones. -/
def unmask (w m : Nat) : Shift → Nat
  | left k => (m % 2 ^ w) >>> k
  | right k => m <<< k

variable {m : Nat} {x x' : BitVec w}

theorem agree_mask (h : Agree m x x') (shift : Shift) :
    Agree (shift.mask w m) (shift.apply x) (shift.apply x') := by
  intro i hi
  cases shift with
  | left k =>
      simp only [mask, Nat.testBit_or, Nat.testBit_shiftLeft, Nat.testBit_two_pow_sub_one,
        Bool.or_eq_true, Bool.and_eq_true, decide_eq_true_eq] at hi
      simp only [apply, BitVec.getLsbD_shiftLeft]
      rcases hi with ⟨hk, hbit⟩ | hlow
      · rw [h _ hbit]
      · simp [hlow]
  | right k =>
      simp only [mask, Nat.testBit_or, Nat.testBit_shiftLeft, Nat.testBit_shiftRight,
        Nat.testBit_two_pow_sub_one, Bool.or_eq_true, Bool.and_eq_true, decide_eq_true_eq] at hi
      simp only [apply, BitVec.getLsbD_ushiftRight]
      rcases hi with hbit | ⟨hhigh, -⟩
      · exact h _ hbit
      · rw [BitVec.getLsbD_of_ge x _ (by omega), BitVec.getLsbD_of_ge x' _ (by omega)]

theorem agree_unmask {shift : Shift} (h : Agree m (shift.apply x) (shift.apply x')) :
    Agree (shift.unmask w m) x x' := by
  intro i hi
  cases shift with
  | left k =>
      simp only [unmask, Nat.testBit_shiftRight, Nat.testBit_mod_two_pow, Bool.and_eq_true,
        decide_eq_true_eq] at hi
      have hbit := h (k + i) hi.2
      have hlow : ¬k + i < k := by omega
      simpa only [apply, BitVec.getLsbD_shiftLeft, hi.1, hlow, decide_true, decide_false,
        Bool.not_false, Bool.true_and, Nat.add_sub_cancel_left] using hbit
  | right k =>
      simp only [unmask, Nat.testBit_shiftLeft, Bool.and_eq_true, decide_eq_true_eq] at hi
      have hbit := h (i - k) hi.2
      have hsum : k + (i - k) = i := by omega
      simpa only [apply, BitVec.getLsbD_ushiftRight, hsum] using hbit

end Shift

/-! ## Masks for numbered words -/

/-- The numbers of three words, the third of them shifted, that are linked. -/
structure Link where
  x : Nat
  y : Nat
  z : Nat
  shift : Shift

namespace Link

/-- The link holds between two families of words. -/
def Holds (l : Link) (v v' : Nat → BitVec w) : Prop :=
  Linked (v l.x) (v l.y) (l.shift.apply (v l.z)) (v' l.x) (v' l.y) (l.shift.apply (v' l.z))

/-- Enlarge the masks of the words that the link joins. -/
def refine (w : Nat) (masks : List Nat) (l : Link) : List Nat :=
  let x := lowOnes (masks.getD l.x 0)
  let y := lowOnes (masks.getD l.y 0)
  let z := lowOnes (l.shift.mask w (masks.getD l.z 0))
  ((masks.modify l.x (· ||| (y &&& z))).modify l.y (· ||| (x &&& z))).modify l.z
    (· ||| l.shift.unmask w (x &&& y))

end Link

/-- Words with the same number agree where their mask has ones. -/
def Known (masks : List Nat) (v v' : Nat → BitVec w) : Prop :=
  ∀ i, Agree (masks.getD i 0) (v i) (v' i)

section

variable {masks : List Nat} {v v' : Nat → BitVec w}

theorem Known.modify (h : Known masks v v') {i m : Nat} (hm : Agree m (v i) (v' i)) :
    Known (masks.modify i (· ||| m)) v v' := by
  intro j
  have hj := h j
  simp only [List.getD_eq_getElem?_getD, List.getElem?_modify] at hj ⊢
  cases hmask : masks[j]? with
  | none => exact Agree.zero _ _
  | some mask =>
      simp only [hmask, Option.getD_some] at hj
      simp only [Option.map_eq_map, Option.map_some, Option.getD_some]
      split
      · have hij : i = j := ‹i = j›
        rw [hij] at hm
        exact hj.or hm
      · exact hj

theorem Known.refine (h : Known masks v v') {l : Link} (hl : l.Holds v v') :
    Known (l.refine w masks) v v' := by
  have hz := Shift.agree_mask (h l.z) l.shift
  refine ((h.modify ?_).modify ?_).modify ?_
  · exact agree_lowOnes_and hl.fst (h l.y) hz
  · exact agree_lowOnes_and hl.snd (h l.x) hz
  · exact Shift.agree_unmask (agree_lowOnes_and hl.thd (h l.x) (h l.y))

/-- `n` rounds over all links. -/
def closure (w : Nat) (links : List Link) : Nat → List Nat → List Nat
  | 0, masks => masks
  | n + 1, masks => closure w links n (links.foldl (Link.refine w) masks)

theorem Known.foldl_refine {links : List Link} (hlinks : ∀ l ∈ links, l.Holds v v')
    (h : Known masks v v') : Known (links.foldl (Link.refine w) masks) v v' := by
  induction links generalizing masks with
  | nil => exact h
  | cons l links ih =>
      apply ih
      · exact fun l' hl' => hlinks l' (List.mem_cons_of_mem _ hl')
      · exact h.refine (hlinks l List.mem_cons_self)

theorem Known.closure {links : List Link} (hlinks : ∀ l ∈ links, l.Holds v v') (n : Nat)
    (h : Known masks v v') : Known (closure w links n masks) v v' := by
  induction n generalizing masks with
  | zero => exact h
  | succ n ih => exact ih (h.foldl_refine hlinks)

end

end WordBits
