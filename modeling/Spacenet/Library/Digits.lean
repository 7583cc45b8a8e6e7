-- SUMMARY: Texts of digits: numbers written one behind the other without separator, texts of fixed width, and numbers behind separators.
import Mathlib.Data.Nat.Digits.Lemmas

/-!
# Digits

Numbers that are written one behind the other, each with as many digits as it
needs, are the digits of one number. Where every piece has the same width, the
pieces are found again by counting.
-/

namespace Digits

/-! ## Stacked numbers -/

/-- The number of the digits of `n` in base `b`. Zero has none. -/
def places (b n : Nat) : Nat := if n = 0 then 0 else Nat.log b n + 1

theorem length_digits {b : Nat} (hb : 1 < b) (n : Nat) : (Nat.digits b n).length = places b n := by
  unfold places
  split
  · next h => rw [h, Nat.digits_zero, List.length_nil]
  · next h => exact Nat.length_digits b n hb h

/-- The number whose digits are those of the numbers `ns`, the lowest digits first. -/
def stack (b : Nat) (ns : List Nat) : Nat := ns.foldr (fun n above => n + b ^ places b n * above) 0

theorem flatMap_digits {b : Nat} (hb : 1 < b) (ns : List Nat) :
    ns.flatMap (Nat.digits b) = Nat.digits b (stack b ns) := by
  induction ns with
  | nil => exact (Nat.digits_zero b).symm
  | cons n ns ih =>
      rw [List.flatMap_cons, ih, Nat.digits_append_digits (Nat.lt_trans Nat.zero_lt_one hb),
        length_digits hb]
      rfl

/-- Numbers with the same numbers of digits are told apart by their stack. -/
theorem stack_injective {b : Nat} (hb : 1 < b) {ns ns' : List Nat}
    (hplaces : ns.map (places b) = ns'.map (places b)) (h : stack b ns = stack b ns') : ns = ns' := by
  have htexts : ns.flatMap (Nat.digits b) = ns'.flatMap (Nat.digits b) := by
    rw [flatMap_digits hb, flatMap_digits hb, h]
  clear h
  induction ns generalizing ns' with
  | nil => exact (List.map_eq_nil_iff.mp hplaces.symm).symm
  | cons n ns ih =>
      cases ns' with
      | nil => cases hplaces
      | cons n' ns' =>
          obtain ⟨hlength, hrest⟩ := List.cons.inj hplaces
          rw [← length_digits hb, ← length_digits hb] at hlength
          obtain ⟨hfirst, hbehind⟩ := List.append_inj htexts hlength
          rw [Nat.digits_inj_iff.mp hfirst, ih hrest hbehind]

/-! ## Pieces of one width -/

variable {α β : Type} {f : α → List β} {k : Nat}

theorem length_flatMap (hf : ∀ a, (f a).length = k) (l : List α) : (l.flatMap f).length = k * l.length := by
  induction l with
  | nil => rfl
  | cons a l ih => rw [List.flatMap_cons, List.length_append, hf, ih, List.length_cons, Nat.mul_succ, Nat.add_comm]

theorem drop_flatMap (hf : ∀ a, (f a).length = k) (n : Nat) (l : List α) :
    (l.flatMap f).drop (k * n) = (l.drop n).flatMap f := by
  induction n generalizing l with
  | zero => rfl
  | succ n ih =>
      cases l with
      | nil => simp
      | cons a l =>
          rw [List.flatMap_cons, Nat.mul_succ, Nat.add_comm, ← List.drop_drop, ← hf a, List.drop_left, hf a, ih,
            List.drop_succ_cons]

theorem take_flatMap (hf : ∀ a, (f a).length = k) (n : Nat) (l : List α) :
    (l.flatMap f).take (k * n) = (l.take n).flatMap f := by
  induction n generalizing l with
  | zero => simp
  | succ n ih =>
      cases l with
      | nil => simp
      | cons a l =>
          rw [List.flatMap_cons, Nat.mul_succ, Nat.add_comm, List.take_add, ← hf a, List.take_left,
            List.drop_left, hf a, ih, List.take_succ_cons, List.flatMap_cons]

/-- Pieces of one width are found again. -/
theorem flatMap_injective (hf : ∀ a, (f a).length = k) (hk : 0 < k) (hinj : ∀ a a', f a = f a' → a = a')
    {l l' : List α} (h : l.flatMap f = l'.flatMap f) : l = l' := by
  induction l generalizing l' with
  | nil =>
      have hlength := congrArg List.length h
      rw [length_flatMap hf, length_flatMap hf, List.length_nil, Nat.mul_zero] at hlength
      exact (List.length_eq_zero_iff.mp ((Nat.mul_eq_zero.mp hlength.symm).resolve_left (Nat.ne_of_gt hk))).symm
  | cons a l ih =>
      cases l' with
      | nil =>
          have hlength := congrArg List.length h
          rw [length_flatMap hf, length_flatMap hf, List.length_nil, Nat.mul_zero] at hlength
          exact absurd ((Nat.mul_eq_zero.mp hlength).resolve_left (Nat.ne_of_gt hk)) (Nat.succ_ne_zero _)
      | cons a' l' =>
          obtain ⟨hfirst, hrest⟩ := List.append_inj h ((hf a).trans (hf a').symm)
          rw [hinj a a' hfirst, ih hrest]

/-! ## Fields behind separators -/

/-- The field behind the last separator is found again. -/
theorem last_field {c : α} {s s' t t' : List α} (ht : c ∉ t) (ht' : c ∉ t') (h : s ++ c :: t = s' ++ c :: t') :
    s = s' ∧ t = t' := by
  rcases List.append_eq_append_iff.mp h with ⟨gap, rfl, hgap⟩ | ⟨gap, rfl, hgap⟩
  · cases gap with
    | nil => exact ⟨(List.append_nil s).symm, (List.cons.inj hgap).2⟩
    | cons d gap => exact absurd ((List.cons.inj hgap).2 ▸ by simp) ht
  · cases gap with
    | nil => exact ⟨List.append_nil s', (List.cons.inj hgap).2.symm⟩
    | cons d gap => exact absurd ((List.cons.inj hgap).2 ▸ by simp) ht'

theorem mem_toDigits {b n : Nat} {c : Char} (hb : 1 < b) (h : c ∈ Nat.toDigits b n) :
    ∃ d < b, c = Nat.digitChar d := by
  induction n using Nat.strongRecOn with
  | ind n ih =>
      rw [Nat.toDigits_eq_if hb] at h
      split at h
      · next hlt => exact ⟨n, hlt, List.mem_singleton.mp h⟩
      · next hge =>
          have hpos : 0 < n := Nat.lt_of_lt_of_le (Nat.zero_lt_of_lt hb) (Nat.le_of_not_lt hge)
          rcases List.mem_append.mp h with h | h
          · exact ih _ (Nat.div_lt_self hpos hb) h
          · exact ⟨_, Nat.mod_lt n (Nat.zero_lt_of_lt hb), List.mem_singleton.mp h⟩

theorem dash_notMem_toDigits {b : Nat} (hb : 1 < b) (n : Nat) : '-' ∉ Nat.toDigits b n := by
  intro h
  obtain ⟨d, -, hd⟩ := mem_toDigits hb h
  simp at hd

theorem toDigits_ascii {b n : Nat} (hb : 1 < b) (hb' : b ≤ 16) : ∀ c ∈ Nat.toDigits b n, c.toNat < 0x80 := by
  have hdigit : ∀ d < 16, (Nat.digitChar d).toNat < 0x80 := by decide
  intro c hc
  obtain ⟨d, hd, rfl⟩ := mem_toDigits hb hc
  exact hdigit d (Nat.lt_of_lt_of_le hd hb')

theorem toDigits_ten_injective {n n' : Nat} (h : Nat.toDigits 10 n = Nat.toDigits 10 n') : n = n' := by
  have hnumber := congrArg (Nat.ofDigitChars 10 · 0) h
  simpa using hnumber

/-- The sign of a number in decimal digits. -/
def sign (i : Int) : List Char := if i < 0 then ['-'] else []

/-- A number in decimal digits, behind a sign when it is negative. -/
def signed (i : Int) : List Char := sign i ++ Nat.toDigits 10 i.natAbs

theorem length_signed_le {i : Int} {k : Nat} (hk : 0 < k) (h : i.natAbs < 10 ^ k) : (signed i).length ≤ k + 1 := by
  have hdigits := (Nat.length_toDigits_le_iff (by decide) hk).mpr h
  have hsign : (sign i).length ≤ 1 := by
    unfold sign
    split <;> simp
  rw [signed, List.length_append]
  omega

theorem signed_ascii (i : Int) : ∀ c ∈ signed i, c.toNat < 0x80 := by
  intro c hc
  rw [signed, List.mem_append] at hc
  rcases hc with hc | hc
  · unfold sign at hc
    split at hc
    · exact List.mem_singleton.mp hc ▸ by decide
    · cases hc
  · exact toDigits_ascii (by decide) (by decide) c hc

/-- A dash may be the separator or the sign. -/
theorem dash_signed (i : Int) : '-' :: signed i = sign i ++ '-' :: Nat.toDigits 10 i.natAbs := by
  unfold signed sign
  split <;> rfl

/-- A number behind the last separator is found again, though its sign is the character that separates. -/
theorem last_number {s s' : List Char} {i i' : Int} (hs : s.getLast? ≠ some '-') (hs' : s'.getLast? ≠ some '-')
    (h : s ++ '-' :: signed i = s' ++ '-' :: signed i') : s = s' ∧ i = i' := by
  have hdash := dash_notMem_toDigits (b := 10) (by decide)
  rw [dash_signed, dash_signed, ← List.append_assoc, ← List.append_assoc] at h
  obtain ⟨hfront, hdigits⟩ := last_field (hdash _) (hdash _) h
  have habs := toDigits_ten_injective hdigits
  unfold sign at hfront
  split at hfront <;> split at hfront
  · exact ⟨(List.append_left_inj _).mp hfront, by omega⟩
  · rw [List.append_nil] at hfront
    exact absurd (hfront ▸ List.getLast?_concat) hs'
  · rw [List.append_nil] at hfront
    exact absurd (hfront ▸ List.getLast?_concat) hs
  · rw [List.append_nil, List.append_nil] at hfront
    exact ⟨hfront, by omega⟩

end Digits
