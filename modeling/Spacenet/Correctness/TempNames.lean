-- SUMMARY: `temp_name` returns the first free name of its first ten thousand, and no two calls return the same one.
import Spacenet.TempName

/-!
# Temporary names

The loop forms one name more than it can return: it is left with `try_n` at its
bound when that name is free as well as when it is taken.
-/

namespace Spacenet

open Machine Unicode

namespace Tries

variable {x x' : Tries} {dir dir' pfx pfx' : Text} {s s' : WString}

/-! ## The loop -/

theorem step_taken {t : Nat} (h : x.taken t (x.candidate dir pfx t) = true) (ht : t < MAXTRIES) :
    x.tempNameStep dir pfx t = .inl (t + 1) := by
  simp only [tempNameStep, h, ht, if_true]

theorem step_free {t : Nat} (h : x.taken t (x.candidate dir pfx t) = false) :
    x.tempNameStep dir pfx t = .inr (x.candidate dir pfx t, t) := by
  simp only [tempNameStep, h, Bool.false_eq_true, if_false]

/-- The last try ends the loop, and leaves `try_n` at its bound at least. -/
theorem step_last : ∃ t, MAXTRIES ≤ t ∧ x.tempNameStep dir pfx MAXTRIES = .inr (x.candidate dir pfx MAXTRIES, t) := by
  cases htaken : x.taken MAXTRIES (x.candidate dir pfx MAXTRIES) with
  | false => exact ⟨MAXTRIES, Nat.le_refl _, step_free htaken⟩
  | true =>
      refine ⟨MAXTRIES + 1, Nat.le_succ _, ?_⟩
      simp only [tempNameStep, htaken, if_true, Nat.lt_irrefl, if_false]

/-- The names before try `t` are taken. -/
def TakenBefore (x : Tries) (dir pfx : Text) (t : Nat) : Prop :=
  ∀ i < t, x.taken i (x.candidate dir pfx i) = true

/-- The loop gets to a try that it has reason to make. -/
theorem leads_try {t : Nat} (h : TakenBefore x dir pfx t) (ht : t ≤ MAXTRIES) :
    Leads (x.tempNameStep dir pfx) (.inl 0) (.inl t) := by
  induction t with
  | zero => exact Leads.refl _
  | succ t ih =>
      have hbefore := ih (fun i hi => h i (Nat.lt_succ_of_lt hi)) (Nat.le_of_succ_le ht)
      have hstep := step_taken (h t (Nat.lt_succ_self t)) ht
      exact hbefore.trans ((Leads.of_state t).trans (Leads.of_eq hstep))

theorem halts_free {t : Nat} (hbefore : TakenBefore x dir pfx t) (ht : t < MAXTRIES)
    (hfree : x.taken t (x.candidate dir pfx t) = false) :
    Halts (x.tempNameStep dir pfx) 0 (x.candidate dir pfx t, t) :=
  (leads_try hbefore (Nat.le_of_lt ht)).trans ((Leads.of_state t).trans (Leads.of_eq (step_free hfree)))

theorem halts_taken (hall : TakenBefore x dir pfx MAXTRIES) :
    ∃ t, MAXTRIES ≤ t ∧ Halts (x.tempNameStep dir pfx) 0 (x.candidate dir pfx MAXTRIES, t) := by
  obtain ⟨t, ht, hstep⟩ := @step_last x dir pfx
  have hbound := leads_try hall (Nat.le_refl _)
  exact ⟨t, ht, hbound.trans ((Leads.of_state _).trans (Leads.of_eq hstep))⟩

/-! ## A call -/

/-- The call ends with this result. -/
def Returns (x : Tries) (dir pfx : Text) (r : Except Error WString) : Prop := ∃ fuel, x.tempName dir pfx fuel = some r

def deniedDirectory (dir : Text) : Error := .runtimeError ("access denied to directory: ".toList ++ dir)

def maxtriesError : Error := .rangeError "function temp_name MAXTRIES reached".toList

theorem find?_range_cases (p : Nat → Bool) (n : Nat) :
    (∃ t < n, (List.range n).find? p = some t ∧ p t = true ∧ ∀ i < t, p i = false) ∨
      (List.range n).find? p = none ∧ ∀ i < n, p i = false := by
  cases hfind : (List.range n).find? p with
  | some t =>
      obtain ⟨hp, hmem, hbefore⟩ := List.find?_range_eq_some.mp hfind
      exact .inl ⟨t, List.mem_range.mp hmem, rfl, hp, fun i hi => by simpa using hbefore i hi⟩
  | none => exact .inr ⟨rfl, fun i hi => by simpa using List.find?_range_eq_none.mp hfind i hi⟩

/-- What `temp_name` is for: the first free name of `MAXTRIES` ones. -/
def firstFree (x : Tries) (dir pfx : Text) : Except Error WString :=
  match (List.range MAXTRIES).find? fun t => !x.taken t (x.candidate dir pfx t) with
  | some t => .ok (x.candidate dir pfx t)
  | none => .error maxtriesError

/-- The result of a call whose loop ends like this. -/
theorem returns_of_halts (h : x.granted (x.dirOr dir) = true) {t : Nat}
    (hloop : Halts (x.tempNameStep (x.dirOr dir) (pfxOr pfx)) 0 (s, t)) (r : Except Error WString) :
    x.Returns dir pfx r ↔ r = if t ≥ MAXTRIES then .error maxtriesError else .ok s := by
  unfold Returns
  simp only [tempName, h, not_true_eq_false, if_false, bind, Option.bind_eq_some_iff]
  constructor
  · rintro ⟨fuel, ⟨s', t'⟩, hrun, hr⟩
    obtain ⟨rfl, rfl⟩ := Prod.mk.inj (hloop.unique (halts_iff.mpr ⟨fuel, hrun⟩))
    by_cases ht : t ≥ MAXTRIES
    · rw [if_pos ht] at hr ⊢
      exact (Option.some.inj hr).symm
    · rw [if_neg ht] at hr ⊢
      exact (Option.some.inj hr).symm
  · rintro rfl
    obtain ⟨fuel, hrun⟩ := halts_iff.mp hloop
    refine ⟨fuel, (s, t), hrun, ?_⟩
    split <;> rfl

/-- The one result of a call. -/
def outcome (x : Tries) (dir pfx : Text) : Except Error WString :=
  if x.granted (x.dirOr dir) then x.firstFree (x.dirOr dir) (pfxOr pfx)
  else .error (deniedDirectory (x.dirOr dir))

theorem returns_iff (r : Except Error WString) : x.Returns dir pfx r ↔ r = x.outcome dir pfx := by
  unfold outcome
  cases hgranted : x.granted (x.dirOr dir) with
  | false =>
      have hcall : ∀ fuel, x.tempName dir pfx fuel = some (.error (deniedDirectory (x.dirOr dir))) := by
        intro fuel
        simp only [tempName, hgranted, Bool.false_eq_true, not_false_eq_true, if_true]
        rfl
      simp only [Returns, hcall, exists_const, Option.some.injEq, Bool.false_eq_true, if_false, eq_comm]
  | true =>
      rw [if_pos rfl]
      unfold firstFree
      obtain ⟨t, ht, hfind, hfree, hbefore⟩ | ⟨hfind, hall⟩ :=
        find?_range_cases (fun t => !x.taken t (x.candidate (x.dirOr dir) (pfxOr pfx) t)) MAXTRIES
      · have hloop := halts_free (fun i hi => by simpa using hbefore i hi) ht (by simpa using hfree)
        rw [returns_of_halts hgranted hloop, if_neg (Nat.not_le_of_lt ht), hfind]
      · obtain ⟨t, ht, hloop⟩ := halts_taken fun i hi => by simpa using hall i hi
        rw [returns_of_halts hgranted hloop, if_pos ht, hfind]

/-- Every call ends, and its one result is the first free name, an error when the directory is denied to the
process, or an error when the first ten thousand names are taken. One more name is formed then, which
is not returned though it may be free. -/
theorem tempName_returns_iff (x : Tries) (dir pfx : Text) (r : Except Error WString) :
    (x.Returns dir pfx r ↔
      r = if x.granted (x.dirOr dir) then x.firstFree (x.dirOr dir) (pfxOr pfx)
        else .error (deniedDirectory (x.dirOr dir))) ∧
      (TakenBefore x (x.dirOr dir) (pfxOr pfx) MAXTRIES → ∃ t, MAXTRIES ≤ t ∧
        Halts (x.tempNameStep (x.dirOr dir) (pfxOr pfx)) 0 (x.candidate (x.dirOr dir) (pfxOr pfx) MAXTRIES, t)) :=
  ⟨returns_iff r, halts_taken⟩

/-! ## The text of a name -/

theorem units_append (s t : Text) : units (s ++ t) = units s + units t := by
  rw [units, utf16_append, List.length_append]
  rfl

theorem units_cText (s : Text) : units (cText s) ≤ units s :=
  ((List.takeWhile_prefix _).sublist.flatMap utf16Char).length_le

theorem units_ascii {s : Text} (h : ∀ c ∈ s, c.toNat < 0x80) : units s = s.length := by
  induction s with
  | nil => rfl
  | cons c s ih =>
      obtain ⟨hc, hs⟩ := List.forall_mem_cons.mp h
      have hunits : units s = s.length := ih hs
      rw [units, utf16, List.flatMap_cons, utf16Char_ascii hc, ← utf16, List.singleton_append, List.length_cons, ← units,
        hunits, List.length_cons]

/-- A field of the format behind its separator. -/
theorem units_field {s : Text} (hs : ∀ d ∈ s, d.toNat < 0x80) : units ('-' :: s) = s.length + 1 := by
  rw [units_ascii (List.forall_mem_cons.mpr ⟨by decide, hs⟩), List.length_cons]

theorem length_hex_le (u : U32) : (Nat.toDigits 16 u.toNat).length ≤ 8 :=
  (Nat.length_toDigits_le_iff (by decide) (by decide)).mpr u.isLt

/-- The buffer is long enough for every name. -/
theorem candidate_eq (x : Tries) (dir pfx : Text) (t : Nat) :
    x.candidate dir pfx t = utf16 (x.format dir pfx t) := by
  apply List.take_of_length_le
  show units (x.format dir pfx t) ≤ _
  have hpid : (Digits.signed x.pid).length ≤ 10 + 1 := by
    have hlt := x.pid_lt
    exact Digits.length_signed_le (by decide) (by omega)
  have hindex : (Digits.signed (x.index t).toInt).length ≤ 10 + 1 := by
    have hlow := BitVec.le_toInt (x.index t)
    have hhigh := BitVec.toInt_lt (x := x.index t)
    exact Digits.length_signed_le (by decide) (by omega)
  have hm := length_hex_le (x.m t)
  have hn := length_hex_le (x.n t)
  have hdir := units_cText dir
  have hpfx := units_cText pfx
  have hslash : units ('\\' :: cText pfx) = 1 + units (cText pfx) := units_append ['\\'] _
  simp only [format, units_append, hslash, units_field (Digits.signed_ascii _),
    units_field (Digits.toDigits_ascii (b := 16) (by decide) (by decide))]
  omega

/-- The fields of a name are read from its end to its front. -/
theorem format_fields {t t' : Nat} (h : x.format dir pfx t = x'.format dir' pfx' t') :
    x.pid = x'.pid ∧ x.index t = x'.index t' := by
  have hhex : ∀ u : U32, '-' ∉ Nat.toDigits 16 u.toNat := fun u => Digits.dash_notMem_toDigits (by decide) _
  have hdecimal : ∀ pid : Nat, '-' ∉ Digits.signed pid := by
    intro pid
    have hsign : Digits.sign (pid : Int) = [] := if_neg (by omega)
    rw [Digits.signed, hsign, List.nil_append]
    exact Digits.dash_notMem_toDigits (by decide) _
  -- a number that is not negative ends with a digit
  have hlast : ∀ (s : Text) (pid : Nat), (s ++ '-' :: Digits.signed pid).getLast? ≠ some '-' := by
    intro s pid hdash
    have hne : Digits.signed (pid : Int) ≠ [] := by simp [Digits.signed]
    rw [← List.singleton_append, ← List.append_assoc, List.getLast?_append_of_ne_nil _ hne] at hdash
    exact hdecimal pid (List.mem_of_getLast? hdash)
  obtain ⟨hm, -⟩ := Digits.last_field (hhex _) (hhex _) h
  obtain ⟨hindex, -⟩ := Digits.last_field (hhex _) (hhex _) hm
  obtain ⟨hpid, hsame⟩ := Digits.last_number (hlast _ _) (hlast _ _) hindex
  obtain ⟨-, hdigits⟩ := Digits.last_field (hdecimal _) (hdecimal _) hpid
  have hnumber := Digits.last_number (by simp) (by simp) (congrArg (fun digits => [] ++ '-' :: digits) hdigits)
  exact ⟨Int.ofNat.inj hnumber.2, BitVec.eq_of_toInt_eq hsame⟩

theorem returns_candidate (h : x.Returns dir pfx (.ok s)) :
    ∃ t < MAXTRIES, s = utf16 (x.format (x.dirOr dir) (pfxOr pfx) t) := by
  have hresult := (returns_iff _).mp h
  unfold outcome at hresult
  split at hresult
  · unfold firstFree at hresult
    obtain ⟨t, ht, hfind, -⟩ | ⟨hfind, -⟩ :=
      find?_range_cases (fun t => !x.taken t (x.candidate (x.dirOr dir) (pfxOr pfx) t)) MAXTRIES
    · rw [hfind] at hresult
      exact ⟨t, ht, by rw [Except.ok.inj hresult, candidate_eq]⟩
    · rw [hfind] at hresult
      cases hresult
  · cases hresult

/-- Two calls, in different processes, or in one process with other values of the counter, never return the same
name, whatever directories and prefixes they are given. -/
theorem tempName_ne (h : x.Returns dir pfx (.ok s)) (h' : x'.Returns dir' pfx' (.ok s'))
    (hother : x.pid = x'.pid →
      ∀ t < MAXTRIES, ∀ t' < MAXTRIES, x.ticket t % 2 ^ 32 ≠ x'.ticket t' % 2 ^ 32) : s ≠ s' := by
  obtain ⟨t, ht, rfl⟩ := returns_candidate h
  obtain ⟨t', ht', rfl⟩ := returns_candidate h'
  intro heq
  obtain ⟨hpid, hindex⟩ := format_fields (utf16_injective heq)
  apply hother hpid t ht t' ht'
  simpa [index, ← BitVec.toNat_inj] using hindex

/-- The tries of a call from this ticket on, at one moment, with every name free. -/
def freeTries (first : Nat) : Tries where
  pid := 4
  pid_lt := by decide
  tempDir := "C:\\T\\".toList
  granted _ := true
  ticket t := first + t
  m _ := 0
  n _ := 0
  taken _ _ := false

theorem returns_freeTries (first : Nat) :
    (freeTries first).Returns [] [] (.ok ((freeTries first).candidate "C:\\T".toList "temp".toList 0)) := by
  have hloop : Halts ((freeTries first).tempNameStep "C:\\T".toList "temp".toList) 0 (_, 0) :=
    halts_free nofun (by decide) rfl
  exact (returns_of_halts rfl hloop _).mpr rfl

theorem tempName_ne_freeTries :
    (freeTries 0).candidate "C:\\T".toList "temp".toList 0 ≠
      (freeTries 10000).candidate "C:\\T".toList "temp".toList 0 :=
  tempName_ne (returns_freeTries 0) (returns_freeTries 10000) fun _ t ht t' ht' => by
    unfold MAXTRIES at ht ht'
    simp only [freeTries]
    omega

end Tries

end Spacenet
