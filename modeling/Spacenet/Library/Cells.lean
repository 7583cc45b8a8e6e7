-- SUMMARY: Arrays as memory cells: loads and stores at a position, also behind the end.
import Mathlib.Algebra.Notation.Defs
import Mathlib.Data.Finite.Prod

/-!
# Cells

An array of a fixed length, read and written at a position that a pointer or an
index has reached. Behind the end a load gives 0 and a store does nothing.
-/

namespace Cells

variable {α : Type} [Zero α] {n : Nat}

def load (cells : Vector α n) (i : Nat) : α := cells[i]?.getD 0

def store (cells : Vector α n) (i : Nat) (x : α) : Vector α n := cells.setIfInBounds i x

variable {cells cells' : Vector α n} {i j : Nat} {x : α}

theorem load_of_lt (hi : i < n) : load cells i = cells[i] := by
  simp [load, hi]

theorem load_of_ge (hi : n ≤ i) : load cells i = 0 := by
  simp [load, Vector.getElem?_eq_none hi]

theorem load_store_self (hi : i < n) : load (store cells i x) i = x := by
  simp [load, store, hi]

theorem load_store_ne (h : i ≠ j) : load (store cells i x) j = load cells j := by
  unfold load store
  rw [Vector.getElem?_setIfInBounds_ne h]

theorem load_store (hi : i < n) : load (store cells i x) j = if i = j then x else load cells j := by
  split
  · next h => rw [← h, load_store_self hi]
  · next h => exact load_store_ne h

/-- Arrays with the same cells are the same. -/
theorem ext_load (h : ∀ i < n, load cells i = load cells' i) : cells = cells' := by
  apply Vector.ext
  intro i hi
  rw [← load_of_lt hi, ← load_of_lt hi, h i hi]

/-- A store is undone by storing what was there. -/
theorem store_store_load (cells : Vector α n) (i : Nat) (x : α) : store (store cells i x) i (load cells i) = cells := by
  apply ext_load
  intro j hj
  by_cases hij : i = j
  · rw [hij, load_store_self hj]
  · rw [load_store_ne hij, load_store_ne hij]

instance instFinite [Finite α] : Finite (Vector α n) := by
  apply Finite.of_injective fun (cells : Vector α n) (i : Fin n) => cells[i]
  intro cells cells' h
  apply Vector.ext
  intro i hi
  exact congrFun h ⟨i, hi⟩

end Cells
