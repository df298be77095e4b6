import Mathlib.Algebra.BigOperators.Group.List.Basic
import Mathlib.Algebra.Order.BigOperators.Group.List
import Mathlib.Algebra.Ring.Nat

/-!
# Regions laid out one after the other

A bump allocator gives region `i` the rows from `offset caps i` on, where `caps` are
the capacities asked for so far. Regions are pairwise disjoint and end with the sum
of the capacities; a row number determines the region it falls in and the place in it.

## Main definitions

* `offset` — where a region starts.
* `offset_unique` — a row lies in one region only.
-/

namespace Lib

/-- The start of region `i`. -/
def offset (caps : List ℕ) (i : ℕ) : ℕ := (caps.take i).sum

@[simp] theorem offset_zero (caps : List ℕ) : offset caps 0 = 0 := rfl

@[simp] theorem offset_cons (c : ℕ) (caps : List ℕ) (i : ℕ) :
    offset (c :: caps) (i + 1) = c + offset caps i := by
  simp [offset]

/-- A region ends where the next one starts. -/
theorem offset_succ {caps : List ℕ} {i c : ℕ} (h : caps[i]? = some c) :
    offset caps (i + 1) = offset caps i + c := by
  induction caps generalizing i with
  | nil => simp at h
  | cons c' caps ih =>
      cases i with
      | zero =>
          obtain rfl : c' = c := by simpa using h
          simp
      | succ i =>
          rw [offset_cons, offset_cons, ih (by simpa using h)]
          omega

theorem offset_mono {caps : List ℕ} {i j : ℕ} (h : i ≤ j) : offset caps i ≤ offset caps j := by
  rw [offset, offset, ← List.take_append_drop i (caps.take j), List.take_take, Nat.min_eq_left h,
    List.sum_append]
  exact Nat.le_add_right _ _

theorem offset_le_sum (caps : List ℕ) (i : ℕ) : offset caps i ≤ caps.sum := by
  conv_rhs => rw [← List.take_append_drop i caps, List.sum_append]
  exact Nat.le_add_right _ _

/-- Every region ends before the total. -/
theorem offset_add_le_sum {caps : List ℕ} {i c : ℕ} (h : caps[i]? = some c) :
    offset caps i + c ≤ caps.sum := by
  rw [← offset_succ h]
  exact offset_le_sum caps (i + 1)

/-- A region ends before every later one starts. -/
theorem offset_add_le {caps : List ℕ} {i j c : ℕ} (h : caps[i]? = some c) (hij : i < j) :
    offset caps i + c ≤ offset caps j := by
  rw [← offset_succ h]
  exact offset_mono hij

/-- A row determines its region and its place in it. -/
theorem offset_unique {caps : List ℕ} {i j c d t u : ℕ} (hi : caps[i]? = some c)
    (hj : caps[j]? = some d) (ht : t < c) (hu : u < d)
    (h : offset caps i + t = offset caps j + u) : i = j ∧ t = u := by
  rcases Nat.lt_trichotomy i j with hij | rfl | hij
  · have := offset_add_le hi hij
    omega
  · exact ⟨rfl, by omega⟩
  · have := offset_add_le hj hij
    omega

/-- The same for lines of equal size. -/
theorem line_unique {size k l t u : ℕ} (ht : t < size) (hu : u < size)
    (h : k * size + t = l * size + u) : k = l ∧ t = u := by
  rcases Nat.lt_trichotomy k l with hkl | rfl | hkl
  · have := Nat.mul_le_mul_right size hkl
    rw [Nat.succ_mul] at this
    omega
  · exact ⟨rfl, by omega⟩
  · have := Nat.mul_le_mul_right size hkl
    rw [Nat.succ_mul] at this
    omega

end Lib
