import Mathlib.Algebra.Order.Ring.Int
import Mathlib.Data.Int.Bitwise
import Mathlib.Tactic.Positivity

/-!
# Powers of two by their bits

`n & (n - 1)` clears the lowest bit of `n` that is set. On integers of any size and sign, with
sign bits that go on for ever, nothing is left for the powers of two, and for 0.

## Main definitions

* `land_sub_one_natCast` — the test on a natural number.
* `land_sub_one_eq_zero_iff` — the test on an integer.
-/

namespace Lib

theorem land_sub_one_natCast (n : ℕ) : Int.land n (n - 1) = (n &&& (n - 1) : ℕ) := by
  cases n with
  | zero =>
      have hbits : Nat.ldiff 0 0 = 0 := by simp [Nat.ldiff]
      exact congrArg Nat.cast hbits
  | succ n =>
      rw [Nat.cast_succ, Int.add_sub_cancel, Nat.add_sub_cancel]
      rfl

/-- A negative number and the one before it have the sign in common. -/
theorem land_sub_one_negSucc (n : ℕ) : Int.land (Int.negSucc n) (Int.negSucc n - 1) < 0 := by
  have hprev : Int.negSucc n - 1 = Int.negSucc (n + 1) := rfl
  rw [hprev]
  exact Int.negSucc_lt_zero _

theorem land_sub_one_eq_zero_iff (n : ℤ) :
    Int.land n (n - 1) = 0 ↔ n = 0 ∨ ∃ k : ℕ, n = 2 ^ k := by
  cases n with
  | ofNat n =>
      rw [Int.ofNat_eq_natCast, land_sub_one_natCast]
      by_cases hn : n = 0
      · simp [hn]
      · have hpow : (∃ k : ℕ, (n : ℤ) = 2 ^ k) ↔ n.isPowerOfTwo :=
          exists_congr fun k => by norm_cast
        rw [hpow, ← Nat.and_sub_one_eq_zero_iff_isPowerOfTwo hn, Int.natCast_eq_zero,
          Int.natCast_eq_zero]
        exact (or_iff_right hn).symm
  | negSucc n =>
      have hneg := Int.negSucc_lt_zero n
      refine iff_of_false (land_sub_one_negSucc n).ne ?_
      rintro (hzero | ⟨k, hpow⟩)
      · exact hneg.ne hzero
      · have hpos : (0 : ℤ) < 2 ^ k := by positivity
        omega

end Lib
