import Mathlib.Algebra.BigOperators.Group.Finset.Basic
import Mathlib.Algebra.Order.Floor.Div

/-!
# Sums in blocks

A sum over a range can be taken block by block. The last block may stick out; what is
outside then counts as zero.

## Main definitions

* `lt_ceilDiv_iff` — the blocks that are needed.
* `sum_range_mul` — blocks that fill the range.
* `sum_range_blocks` — blocks that cover it.
-/

namespace Lib

theorem lt_ceilDiv_iff {n d k : ℕ} (hd : 0 < d) : k < n ⌈/⌉ d ↔ d * k < n := by
  rw [← not_le, ceilDiv_le_iff_le_mul hd, not_le]

variable {M : Type*} [AddCommMonoid M]

theorem sum_range_mul (f : ℕ → M) (m n : ℕ) :
    ∑ x ∈ Finset.range (m * n), f x =
      ∑ i ∈ Finset.range m, ∑ j ∈ Finset.range n, f (i * n + j) := by
  induction m with
  | zero => rw [Nat.zero_mul, Finset.range_zero, Finset.sum_empty, Finset.sum_empty]
  | succ m ih =>
      calc ∑ x ∈ Finset.range ((m + 1) * n), f x
          = ∑ x ∈ Finset.range (m * n), f x + ∑ j ∈ Finset.range n, f (m * n + j) := by
            rw [Nat.succ_mul, Finset.sum_range_add]
        _ = _ := by rw [ih, Finset.sum_range_succ]

theorem sum_range_blocks (f : ℕ → M) {n : ℕ} (hn : 0 < n) (size : ℕ) :
    (∑ i ∈ Finset.range (size ⌈/⌉ n), ∑ j ∈ Finset.range n,
      if j < size - i * n then f (i * n + j) else 0) = ∑ x ∈ Finset.range size, f x := by
  have hinside : ∀ i j, j < size - i * n ↔ i * n + j < size := fun i j => by omega
  have hle : size ≤ size ⌈/⌉ n * n := by
    rw [Nat.mul_comm]
    exact le_smul_ceilDiv hn
  simp only [hinside]
  rw [← sum_range_mul fun x => if x < size then f x else 0, ← Finset.sum_filter]
  congr 1
  ext x
  simp only [Finset.mem_filter, Finset.mem_range]
  omega

end Lib
