import HarvestMoE.Lib.Rows
import Mathlib.Data.Nat.SuccPred
import Mathlib.Order.Interval.Set.LinearOrder
import Mathlib.Order.Lattice.Nat
import Mathlib.Order.SuccPred.IntervalSucc

/-!
# A block cut in parts

A block of `total` rows is cut in `n` parts of `total / n` rows each, and the last part takes
what is left. The parts follow each other, and put together they are the block, also when there
are more parts than rows. What is shown of the parts holds of any rising sequence of marks.

## Main definitions

* `cut total n k` — where part `k` begins.
* `Slice.Tiles` — slices that make up a block.
* `Slice.tiles_of_marks` — slices between rising marks do.
* `copyRows_append` — copying two parts copies both.
-/

namespace Lib

variable {total n k : ℕ}

/-- Where part `k` begins; behind the last part the block ends. -/
def cut (total n k : ℕ) : ℕ := if k < n then k * (total / n) else total

theorem cut_zero (hn : 0 < n) : cut total n 0 = 0 := by rw [cut, if_pos hn, Nat.zero_mul]

theorem cut_self (total n : ℕ) : cut total n n = total := if_neg (Nat.lt_irrefl n)

theorem cut_of_lt (hk : k < n) : cut total n k = k * (total / n) := if_pos hk

theorem mul_div_le_total (hk : k ≤ n) : k * (total / n) ≤ total :=
  (Nat.mul_le_mul_right _ hk).trans (Nat.mul_div_le total n)

theorem cut_mono (total n : ℕ) : Monotone (cut total n) := by
  refine monotone_nat_of_le_succ fun k => ?_
  unfold cut
  split_ifs with hk hnext
  · exact Nat.mul_le_mul_right _ (Nat.le_succ k)
  · exact mul_div_le_total hk.le
  · omega
  · exact le_rfl

/-- The last part is as long as what is left. -/
theorem cut_succ (hk : k < n) :
    cut total n (k + 1) =
      k * (total / n) + if k = n - 1 then total - k * (total / n) else total / n := by
  have hle : k * (total / n) ≤ total := mul_div_le_total hk.le
  split_ifs with hlast
  · rw [cut, if_neg (by omega)]
    omega
  · rw [cut_of_lt (by omega), Nat.succ_mul]

/-- The parts between rising marks make up the block. -/
theorem biUnion_Ico_marks {marks : ℕ → ℕ} (hmarks : Monotone marks) (n : ℕ) :
    ⋃ k < n, Set.Ico (marks k) (marks (k + 1)) = Set.Ico (marks 0) (marks n) := by
  induction n with
  | zero => simp
  | succ n ih =>
      rw [Set.biUnion_lt_succ, ih]
      exact Set.Ico_union_Ico_eq_Ico (hmarks (Nat.zero_le n)) (hmarks (Nat.le_succ n))

namespace Slice

/-- The first `n` slices, in a tensor of `size` rows, make up the block of `len` rows from
`base` on. -/
structure Tiles (slices : ℕ → Slice) (n size base len : ℕ) : Prop where
  /-- A slice stops where the next one starts. -/
  consecutive : ∀ k, k + 1 < n → (slices k).stop = some (slices (k + 1)).start
  disjoint : ∀ i < n, ∀ j < n, i ≠ j →
    ∀ r ∈ (slices i).rows 1 size, r ∉ (slices j).rows 1 size
  cover : ⋃ k < n, (slices k).rows 1 size = Set.Ico base (base + len)
  inside : base + len ≤ size

theorem rows_one (s : Slice) (size : ℕ) :
    s.rows 1 size = Set.Ico s.start (s.start + s.length size) := by
  ext r
  simp only [rows, Nat.mul_one]
  rfl

/-- Slices between rising marks. -/
theorem tiles_of_marks {slices : ℕ → Slice} {marks : ℕ → ℕ} {size base len : ℕ}
    (hmarks : Monotone marks) (hfirst : marks 0 = 0) (hlast : marks n = len)
    (hinside : base + len ≤ size)
    (hslices : ∀ k < n, slices k = ⟨base + marks k, some (base + marks (k + 1))⟩) :
    Tiles slices n size base len := by
  have hrising : Monotone fun k => base + marks k := fun i j hij =>
    Nat.add_le_add_left (hmarks hij) base
  have hrows : ∀ k < n, (slices k).rows 1 size =
      Set.Ico (base + marks k) (base + marks (k + 1)) := by
    intro k hk
    have hbound : marks (k + 1) ≤ len := hlast ▸ hmarks hk
    have hstep : marks k ≤ marks (k + 1) := hmarks (Nat.le_succ k)
    have hlen : (slices k).length size = marks (k + 1) - marks k := by
      rw [hslices k hk]
      simp only [length, Option.getD_some]
      omega
    rw [rows_one, hlen, hslices k hk]
    congr 1
    simp only
    omega
  constructor
  case consecutive =>
    intro k hk
    rw [hslices k (by omega), hslices (k + 1) hk]
  case disjoint =>
    intro i hi j hj hne r
    rw [hrows i hi, hrows j hj]
    exact fun hr hr' => Set.disjoint_left.mp (hrising.pairwise_disjoint_on_Ico_succ hne) hr hr'
  case cover =>
    rw [Set.iUnion₂_congr hrows, biUnion_Ico_marks hrising, hfirst, hlast, Nat.add_zero]
  case inside => exact hinside

end Slice

theorem copyRows_zero {α : Type*} (dst src : ℕ → α) (at₀ fr : ℕ) :
    copyRows dst at₀ src fr 0 = dst := by
  funext r
  exact if_neg (by omega)

/-- Two copies that follow each other, in the source as in the target. -/
theorem copyRows_append {α : Type*} (dst src : ℕ → α) (at₀ fr len len' : ℕ) :
    copyRows (copyRows dst at₀ src fr len) (at₀ + len) src (fr + len) len' =
      copyRows dst at₀ src fr (len + len') := by
  funext r
  by_cases hsecond : at₀ + len ≤ r ∧ r < at₀ + len + len'
  · rw [copyRows_inside hsecond.1 hsecond.2, copyRows_inside (by omega) (by omega)]
    congr 1
    omega
  · rw [copyRows, if_neg hsecond]
    unfold copyRows
    congr 1
    exact propext (by omega)

end Lib
