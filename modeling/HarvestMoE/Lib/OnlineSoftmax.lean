import Mathlib.Algebra.BigOperators.Field
import Mathlib.Algebra.BigOperators.GroupWithZero.Action
import Mathlib.Algebra.Module.Defs
import Mathlib.Data.Finset.Lattice.Fold
import Mathlib.Order.WithBot
import Mathlib.Tactic.Ring

/-!
# Softmax averages block by block

A softmax average is computed without all scores at hand: the weights of the blocks seen
are taken relative to the largest score so far, and rescaled when a block has a larger
one. The exponential function may be any positive one that turns sums into products.

## Main definitions

* `ExpLaws` — what is used of the exponential function.
* `softmax` — the weight of a key among others.
* `Running`, `Running.absorb` — the largest score, the sum and the average so far.
* `Absorbed` — which keys these are for.
* `Running.average`, `Averaged` — the same where the values are kept divided by the sum.
-/

namespace Lib

variable {K V ι : Type*} [Field K]

structure ExpLaws [LinearOrder K] (exp : K → K) : Prop where
  pos : ∀ a, 0 < exp a
  add : ∀ a b, exp (a + b) = exp a * exp b

/-- The exponential of a difference. That of `-∞` is zero; nothing is compared with a
largest score of `-∞`. -/
def expSub (exp : K → K) : WithBot K → WithBot K → K
  | some a, some m => exp (a - m)
  | _, _ => 0

/-- The softmax of the scores of some keys. -/
def softmax (exp : K → K) (score : ι → K) (keys : Finset ι) (t : ι) : K :=
  exp (score t) / ∑ u ∈ keys, exp (score u)

@[simp] theorem expSub_coe {exp : K → K} (a m : K) : expSub exp a m = exp (a - m) := rfl

@[simp] theorem expSub_bot {exp : K → K} (m : WithBot K) : expSub exp ⊥ m = 0 := rfl

/-- The largest score, the sum of the weights and the weighted values so far. -/
structure Running (K V : Type*) where
  max : WithBot K
  sum : K
  acc : V

variable [LinearOrder K]

/-- Changing what a score is compared with. -/
theorem ExpLaws.expSub_mul {exp : K → K} (laws : ExpLaws exp) {a m m' : WithBot K} (ha : a ≤ m)
    (hm : m ≤ m') :
    expSub exp a m * expSub exp m m' = expSub exp a m' := by
  cases a with
  | bot => simp
  | coe a =>
      cases m with
      | bot => exact absurd ha (WithBot.not_coe_le_bot a)
      | coe m =>
          cases m' with
          | bot => exact absurd hm (WithBot.not_coe_le_bot m)
          | coe m' =>
              rw [expSub_coe, expSub_coe, expSub_coe, ← laws.add]
              congr 1
              ring

theorem ExpLaws.expSub_eq_mul {exp : K → K} (laws : ExpLaws exp) (a m : K) :
    expSub exp a m = exp (-m) * exp a := by
  rw [expSub_coe, ← laws.add]
  congr 1
  ring

variable [AddCommMonoid V] [Module K V]

/-- Rescale to the largest score and add a block. -/
def Running.absorb (exp : K → K) (score : ι → K) (value : ι → V) (block : Finset ι)
    (x : Running K V) : Running K V :=
  let m := x.max ⊔ block.sup fun t => (score t : WithBot K)
  let scale := expSub exp x.max m
  { max := m
    sum := ∑ t ∈ block, expSub exp (score t) m + scale * x.sum
    acc := ∑ t ∈ block, expSub exp (score t) m • value t + scale • x.acc }

/-- The sums are over the keys, relative to the largest score. Before the first key the
values may be anything. -/
structure Absorbed (exp : K → K) (score : ι → K) (value : ι → V) (keys : Finset ι)
    (x : Running K V) : Prop where
  max : x.max = keys.sup fun t => (score t : WithBot K)
  sum : x.sum = ∑ t ∈ keys, expSub exp (score t) x.max
  acc : keys.Nonempty → x.acc = ∑ t ∈ keys, expSub exp (score t) x.max • value t

variable {exp : K → K} {score : ι → K} {value : ι → V} {keys block : Finset ι} {x : Running K V}

theorem Absorbed.score_le (h : Absorbed exp score value keys x) {t : ι} (ht : t ∈ keys) :
    (score t : WithBot K) ≤ x.max := by
  rw [h.max]
  exact Finset.le_sup (f := fun t => (score t : WithBot K)) ht

/-- The sums for some keys, rescaled to a score that is as large. -/
theorem Absorbed.rescale_sum (laws : ExpLaws exp) (h : Absorbed exp score value keys x)
    {m : WithBot K} (hm : x.max ≤ m) :
    expSub exp x.max m * x.sum = ∑ t ∈ keys, expSub exp (score t) m := by
  rw [h.sum, Finset.mul_sum]
  refine Finset.sum_congr rfl fun t ht => ?_
  rw [mul_comm]
  exact laws.expSub_mul (h.score_le ht) hm

theorem Absorbed.rescale_acc (laws : ExpLaws exp) (h : Absorbed exp score value keys x)
    {m : WithBot K} (hm : x.max ≤ m) :
    expSub exp x.max m • x.acc = ∑ t ∈ keys, expSub exp (score t) m • value t := by
  rcases keys.eq_empty_or_nonempty with rfl | hne
  · -- Nothing is seen yet, so what there is counts for nothing.
    have hbot : x.max = ⊥ := h.max
    rw [hbot, expSub_bot, zero_smul, Finset.sum_empty]
  · rw [h.acc hne, Finset.smul_sum]
    refine Finset.sum_congr rfl fun t ht => ?_
    rw [smul_smul, mul_comm]
    rw [laws.expSub_mul (h.score_le ht) hm]

/-- **A block is added to the keys.** -/
theorem Absorbed.absorb [DecidableEq ι] (laws : ExpLaws exp)
    (h : Absorbed exp score value keys x) (hdisj : Disjoint keys block) :
    Absorbed exp score value (keys ∪ block) (x.absorb exp score value block) := by
  have hm : x.max ≤ x.max ⊔ block.sup fun t => (score t : WithBot K) := le_sup_left
  refine ⟨?_, ?_, fun _ => ?_⟩
  · rw [Finset.sup_union, ← h.max]
    rfl
  · simp only [Running.absorb]
    rw [h.rescale_sum laws hm, Finset.sum_union hdisj, add_comm]
  · simp only [Running.absorb]
    rw [h.rescale_acc laws hm, Finset.sum_union hdisj, add_comm]

/-- **The values over the sum are the softmax average.** -/
theorem Absorbed.average (laws : ExpLaws exp)
    (h : Absorbed exp score value keys x) (hne : keys.Nonempty) :
    (1 / x.sum) • x.acc = ∑ t ∈ keys, softmax exp score keys t • value t := by
  obtain ⟨t, ht⟩ := hne
  have hle : (score t : WithBot K) ≤ x.max := h.score_le ht
  cases hx : x.max with
  | bot => exact absurd (hx ▸ hle) (WithBot.not_coe_le_bot _)
  | coe m =>
      have hm : exp (-m) ≠ 0 := (laws.pos _).ne'
      have hsum : x.sum = exp (-m) * ∑ t ∈ keys, exp (score t) := by
        rw [h.sum, hx, Finset.mul_sum]
        exact Finset.sum_congr rfl fun t _ => laws.expSub_eq_mul (score t) m
      rw [h.acc ⟨t, ht⟩, hx, Finset.smul_sum, hsum]
      refine Finset.sum_congr rfl fun t _ => ?_
      rw [smul_smul, laws.expSub_eq_mul, softmax]
      congr 1
      rw [one_div_mul_eq_div, mul_div_mul_left _ _ hm]

section Averages

/-- Rescale and add a block, where the values are kept divided by the sum. The weights of the
block are first taken relative to its own largest score. -/
def Running.average (exp : K → K) (score : ι → K) (value : ι → V) (block : Finset ι)
    (x : Running K V) : Running K V :=
  let blockMax := block.sup fun t => (score t : WithBot K)
  let m := x.max ⊔ blockMax
  let alpha := expSub exp x.max m
  let beta := expSub exp blockMax m
  let sum := alpha * x.sum + beta * ∑ t ∈ block, expSub exp (score t) blockMax
  { max := m
    sum := sum
    acc := (x.sum / sum * alpha) • x.acc +
      ∑ t ∈ block, (expSub exp (score t) blockMax * (beta / sum)) • value t }

/-- The values are the softmax average over the keys. -/
structure Averaged (exp : K → K) (score : ι → K) (value : ι → V) (keys : Finset ι)
    (x : Running K V) : Prop where
  max : x.max = keys.sup fun t => (score t : WithBot K)
  sum : x.sum = ∑ t ∈ keys, expSub exp (score t) x.max
  acc : keys.Nonempty → x.acc = ∑ t ∈ keys, softmax exp score keys t • value t

/-- Divided by the sum, the sums are averages. -/
theorem Absorbed.averaged (laws : ExpLaws exp) (h : Absorbed exp score value keys x) :
    Averaged exp score value keys { x with acc := (1 / x.sum) • x.acc } :=
  ⟨h.max, h.sum, fun hne => h.average laws hne⟩

/-- One block at a time, dividing comes to the same before and after. -/
theorem Running.average_eq (laws : ExpLaws exp) (x : Running K V) :
    x.average exp score value block =
      let y := ({ x with acc := x.sum • x.acc } : Running K V).absorb exp score value block
      { y with acc := (1 / y.sum) • y.acc } := by
  have hweight : ∀ t ∈ block, expSub exp (score t) (block.sup fun t => (score t : WithBot K)) *
      expSub exp (block.sup fun t => (score t : WithBot K))
        (x.max ⊔ block.sup fun t => (score t : WithBot K)) =
      expSub exp (score t) (x.max ⊔ block.sup fun t => (score t : WithBot K)) := fun t ht =>
    laws.expSub_mul (Finset.le_sup (f := fun t => (score t : WithBot K)) ht) le_sup_right
  have hsum : (x.average exp score value block).sum =
      (({ x with acc := x.sum • x.acc } : Running K V).absorb exp score value block).sum := by
    simp only [Running.average, Running.absorb]
    rw [add_comm, Finset.mul_sum]
    congr 1
    exact Finset.sum_congr rfl fun t ht => by rw [mul_comm, hweight t ht]
  have hacc : (x.average exp score value block).acc =
      (1 / (x.average exp score value block).sum) •
        (({ x with acc := x.sum • x.acc } : Running K V).absorb exp score value block).acc := by
    simp only [Running.absorb, smul_add, Finset.smul_sum, smul_smul]
    simp only [Running.average]
    rw [add_comm]
    congr 1
    · refine Finset.sum_congr rfl fun t ht => ?_
      congr 1
      rw [← hweight t ht]
      ring
    · congr 1
      ring
  rw [hsum] at hacc
  exact congrArg₂ (fun s a => (⟨_, s, a⟩ : Running K V)) hsum hacc

variable [IsStrictOrderedRing K]

/-- The sum of some keys is positive. -/
theorem Absorbed.sum_pos (laws : ExpLaws exp) (h : Absorbed exp score value keys x)
    (hne : keys.Nonempty) : 0 < x.sum := by
  obtain ⟨t, ht⟩ := hne
  cases hx : x.max with
  | bot => exact absurd (hx ▸ h.score_le ht) (WithBot.not_coe_le_bot _)
  | coe m =>
      rw [h.sum, hx]
      exact Finset.sum_pos (fun t _ => laws.pos _) ⟨t, ht⟩

/-- Multiplied by the sum, the averages are sums. -/
theorem Averaged.absorbed (laws : ExpLaws exp) (h : Averaged exp score value keys x) :
    Absorbed exp score value keys { x with acc := x.sum • x.acc } := by
  refine ⟨h.max, h.sum, fun hne => ?_⟩
  have hsums : Absorbed exp score value keys
      { x with acc := ∑ t ∈ keys, expSub exp (score t) x.max • value t } :=
    ⟨h.max, h.sum, fun _ => rfl⟩
  have hsum : x.sum ≠ 0 := (hsums.sum_pos laws hne).ne'
  calc x.sum • x.acc
      = x.sum • ((1 / x.sum) • ∑ t ∈ keys, expSub exp (score t) x.max • value t) := by
        rw [h.acc hne, ← hsums.average laws hne]
    _ = ∑ t ∈ keys, expSub exp (score t) x.max • value t := by
        rw [smul_smul, mul_one_div_cancel hsum, one_smul]

/-- **A block is added to the averaged keys.** -/
theorem Averaged.average [DecidableEq ι] (laws : ExpLaws exp)
    (h : Averaged exp score value keys x) (hdisj : Disjoint keys block) :
    Averaged exp score value (keys ∪ block) (x.average exp score value block) := by
  rw [Running.average_eq laws]
  exact ((h.absorbed laws).absorb laws hdisj).averaged laws

end Averages

end Lib
