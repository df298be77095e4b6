import Mathlib.Algebra.Order.Field.Basic
import Mathlib.Order.Lattice
import Mathlib.Order.Interval.Set.Defs
import Mathlib.Tactic.Linarith
import Mathlib.Tactic.Ring

/-!
# Search for the last place and for the highest

A property that holds up to some place and not behind it has its last place found by
doubling and halving. A sequence that is nowhere below the values on both of its sides
has no higher value behind its first descent.

## Main definitions

* `DownClosed` — what holds at a place holds before it.
* `doubleWhile`, `bisect` — the two loops, over a test that may not answer.
* `UnimodalOn` — nowhere below both sides.
-/

namespace Lib

section LastPlace

/-- From the place 1 on, what holds somewhere holds at every place before. -/
def DownClosed (p : ℕ → Prop) : Prop :=
  ∀ ⦃m n : ℕ⦄, 1 ≤ m → m ≤ n → p n → p m

/-- The test answers for the property at every place from 1 on. -/
def Decides (test : ℕ → Option Bool) (p : ℕ → Prop) : Prop :=
  ∀ n, 1 ≤ n → ∃ b, test n = some b ∧ (b = true ↔ p n)

/-- Double while the test says yes. -/
def doubleWhile (test : ℕ → Option Bool) : ℕ → ℕ → Option ℕ
  | 0, _ => none
  | fuel + 1, n => (test n).bind fun yes =>
      if yes then doubleWhile test fuel (n * 2) else some n

/-- Halve while the ends differ: behind a yes, up to a no. -/
def bisect (test : ℕ → Option Bool) : ℕ → ℕ → ℕ → Option (ℕ × ℕ)
  | 0, _, _ => none
  | fuel + 1, left, right =>
      if left < right then
        (test ((left + right) / 2)).bind fun yes =>
          if yes then bisect test fuel ((left + right) / 2 + 1) right
          else bisect test fuel left ((left + right) / 2)
      else some (left, right)

variable {test : ℕ → Option Bool} {p : ℕ → Prop} {fuel bound : ℕ}

/-- Doubling ends at a place without the property, and half of it is the last one that
was tried with it. -/
theorem doubleWhile_spec (htest : Decides test p) (hbound : ∀ n, p n → n < bound) {n : ℕ}
    (hn : 1 ≤ n) (hstart : n = 1 ∨ p (n / 2)) (hfuel : bound - n < fuel) :
    ∃ m, doubleWhile test fuel n = some m ∧ 1 ≤ m ∧ m ≤ max n (2 * bound) ∧ ¬ p m ∧
      (m = 1 ∨ p (m / 2)) := by
  induction fuel generalizing n with
  | zero => exact absurd hfuel (Nat.not_lt_zero _)
  | succ fuel ih =>
      rcases htest n hn with ⟨b, hb, hiff⟩
      simp only [doubleWhile, hb, Option.bind_some]
      cases b with
      | false => exact ⟨n, rfl, hn, le_max_left _ _, fun hp => by simpa using hiff.mpr hp, hstart⟩
      | true =>
          have hp : p n := hiff.mp rfl
          have hlt := hbound n hp
          have hhalf : n * 2 / 2 = n := by omega
          rcases ih (n := n * 2) (by omega) (Or.inr (by rwa [hhalf])) (by omega) with
            ⟨m, hm, h1, hle, hrest⟩
          exact ⟨m, hm, h1, by omega, hrest⟩

/-- Halving between a place before which the property holds and one from which on it does
not ends where it ends. -/
theorem bisect_spec (htest : Decides test p) (hp : DownClosed p) {left right : ℕ}
    (hleft : 1 ≤ left) (hle : left ≤ right) (hyes : ∀ n, 1 ≤ n → n < left → p n)
    (hno : ¬ p right) (hfuel : right - left < fuel) :
    ∃ m, bisect test fuel left right = some (m, m) ∧ 1 ≤ m ∧
      ∀ n, 1 ≤ n → (p n ↔ n ≤ m - 1) := by
  induction fuel generalizing left right with
  | zero => exact absurd hfuel (Nat.not_lt_zero _)
  | succ fuel ih =>
      by_cases hlt : left < right
      · rcases htest ((left + right) / 2) (by omega) with ⟨b, hb, hiff⟩
        simp only [bisect, if_pos hlt, hb, Option.bind_some]
        cases b with
        | true =>
            have hmid : p ((left + right) / 2) := hiff.mp rfl
            refine ih (by omega) (by omega) (fun n hn hnlt => ?_) hno (by omega)
            exact hp hn (by omega) hmid
        | false =>
            have hmid : ¬ p ((left + right) / 2) := fun h => by simpa using hiff.mpr h
            exact ih hleft (by omega) hyes hmid (by omega)
      · obtain rfl : left = right := by omega
        refine ⟨left, by simp [bisect], hleft, fun n hn => ⟨fun h => ?_, fun h => ?_⟩⟩
        · by_contra hlt'
          exact hno (hp hleft (by omega) h)
        · exact hyes n hn (by omega)

end LastPlace

section Highest

variable {α : Type*} [LinearOrder α]

/-- Between two places of `s`, the sequence is not below its values on both sides. -/
def UnimodalOn (s : Set ℕ) (f : ℕ → α) : Prop :=
  ∀ ⦃a⦄, a ∈ s → ∀ ⦃c⦄, c ∈ s → ∀ ⦃b⦄, a < b → b < c → min (f a) (f c) ≤ f b

/-- Behind a descent, nothing is higher. -/
theorem UnimodalOn.le_of_lt {s : Set ℕ} {f : ℕ → α} (hf : UnimodalOn s f) {a b c : ℕ}
    (ha : a ∈ s) (hc : c ∈ s) (hab : a < b) (hbc : b ≤ c) (hlt : f b < f a) : f c ≤ f b := by
  rcases Nat.eq_or_lt_of_le hbc with rfl | hbc
  · exact le_rfl
  · rcases min_le_iff.mp (hf ha hc hab hbc) with h | h
    · exact absurd hlt (not_lt.mpr h)
    · exact h

theorem UnimodalOn.monotone_comp {β : Type*} [LinearOrder β] {s : Set ℕ} {f : ℕ → α}
    (hf : UnimodalOn s f) {g : α → β} (hg : Monotone g) : UnimodalOn s fun n => g (f n) := by
  intro a ha c hc b hab hbc
  rw [← hg.map_min]
  exact hg (hf ha hc hab hbc)

end Highest

section Ratio

variable {𝕜 : Type*} [Field 𝕜] [LinearOrder 𝕜] [IsStrictOrderedRing 𝕜]

/-- A place over a time that is convex in the place. -/
theorem UnimodalOn.div_of_convex {s : Set ℕ} {t : ℕ → 𝕜} (hpos : ∀ n ∈ s, 0 < t n)
    (hs : ∀ ⦃a⦄, a ∈ s → ∀ ⦃c⦄, c ∈ s → ∀ ⦃b⦄, a < b → b < c → b ∈ s ∧
      ((c : 𝕜) - a) * t b ≤ ((c : 𝕜) - b) * t a + ((b : 𝕜) - a) * t c) :
    UnimodalOn s fun n => (n : 𝕜) / t n := by
  intro a ha c hc b hab hbc
  rcases hs ha hc hab hbc with ⟨hb, hconvex⟩
  have hab' : (a : 𝕜) < b := Nat.cast_lt.mpr hab
  have hbc' : (b : 𝕜) < c := Nat.cast_lt.mpr hbc
  set m := min ((a : 𝕜) / t a) ((c : 𝕜) / t c) with hm
  have hm0 : 0 ≤ m :=
    le_min (div_nonneg (Nat.cast_nonneg a) (hpos a ha).le)
      (div_nonneg (Nat.cast_nonneg c) (hpos c hc).le)
  have hma : m * t a ≤ a := (le_div_iff₀ (hpos a ha)).mp (min_le_left _ _)
  have hmc : m * t c ≤ c := (le_div_iff₀ (hpos c hc)).mp (min_le_right _ _)
  have hmb : ((c : 𝕜) - a) * (m * t b) ≤ ((c : 𝕜) - a) * b :=
    calc ((c : 𝕜) - a) * (m * t b) = m * (((c : 𝕜) - a) * t b) := by ring
      _ ≤ m * (((c : 𝕜) - b) * t a + ((b : 𝕜) - a) * t c) := mul_le_mul_of_nonneg_left hconvex hm0
      _ = ((c : 𝕜) - b) * (m * t a) + ((b : 𝕜) - a) * (m * t c) := by ring
      _ ≤ ((c : 𝕜) - b) * a + ((b : 𝕜) - a) * c :=
        add_le_add (mul_le_mul_of_nonneg_left hma (by linarith))
          (mul_le_mul_of_nonneg_left hmc (by linarith))
      _ = ((c : 𝕜) - a) * b := by ring
  exact (le_div_iff₀ (hpos b hb)).mpr (le_of_mul_le_mul_left hmb (by linarith))

end Ratio

end Lib
