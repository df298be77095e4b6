import HarvestMoE.Lib.BlockSums
import Mathlib.Data.Nat.Log
import Mathlib.GroupTheory.GroupAction.Ring
import Mathlib.Tactic.Ring

/-!
# The ceiling of a quotient in double precision

Dividing two integers with `/` gives the double nearest to the quotient, and the ceiling
is then taken of that double. A quotient just above an integer may be rounded onto it,
and a large quotient to a neighbour that is a double; then the result is not the ceiling
of the quotient itself. Both are decided by the remainder and the digits that the
double has behind the point.

## Main definitions

* `roundHalfEven n d` — the integer nearest to `n / d`.
* `fractionDigits n d` — the binary digits of the double nearest to `n / d`.
* `ceilTrueDiv n d` — the ceiling of that double, or none where the division raises.
* `KeepsCeil n d` — when it is the ceiling of `n / d`.
-/

namespace Lib

/-- The integer nearest to `n / d`, and the even one of two. -/
def roundHalfEven (n d : ℕ) : ℕ :=
  if 2 * (n % d) < d ∨ (2 * (n % d) = d ∧ n / d % 2 = 0) then n / d else n / d + 1

/-- The place of the leading binary digit of `n / d`, where the unit digit is at 0. -/
def leadingPlace (n d : ℕ) : ℤ :=
  if d ≤ n then Nat.log 2 (n / d) else -Nat.clog 2 ((d + n - 1) / n)

/-- The binary digits behind the point of the double nearest to `n / d`: it has 53 digits,
and none behind the 1074th. If there are fewer than none, the last places before the
point are zero. -/
def fractionDigits (n d : ℕ) : ℤ := min (52 - leadingPlace n d) 1074

/-- The ceiling of the double nearest to `n / d`. It is none where the division raises:
by zero, or when the quotient is too large for a double. -/
def ceilTrueDiv (n d : ℕ) : Option ℕ :=
  if d = 0 then none
  else
    match fractionDigits n d with
    | .ofNat s => some (roundHalfEven (n * 2 ^ s) d ⌈/⌉ 2 ^ s)
    | .negSucc e =>
        let q := roundHalfEven n (d * 2 ^ (e + 1)) * 2 ^ (e + 1)
        if q < 2 ^ 1024 then some q else none

/-- The double nearest to `n / d` has the ceiling of `n / d`. With digits behind the
point, the remainder must be zero or not be rounded away; without, the ceiling must
itself be a double. -/
def KeepsCeil (n d : ℕ) : Prop :=
  match fractionDigits n d with
  | .ofNat s =>
      n % d = 0 ∨ d < 2 * 2 ^ s * (n % d) ∨ (d = 2 * 2 ^ s * (n % d) ∧ 2 ^ s * (n / d) % 2 = 1)
  | .negSucc e => 2 ^ (e + 1) ∣ n ⌈/⌉ d

variable {n d k : ℕ}

theorem ceilDiv_of_mod_eq_zero (hd : 0 < d) (h : n % d = 0) : n ⌈/⌉ d = n / d := by
  have hn := Nat.div_add_mod n d
  exact le_antisymm ((ceilDiv_le_iff_le_mul hd).mpr (by omega)) (Nat.div_le_div_right (by omega))

theorem ceilDiv_of_mod_pos (hd : 0 < d) (h : 0 < n % d) : n ⌈/⌉ d = n / d + 1 := by
  have hn := Nat.div_add_mod n d
  have hr := Nat.mod_lt n hd
  refine le_antisymm ((ceilDiv_le_iff_le_mul hd).mpr ?_) ((lt_ceilDiv_iff hd).mpr (by omega))
  rw [Nat.mul_succ]
  omega

/-- An integer is below the rounded quotient when the quotient is past the middle behind
it. -/
theorem lt_roundHalfEven_iff (hd : 0 < d) :
    k < roundHalfEven n d ↔
      (2 * k + 1) * d < 2 * n ∨ ((2 * k + 1) * d = 2 * n ∧ k % 2 = 1) := by
  have hn := Nat.div_add_mod n d
  have hr := Nat.mod_lt n hd
  have hsum : (2 * k + 1) * d = 2 * (d * k) + d := by ring
  rw [roundHalfEven]
  rcases Nat.lt_trichotomy k (n / d) with hlt | rfl | hgt
  · -- The integers below the quotient are below what it is rounded to.
    have hmul : d * k + d ≤ d * (n / d) := Nat.mul_le_mul_left d hlt
    split_ifs <;> omega
  · split_ifs with h <;> omega
  · have hmul : d * (n / d) + d ≤ d * k := Nat.mul_le_mul_left d hgt
    split_ifs <;> omega

theorem roundHalfEven_le (hd : 0 < d) (h : n ≤ d * k) : roundHalfEven n d ≤ k := by
  by_contra hlt
  have hsum : (2 * k + 1) * d = 2 * (d * k) + d := by ring
  have hmiddle := (lt_roundHalfEven_iff hd).mp (not_le.mp hlt)
  omega

theorem le_roundHalfEven (hd : 0 < d) (h : d * k ≤ n) : k ≤ roundHalfEven n d := by
  cases k with
  | zero => exact Nat.zero_le _
  | succ k =>
      apply (lt_roundHalfEven_iff hd).mpr
      have hsum : (2 * k + 1) * d = 2 * (d * k) + d := by ring
      have hsucc : d * (k + 1) = d * k + d := Nat.mul_succ d k
      left
      omega

/-- With digits behind the point only a small remainder is rounded away. -/
theorem roundHalfEven_ceilDiv_eq_iff (hd : 0 < d) (s : ℕ) :
    roundHalfEven (n * 2 ^ s) d ⌈/⌉ 2 ^ s = n ⌈/⌉ d ↔
      n % d = 0 ∨ d < 2 * 2 ^ s * (n % d) ∨
        (d = 2 * 2 ^ s * (n % d) ∧ 2 ^ s * (n / d) % 2 = 1) := by
  have hs : 0 < 2 ^ s := Nat.two_pow_pos s
  have hn := Nat.div_add_mod n d
  rcases Nat.eq_zero_or_pos (n % d) with h0 | hpos
  · -- An integer keeps its value.
    have hval : n * 2 ^ s = d * (2 ^ s * (n / d)) := by
      conv_lhs => rw [← hn, h0]
      ring
    have hround : roundHalfEven (n * 2 ^ s) d = 2 ^ s * (n / d) :=
      le_antisymm (roundHalfEven_le hd hval.le) (le_roundHalfEven hd hval.ge)
    have hceil : 2 ^ s * (n / d) ⌈/⌉ 2 ^ s = n / d := smul_ceilDiv hs (n / d)
    simp [hround, hceil, ceilDiv_of_mod_eq_zero hd h0, h0]
  · have hle : roundHalfEven (n * 2 ^ s) d ⌈/⌉ 2 ^ s ≤ n / d + 1 := by
      apply (ceilDiv_le_iff_le_mul hs).mpr
      apply roundHalfEven_le hd
      have hup : n ≤ d * (n / d + 1) := by
        have hr := Nat.mod_lt n hd
        rw [Nat.mul_succ]
        omega
      calc n * 2 ^ s ≤ d * (n / d + 1) * 2 ^ s := Nat.mul_le_mul_right _ hup
        _ = d * (2 ^ s * (n / d + 1)) := by ring
    have hkey : n / d < roundHalfEven (n * 2 ^ s) d ⌈/⌉ 2 ^ s ↔
        d < 2 * 2 ^ s * (n % d) ∨ (d = 2 * 2 ^ s * (n % d) ∧ 2 ^ s * (n / d) % 2 = 1) := by
      have hexp : 2 * (n * 2 ^ s) = 2 * (d * (2 ^ s * (n / d))) + 2 * 2 ^ s * (n % d) := by
        conv_lhs => rw [← hn]
        ring
      have hsum : (2 * (2 ^ s * (n / d)) + 1) * d = 2 * (d * (2 ^ s * (n / d))) + d := by ring
      rw [lt_ceilDiv_iff hs, lt_roundHalfEven_iff hd, hexp, hsum]
      omega
    rw [ceilDiv_of_mod_pos hd hpos, ← hkey]
    omega

/-- Without digits behind the point, a ceiling that is a double is the nearest one. -/
theorem roundHalfEven_mul_eq_iff (hd : 0 < d) (e : ℕ) :
    roundHalfEven n (d * 2 ^ (e + 1)) * 2 ^ (e + 1) = n ⌈/⌉ d ↔ 2 ^ (e + 1) ∣ n ⌈/⌉ d := by
  constructor
  · intro h
    exact ⟨_, h.symm.trans (Nat.mul_comm _ _)⟩
  · rintro ⟨c, hc⟩
    have hd' : 0 < d * 2 ^ (e + 1) := Nat.mul_pos hd (Nat.two_pow_pos _)
    have hup : n ≤ d * 2 ^ (e + 1) * c := by
      rw [Nat.mul_assoc, ← hc]
      exact le_smul_ceilDiv hd
    have hround : roundHalfEven n (d * 2 ^ (e + 1)) = c := by
      refine le_antisymm (roundHalfEven_le hd' hup) ?_
      cases c with
      | zero => exact Nat.zero_le _
      | succ c =>
          apply (lt_roundHalfEven_iff hd').mpr
          left
          -- The quotient is less than one below its ceiling, and a unit is at least two.
          have hlow : d * (2 ^ (e + 1) * (c + 1) - 1) < n := by
            rw [← lt_ceilDiv_iff hd, hc]
            exact Nat.sub_lt (Nat.mul_pos (Nat.two_pow_pos _) c.succ_pos) one_pos
          have hunit : 2 ≤ 2 ^ (e + 1) := Nat.le_self_pow (by omega) 2
          have hstep : d * 2 ≤ d * 2 ^ (e + 1) := Nat.mul_le_mul_left d hunit
          have hsub : d * (2 ^ (e + 1) * (c + 1) - 1) = d * (2 ^ (e + 1) * (c + 1)) - d := by
            rw [Nat.mul_sub, Nat.mul_one]
          have hexp : d * (2 ^ (e + 1) * (c + 1)) = d * 2 ^ (e + 1) * c + d * 2 ^ (e + 1) := by ring
          have hsum : (2 * c + 1) * (d * 2 ^ (e + 1)) =
              2 * (d * 2 ^ (e + 1) * c) + d * 2 ^ (e + 1) := by ring
          omega
    rw [hround, hc, Nat.mul_comm]

/-- Where the division does not raise, it gives the ceiling exactly under `KeepsCeil`. -/
theorem ceilTrueDiv_eq_iff (h : ceilTrueDiv n d = some k) : k = n ⌈/⌉ d ↔ KeepsCeil n d := by
  unfold ceilTrueDiv at h
  split_ifs at h with hd
  have hd : 0 < d := Nat.pos_of_ne_zero hd
  unfold KeepsCeil
  cases hf : fractionDigits n d with
  | ofNat s =>
      simp only [hf, Option.some.injEq] at h
      rw [← h]
      exact roundHalfEven_ceilDiv_eq_iff hd s
  | negSucc e =>
      simp only [hf] at h
      split_ifs at h with hlt
      rw [← Option.some.inj h]
      exact roundHalfEven_mul_eq_iff hd e

/-- The quotient of small numbers has digits behind the point, and enough of them. -/
theorem exists_fractionDigits (hd : 0 < d) (hn : n < 2 ^ 53) (hd' : d < 2 ^ 53) :
    ∃ s : ℕ, fractionDigits n d = s ∧ (0 < n % d → d < 2 * 2 ^ s) := by
  unfold fractionDigits leadingPlace
  split_ifs with h
  · have hq : 0 < n / d := Nat.div_pos h hd
    have hlog : Nat.log 2 (n / d) < 53 :=
      Nat.log_lt_of_lt_pow (by omega) ((Nat.div_le_self n d).trans_lt hn)
    obtain ⟨s, hs⟩ := Nat.exists_eq_add_of_lt hlog
    refine ⟨s, by omega, fun hr => ?_⟩
    have hpow : d * 2 ^ Nat.log 2 (n / d) < 2 ^ (s + 1) * 2 ^ Nat.log 2 (n / d) := by
      calc d * 2 ^ Nat.log 2 (n / d) ≤ d * (n / d) :=
            Nat.mul_le_mul_left d (Nat.pow_log_le_self 2 (by omega))
        _ < n := by have := Nat.div_add_mod n d; omega
        _ < 2 ^ 53 := hn
        _ = 2 ^ (s + 1) * 2 ^ Nat.log 2 (n / d) := by rw [← pow_add]; congr 1; omega
    rw [← pow_succ']
    exact Nat.lt_of_mul_lt_mul_right hpow
  · refine ⟨min (52 + Nat.clog 2 ((d + n - 1) / n)) 1074, by omega, fun _ => hd'.trans_le ?_⟩
    rw [← pow_succ']
    exact Nat.pow_le_pow_right (by omega) (by omega)

/-- Numbers that are doubles themselves are divided well enough. -/
theorem keepsCeil_of_lt (hd : 0 < d) (hn : n < 2 ^ 53) (hd' : d < 2 ^ 53) : KeepsCeil n d := by
  obtain ⟨s, hs, hlt⟩ := exists_fractionDigits hd hn hd'
  simp only [KeepsCeil, hs]
  rcases Nat.eq_zero_or_pos (n % d) with h0 | hpos
  · exact Or.inl h0
  · exact Or.inr (Or.inl ((hlt hpos).trans_le (Nat.le_mul_of_pos_right _ hpos)))

end Lib
