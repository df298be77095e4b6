import Mathlib.Order.Basic
import Mathlib.Tactic.Common

/-!
# Loops that may not end

`while cond: body`, with fuel for its turns. A loop whose turns bring a measure down ends;
one that comes to a state its body does not change, with the condition true there, does not.

## Main definitions

* `whileLoop` — the state in which the condition first fails, none without it.
* `Visits` — the states the loop comes to.
* `Ends` — enough fuel gives a result.
-/

namespace Lib

variable {σ : Type*} (cond : σ → Bool) (body : σ → σ)

/-- `while cond: body` -/
def whileLoop : ℕ → σ → Option σ
  | 0, _ => none
  | fuel + 1, s => if cond s then whileLoop fuel (body s) else some s

/-- The states before the turns of the loop, and the last one. -/
inductive Visits (s : σ) : σ → Prop
  | start : Visits s s
  | turn {t : σ} : Visits s t → cond t = true → Visits s (body t)

/-- With enough fuel there is a result. -/
def Ends (s : σ) : Prop := ∃ N, ∀ fuel ≥ N, ∃ t, whileLoop cond body fuel s = some t

variable {cond body} {s t u : σ} {fuel : ℕ}

theorem Visits.trans (h : Visits cond body s t) (h' : Visits cond body t u) :
    Visits cond body s u := by
  induction h' with
  | start => exact h
  | turn _ hcond ih => exact ih.turn hcond

/-- The result is a state of the loop in which the condition fails. -/
theorem visits_of_whileLoop (h : whileLoop cond body fuel s = some t) :
    Visits cond body s t ∧ cond t = false := by
  induction fuel generalizing s with
  | zero => cases h
  | succ fuel ih =>
      rw [whileLoop] at h
      cases hcond : cond s with
      | true =>
          rw [if_pos hcond] at h
          have hrest := ih h
          exact ⟨(Visits.start.turn hcond).trans hrest.1, hrest.2⟩
      | false =>
          rw [if_neg (by simp [hcond])] at h
          cases h
          exact ⟨.start, hcond⟩

/-- What every turn keeps holds of every state of the loop. -/
theorem Visits.preserves {I : σ → Prop} (h : Visits cond body s t) (hs : I s)
    (hstep : ∀ t, I t → cond t = true → I (body t)) : I t := by
  induction h with
  | start => exact hs
  | turn _ hcond ih => exact hstep _ ih hcond

/-- A loop does not get out of a state that its body does not change. -/
theorem whileLoop_stuck (hcond : cond t = true) (hbody : body t = t) :
    whileLoop cond body fuel t = none := by
  induction fuel with
  | zero => rfl
  | succ fuel ih => rw [whileLoop, if_pos hcond, hbody, ih]

/-- What runs from the start of a loop runs from each of its states. -/
theorem Visits.rest (h : Visits cond body s t) (hrun : whileLoop cond body fuel s = some u) :
    ∃ fuel', whileLoop cond body fuel' t = some u := by
  induction h with
  | start => exact ⟨fuel, hrun⟩
  | turn _ hcond ih =>
      rcases ih with ⟨fuel', hrun'⟩
      cases fuel' with
      | zero => cases hrun'
      | succ fuel' =>
          rw [whileLoop, if_pos hcond] at hrun'
          exact ⟨fuel', hrun'⟩

/-- A measure that falls with every turn is enough fuel. -/
theorem whileLoop_of_measure (measure : σ → ℕ)
    (hfall : ∀ t, Visits cond body s t → cond t = true → measure (body t) < measure t)
    (hfuel : measure s < fuel) : ∃ t, whileLoop cond body fuel s = some t := by
  induction fuel generalizing s with
  | zero => exact absurd hfuel (Nat.not_lt_zero _)
  | succ fuel ih =>
      rw [whileLoop]
      cases hcond : cond s with
      | true =>
          have hfirst := hfall s .start hcond
          have hrest := ih (s := body s)
            (fun t ht => hfall t ((Visits.start.turn hcond).trans ht)) (by omega)
          simpa using hrest
      | false => exact ⟨s, by simp⟩

/-- **A loop whose turns bring a measure down or change nothing ends if and only if no turn
changes nothing.** -/
theorem ends_iff (measure : σ → ℕ)
    (hfall : ∀ t, Visits cond body s t → cond t = true →
      measure (body t) < measure t ∨ body t = t) :
    Ends cond body s ↔ ∀ t, Visits cond body s t → cond t = true → body t ≠ t := by
  constructor
  · intro ⟨N, hN⟩ t ht hcond hbody
    rcases hN N (Nat.le_refl N) with ⟨u, hu⟩
    rcases ht.rest hu with ⟨fuel, hrun⟩
    rw [whileLoop_stuck hcond hbody] at hrun
    cases hrun
  · intro h
    refine ⟨measure s + 1, fun fuel hfuel => whileLoop_of_measure measure ?_ hfuel⟩
    intro t ht hcond
    exact (hfall t ht hcond).resolve_right (h t ht hcond)

/-- The result does not depend on the fuel. -/
theorem whileLoop_unique {fuel' : ℕ} (h : whileLoop cond body fuel s = some t)
    (h' : whileLoop cond body fuel' s = some u) : t = u := by
  induction fuel generalizing s fuel' with
  | zero => cases h
  | succ fuel ih =>
      cases fuel' with
      | zero => cases h'
      | succ fuel' =>
          rw [whileLoop] at h h'
          cases hcond : cond s with
          | true =>
              rw [if_pos hcond] at h h'
              exact ih h h'
          | false =>
              simp only [hcond, Bool.false_eq_true, if_false, Option.some.injEq] at h h'
              exact h.symm.trans h'

end Lib
