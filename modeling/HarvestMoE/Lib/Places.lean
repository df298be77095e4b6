import HarvestMoE.Lib.Run
import Mathlib.Logic.Function.Basic

/-!
# Runs over a family of places

A state that consists of places, where every action concerns one place at most, is
taken apart place by place: the whole run executes when the actions of each place
execute there.

## Main definitions

* `placesStep touch place` — the step that lets an action work on its place.
* `exec_places` — a run of the family from the runs of its places.
-/

namespace Lib

variable {ι τ α : Type*} [DecidableEq ι]

/-- An action works on the place it touches, or does nothing. -/
def placesStep (touch : α → Option ι) (place : ι → τ → α → Option τ) (s : ι → τ) (a : α) :
    Option (ι → τ) :=
  match touch a with
  | none => some s
  | some k => (place k (s k) a).map (Function.update s k)

variable {touch : α → Option ι} {place : ι → τ → α → Option τ}

theorem placesStep_none {s : ι → τ} {a : α} (h : touch a = none) :
    placesStep touch place s a = some s := by
  rw [placesStep, h]

theorem placesStep_some {s : ι → τ} {a : α} {k : ι} (h : touch a = some k) :
    placesStep touch place s a = (place k (s k) a).map (Function.update s k) := by
  rw [placesStep, h]

/-- When each place can execute its own actions, the family can execute them all. -/
theorem exec_places {as : List α} {s t : ι → τ}
    (h : ∀ k, exec (place k) (s k) (as.filter fun a => touch a = some k) = some (t k)) :
    exec (placesStep touch place) s as = some t := by
  induction as generalizing s with
  | nil =>
      have hst : s = t := funext fun k => by simpa using h k
      rw [hst, exec_nil]
  | cons a as ih =>
      cases ha : touch a with
      | none =>
          rw [exec_cons, placesStep_none ha]
          refine ih fun k => ?_
          have hk := h k
          rwa [List.filter_cons_of_neg (by simp [ha])] at hk
      | some k =>
          have hk := h k
          rw [List.filter_cons_of_pos (by simp [ha])] at hk
          obtain ⟨x, hx, hrest⟩ := Option.bind_eq_some_iff.mp hk
          rw [exec_cons, placesStep_some ha, hx]
          refine ih fun k' => ?_
          by_cases hne : k' = k
          · subst hne
            rw [Function.update_self]
            exact hrest
          · have hk' := h k'
            rw [List.filter_cons_of_neg (by simpa [ha] using Ne.symm hne)] at hk'
            rwa [Function.update_of_ne hne]

end Lib
