import HarvestMoE.Lib.Run

/-!
# Projecting a run to one component

A machine of several components runs a list of actions, of which some belong to a
given component. When its own actions depend on the component alone, and the others
leave it as it is, the component ends up where its own actions alone would have taken
it, and what holds along its own run holds at its actions in the whole run.

## Main definitions

* `Projects` — actions of a component, and the relation that two states agree on it.
* `Projects.exec` — the component at the end of a run.
* `Projects.along` — a safety property of the component's own run.
-/

namespace Lib

variable {σ α : Type*}

/-- `mine` picks the actions of a component, `View` says that a state agrees on it with
a state of the component's own run, whose actions meet `P`. -/
structure Projects (step : σ → α → Option σ) (mine : α → Bool) (View : σ → σ → Prop)
    (P : σ → α → Prop) : Prop where
  own : ∀ {s u a u'}, mine a → P u a → View s u → step u a = some u' →
    ∃ s', step s a = some s' ∧ View s' u'
  other : ∀ {s u a s'}, ¬ mine a → View s u → step s a = some s' → View s' u

namespace Projects

variable {step : σ → α → Option σ} {mine : α → Bool} {View : σ → σ → Prop} {P : σ → α → Prop}

theorem exec (h : Projects step mine View P) {as : List α} {s t u v : σ} (hview : View s u)
    (ht : Lib.exec step s as = some t) (hsafe : Along step P u (as.filter mine))
    (hv : Lib.exec step u (as.filter mine) = some v) : View t v := by
  induction as generalizing s u with
  | nil =>
      obtain rfl : s = t := by simpa using ht
      obtain rfl : u = v := by simpa using hv
      exact hview
  | cons a as ih =>
      obtain ⟨s', hs', ht⟩ := Option.bind_eq_some_iff.mp ht
      by_cases ha : mine a
      · rw [List.filter_cons_of_pos ha] at hv hsafe
        obtain ⟨u', hu', hv⟩ := Option.bind_eq_some_iff.mp hv
        obtain ⟨s'', hs'', hview'⟩ := h.own ha hsafe.1 hview hu'
        obtain rfl : s' = s'' := Option.some.inj (hs'.symm.trans hs'')
        exact ih hview' ht (hsafe.2 u' hu') hv
      · rw [List.filter_cons_of_neg ha] at hv hsafe
        exact ih (h.other ha hview hs') ht hsafe hv

theorem along (h : Projects step mine View P)
    (hP : ∀ s u a, mine a → View s u → P u a → P s a) {as : List α} {s u v : σ} (hview : View s u)
    (hsafe : Along step P u (as.filter mine)) (hv : Lib.exec step u (as.filter mine) = some v) :
    Along step (fun s a => mine a → P s a) s as := by
  induction as generalizing s u with
  | nil => trivial
  | cons a as ih =>
      by_cases ha : mine a
      · rw [List.filter_cons_of_pos ha] at hv hsafe
        obtain ⟨u', hu', hv⟩ := Option.bind_eq_some_iff.mp hv
        refine ⟨fun _ => hP s u a ha hview hsafe.1, fun s' hs' => ?_⟩
        obtain ⟨s'', hs'', hview'⟩ := h.own ha hsafe.1 hview hu'
        obtain rfl : s' = s'' := Option.some.inj (hs'.symm.trans hs'')
        exact ih hview' (hsafe.2 u' hu') hv
      · rw [List.filter_cons_of_neg ha] at hv hsafe
        exact ⟨fun hmine => absurd hmine ha, fun s' hs' => ih (h.other ha hview hs') hsafe hv⟩

end Projects

end Lib
