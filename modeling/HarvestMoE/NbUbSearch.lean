import HarvestMoE.Lib.While
import HarvestMoE.RooflineSearch

/-!
# The number of micro-batches that fit

`get_nb_ub` doubles the number of micro-batches until the program has no solution, and
halves the interval that is left. Both loops read the status of the solver. A solver that
says 1 where there is a solution and -1 where there is none leads them to the largest
number (`getNbUb_isGreatest`). The second loop moves for these two statuses only, and turns
for ever at a place with any other (`getNbUbOf_returns_iff`).

## Main definitions

* `SolverTells` — the statuses 1 and -1 tell whether there is a solution.
* `LpStatus` — the statuses there are.
* `getNbUbOf` — the two loops, over the statuses of the places.
* `Window` — the intervals that the second loop comes to.
-/

namespace HarvestMoE

open Lib

section Exact

open CostModelConfig

variable {solver : LpSolver} {c : CostModelConfig} {gbs : ℕ}

/-- The solver says 1, with values for the variables that meet the constraints, or -1 and
there are none. -/
def SolverTells (solver : LpSolver) (lp : StorageLp) : Prop :=
  (solver lp).1 = 1 ∧ lp.Feasible (solver lp).2 ∨ (solver lp).1 = -1 ∧ ∀ v, ¬ lp.Feasible v

/-- Values that meet the constraints have a throughput. -/
theorem solveLp_status_one {nb : ℕ} (hc : c.Valid) (hgbs : 0 < gbs) (hnb : 0 < nb)
    (hstatus : (solver (c.decodeLp gbs nb)).1 = 1)
    (hfeasible : (c.decodeLp gbs nb).Feasible (solver (c.decodeLp gbs nb)).2) :
    (solveLp solver c (gbs * nb) gbs .decode).map LpResult.status = some 1 := by
  have hpos : 0 < (solver (c.decodeLp gbs nb)).2.T :=
    (balance_of_feasible hgbs hfeasible).pos hgbs hnb hc
  have hn : (0 : ℚ) < c.n - 1 := sub_pos.mpr (by exact_mod_cast hc.two_le_n)
  have hl := hc.l_pos
  have htot : (solver (c.decodeLp gbs nb)).2.T * ((c.n : ℚ) - 1) * c.l ≠ 0 := by positivity
  have hne : ¬ (solver (c.decodeLp gbs nb)).1 = -1 := by
    rw [hstatus]
    decide
  rw [solveLp_eq hgbs hnb, if_neg hne, throughputOf, if_neg htot]
  simp [hstatus]

/-- What `solve_lp` says of a pair the solver tells about. -/
theorem status_of_tells {nb : ℕ} (hc : c.Valid) (hgbs : 0 < gbs) (hnb : 1 ≤ nb)
    (htells : SolverTells solver (c.decodeLp gbs nb)) : ∃ st,
      (solveLp solver c (gbs * nb) gbs .decode).map LpResult.status = some st ∧
        (st = 1 ∧ (c.times gbs nb).Nonempty ∨ st = -1 ∧ ¬ (c.times gbs nb).Nonempty) := by
  rcases htells with ⟨hone, hv⟩ | ⟨hminus, hnone⟩
  · exact ⟨1, solveLp_status_one hc hgbs hnb hone hv,
      Or.inl ⟨rfl, (feasible_iff hgbs hc).mp ⟨_, hv⟩⟩⟩
  · refine ⟨-1, ?_, Or.inr ⟨rfl, fun h => ?_⟩⟩
    · rw [solveLp_eq hgbs hnb, if_pos hminus, hminus, Option.map_some]
    · rcases (feasible_iff hgbs hc).mpr h with ⟨v, hv⟩
      exact hnone v hv

/-- What has a solution for some number of micro-batches has one for every smaller number,
and `get_nb_ub` returns the largest number with a solution, or 0 when there is none. -/
theorem getNbUb_isGreatest (hc : c.Valid) (hgbs : 0 < gbs)
    (hsolver : ∀ nb, 0 < nb → SolverTells solver (c.decodeLp gbs nb)) :
    DownClosed (fun nb => ∃ v, (c.decodeLp gbs nb).Feasible v) ∧
    ∃ u, (∃ N, ∀ fuel ≥ N, getNbUb solver c fuel gbs = some u) ∧
      (IsGreatest {nb | 1 ≤ nb ∧ ∃ v, (c.decodeLp gbs nb).Feasible v} u ∨
        u = 0 ∧ ∀ v, ¬ (c.decodeLp gbs 1).Feasible v) := by
  have hfits : ∀ nb, (∃ v, (c.decodeLp gbs nb).Feasible v) ↔ (c.times gbs nb).Nonempty :=
    fun nb => feasible_iff hgbs hc
  have hresult : ∀ fuel, 2 * sizeBound c + 1 < fuel → ∃ u, getNbUb solver c fuel gbs = some u ∧
      ∀ nb, 1 ≤ nb → ((c.times gbs nb).Nonempty ↔ nb ≤ u) := fun fuel hfuel =>
    getNbUb_of_status hc hgbs hfuel fun nb hnb => status_of_tells hc hgbs hnb (hsolver nb hnb)
  rcases hresult (2 * sizeBound c + 2) (by omega) with ⟨u, -, hu⟩
  refine ⟨fun m n hm hmn hn => ?_, u, ⟨2 * sizeBound c + 2, fun fuel hfuel => ?_⟩, ?_⟩
  · exact (hfits m).mpr (fits_downClosed hc gbs hm hmn ((hfits n).mp hn))
  · rcases hresult fuel (by omega) with ⟨u', hrun, hu'⟩
    -- The place where the programs end to have a solution is one.
    have hsame : ∀ nb, 1 ≤ nb → (nb ≤ u' ↔ nb ≤ u) := fun nb hnb =>
      (hu' nb hnb).symm.trans (hu nb hnb)
    have hle := hsame u'
    have hge := hsame u
    rw [hrun, show u' = u by omega]
  · by_cases hzero : u = 0
    · refine Or.inr ⟨hzero, fun v hv => ?_⟩
      have hone := (hu 1 le_rfl).mp ((hfits 1).mp ⟨v, hv⟩)
      omega
    · have hpos : 1 ≤ u := Nat.one_le_iff_ne_zero.mpr hzero
      refine Or.inl ⟨⟨hpos, (hfits u).mpr ((hu u hpos).mpr le_rfl)⟩, fun nb hnb => ?_⟩
      exact (hu nb hnb.1).mp ((hfits nb).mp hnb.2)

/-- On the configuration of the defaults, with an exact solver. -/
theorem getNbUb_isGreatest_default :
    DownClosed (fun nb => ∃ v, (({} : CostModelConfig).decodeLp 1 nb).Feasible v) ∧
    ∃ u, (∃ N, ∀ fuel ≥ N, getNbUb exactSolver {} fuel 1 = some u) ∧
      (IsGreatest {nb | 1 ≤ nb ∧ ∃ v, (({} : CostModelConfig).decodeLp 1 nb).Feasible v} u ∨
        u = 0 ∧ ∀ v, ¬ (({} : CostModelConfig).decodeLp 1 1).Feasible v) :=
  getNbUb_isGreatest valid_default Nat.one_pos fun _ hnb =>
    (exactSolver_ok valid_default Nat.one_pos hnb).imp (fun h => ⟨h.1, h.2.feasible⟩) id

end Exact

/-- The statuses of a solver. -/
inductive LpStatus
  | optimal
  | notSolved
  | infeasible
  | unbounded
  | undefined
  deriving DecidableEq, Repr

def LpStatus.code : LpStatus → ℤ
  | .optimal => 1
  | .notSolved => 0
  | .infeasible => -1
  | .unbounded => -2
  | .undefined => -3

/-- What `get_nb_ub` comes to: it is still in a loop, its assertion fails, or it returns. -/
inductive NbUbOutcome
  | running
  | assertionError
  | returned (nbUb : ℕ)
  deriving DecidableEq, Repr

section Statuses

variable (status : ℕ → LpStatus)

/-- A turn of the second loop. -/
def halve (w : ℕ × ℕ) : ℕ × ℕ :=
  let mid := (w.1 + w.2) / 2
  if (status mid).code = 1 then (mid + 1, w.2)
  else if (status mid).code = -1 then (w.1, mid)
  else w

/-- The first loop. -/
def doubleLoop (fuel : ℕ) : Option ℕ :=
  whileLoop (fun nb => (status nb).code ≠ -1) (fun nb => nb * 2) fuel 1

/-- The second loop. -/
def halveLoop (fuel : ℕ) (w : ℕ × ℕ) : Option (ℕ × ℕ) :=
  whileLoop (fun w => w.1 < w.2) (halve status) fuel w

/-- `get_nb_ub`, where `solve_lp` has a status for every number of micro-batches. -/
def getNbUbOf (fuel : ℕ) : NbUbOutcome :=
  match doubleLoop status fuel with
  | none => .running
  | some nb =>
      match halveLoop status fuel (max (nb / 2) 1, nb) with
      | none => .running
      | some (left, right) => if left = right then .returned (left - 1) else .assertionError

/-- The intervals that the second loop comes to, from the first power of two without a
solution, `nb`, and the one before it. -/
def Window (w : ℕ × ℕ) : Prop :=
  ∃ nb, IsLeast {nb | (∃ k, nb = 2 ^ k) ∧ status nb = .infeasible} nb ∧
    Visits (fun w => w.1 < w.2) (halve status) (max (nb / 2) 1, nb) w

variable {status}

@[simp] theorem code_eq_one {st : LpStatus} : st.code = 1 ↔ st = .optimal := by
  cases st <;> simp [LpStatus.code]

@[simp] theorem code_eq_neg_one {st : LpStatus} : st.code = -1 ↔ st = .infeasible := by
  cases st <;> simp [LpStatus.code]

/-- The first loop ends at the first power of two without a solution. -/
theorem doubleLoop_spec {bound : ℕ} (hbound : ∀ nb, bound < nb → status nb = .infeasible) :
    ∃ nb, IsLeast {nb | (∃ k, nb = 2 ^ k) ∧ status nb = .infeasible} nb ∧
      ∀ fuel > bound, doubleLoop status fuel = some nb := by
  have hends : ∀ fuel, bound < fuel → ∃ nb, doubleLoop status fuel = some nb := by
    intro fuel hfuel
    refine whileLoop_of_measure (fun nb => bound + 1 - nb) (fun nb hnb hcond => ?_) (by omega)
    have hpos : 0 < nb := hnb.preserves Nat.one_pos fun t ht _ => by omega
    have hle : nb ≤ bound := by
      by_contra hlt
      simp [hbound nb (not_le.mp hlt)] at hcond
    omega
  rcases hends (bound + 1) (Nat.lt_succ_self _) with ⟨nb, hnb⟩
  refine ⟨nb, ?_, fun fuel hfuel => ?_⟩
  · rcases visits_of_whileLoop hnb with ⟨hvisit, hcond⟩
    have hno : status nb = .infeasible := by simpa using hcond
    -- The places before it are the smaller powers of two.
    have hpowers : (∃ k, nb = 2 ^ k) ∧ ∀ m, (∃ k, m = 2 ^ k) → m < nb → status m ≠ .infeasible := by
      clear hnb hcond hno
      induction hvisit with
      | start =>
          refine ⟨⟨0, rfl⟩, fun m hm hlt => ?_⟩
          rcases hm with ⟨k, rfl⟩
          exact absurd hlt (not_lt.mpr Nat.one_le_two_pow)
      | @turn t _ hcond ih =>
          rcases ih with ⟨⟨k, rfl⟩, hbefore⟩
          refine ⟨⟨k + 1, (pow_succ 2 k).symm⟩, fun m hm hlt => ?_⟩
          rcases hm with ⟨j, rfl⟩
          rw [← pow_succ] at hlt
          have hjk : j ≤ k := Nat.lt_succ_iff.mp ((Nat.pow_lt_pow_iff_right (by decide)).mp hlt)
          rcases Nat.eq_or_lt_of_le hjk with rfl | hjk
          · simpa using hcond
          · exact hbefore _ ⟨j, rfl⟩ (Nat.pow_lt_pow_right (by decide) hjk)
    refine ⟨⟨hpowers.1, hno⟩, fun m hm => ?_⟩
    by_contra hlt
    exact hpowers.2 m hm.1 (not_le.mp hlt) hm.2
  · rcases hends fuel hfuel with ⟨nb', hnb'⟩
    rw [hnb', whileLoop_unique hnb' hnb]

/-- A turn of the second loop moves an end of the interval, or has a status it does not
know. -/
theorem halve_cases (status : ℕ → LpStatus) {w : ℕ × ℕ} (hw : w.1 < w.2) :
    ((status ((w.1 + w.2) / 2) = .optimal ∨ status ((w.1 + w.2) / 2) = .infeasible) ∧
        (halve status w).2 - (halve status w).1 < w.2 - w.1) ∨
      (¬ (status ((w.1 + w.2) / 2) = .optimal ∨ status ((w.1 + w.2) / 2) = .infeasible) ∧
        halve status w = w) := by
  simp only [halve, code_eq_one, code_eq_neg_one]
  by_cases hone : status ((w.1 + w.2) / 2) = .optimal
  · rw [if_pos hone]
    exact Or.inl ⟨Or.inl hone, by dsimp only; omega⟩
  · by_cases hminus : status ((w.1 + w.2) / 2) = .infeasible
    · rw [if_neg hone, if_pos hminus]
      exact Or.inl ⟨Or.inr hminus, by dsimp only; omega⟩
    · rw [if_neg hone, if_neg hminus]
      exact Or.inr ⟨not_or.mpr ⟨hone, hminus⟩, rfl⟩

/-- The ends of the interval do not pass each other. -/
theorem halve_le {w : ℕ × ℕ} (hw : w.1 < w.2) : (halve status w).1 ≤ (halve status w).2 := by
  simp only [halve]
  split_ifs
  · dsimp only
    omega
  · dsimp only
    omega
  · exact hw.le

/-- The second loop ends if it only meets statuses that it knows. -/
theorem halve_ends_iff (status : ℕ → LpStatus) (start : ℕ × ℕ) :
    Ends (fun w : ℕ × ℕ => w.1 < w.2) (halve status) start ↔
      ∀ w, Visits (fun w => w.1 < w.2) (halve status) start w → w.1 < w.2 →
        status ((w.1 + w.2) / 2) = .optimal ∨ status ((w.1 + w.2) / 2) = .infeasible := by
  rw [ends_iff fun w => w.2 - w.1]
  · refine forall_congr' fun w => ?_
    rw [decide_eq_true_eq]
    refine forall_congr' fun _ => forall_congr' fun hw => ?_
    rcases halve_cases status hw with ⟨hknown, hfall⟩ | ⟨hunknown, hsame⟩
    · refine ⟨fun _ => hknown, fun _ hsame => ?_⟩
      rw [hsame] at hfall
      exact lt_irrefl _ hfall
    · exact ⟨fun hne => absurd hsame hne, fun hknown => absurd hknown hunknown⟩
  · intro w _ hcond
    rcases halve_cases status (of_decide_eq_true hcond) with h | h
    · exact Or.inl h.2
    · exact Or.inr h.2

/-- Behind the first loop, it only matters whether the second one ends: where it does, the
ends of the interval have met. -/
theorem returned_iff_ends {bound nb : ℕ} (hnb : 1 ≤ nb)
    (hdouble : ∀ fuel > bound, doubleLoop status fuel = some nb) :
    (∃ N nbUb, ∀ fuel ≥ N, getNbUbOf status fuel = .returned nbUb) ↔
      Ends (fun w : ℕ × ℕ => w.1 < w.2) (halve status) (max (nb / 2) 1, nb) := by
  constructor
  · intro ⟨N, nbUb, hN⟩
    refine ⟨max N (bound + 1), fun fuel hfuel => ?_⟩
    have hret := hN fuel (by omega)
    rw [getNbUbOf, hdouble fuel (by omega)] at hret
    simp only at hret
    cases hloop : halveLoop status fuel (max (nb / 2) 1, nb) with
    | none => simp [hloop] at hret
    | some w => exact ⟨w, hloop⟩
  · intro ⟨N, hN⟩
    have ⟨w, hw⟩ := hN N (Nat.le_refl N)
    have ⟨hvisit, hcond⟩ := visits_of_whileLoop hw
    have hle : w.1 ≤ w.2 := hvisit.preserves (I := fun w => w.1 ≤ w.2)
      (by dsimp only; omega) fun w _ hcond => halve_le (of_decide_eq_true hcond)
    have hmeet : w.1 = w.2 := le_antisymm hle (not_lt.mp (of_decide_eq_false hcond))
    refine ⟨max N (bound + 1), w.1 - 1, fun fuel hfuel => ?_⟩
    have ⟨w', hw'⟩ := hN fuel (by omega)
    have hrun : halveLoop status fuel (max (nb / 2) 1, nb) = some w := by
      rw [halveLoop, hw', whileLoop_unique hw' hw]
    simp only [getNbUbOf, hdouble fuel (show fuel > bound by omega), hrun, if_pos hmeet]

/-- **`get_nb_ub` returns if and only if the second loop asks at places with the statuses 1
and -1 only.** -/
theorem getNbUbOf_returns_iff (status : ℕ → LpStatus)
    (hbound : ∃ bound, ∀ nb, bound < nb → status nb = .infeasible) :
    (∃ N nbUb, ∀ fuel ≥ N, getNbUbOf status fuel = .returned nbUb) ↔
      ∀ w, Window status w → w.1 < w.2 →
        status ((w.1 + w.2) / 2) = .optimal ∨ status ((w.1 + w.2) / 2) = .infeasible := by
  have ⟨bound, hbound⟩ := hbound
  have ⟨nb, hleast, hdouble⟩ := doubleLoop_spec hbound
  have hnb : 1 ≤ nb := by
    have ⟨k, hk⟩ := hleast.1.1
    exact hk ▸ Nat.one_le_two_pow
  have hwindow : ∀ w, Window status w ↔
      Visits (fun w => w.1 < w.2) (halve status) (max (nb / 2) 1, nb) w := by
    intro w
    constructor
    · intro ⟨nb', hleast', hvisit⟩
      rwa [hleast'.unique hleast] at hvisit
    · exact fun hvisit => ⟨nb, hleast, hvisit⟩
  rw [returned_iff_ends hnb hdouble, halve_ends_iff]
  exact forall_congr' fun w => by rw [hwindow w]

/-- Up to five micro-batches fit. -/
theorem getNbUbOf_returns_five : ∃ N nbUb, ∀ fuel ≥ N,
    getNbUbOf (fun nb => if nb ≤ 5 then .optimal else .infeasible) fuel = .returned nbUb := by
  refine (getNbUbOf_returns_iff (fun nb => if nb ≤ 5 then .optimal else .infeasible)
    ⟨5, fun nb hnb => if_neg (not_le.mpr hnb)⟩).mpr fun w _ _ => ?_
  by_cases hle : (w.1 + w.2) / 2 ≤ 5
  · exact Or.inl (if_pos hle)
  · exact Or.inr (if_neg hle)

/-- One and two micro-batches fit, four do not, and the solver gives up on three. -/
theorem getNbUbOf_runs_on :
    ¬ ∀ status : ℕ → LpStatus, (∃ bound, ∀ nb, bound < nb → status nb = .infeasible) →
      ∃ N nbUb, ∀ fuel ≥ N, getNbUbOf status fuel = .returned nbUb := by
  intro hall
  let status : ℕ → LpStatus := fun nb =>
    if nb ≤ 2 then .optimal else if nb = 3 then .notSolved else .infeasible
  have hbound : ∀ nb, 3 < nb → status nb = .infeasible := by
    intro nb hnb
    simp only [status, if_neg (show ¬ nb ≤ 2 by omega), if_neg (show ¬ nb = 3 by omega)]
  rcases hall status ⟨3, hbound⟩ with ⟨N, nbUb, hN⟩
  have hret := hN N (Nat.le_refl N)
  have hstuck : halveLoop status N (2, 4) = none := whileLoop_stuck (by decide) (by decide)
  have hfour : doubleLoop status 3 = some 4 := by decide
  cases hdouble : doubleLoop status N with
  | none => simp [getNbUbOf, hdouble] at hret
  | some nb =>
      obtain rfl : nb = 4 := whileLoop_unique hdouble hfour
      simp [getNbUbOf, hdouble, hstuck] at hret

section Search

variable {solver : LpSolver} {c : CostModelConfig} {gbs fuel : ℕ}

theorem doubleWhile_eq_whileLoop (fuel : ℕ)
    (hstatus : ∀ nb, 1 ≤ nb → (solveLp solver c (gbs * nb) gbs .decode).map LpResult.status =
      some (status nb).code) {nb : ℕ} (hnb : 1 ≤ nb) :
    doubleWhile (fun nb => ((solveLp solver c (gbs * nb) gbs .decode).map LpResult.status).map
        fun st => decide (st ≠ -1)) fuel nb =
      whileLoop (fun nb => (status nb).code ≠ -1) (fun nb => nb * 2) fuel nb := by
  induction fuel generalizing nb with
  | zero => rfl
  | succ fuel ih =>
      rw [doubleWhile, whileLoop, hstatus nb hnb, ih (show 1 ≤ nb * 2 by omega)]
      rfl

theorem bisect_eq_whileLoop (fuel : ℕ)
    (hstatus : ∀ nb, 1 ≤ nb → (solveLp solver c (gbs * nb) gbs .decode).map LpResult.status =
      some (status nb).code) {w : ℕ × ℕ} (hw : 1 ≤ w.1) :
    bisect (fun mid => ((solveLp solver c (gbs * mid) gbs .decode).map LpResult.status).bind
        fun st => if st = 1 then some true else if st = -1 then some false else none)
      fuel w.1 w.2 = halveLoop status fuel w := by
  induction fuel generalizing w with
  | zero => rfl
  | succ fuel ih =>
      rw [bisect, halveLoop, whileLoop]
      by_cases hlt : w.1 < w.2
      · rw [if_pos hlt, if_pos (decide_eq_true hlt), hstatus _ (by omega), Option.bind_some]
        by_cases hone : (status ((w.1 + w.2) / 2)).code = 1
        · have hnext : halve status w = ((w.1 + w.2) / 2 + 1, w.2) := by
            simp only [halve, if_pos hone]
          rw [if_pos hone, Option.bind_some, if_pos rfl, hnext]
          exact ih (w := ((w.1 + w.2) / 2 + 1, w.2)) (Nat.le_add_left _ _)
        · by_cases hminus : (status ((w.1 + w.2) / 2)).code = -1
          · have hnext : halve status w = (w.1, (w.1 + w.2) / 2) := by
              simp only [halve, if_neg hone, if_pos hminus]
            rw [if_neg hone, if_pos hminus, Option.bind_some, if_neg Bool.false_ne_true, hnext]
            exact ih (w := (w.1, (w.1 + w.2) / 2)) hw
          · -- Both stay where they are: the one as none, the other for ever.
            have hsame : halve status w = w := by
              simp only [halve, if_neg hone, if_neg hminus]
            rw [if_neg hone, if_neg hminus, Option.bind_none, hsame]
            have hstuck : halveLoop status fuel w = none := whileLoop_stuck (by simpa using hlt) hsame
            exact hstuck.symm
      · rw [if_neg hlt, if_neg (by simpa using hlt)]

/-- Where `solve_lp` has a status for every number of micro-batches, the search over the
programs and the two loops over the statuses return the same. -/
theorem getNbUb_eq_some_iff
    (hstatus : ∀ nb, 1 ≤ nb → (solveLp solver c (gbs * nb) gbs .decode).map LpResult.status =
      some (status nb).code) {u : ℕ} :
    getNbUb solver c fuel gbs = some u ↔ getNbUbOf status fuel = .returned u := by
  have hdouble := doubleWhile_eq_whileLoop fuel hstatus (Nat.le_refl 1)
  simp only [getNbUb, hdouble, getNbUbOf, doubleLoop]
  cases whileLoop (fun nb => (status nb).code ≠ -1) (fun nb => nb * 2) fuel 1 with
  | none => simp
  | some nb =>
      have hhalve := bisect_eq_whileLoop fuel hstatus (w := (max (nb / 2) 1, nb))
        (le_max_right _ _)
      simp only [Option.bind_some, hhalve]
      cases halveLoop status fuel (max (nb / 2) 1, nb) with
      | none => simp
      | some w =>
          simp only [Option.bind_some]
          split_ifs <;> simp

end Search

end Statuses

end HarvestMoE
