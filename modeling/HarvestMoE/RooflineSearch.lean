import HarvestMoE.Lib.UnimodalSearch
import HarvestMoE.StorageBalance

/-!
# The search for a policy

For each size `gbs` of a grid, `get_nb_ub` finds how many micro-batches fit and `solve`
tries their numbers upwards, until the throughput falls. The sizes end where not even one
micro-batch fits. What is left out is nowhere better: throughput has one peak in the
number of micro-batches, and larger micro-batches do not fit where smaller ones do not.

## Main definitions

* `getNbUb`, `best`, `scanNb`, `searchFrom`, `solve` — the search.
* `grid` — the pairs it ranges over.
* `HasThroughput` — what the program for a pair gives.
* `IsMaximum` — what the search is for.
-/

namespace HarvestMoE

open Lib

/-- The arguments of `solve`. -/
structure SearchArgs where
  stage : Stage
  gbs : Option ℕ
  numGb : Option ℕ
  promptLen : ℕ
  genLen : ℕ

section Search

variable (solver : LpSolver) (config : CostModelConfig)

/-- `get_nb_ub`. The loop that halves does not go on with a status other than 1 and -1. -/
def getNbUb (fuel gbs : ℕ) : Option ℕ :=
  let status := fun nb => (solveLp solver config (gbs * nb) gbs .decode).map LpResult.status
  (doubleWhile (fun nb => (status nb).map fun st => decide (st ≠ -1)) fuel 1).bind fun nb =>
    (bisect (fun mid => (status mid).bind fun st =>
        if st = 1 then some true else if st = -1 then some false else none)
      fuel (max (nb / 2) 1) nb).bind fun (left, right) =>
    if left = right then some (left - 1) else none

def best (policy1 : Option Policy) (throughput1 : ℚ) (policy2 : Option Policy) (throughput2 : ℚ) :
    Option Policy × ℚ :=
  if throughput2 ≥ throughput1 then (policy2, throughput2) else (policy1, throughput1)

/-- The loop over `nb`, with `prev_throughput`. -/
def scanNb (gbs : ℕ) (stage : Stage) : List ℕ → ℚ → Option Policy × ℚ → Option (Option Policy × ℚ)
  | [], _, acc => some acc
  | nb :: nbs, prevThroughput, acc =>
      (solveLp solver config (gbs * nb) gbs stage).bind fun r =>
        if r.throughput < prevThroughput then some acc
        else scanNb gbs stage nbs r.throughput (best acc.1 acc.2 r.policy r.throughput)

/-- The loop of `solve` for one `gbs`, and whether it is left. -/
def searchRound (args : SearchArgs) (fuel gbs : ℕ) (acc : Option Policy × ℚ) :
    Option ((Option Policy × ℚ) × Bool) :=
  match args.numGb with
  | some numGb =>
      (solveLp solver config (gbs * numGb) gbs args.stage).map fun r =>
        if r.status = -1 then (acc, true)
        else if r.status = 1 then (best acc.1 acc.2 r.policy r.throughput, false)
        else (acc, false)
  | none =>
      (getNbUb solver config fuel gbs).bind fun nbUb =>
        if nbUb = 0 then some (acc, true)
        else (scanNb solver config gbs args.stage (List.range' 1 nbUb) 0 acc).map fun acc =>
          (acc, false)

def nextGbs (gbs : ℕ) : ℕ := if gbs < 4 then gbs + 1 else gbs + 32

/-- The loop over `gbs`. -/
def searchFrom (args : SearchArgs) (fuel : ℕ) : ℕ → ℕ → Option Policy × ℚ → Option (Option Policy × ℚ)
  | 0, _, _ => none
  | rounds + 1, gbs, acc =>
      let gbs := args.gbs.getD gbs
      (searchRound solver config args fuel gbs acc).bind fun (acc, left) =>
        if left || args.gbs.isSome then some acc
        else searchFrom args fuel rounds (nextGbs gbs) acc

/-- `solve`, for the configuration its first line makes. -/
def solveConfig (args : SearchArgs) (fuel : ℕ) : Option (Option Policy × ℚ) :=
  (searchFrom solver config args fuel fuel 1 (none, 0)).bind fun acc =>
    match acc.1 with
    | none => some acc
    | some p => (solveLp solver config (p.ubs * p.nUb) p.ubs args.stage).map fun _ => acc

end Search

def solve (solver : LpSolver) (modelConfig : CostModelShape) (hardwareConfig : HardwareConfig)
    (args : SearchArgs) (fuel : ℕ) : Option (Option Policy × ℚ) :=
  solveConfig solver (CostModelConfig.init modelConfig hardwareConfig args.promptLen args.genLen)
    args fuel

/-- The `gbs` of a round. -/
def gridAt : ℕ → ℕ
  | 0 => 1
  | k + 1 => nextGbs (gridAt k)

/-- The pairs `(gbs, nb)` of the search. -/
def grid : Set (ℕ × ℕ) := {q | (∃ k, q.1 = gridAt k) ∧ 1 ≤ q.2}

namespace CostModelConfig

variable (c : CostModelConfig)

/-- Tokens per second in the decode stage, when a layer takes `T`. -/
def throughput (gbs nb : ℕ) (T : ℚ) : ℚ :=
  (gbs * nb : ℕ) * c.n / (T * (c.n - 1) * c.l)

/-- The throughput of a pair, by an optimal solution of its program. -/
def HasThroughput (gbs nb : ℕ) (θ : ℚ) : Prop :=
  ∃ v, (c.decodeLp gbs nb).Optimal v ∧ θ = c.throughput gbs nb v.T

/-- The policy is that of an optimal solution for its own pair. -/
def Achieves (p : Policy) (θ : ℚ) : Prop :=
  ∃ v, (c.decodeLp p.ubs p.nUb).Optimal v ∧ θ = c.throughput p.ubs p.nUb v.T ∧
    p = ⟨p.ubs, p.nUb, v.wg, v.wc, v.cg, v.cc, c.nExperts⟩

/-- A policy of the grid with the highest throughput there is, or nothing where no program
has a solution. -/
def IsMaximum : Option Policy × ℚ → Prop
  | (some p, θ) => (p.ubs, p.nUb) ∈ grid ∧ c.Achieves p θ ∧
      ∀ gbs nb θ', (gbs, nb) ∈ grid → c.HasThroughput gbs nb θ' → θ' ≤ θ
  | (none, θ) => θ = 0 ∧ ∀ gbs nb, (gbs, nb) ∈ grid → ∀ v, ¬ (c.decodeLp gbs nb).Feasible v

variable {c} {gbs nb : ℕ} {θ : ℚ}

theorem hasThroughput_iff (hc : c.Valid) (hgbs : 0 < gbs) (hnb : 0 < nb) :
    c.HasThroughput gbs nb θ ↔
      (c.times gbs nb).Nonempty ∧ θ = c.throughput gbs nb (c.bestT gbs nb) := by
  constructor
  · intro ⟨v, hv, hθ⟩
    have hleast := ((optimal_iff hgbs hnb hc).mp hv).2
    have hne : (c.times gbs nb).Nonempty := ⟨_, hleast.1⟩
    exact ⟨hne, by rw [hθ, hleast.unique (isLeast_bestT hc hne)]⟩
  · intro ⟨hne, hθ⟩
    have hleast := isLeast_bestT hc hne
    rcases hleast.1 with ⟨wg, h⟩
    exact ⟨_, (optimal_iff hgbs hnb hc).mpr ⟨h.feasible hgbs hc, hleast⟩, hθ⟩

theorem HasThroughput.pos (hc : c.Valid) (hgbs : 0 < gbs) (hnb : 0 < nb)
    (h : c.HasThroughput gbs nb θ) : 0 < θ := by
  rcases h with ⟨v, hv, rfl⟩
  have hT : 0 < v.T := (balance_of_feasible hgbs hv.feasible).pos hgbs hnb hc
  have hn : (0 : ℚ) < c.n - 1 := sub_pos.mpr (by exact_mod_cast hc.two_le_n)
  have hn' : 0 < c.n := lt_of_lt_of_le two_pos hc.two_le_n
  have hl := hc.l_pos
  rw [throughput]
  positivity

/-- **Throughput has one peak in the number of micro-batches.** -/
theorem unimodalOn_throughput (hc : c.Valid) (hgbs : 0 < gbs) :
    UnimodalOn {nb | 1 ≤ nb ∧ (c.times gbs nb).Nonempty}
      fun nb => c.throughput gbs nb (c.bestT gbs nb) := by
  have hn : (0 : ℚ) ≤ c.n - 1 := by
    have hone : (1 : ℚ) ≤ c.n := by exact_mod_cast one_le_two.trans hc.two_le_n
    exact sub_nonneg.mpr hone
  have hratio : UnimodalOn {nb | 1 ≤ nb ∧ (c.times gbs nb).Nonempty}
      fun nb => (nb : ℚ) / c.bestT gbs nb := by
    refine UnimodalOn.div_of_convex (fun nb hnb => ?_) fun a ha d hd b hab hbd => ?_
    · rcases (isLeast_bestT hc hnb.2).1 with ⟨wg, h⟩
      exact h.pos hgbs hnb.1 hc
    · rcases (isLeast_bestT hc ha.2).1 with ⟨wa, hwa⟩
      rcases (isLeast_bestT hc hd.2).1 with ⟨wd, hwd⟩
      have hab' : (a : ℚ) < b := Nat.cast_lt.mpr hab
      have hbd' : (b : ℚ) < d := Nat.cast_lt.mpr hbd
      have hpos : (0 : ℚ) < d - a := by linarith
      -- The place `b` as a mixture of `a` and `d`.
      have hmix := hwa.mix hwd (x := ((d : ℚ) - b) / (d - a)) (y := ((b : ℚ) - a) / (d - a)) (b := b)
        (div_nonneg (by linarith) hpos.le) (div_nonneg (by linarith) hpos.le)
        (by field_simp; ring) (by field_simp; ring)
      have hle := (isLeast_bestT hc ⟨_, _, hmix⟩).2 ⟨_, hmix⟩
      refine ⟨⟨ha.1.trans hab.le, ⟨_, _, hmix⟩⟩, ?_⟩
      calc ((d : ℚ) - a) * c.bestT gbs b ≤ ((d : ℚ) - a) *
              (((d : ℚ) - b) / (d - a) * c.bestT gbs a + ((b : ℚ) - a) / (d - a) * c.bestT gbs d) :=
            mul_le_mul_of_nonneg_left hle hpos.le
        _ = ((d : ℚ) - b) * c.bestT gbs a + ((b : ℚ) - a) * c.bestT gbs d := by
            field_simp
  have hmono : Monotone fun x : ℚ => gbs * c.n / ((c.n - 1) * c.l) * x := fun x y hxy =>
    mul_le_mul_of_nonneg_left hxy (by positivity)
  have heq : (fun nb => c.throughput gbs nb (c.bestT gbs nb)) = fun nb : ℕ =>
      (gbs * c.n / ((c.n - 1) * c.l) : ℚ) * ((nb : ℚ) / c.bestT gbs nb) := by
    funext nb
    rw [throughput, Nat.cast_mul, div_mul_div_comm]
    congr 1 <;> ring
  rw [heq]
  exact hratio.monotone_comp hmono

end CostModelConfig

section Solver

open CostModelConfig

variable {solver : LpSolver} {c : CostModelConfig} {gbs nb : ℕ}

/-- The checks of `solve_lp` on its arguments. -/
theorem solveLp_eq (hgbs : 0 < gbs) (hnb : 0 < nb) :
    solveLp solver c (gbs * nb) gbs .decode =
      if (solver (c.decodeLp gbs nb)).1 = -1 then
        some ⟨(solver (c.decodeLp gbs nb)).1, none, 0, -1, none, none⟩
      else (throughputOf c (gbs * nb) .decode (solver (c.decodeLp gbs nb)).2.T).map fun tt =>
        let v := (solver (c.decodeLp gbs nb)).2
        { status := (solver (c.decodeLp gbs nb)).1
          policy := some ⟨gbs, nb, v.wg, v.wc, v.cg, v.cc, c.nExperts⟩
          throughput := tt.1
          tTot := tt.2
          gpuPeak := some (v.gpuHome + v.gpuW)
          cpuPeak := some (v.cpuHome + v.cpuW) } := by
  have hbls : 0 < gbs * nb := Nat.mul_pos hgbs hnb
  have hle : gbs ≤ gbs * nb := Nat.le_mul_of_pos_right gbs hnb
  have hdiv : gbs * nb / gbs = nb := Nat.mul_div_cancel_left nb hgbs
  simp only [solveLp, gt_iff_lt, hbls, hgbs, and_self, not_true_eq_false, if_false, ge_iff_le, hle,
    Nat.mul_mod_right, hdiv, decodeLp]
  rfl

/-- Where the program has a solution, `solve_lp` returns its policy and throughput. -/
theorem solveLp_of_fits (hc : c.Valid) (hgbs : 0 < gbs) (hnb : 0 < nb)
    (hok : SolverOk solver (c.decodeLp gbs nb)) (hfits : (c.times gbs nb).Nonempty) :
    ∃ r p, solveLp solver c (gbs * nb) gbs .decode = some r ∧ r.status = 1 ∧ r.policy = some p ∧
      p.ubs = gbs ∧ p.nUb = nb ∧ c.Achieves p r.throughput ∧
      r.throughput = c.throughput gbs nb (c.bestT gbs nb) := by
  rcases hok with ⟨hstatus, hopt⟩ | ⟨-, hnone⟩
  · have hleast := ((optimal_iff hgbs hnb hc).mp hopt).2
    have hT : (solver (c.decodeLp gbs nb)).2.T = c.bestT gbs nb :=
      hleast.unique (isLeast_bestT hc hfits)
    have htot : (solver (c.decodeLp gbs nb)).2.T * ((c.n : ℚ) - 1) * c.l ≠ 0 := by
      have hpos : 0 < (solver (c.decodeLp gbs nb)).2.T :=
        (balance_of_feasible hgbs hopt.feasible).pos hgbs hnb hc
      have hn : (0 : ℚ) < c.n - 1 := sub_pos.mpr (by exact_mod_cast hc.two_le_n)
      have hl := hc.l_pos
      positivity
    have hne : ¬ (solver (c.decodeLp gbs nb)).1 = -1 := by
      rw [hstatus]
      decide
    refine ⟨_, _, by
      rw [solveLp_eq hgbs hnb, if_neg hne, throughputOf, if_neg htot, Option.map_some],
      hstatus, rfl, rfl, rfl, ⟨_, hopt, rfl, rfl⟩, ?_⟩
    rw [← hT]
    rfl
  · rcases (feasible_iff hgbs hc).mpr hfits with ⟨v, hv⟩
    exact absurd hv (hnone v)

/-- Where it has none, `solve_lp` says so. -/
theorem solveLp_of_not_fits (hc : c.Valid) (hgbs : 0 < gbs) (hnb : 0 < nb)
    (hok : SolverOk solver (c.decodeLp gbs nb)) (hfits : ¬ (c.times gbs nb).Nonempty) :
    solveLp solver c (gbs * nb) gbs .decode = some ⟨-1, none, 0, -1, none, none⟩ := by
  rcases hok with ⟨-, hopt⟩ | ⟨hstatus, -⟩
  · exact absurd ((feasible_iff hgbs hc).mp ⟨_, hopt.feasible⟩) hfits
  · rw [solveLp_eq hgbs hnb, if_pos hstatus, hstatus]

end Solver

section NbUb

open CostModelConfig

variable {solver : LpSolver} {c : CostModelConfig}

/-- The solver is right about the programs of the decode stage. -/
def SolvesDecode (solver : LpSolver) (c : CostModelConfig) : Prop :=
  ∀ gbs nb, 0 < gbs → 0 < nb → SolverOk solver (c.decodeLp gbs nb)

/-- No pair beyond this has room. -/
def sizeBound (c : CostModelConfig) : ℕ := ⌊c.gmem⌋₊ + 1

theorem lt_sizeBound (hc : c.Valid) {gbs nb : ℕ} (h : (c.times gbs nb).Nonempty) :
    gbs * nb < sizeBound c := by
  rcases h with ⟨T, wg, hT⟩
  have hle := hT.le_gmem hc
  exact Nat.lt_succ_of_le (Nat.le_floor (by rw [Nat.cast_mul]; exact hle))

theorem fits_downClosed (hc : c.Valid) (gbs : ℕ) :
    DownClosed fun nb => (c.times gbs nb).Nonempty := by
  intro m n _ hmn ⟨T, wg, h⟩
  exact ⟨T, wg, h.mono hc le_rfl hmn⟩

/-- **`get_nb_ub` returns the number of micro-batches that fit**, where the statuses tell
which do. -/
theorem getNbUb_of_status (hc : c.Valid) {gbs fuel : ℕ} (hgbs : 0 < gbs)
    (hfuel : 2 * sizeBound c + 1 < fuel)
    (hstatus : ∀ nb, 1 ≤ nb → ∃ st,
      (solveLp solver c (gbs * nb) gbs .decode).map LpResult.status = some st ∧
        (st = 1 ∧ (c.times gbs nb).Nonempty ∨ st = -1 ∧ ¬ (c.times gbs nb).Nonempty)) :
    ∃ u, getNbUb solver c fuel gbs = some u ∧
      ∀ nb, 1 ≤ nb → ((c.times gbs nb).Nonempty ↔ nb ≤ u) := by
  have hdouble : Decides (fun nb =>
      ((solveLp solver c (gbs * nb) gbs .decode).map LpResult.status).map fun st =>
        decide (st ≠ -1)) fun nb => (c.times gbs nb).Nonempty := by
    intro nb hnb
    rcases hstatus nb hnb with ⟨st, hst, ⟨rfl, hfits⟩ | ⟨rfl, hfits⟩⟩
    · exact ⟨true, by simp [hst], by simpa using hfits⟩
    · exact ⟨false, by simp [hst], by simpa using hfits⟩
  have hhalve : Decides (fun nb =>
      ((solveLp solver c (gbs * nb) gbs .decode).map LpResult.status).bind fun st =>
        if st = 1 then some true else if st = -1 then some false else none)
      fun nb => (c.times gbs nb).Nonempty := by
    intro nb hnb
    rcases hstatus nb hnb with ⟨st, hst, ⟨rfl, hfits⟩ | ⟨rfl, hfits⟩⟩
    · exact ⟨true, by simp [hst], by simpa using hfits⟩
    · exact ⟨false, by simp [hst], by simpa using hfits⟩
  have hbound : ∀ nb, (c.times gbs nb).Nonempty → nb < sizeBound c := fun nb h =>
    (Nat.le_mul_of_pos_left nb hgbs).trans_lt (lt_sizeBound hc h)
  rcases doubleWhile_spec hdouble hbound le_rfl (Or.inl rfl)
      (show sizeBound c - 1 < fuel by omega) with
    ⟨nb, hnb, h1, hle, hno, hhalf⟩
  have hyes : ∀ n, 1 ≤ n → n < max (nb / 2) 1 → (c.times gbs n).Nonempty := by
    intro n hn hlt
    rcases hhalf with rfl | hhalf
    · omega
    · exact fits_downClosed hc gbs hn (by omega) hhalf
  rcases bisect_spec hhalve (fits_downClosed hc gbs) (le_max_right (nb / 2) 1)
    (by omega) hyes hno (show nb - max (nb / 2) 1 < fuel by omega) with ⟨m, hm, hm1, hiff⟩
  refine ⟨m - 1, ?_, hiff⟩
  simp only [getNbUb, hnb, hm, Option.bind_some, if_true]

theorem getNbUb_spec (hc : c.Valid) (hsolver : SolvesDecode solver c) {gbs fuel : ℕ}
    (hgbs : 0 < gbs) (hfuel : 2 * sizeBound c + 1 < fuel) :
    ∃ u, getNbUb solver c fuel gbs = some u ∧
      ∀ nb, 1 ≤ nb → ((c.times gbs nb).Nonempty ↔ nb ≤ u) := by
  refine getNbUb_of_status hc hgbs hfuel fun nb hnb => ?_
  by_cases hfits : (c.times gbs nb).Nonempty
  · rcases solveLp_of_fits hc hgbs hnb (hsolver gbs nb hgbs hnb) hfits with ⟨r, p, hr, hst, -⟩
    exact ⟨1, by rw [hr, Option.map_some, hst], Or.inl ⟨rfl, hfits⟩⟩
  · exact ⟨-1, by rw [solveLp_of_not_fits hc hgbs hnb (hsolver gbs nb hgbs hnb) hfits]; rfl,
      Or.inr ⟨rfl, hfits⟩⟩

end NbUb

section Best

open CostModelConfig

variable {c : CostModelConfig} {S S' : Set (ℕ × ℕ)} {acc : Option Policy × ℚ}

/-- What was kept of the pairs in `S`. -/
structure BestOn (c : CostModelConfig) (S : Set (ℕ × ℕ)) (acc : Option Policy × ℚ) : Prop where
  nonneg : 0 ≤ acc.2
  of_none : acc.1 = none → acc.2 = 0
  of_some : ∀ p, acc.1 = some p → (p.ubs, p.nUb) ∈ S ∧ c.Achieves p acc.2
  le : ∀ gbs nb θ, (gbs, nb) ∈ S → c.HasThroughput gbs nb θ → θ ≤ acc.2

theorem BestOn.empty (c : CostModelConfig) : BestOn c ∅ (none, 0) where
  nonneg := le_rfl
  of_none := fun _ => rfl
  of_some := fun p hp => by cases hp
  le := fun _ _ _ hmem => hmem.elim

/-- Pairs without a higher throughput need not be looked at. -/
theorem BestOn.mono (h : BestOn c S acc) (hS : S ⊆ S')
    (hle : ∀ gbs nb θ, (gbs, nb) ∈ S' → (gbs, nb) ∉ S → c.HasThroughput gbs nb θ → θ ≤ acc.2) :
    BestOn c S' acc where
  nonneg := h.nonneg
  of_none := h.of_none
  of_some := fun p hp => ⟨hS (h.of_some p hp).1, (h.of_some p hp).2⟩
  le := by
    intro gbs nb θ hmem hθ
    by_cases hmem' : (gbs, nb) ∈ S
    · exact h.le gbs nb θ hmem' hθ
    · exact hle gbs nb θ hmem hmem' hθ

/-- **`best` keeps the best.** -/
theorem BestOn.best (hc : c.Valid) (h : BestOn c S acc) {p : Policy} {θ : ℚ} (hubs : 0 < p.ubs)
    (hnub : 0 < p.nUb) (hp : c.Achieves p θ) :
    BestOn c (insert (p.ubs, p.nUb) S) (best acc.1 acc.2 (some p) θ) := by
  have hown : c.HasThroughput p.ubs p.nUb θ := by
    rcases hp with ⟨v, hv, hθ, -⟩
    exact ⟨v, hv, hθ⟩
  have hθ : 0 < θ := hown.pos hc hubs hnub
  have hothers : ∀ gbs nb θ', (gbs, nb) ∈ insert (p.ubs, p.nUb) S → c.HasThroughput gbs nb θ' →
      θ' ≤ max θ acc.2 := by
    intro gbs nb θ' hmem hθ'
    rcases hmem with heq | hmem
    · cases heq
      rw [((hasThroughput_iff hc hubs hnub).mp hθ').2, ← ((hasThroughput_iff hc hubs hnub).mp hown).2]
      exact le_max_left _ _
    · exact (h.le gbs nb θ' hmem hθ').trans (le_max_right _ _)
  by_cases hge : θ ≥ acc.2
  · simp only [HarvestMoE.best, if_pos hge]
    rw [max_eq_left hge] at hothers
    refine ⟨hθ.le, (fun hnone => nomatch hnone), fun q hq => ?_, hothers⟩
    cases hq
    exact ⟨Set.mem_insert _ _, hp⟩
  · simp only [HarvestMoE.best, if_neg hge]
    rw [max_eq_right (not_le.mp hge).le] at hothers
    exact ⟨h.nonneg, h.of_none,
      fun q hq => ⟨Set.mem_insert_of_mem _ (h.of_some q hq).1, (h.of_some q hq).2⟩, hothers⟩

end Best

section Scan

open CostModelConfig

variable {solver : LpSolver} {c : CostModelConfig} {gbs u : ℕ}

/-- The pairs of `S`, and those of `gbs` with less than `a` micro-batches. -/
def withPairs (S : Set (ℕ × ℕ)) (gbs a : ℕ) : Set (ℕ × ℕ) :=
  S ∪ {q | q.1 = gbs ∧ 1 ≤ q.2 ∧ q.2 < a}

theorem insert_withPairs {S : Set (ℕ × ℕ)} {a : ℕ} (ha : 1 ≤ a) :
    insert (gbs, a) (withPairs S gbs a) = withPairs S gbs (a + 1) := by
  ext ⟨g, n⟩
  simp only [withPairs, Set.mem_insert_iff, Set.mem_union, Set.mem_ofPred_eq, Prod.mk.injEq]
  constructor
  · intro h
    rcases h with ⟨rfl, rfl⟩ | h | ⟨rfl, h1, h2⟩
    · exact Or.inr ⟨rfl, ha, Nat.lt_succ_self _⟩
    · exact Or.inl h
    · exact Or.inr ⟨rfl, h1, h2.trans (Nat.lt_succ_self a)⟩
  · intro h
    rcases h with h | ⟨rfl, h1, h2⟩
    · exact Or.inr (Or.inl h)
    · rcases Nat.lt_succ_iff_lt_or_eq.mp h2 with h2 | rfl
      · exact Or.inr (Or.inr ⟨rfl, h1, h2⟩)
      · exact Or.inl ⟨rfl, rfl⟩

/-- **The scan over `nb` finds the best of all that fit**, though it stops at the first
descent. -/
theorem scanNb_spec (hc : c.Valid) (hsolver : SolvesDecode solver c) (hgbs : 0 < gbs)
    (hu : ∀ nb, 1 ≤ nb → ((c.times gbs nb).Nonempty ↔ nb ≤ u)) {S : Set (ℕ × ℕ)} {len a : ℕ}
    {prev : ℚ} {acc : Option Policy × ℚ} (ha : 1 ≤ a) (hlen : a + len = u + 1)
    (hprev : prev = 0 ∧ a = 1 ∨
      1 < a ∧ prev = c.throughput gbs (a - 1) (c.bestT gbs (a - 1)))
    (hacc : BestOn c (withPairs S gbs a) acc) :
    ∃ acc', scanNb solver c gbs .decode (List.range' a len) prev acc = some acc' ∧
      BestOn c (withPairs S gbs (u + 1)) acc' := by
  induction len generalizing a prev acc with
  | zero =>
      obtain rfl : a = u + 1 := by omega
      exact ⟨acc, rfl, hacc⟩
  | succ len ih =>
      have hfits : (c.times gbs a).Nonempty := (hu a ha).mpr (by omega)
      rcases solveLp_of_fits hc hgbs ha (hsolver gbs a hgbs ha) hfits with
        ⟨r, p, hr, -, hp, hubs, hnub, hach, hθ⟩
      rw [List.range'_succ, scanNb, hr, Option.bind_some]
      by_cases hlt : r.throughput < prev
      · -- The pairs behind the descent are not better than the one before it.
        rw [if_pos hlt]
        have hpos : 0 < r.throughput :=
          HasThroughput.pos hc hgbs ha ((hasThroughput_iff hc hgbs ha).mpr ⟨hfits, hθ⟩)
        rcases hprev with ⟨rfl, -⟩ | ⟨ha1, rfl⟩
        · exact absurd hlt (not_lt.mpr hpos.le)
        · have ha' : 1 ≤ a - 1 := by omega
          have hfits' : (c.times gbs (a - 1)).Nonempty := (hu _ ha').mpr (by omega)
          have hlast : c.throughput gbs (a - 1) (c.bestT gbs (a - 1)) ≤ acc.2 :=
            hacc.le gbs (a - 1) _ (Or.inr ⟨rfl, ha', by omega⟩)
              ((hasThroughput_iff hc hgbs ha').mpr ⟨hfits', rfl⟩)
          refine ⟨acc, rfl, hacc.mono (fun q hq => ?_) fun g n θ hmem hnot hhas => ?_⟩
          · rcases hq with hq | ⟨h1, h2, h3⟩
            · exact Or.inl hq
            · exact Or.inr ⟨h1, h2, by omega⟩
          · rcases hmem with hmem | ⟨heq, h1, h2⟩
            · exact absurd (Or.inl hmem) hnot
            · obtain rfl : g = gbs := heq
              have han : a ≤ n := by
                by_contra hn
                exact hnot (Or.inr ⟨rfl, h1, not_le.mp hn⟩)
              rcases (hasThroughput_iff hc hgbs h1).mp hhas with ⟨hn, rfl⟩
              have hdrop : c.throughput g n (c.bestT g n) ≤ c.throughput g a (c.bestT g a) :=
                (unimodalOn_throughput hc hgbs).le_of_lt (a := a - 1) ⟨ha', hfits'⟩ ⟨h1, hn⟩
                  (by omega) han (hθ ▸ hlt)
              exact hdrop.trans ((hθ ▸ hlt.le).trans hlast)
      · rw [if_neg hlt]
        have hnext : BestOn c (withPairs S gbs (a + 1))
            (best acc.1 acc.2 r.policy r.throughput) := by
          rw [hp, ← insert_withPairs ha]
          have hbest := hacc.best hc (hubs ▸ hgbs) (hnub ▸ ha) hach
          rwa [hubs, hnub] at hbest
        exact ih (Nat.le_succ_of_le ha) (by omega) (Or.inr ⟨by omega, hθ⟩) hnext

end Scan

section Grid

open CostModelConfig

variable {solver : LpSolver} {c : CostModelConfig}

theorem lt_gridAt (k : ℕ) : k < gridAt k := by
  induction k with
  | zero => exact Nat.one_pos
  | succ k ih =>
      simp only [gridAt, nextGbs]
      split_ifs <;> omega

theorem gridAt_strictMono : StrictMono gridAt := by
  refine strictMono_nat_of_lt_succ fun k => ?_
  simp only [gridAt, nextGbs]
  split_ifs <;> omega

/-- The pairs of the first `k` rounds. -/
def gridTo (k : ℕ) : Set (ℕ × ℕ) := {q | (∃ j < k, q.1 = gridAt j) ∧ 1 ≤ q.2}

/-- **A round looks at all pairs of its `gbs`, or there is none with room from there on.** -/
theorem searchRound_spec (hc : c.Valid) (hsolver : SolvesDecode solver c) {args : SearchArgs}
    (hstage : args.stage = .decode) (hnum : args.numGb = none) {fuel k : ℕ}
    (hfuel : 2 * sizeBound c + 1 < fuel) {acc : Option Policy × ℚ} (hacc : BestOn c (gridTo k) acc) :
    ∃ acc' left, searchRound solver c args fuel (gridAt k) acc = some (acc', left) ∧
      (left = false → BestOn c (gridTo (k + 1)) acc') ∧
      (left = true → BestOn c grid acc') ∧
      (sizeBound c ≤ gridAt k → left = true) := by
  have hgbs : 0 < gridAt k := (Nat.zero_le k).trans_lt (lt_gridAt k)
  rcases getNbUb_spec hc hsolver hgbs hfuel with ⟨u, hu, hiff⟩
  simp only [searchRound, hnum, hu, Option.bind_some]
  by_cases hzero : u = 0
  · rw [if_pos hzero]
    refine ⟨acc, true, rfl, (fun h => nomatch h), fun _ => hacc.mono ?_ ?_, fun _ => rfl⟩
    · intro q ⟨⟨j, _, hj⟩, hq⟩
      exact ⟨⟨j, hj⟩, hq⟩
    · intro g n θ ⟨⟨j, hj⟩, hn⟩ hnot hθ
      have hkj : k ≤ j := by
        by_contra hlt
        exact hnot ⟨⟨j, not_le.mp hlt, hj⟩, hn⟩
      -- Not even one micro-batch of the size of this round has room.
      have hle : gridAt k ≤ g := by
        rw [show g = gridAt j from hj]
        exact gridAt_strictMono.monotone hkj
      rcases ((hasThroughput_iff hc (hgbs.trans_le hle) hn).mp hθ).1 with ⟨T, wg, hT⟩
      have hone := (hiff 1 le_rfl).mp ⟨T, wg, hT.mono hc hle hn⟩
      omega
  · rw [if_neg hzero, hstage]
    have hstart : BestOn c (withPairs (gridTo k) (gridAt k) 1) acc := by
      have hsame : withPairs (gridTo k) (gridAt k) 1 = gridTo k := by
        refine Set.union_eq_self_of_subset_right fun q hq => ?_
        have h1 := hq.2.1
        have h2 := hq.2.2
        omega
      rwa [hsame]
    rcases scanNb_spec hc hsolver hgbs hiff le_rfl (Nat.add_comm 1 u)
      (Or.inl ⟨rfl, rfl⟩) hstart with ⟨acc', hscan, hacc'⟩
    refine ⟨acc', false, by rw [hscan, Option.map_some], fun _ => hacc'.mono ?_ ?_,
      (fun h => nomatch h), fun hbound => ?_⟩
    · intro q hq
      rcases hq with ⟨⟨j, hj, hq1⟩, hq2⟩ | ⟨hq1, hq2, -⟩
      · exact ⟨⟨j, hj.trans (Nat.lt_succ_self k), hq1⟩, hq2⟩
      · exact ⟨⟨k, Nat.lt_succ_self k, hq1⟩, hq2⟩
    · intro g n θ ⟨⟨j, hj, hg⟩, hn⟩ hnot hθ
      have hjk : j = k := by
        by_contra hne
        exact hnot (Or.inl ⟨⟨j, by omega, hg⟩, hn⟩)
      obtain rfl : g = gridAt k := hjk ▸ hg
      have hfits := ((hasThroughput_iff hc hgbs hn).mp hθ).1
      exact absurd (Or.inr ⟨rfl, hn, Nat.lt_succ_of_le ((hiff n hn).mp hfits)⟩) hnot
    · have hfits := (hiff 1 le_rfl).mpr (by omega)
      have hlt := lt_sizeBound hc hfits
      omega

/-- The loop over `gbs` ends with the best of the grid. -/
theorem searchFrom_spec (hc : c.Valid) (hsolver : SolvesDecode solver c) {args : SearchArgs}
    (hstage : args.stage = .decode) (hgbs : args.gbs = none) (hnum : args.numGb = none)
    {fuel rounds k : ℕ} (hfuel : 2 * sizeBound c + 1 < fuel) (hrounds : sizeBound c < k + rounds)
    (hk : k ≤ sizeBound c) {acc : Option Policy × ℚ} (hacc : BestOn c (gridTo k) acc) :
    ∃ acc', searchFrom solver c args fuel rounds (gridAt k) acc = some acc' ∧ BestOn c grid acc' := by
  induction rounds generalizing k acc with
  | zero => omega
  | succ rounds ih =>
      rcases searchRound_spec hc hsolver hstage hnum hfuel hacc with
        ⟨acc', left, hround, hgo, hstop, hbound⟩
      simp only [searchFrom, hgbs, Option.getD_none, hround, Option.bind_some, Option.isSome_none,
        Bool.or_false]
      cases left with
      | true => exact ⟨acc', rfl, hstop rfl⟩
      | false =>
          have hlt : k < sizeBound c := by
            by_contra hge
            have hgrid := lt_gridAt k
            exact absurd (hbound (by omega)) Bool.false_ne_true
          have hrest := ih (k := k + 1) (by omega) hlt (hgo rfl)
          rw [gridAt] at hrest
          simpa using hrest

/-- What was kept of the whole grid is the maximum. -/
theorem BestOn.isMaximum (hc : c.Valid) {acc : Option Policy × ℚ} (h : BestOn c grid acc) :
    c.IsMaximum acc := by
  rcases acc with ⟨policy, θ⟩
  cases policy with
  | some p => exact ⟨(h.of_some p rfl).1, (h.of_some p rfl).2, h.le⟩
  | none =>
      have hzero : θ = 0 := h.of_none rfl
      refine ⟨hzero, fun gbs nb hmem v hv => ?_⟩
      rcases hmem with ⟨⟨j, hj⟩, hnb⟩
      have hgbs : 0 < gbs := by
        have hpos := lt_gridAt j
        rw [show gbs = gridAt j from hj]
        omega
      have hfits : (c.times gbs nb).Nonempty := (feasible_iff hgbs hc).mp ⟨v, hv⟩
      have hhas := (hasThroughput_iff hc hgbs hnb).mpr ⟨hfits, rfl⟩
      have hle := h.le gbs nb _ ⟨⟨j, hj⟩, hnb⟩ hhas
      have hpos := hhas.pos hc hgbs hnb
      exact absurd hle (not_le.mpr (hzero ▸ hpos))

/-- **The search ends, and what it returns is the best of all pairs of the grid.** -/
theorem solveConfig_isMaximum (hc : c.Valid) (hsolver : SolvesDecode solver c) (args : SearchArgs)
    (hstage : args.stage = .decode) (hgbs : args.gbs = none) (hnum : args.numGb = none) :
    ∃ N, ∀ fuel ≥ N, ∃ result, solveConfig solver c args fuel = some result ∧
      c.IsMaximum result := by
  refine ⟨2 * sizeBound c + 2, fun fuel hfuel => ?_⟩
  have hempty : BestOn c (gridTo 0) (none, 0) := by
    have hsame : gridTo 0 = ∅ := by
      refine Set.eq_empty_of_forall_notMem fun q ⟨⟨j, hj, _⟩, _⟩ => ?_
      omega
    rw [hsame]
    exact BestOn.empty c
  rcases searchFrom_spec hc hsolver hstage hgbs hnum
    (show 2 * sizeBound c + 1 < fuel by omega) (show sizeBound c < 0 + fuel by omega)
    (Nat.zero_le _) hempty with ⟨acc, hacc, hbest⟩
  have hmax := hbest.isMaximum hc
  simp only [solveConfig, gridAt] at hacc ⊢
  rw [hacc, Option.bind_some]
  rcases acc with ⟨policy, θ⟩
  cases policy with
  | none => exact ⟨_, rfl, hmax⟩
  | some p =>
      -- The last call is for a pair with a solution.
      rcases (hbest.of_some p rfl) with ⟨⟨⟨j, hj⟩, hnub⟩, hach⟩
      have hubs : 0 < p.ubs := by
        have hpos := lt_gridAt j
        rw [show p.ubs = gridAt j from hj]
        omega
      rcases hach with ⟨v, hv, -, -⟩
      have hfits := (feasible_iff hubs hc).mp ⟨v, hv.feasible⟩
      rcases solveLp_of_fits hc hubs hnub (hsolver _ _ hubs hnub) hfits with ⟨r, _, hr, -⟩
      exact ⟨(some p, θ), by simp only [hstage, hr, Option.map_some], hmax⟩

/-- On the configuration of the defaults, with a solver that is exact. -/
theorem solveConfig_isMaximum_default : ∃ N, ∀ fuel ≥ N, ∃ result,
    solveConfig exactSolver {} ⟨.decode, none, none, 512, 32⟩ fuel = some result ∧
      ({} : CostModelConfig).IsMaximum result :=
  solveConfig_isMaximum CostModelConfig.valid_default
    (fun _ _ hgbs hnb => exactSolver_ok CostModelConfig.valid_default hgbs hnb) _ rfl rfl rfl

end Grid

end HarvestMoE
