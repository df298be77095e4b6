import HarvestMoE.NbUbSearch

/-!
# The lengths a server is started with

`ServerArgs` has a prompt length and a generation length, `exposed_init_model` replaces
those that are missing or 0, and `build_context` searches for a policy with them. The time
of the decode stage is that of `gen_len - 1` steps, and the throughput is a quotient by it:
for a generation length of 1, which is what `Runtime` passes unless it is told otherwise,
every call of `solve_lp` with a solution divides by zero (`launch_throughput_iff`).

## Main definitions

* `LaunchArgs`, `LaunchArgs.searchArgs` — the lengths, and what `solve` gets.
* `runtimeArgs` — the lengths that `Runtime` passes.
* `CostModelShape.Positive`, `HardwareConfig.Positive` — sizes and speeds are positive.
-/

namespace HarvestMoE

open Lib CostModelConfig

/-- `x or default` -/
def orDefault (x : Option ℕ) (default : ℕ) : ℕ :=
  match x with
  | none | some 0 => default
  | some n => n

/-- `ServerArgs`, as far as the search for a policy reads it. -/
structure LaunchArgs where
  avgPromptLen : Option ℕ := none
  genLen : Option ℕ := none

/-- What `exposed_init_model` and `build_context` make of the lengths. -/
def LaunchArgs.searchArgs (args : LaunchArgs) : SearchArgs where
  stage := .decode
  gbs := none
  numGb := none
  promptLen := orDefault args.avgPromptLen 77
  genLen := orDefault args.genLen 32

/-- The lengths that `Runtime.__init__` passes, by default 32 and 1. -/
def runtimeArgs (avgPromptLen genLen : Option ℕ) : LaunchArgs where
  avgPromptLen := some (avgPromptLen.getD 32)
  genLen := some (genLen.getD 1)

/-- The configuration of the first line of `solve`. -/
def launchConfig (modelConfig : CostModelShape) (hardwareConfig : HardwareConfig)
    (args : LaunchArgs) : CostModelConfig :=
  .init modelConfig hardwareConfig args.searchArgs.promptLen args.searchArgs.genLen

structure CostModelShape.Positive (m : CostModelShape) : Prop where
  numHiddenLayers : 0 < m.numHiddenLayers
  hiddenSize : 0 < m.hiddenSize
  intermediateSize : 0 < m.intermediateSize
  numKeyValueHeads : 0 < m.numKeyValueHeads
  numKeyValueHeads_le : m.numKeyValueHeads ≤ m.numAttentionHeads
  numLocalExperts : 0 < m.numLocalExperts
  topk : 0 < m.topk

structure HardwareConfig.Positive (h : HardwareConfig) : Prop where
  gmem : 0 < h.gmem
  cmem : 0 < h.cmem
  ctogBdw : 0 < h.ctogBdw
  gBdw : 0 < h.gBdw
  cBdw : 0 < h.cBdw
  gpuFlops : 0 < h.gpuFlops
  cpuFlops : 0 < h.cpuFlops
  tpSize : 0 < h.tpSize

section Lengths

theorem orDefault_pos {x : Option ℕ} {default : ℕ} (h : 0 < default) : 0 < orDefault x default := by
  match x with
  | none | some 0 => exact h
  | some (n + 1) => exact Nat.succ_pos n

/-- Only a length of 1 is 1. -/
theorem two_le_genLen {args : LaunchArgs} (h : args.genLen ≠ some 1) :
    2 ≤ args.searchArgs.genLen := by
  simp only [LaunchArgs.searchArgs]
  match hlen : args.genLen with
  | none | some 0 => decide
  | some 1 => exact absurd hlen h
  | some (n + 2) => exact Nat.le_add_left 2 n

theorem valid_launchConfig {m : CostModelShape} {h : HardwareConfig} (hm : m.Positive)
    (hh : h.Positive) {args : LaunchArgs} (hlen : args.genLen ≠ some 1) :
    (launchConfig m h args).Valid := by
  have htp : (0 : ℚ) < h.tpSize := Nat.cast_pos.mpr hh.tpSize
  constructor
  case s_pos => exact orDefault_pos (by decide)
  case two_le_n => exact two_le_genLen hlen
  case l_pos => exact hm.numHiddenLayers
  case h1_pos => exact hm.hiddenSize
  case h2_pos => exact hm.intermediateSize
  case nkvh_pos => exact hm.numKeyValueHeads
  case nkvh_le => exact hm.numKeyValueHeads_le
  case nExperts_pos => exact hm.numLocalExperts
  case topk_pos => exact hm.topk
  case gmem_pos => exact mul_pos hh.gmem htp
  case cmem_pos => exact hh.cmem
  case ctogBdw_pos => exact hh.ctogBdw
  case gBdw_pos => exact mul_pos hh.gBdw htp
  case cBdw_pos => exact hh.cBdw
  case gpuFlops_pos => exact mul_pos hh.gpuFlops htp
  case cpuFlops_pos => exact hh.cpuFlops
  case tpSize_pos => exact hh.tpSize

end Lengths

section Search

variable {solver : LpSolver} {c : CostModelConfig}

/-- The solver tells of every pair whether its program has a solution. -/
def TellsDecode (solver : LpSolver) (c : CostModelConfig) : Prop :=
  ∀ gbs nb, 0 < gbs → 0 < nb → SolverTells solver (c.decodeLp gbs nb)

/-- Where there is a solution, there is a throughput. -/
theorem solveLp_of_tells (hc : c.Valid) (hsolver : TellsDecode solver c) {gbs nb : ℕ}
    (hgbs : 0 < gbs) (hnb : 0 < nb) (hfits : (c.times gbs nb).Nonempty) :
    ∃ r p, solveLp solver c (gbs * nb) gbs .decode = some r ∧ r.policy = some p ∧ p.ubs = gbs ∧
      p.nUb = nb := by
  rcases hsolver gbs nb hgbs hnb with ⟨hstatus, hv⟩ | ⟨-, hnone⟩
  · have hsome := solveLp_status_one hc hgbs hnb hstatus hv
    have hne : ¬ (solver (c.decodeLp gbs nb)).1 = -1 := by
      rw [hstatus]
      decide
    rw [solveLp_eq hgbs hnb, if_neg hne] at hsome ⊢
    cases htt : throughputOf c (gbs * nb) .decode (solver (c.decodeLp gbs nb)).2.T with
    | none => simp [htt] at hsome
    | some tt => exact ⟨_, _, rfl, rfl, rfl, rfl⟩
  · rcases (feasible_iff hgbs hc).mpr hfits with ⟨v, hv⟩
    exact absurd hv (hnone v)

/-- With one step less than one token, the time is zero. -/
theorem solveLp_of_one (hn : c.n = 1) {gbs nb : ℕ} (hgbs : 0 < gbs) (hnb : 0 < nb)
    (htells : SolverTells solver (c.decodeLp gbs nb))
    (hfeasible : ∃ v, (c.decodeLp gbs nb).Feasible v) :
    solveLp solver c (gbs * nb) gbs .decode = none := by
  rcases htells with ⟨hstatus, -⟩ | ⟨-, hnone⟩
  · have hne : ¬ (solver (c.decodeLp gbs nb)).1 = -1 := by
      rw [hstatus]
      decide
    rw [solveLp_eq hgbs hnb, if_neg hne, throughputOf, if_pos (by simp [hn]), Option.map_none]
  · rcases hfeasible with ⟨v, hv⟩
    exact absurd hv (hnone v)

/-- The policy kept so far is that of a pair with a solution. -/
def KeptFits (c : CostModelConfig) (acc : Option Policy × ℚ) : Prop :=
  ∀ p, acc.1 = some p → 0 < p.ubs ∧ 0 < p.nUb ∧ (c.times p.ubs p.nUb).Nonempty

theorem KeptFits.best {acc : Option Policy × ℚ} (h : KeptFits c acc) {p : Policy} {θ : ℚ}
    (hubs : 0 < p.ubs) (hnub : 0 < p.nUb) (hp : (c.times p.ubs p.nUb).Nonempty) :
    KeptFits c (best acc.1 acc.2 (some p) θ) := by
  intro q hq
  by_cases hge : θ ≥ acc.2
  · rw [HarvestMoE.best, if_pos hge] at hq
    cases hq
    exact ⟨hubs, hnub, hp⟩
  · rw [HarvestMoE.best, if_neg hge] at hq
    exact h q hq

/-- The scan over numbers of micro-batches that fit goes through. -/
theorem scanNb_returns (hc : c.Valid) (hsolver : TellsDecode solver c) {gbs : ℕ} (hgbs : 0 < gbs)
    {nbs : List ℕ} (hnbs : ∀ nb ∈ nbs, 0 < nb ∧ (c.times gbs nb).Nonempty) (prev : ℚ)
    {acc : Option Policy × ℚ} (hacc : KeptFits c acc) :
    ∃ acc', scanNb solver c gbs .decode nbs prev acc = some acc' ∧ KeptFits c acc' := by
  induction nbs generalizing prev acc with
  | nil => exact ⟨acc, rfl, hacc⟩
  | cons nb nbs ih =>
      have hnb := hnbs nb List.mem_cons_self
      rcases solveLp_of_tells hc hsolver hgbs hnb.1 hnb.2 with ⟨r, p, hr, hp, hubs, hnub⟩
      rw [scanNb, hr, Option.bind_some]
      by_cases hlt : r.throughput < prev
      · rw [if_pos hlt]
        exact ⟨acc, rfl, hacc⟩
      · rw [if_neg hlt, hp]
        refine ih (fun nb' hnb' => hnbs nb' (List.mem_cons_of_mem nb hnb')) _ ?_
        exact hacc.best (hubs ▸ hgbs) (hnub ▸ hnb.1) (by rw [hubs, hnub]; exact hnb.2)

/-- A round goes through, and the rounds end where nothing fits. -/
theorem searchRound_returns (hc : c.Valid) (hsolver : TellsDecode solver c) {args : SearchArgs}
    (hstage : args.stage = .decode) (hnum : args.numGb = none) {fuel gbs : ℕ} (hgbs : 0 < gbs)
    (hfuel : 2 * sizeBound c + 1 < fuel) {acc : Option Policy × ℚ} (hacc : KeptFits c acc) :
    ∃ acc' left, searchRound solver c args fuel gbs acc = some (acc', left) ∧ KeptFits c acc' ∧
      (sizeBound c ≤ gbs → left = true) := by
  rcases getNbUb_of_status hc hgbs hfuel
    (fun nb hnb => status_of_tells hc hgbs hnb (hsolver gbs nb hgbs hnb)) with ⟨u, hu, hiff⟩
  simp only [searchRound, hnum, hu, Option.bind_some, hstage]
  by_cases hzero : u = 0
  · rw [if_pos hzero]
    exact ⟨acc, true, rfl, hacc, fun _ => rfl⟩
  · have hnbs : ∀ nb ∈ List.range' 1 u, 0 < nb ∧ (c.times gbs nb).Nonempty := by
      intro nb hnb
      have hmem := List.mem_range'_1.mp hnb
      exact ⟨hmem.1, (hiff nb hmem.1).mpr (by omega)⟩
    rcases scanNb_returns hc hsolver hgbs hnbs 0 hacc with ⟨acc', hscan, hacc'⟩
    rw [if_neg hzero, hscan, Option.map_some]
    refine ⟨acc', false, rfl, hacc', fun hbound => ?_⟩
    have hlt := lt_sizeBound hc ((hiff 1 le_rfl).mpr (by omega))
    omega

theorem searchFrom_returns (hc : c.Valid) (hsolver : TellsDecode solver c) {args : SearchArgs}
    (hstage : args.stage = .decode) (hgbs : args.gbs = none) (hnum : args.numGb = none)
    {fuel rounds gbs : ℕ} (hpos : 0 < gbs) (hfuel : 2 * sizeBound c + 1 < fuel)
    (hrounds : sizeBound c < gbs + rounds) {acc : Option Policy × ℚ} (hacc : KeptFits c acc)
    (hsome : 0 < rounds) :
    ∃ acc', searchFrom solver c args fuel rounds gbs acc = some acc' ∧ KeptFits c acc' := by
  induction rounds generalizing gbs acc with
  | zero => omega
  | succ rounds ih =>
      rcases searchRound_returns hc hsolver hstage hnum hpos hfuel hacc with
        ⟨acc', left, hround, hacc', hleft⟩
      simp only [searchFrom, hgbs, Option.getD_none, hround, Option.bind_some, Option.isSome_none,
        Bool.or_false]
      cases left with
      | true => exact ⟨acc', rfl, hacc'⟩
      | false =>
          have hlt : gbs < sizeBound c := by
            by_contra hge
            exact Bool.false_ne_true (hleft (not_lt.mp hge))
          have hnext : gbs < nextGbs gbs := by
            rw [nextGbs]
            split_ifs <;> omega
          exact ih (by omega) (by omega) hacc' (by omega)

/-- With a solver that tells, and a step to generate, the search returns. -/
theorem solveConfig_returns (hc : c.Valid) (hsolver : TellsDecode solver c) {args : SearchArgs}
    (hstage : args.stage = .decode) (hgbs : args.gbs = none) (hnum : args.numGb = none) {fuel : ℕ}
    (hfuel : 2 * sizeBound c + 1 < fuel) :
    ∃ result, solveConfig solver c args fuel = some result := by
  have hstart : KeptFits c (none, 0) := fun p hp => by cases hp
  rcases searchFrom_returns hc hsolver hstage hgbs hnum Nat.one_pos hfuel
    (show sizeBound c < 1 + fuel by omega) hstart (by omega) with ⟨⟨policy, θ⟩, hacc, hkept⟩
  rw [solveConfig, hacc, Option.bind_some]
  cases policy with
  | none => exact ⟨_, rfl⟩
  | some p =>
      rcases hkept p rfl with ⟨hubs, hnub, hfits⟩
      rcases solveLp_of_tells hc hsolver hubs hnub hfits with ⟨r, _, hr, -⟩
      exact ⟨(some p, θ), by simp only [hstage, hr, Option.map_some]⟩

/-- What the first call of the search does: it raises, or nothing fits. -/
theorem solveConfig_of_one (hn : c.n = 1) (hsolver : TellsDecode solver c) (args : SearchArgs)
    (hgbs : args.gbs = none) (hnum : args.numGb = none) {fuel : ℕ} (hfuel : 0 < fuel) :
    ((∃ v, (c.decodeLp 1 1).Feasible v) → solveConfig solver c args fuel = none) ∧
      ((∀ v, ¬ (c.decodeLp 1 1).Feasible v) →
        solveConfig solver c args fuel = some (none, 0)) := by
  have htells := hsolver 1 1 Nat.one_pos Nat.one_pos
  cases fuel with
  | zero => omega
  | succ fuel =>
      constructor
      · intro hfeasible
        have hnone := solveLp_of_one hn Nat.one_pos Nat.one_pos htells hfeasible
        rw [Nat.one_mul] at hnone
        simp [solveConfig, searchFrom, hgbs, searchRound, hnum, getNbUb, doubleWhile, hnone]
      · intro hno
        have hminus : (solver (c.decodeLp 1 1)).1 = -1 := by
          rcases htells with ⟨-, hv⟩ | ⟨hminus, -⟩
          · exact absurd hv (hno _)
          · exact hminus
        have hcall : solveLp solver c 1 1 .decode = some ⟨-1, none, 0, -1, none, none⟩ := by
          rw [← Nat.one_mul 1, solveLp_eq Nat.one_pos Nat.one_pos, if_pos hminus, hminus]
        simp [solveConfig, searchFrom, hgbs, searchRound, hnum, getNbUb, doubleWhile, bisect, hcall]

end Search

section Launch

variable {solver : LpSolver} {m : CostModelShape} {h : HardwareConfig}

/-- A call with a solution has a throughput, and the search for a policy returns, unless the
generation length is 1; then every such call divides by zero, and so does the search, if its
first call is one. -/
theorem launch_throughput_iff (solver : LpSolver) (m : CostModelShape) (h : HardwareConfig)
    (hm : m.Positive) (hh : h.Positive) (args : LaunchArgs)
    (hsolver : TellsDecode solver (launchConfig m h args)) :
    (∀ gbs nb, 0 < gbs → 0 < nb → (∃ v, ((launchConfig m h args).decodeLp gbs nb).Feasible v) →
      ((∃ r, solveLp solver (launchConfig m h args) (gbs * nb) gbs .decode = some r) ↔
        args.genLen ≠ some 1)) ∧
    ((∃ N, ∀ fuel ≥ N, ∃ result, solve solver m h args.searchArgs fuel = some result) ↔
      args.genLen ≠ some 1 ∨ ∀ v, ¬ ((launchConfig m h args).decodeLp 1 1).Feasible v) := by
  have hone : args.genLen = some 1 → (launchConfig m h args).n = 1 := fun hlen => by
    simp [launchConfig, CostModelConfig.init, LaunchArgs.searchArgs, hlen, orDefault]
  constructor
  · intro gbs nb hgbs hnb hfeasible
    constructor
    · intro hr hlen
      rcases hr with ⟨r, hr⟩
      rw [solveLp_of_one (hone hlen) hgbs hnb (hsolver gbs nb hgbs hnb) hfeasible] at hr
      cases hr
    · intro hlen
      have hc := valid_launchConfig hm hh hlen
      rcases solveLp_of_tells hc hsolver hgbs hnb ((feasible_iff hgbs hc).mp hfeasible) with
        ⟨r, _, hr, -⟩
      exact ⟨r, hr⟩
  · constructor
    · intro hreturns
      rcases hreturns with ⟨N, hN⟩
      by_cases hlen : args.genLen = some 1
      · refine Or.inr fun v hv => ?_
        rcases hN (N + 1) (Nat.le_succ N) with ⟨result, hresult⟩
        have hnone := (solveConfig_of_one (hone hlen) hsolver args.searchArgs rfl rfl
          (Nat.succ_pos N)).1 ⟨v, hv⟩
        rw [solve, ← launchConfig, hnone] at hresult
        cases hresult
      · exact Or.inl hlen
    · intro hcond
      by_cases hlen : args.genLen = some 1
      · refine ⟨1, fun fuel hfuel => ⟨(none, 0), ?_⟩⟩
        exact (solveConfig_of_one (hone hlen) hsolver args.searchArgs rfl rfl hfuel).2
          (hcond.resolve_left (not_not.mpr hlen))
      · have hc := valid_launchConfig hm hh hlen
        refine ⟨2 * sizeBound (launchConfig m h args) + 2, fun fuel hfuel => ?_⟩
        exact solveConfig_returns hc hsolver rfl rfl rfl hfuel

/-- The shape of the default configuration. -/
def defaultShape : CostModelShape := ⟨32, 4096, 4096 * 4, 32, 8, 8, 2⟩

theorem defaultShape_positive : defaultShape.Positive := by
  constructor <;> decide

theorem defaultHardware_positive : ({} : HardwareConfig).Positive := by
  constructor <;> norm_num [gigabyte, tera]

/-- A launch with the default lengths, and an exact solver. -/
theorem launch_throughput_default :
    ∃ N, ∀ fuel ≥ N, ∃ result,
      solve exactSolver defaultShape {} ({} : LaunchArgs).searchArgs fuel = some result := by
  have hc : (launchConfig defaultShape {} {}).Valid :=
    valid_launchConfig defaultShape_positive defaultHardware_positive (by decide)
  exact (launch_throughput_iff exactSolver defaultShape {} defaultShape_positive
    defaultHardware_positive {} fun _ _ hgbs hnb =>
      (exactSolver_ok hc hgbs hnb).imp (fun h => ⟨h.1, h.2.feasible⟩) id).2.mpr
    (Or.inl (by decide))

/-- One micro-batch of one request has a solution, for the lengths of `Runtime`. -/
theorem runtime_feasible :
    ((launchConfig defaultShape {} (runtimeArgs none none)).decodeLp 1 1).Feasible
      ((launchConfig defaultShape {} (runtimeArgs none none)).varsOf 1 1 0 100) := by
  have hconfig : launchConfig defaultShape {} (runtimeArgs none none) = { s := 32, n := 1 } := by
    simp [launchConfig, CostModelConfig.init, defaultShape, LaunchArgs.searchArgs, runtimeArgs,
      orDefault]
  rw [hconfig]
  constructor
  case lowBound =>
    simp only [LpVars.values, List.forall_mem_cons, List.not_mem_nil]
    norm_num [varsOf, gpuTime, cpuTime, attentionFlops, attentionBytes, mlpFlops, mlpBytes,
      gigabyte, tera, wOther, wi, hKv, numKvGroup, headDim, dtypeSize, decodeBytes, prefillBytes,
      interBytes, hostBytes]
  all_goals
    norm_num [varsOf, decodeLp, gpuTime, cpuTime, attentionFlops, attentionBytes, mlpFlops,
      mlpBytes, gigabyte, tera, wOther, wi, hKv, numKvGroup, headDim, dtypeSize, decodeBytes,
      prefillBytes, interBytes, hostBytes, gattn]

/-- The lengths of `Runtime`, for the default shape and hardware: the first call of the search
has a solution and no throughput. -/
theorem runtime_divides_by_zero :
    ¬ ∀ (solver : LpSolver) (m : CostModelShape) (h : HardwareConfig) (args : LaunchArgs),
      m.Positive → h.Positive → TellsDecode solver (launchConfig m h args) →
      ∀ gbs nb, 0 < gbs → 0 < nb → (∃ v, ((launchConfig m h args).decodeLp gbs nb).Feasible v) →
        ∃ r, solveLp solver (launchConfig m h args) (gbs * nb) gbs .decode = some r := by
  intro hall
  classical
  -- A solver that tells: it chooses a solution where there is one.
  let solver : LpSolver := fun lp =>
    if h : ∃ v, lp.Feasible v then (1, h.choose) else (-1, CostModelConfig.varsOf {} 1 1 0 0)
  have htells : ∀ lp, SolverTells solver lp := by
    intro lp
    by_cases hex : ∃ v, lp.Feasible v
    · have hlp : solver lp = (1, hex.choose) := dif_pos hex
      exact Or.inl ⟨by rw [hlp], by rw [hlp]; exact hex.choose_spec⟩
    · have hlp : (solver lp).1 = -1 := by simp only [solver, dif_neg hex]
      exact Or.inr ⟨hlp, fun v hv => hex ⟨v, hv⟩⟩
  rcases hall solver defaultShape {} (runtimeArgs none none) defaultShape_positive
    defaultHardware_positive (fun _ _ _ _ => htells _) 1 1 Nat.one_pos Nat.one_pos
    ⟨_, runtime_feasible⟩ with ⟨r, hr⟩
  rw [solveLp_of_one rfl Nat.one_pos Nat.one_pos (htells _) ⟨_, runtime_feasible⟩] at hr
  cases hr

end Launch

end HarvestMoE
