import Mathlib.Algebra.Order.Field.Rat
import Mathlib.Tactic.NormNum
import HarvestMoE.Schedule

/-!
# The cost model of the optimizer

`solve_lp` writes the time of one layer and the memory it takes as a linear program: how
much of the experts' weights stays on the GPU is its one degree of freedom. Numbers are
rationals. What the solver answers for a program is a parameter.

## Main definitions

* `CostModelConfig`, `CostModelConfig.init` — sizes, memories and speeds.
* `LpVars`, `StorageLp`, `StorageLp.Feasible` — the program.
* `SolverOk` — what is asked of the solver.
* `solveLp` — policy and throughput.
-/

namespace HarvestMoE

/-- `ModelConfig`, as far as the cost model reads it. -/
structure CostModelShape where
  numHiddenLayers : ℕ
  hiddenSize : ℕ
  intermediateSize : ℕ
  numAttentionHeads : ℕ
  numKeyValueHeads : ℕ
  numLocalExperts : ℕ
  topk : ℕ

/-- `GB` -/
def gigabyte : ℚ := 2 ^ 30

/-- `T` -/
def tera : ℚ := 10 ^ 12

structure HardwareConfig where
  gmem : ℚ := 24 * gigabyte
  cmem : ℚ := 192 * gigabyte
  ctogBdw : ℚ := 16 * gigabyte
  gBdw : ℚ := 300 * gigabyte
  cBdw : ℚ := 100 * gigabyte
  gpuFlops : ℚ := 104 * tera
  cpuFlops : ℚ := 13 * tera
  tpSize : ℕ := 1

structure CostModelConfig where
  s : ℕ := 512
  n : ℕ := 32
  l : ℕ := 32
  h1 : ℕ := 4096
  h2 : ℕ := 4096 * 4
  nh : ℕ := 32
  nkvh : ℕ := 8
  nExperts : ℕ := 8
  topk : ℕ := 2
  gmem : ℚ := 24 * gigabyte
  cmem : ℚ := 192 * gigabyte
  ctogBdw : ℚ := 16 * gigabyte
  gBdw : ℚ := 300 * gigabyte
  cBdw : ℚ := 100 * gigabyte
  gpuFlops : ℚ := 104 * tera
  cpuFlops : ℚ := 13 * tera
  tpSize : ℕ := 1

def CostModelConfig.init (modelConfig : CostModelShape) (hardwareConfig : HardwareConfig)
    (promptLen genLen : ℕ) : CostModelConfig where
  s := promptLen
  n := genLen
  l := modelConfig.numHiddenLayers
  h1 := modelConfig.hiddenSize
  h2 := modelConfig.intermediateSize
  nh := modelConfig.numAttentionHeads
  nkvh := modelConfig.numKeyValueHeads
  nExperts := modelConfig.numLocalExperts
  topk := modelConfig.topk
  gmem := hardwareConfig.gmem * hardwareConfig.tpSize
  cmem := hardwareConfig.cmem
  ctogBdw := hardwareConfig.ctogBdw
  gBdw := hardwareConfig.gBdw * hardwareConfig.tpSize
  cBdw := hardwareConfig.cBdw
  gpuFlops := hardwareConfig.gpuFlops * hardwareConfig.tpSize
  cpuFlops := hardwareConfig.cpuFlops
  tpSize := hardwareConfig.tpSize

inductive Dtype
  | f32
  | f16
  | int8
  | int4

def dtypeSize : Dtype → ℚ
  | .f32 => 4
  | .f16 => 2
  | .int8 => 1
  | .int4 => 1 / 2

def attentionFlops (batchSize queryLength kvSequenceLength numQHead : ℕ) (headDim : ℚ) : ℚ :=
  let dotProductFlops := batchSize * queryLength * kvSequenceLength * numQHead * headDim * 2
  let softmaxSumFlops := batchSize * queryLength * kvSequenceLength * numQHead * 2
  dotProductFlops + softmaxSumFlops

def attentionBytes (batchSize queryLength kvSequenceLength numQHead numKvHead : ℕ) (headDim : ℚ)
    (dtype : Dtype) : ℚ :=
  let typeSize := dtypeSize dtype
  let queryMemory := batchSize * queryLength * numQHead * headDim * typeSize
  let keyMemory := batchSize * kvSequenceLength * numKvHead * headDim * typeSize
  let valueMemory := batchSize * kvSequenceLength * numKvHead * headDim * typeSize
  let outputMemory := batchSize * queryLength * numQHead * headDim * typeSize
  queryMemory + keyMemory + valueMemory + outputMemory

def mlpFlops (hiddenSize1 hiddenSize2 batchSize topk : ℕ) : ℚ :=
  2 * batchSize * hiddenSize1 * hiddenSize2 * 3 * topk

def mlpBytes (hiddenSize1 hiddenSize2 batchSize nExperts : ℕ) : ℚ :=
  let inputBytes : ℚ := 2 * batchSize * hiddenSize1
  let outputBytes : ℚ := 2 * batchSize * hiddenSize2
  let weightBytes : ℚ := 2 * hiddenSize1 * hiddenSize2 * 3 * nExperts
  inputBytes + outputBytes + weightBytes

/-- The variables of the program. -/
structure LpVars where
  T : ℚ
  ctog : ℚ
  cpuComp : ℚ
  cpuComm : ℚ
  gpuCompAttn : ℚ
  gpuCommAttn : ℚ
  gpuTAttn : ℚ
  gpuCompMlp : ℚ
  gpuCommMlp : ℚ
  gpuTMlp : ℚ
  gpuT : ℚ
  cpuT : ℚ
  wg : ℚ
  wc : ℚ
  cg : ℚ
  cc : ℚ
  gpuHome : ℚ
  gpuHomeP : ℚ
  gpuHomeD : ℚ
  gpuW : ℚ
  inter : ℚ
  cpuHome : ℚ
  cpuW : ℚ

/-- Every variable is made with `lowBound=0`. -/
def LpVars.values (v : LpVars) : List ℚ :=
  [v.T, v.ctog, v.cpuComp, v.cpuComm, v.gpuCompAttn, v.gpuCommAttn, v.gpuTAttn, v.gpuCompMlp,
    v.gpuCommMlp, v.gpuTMlp, v.gpuT, v.cpuT, v.wg, v.wc, v.cg, v.cc, v.gpuHome, v.gpuHomeP,
    v.gpuHomeD, v.gpuW, v.inter, v.cpuHome, v.cpuW]

namespace CostModelConfig

variable (c : CostModelConfig)

def numKvGroup : ℕ := c.nh / c.nkvh

def hKv : ℕ := c.h1 / c.numKvGroup

/-- The weights other than the experts'. -/
def wOther : ℕ := (4 * c.h1 ^ 2 + 4 * c.h1 ^ 2 / c.numKvGroup) * c.l

/-- The experts' weights of a layer. -/
def wi : ℕ := 2 * 3 * c.h1 * c.h2 * c.nExperts

/-- `h1 / nh` -/
def headDim : ℚ := c.h1 / c.nh

end CostModelConfig

/-- Whether attention runs on the GPU in the decode stage. -/
def gattn : ℚ := 0

/-- The program that `solve_lp` builds for its arguments. -/
structure StorageLp where
  config : CostModelConfig
  bls : ℕ
  gbs : ℕ
  stage : Stage

namespace StorageLp

/-- The constraints, in the order in which they are added. -/
structure Feasible (lp : StorageLp) (v : LpVars) : Prop where
  lowBound : ∀ x ∈ v.values, 0 ≤ x
  w_eq : v.wg + v.wc = 1
  -- The branch of `gattn == 0`.
  cg_eq : v.cg = 0
  cc_eq : v.cc = 1
  ctog_le : v.ctog ≤ v.T
  cpuT_le : v.cpuT ≤ v.T
  gpuT_le : v.gpuT ≤ v.T
  ctog_eq : v.ctog =
    match lp.stage with
    | .decode => 1 / lp.config.ctogBdw * (lp.config.wi * v.wc +
        4 * (lp.config.s + lp.config.n / 2) * lp.config.hKv * lp.bls * v.cc * gattn)
    | .prefill => 1 / lp.config.ctogBdw * (lp.config.wi * v.wc +
        2 * lp.bls * lp.config.s * lp.config.h1)
  gpuT_eq : v.gpuT = v.gpuTAttn + v.gpuTMlp
  gpuCompMlp_le : v.gpuCompMlp ≤ v.gpuTMlp
  gpuCommMlp_le : v.gpuCommMlp ≤ v.gpuTMlp
  gpuCompMlp_eq : v.gpuCompMlp =
    match lp.stage with
    | .decode => 1 / lp.config.gpuFlops *
        mlpFlops lp.config.h1 lp.config.h2 lp.gbs lp.config.topk * (lp.bls / lp.gbs : ℕ)
    | .prefill => 1 / lp.config.gpuFlops *
        mlpFlops lp.config.h1 lp.config.h2 (lp.gbs * lp.config.s) lp.config.topk *
          (lp.bls / lp.gbs : ℕ)
  gpuCommMlp_eq : v.gpuCommMlp =
    match lp.stage with
    | .decode => 1 / lp.config.gBdw *
        mlpBytes lp.config.h1 lp.config.h2 lp.gbs lp.config.nExperts * (lp.bls / lp.gbs : ℕ)
    | .prefill => 1 / lp.config.gBdw *
        mlpBytes lp.config.h1 lp.config.h2 (lp.gbs * lp.config.s) lp.config.nExperts *
          (lp.bls / lp.gbs : ℕ)
  gpuCompAttn_le : v.gpuCompAttn ≤ v.gpuTAttn
  gpuCommAttn_le : v.gpuCommAttn ≤ v.gpuTAttn
  gpuCompAttn_eq : v.gpuCompAttn =
    match lp.stage with
    | .decode => 1 / lp.config.gpuFlops *
        attentionFlops lp.gbs 1 (lp.config.s + lp.config.n) lp.config.nh lp.config.headDim *
          (lp.bls / lp.gbs : ℕ) * gattn
    | .prefill => 1 / lp.config.gpuFlops *
        attentionFlops lp.gbs lp.config.s lp.config.s lp.config.nh lp.config.headDim *
          (lp.bls / lp.gbs : ℕ)
  gpuCommAttn_eq : v.gpuCommAttn =
    match lp.stage with
    | .decode => 1 / lp.config.gBdw *
        attentionBytes lp.gbs 1 (lp.config.s + lp.config.n) lp.config.nh lp.config.nkvh
          lp.config.headDim .f16 * (lp.bls / lp.gbs : ℕ) * gattn
    | .prefill => 1 / lp.config.gBdw *
        attentionBytes lp.gbs lp.config.s lp.config.s lp.config.nh lp.config.nkvh
          lp.config.headDim .f16 * (lp.bls / lp.gbs : ℕ)
  cpu : lp.stage = .decode →
    v.cpuComp ≤ v.cpuT ∧ v.cpuComm ≤ v.cpuT ∧
    v.cpuComp = 1 / lp.config.cpuFlops *
        attentionFlops lp.gbs 1 (lp.config.s + lp.config.n) lp.config.nh lp.config.headDim *
          (lp.bls / lp.gbs : ℕ) * (1 - gattn) ∧
    v.cpuComm = 1 / lp.config.cBdw *
        attentionBytes lp.gbs 1 (lp.config.s + lp.config.n) lp.config.nh lp.config.nkvh
          lp.config.headDim .f16 * (lp.bls / lp.gbs : ℕ) * (1 - gattn)
  gpuHomeP_le : v.gpuHomeP ≤ v.gpuHome
  gpuHomeD_le : v.gpuHomeD ≤ v.gpuHome
  gpuHomeD_eq : v.gpuHomeD = lp.config.wOther + lp.config.wi * lp.config.l * v.wg +
    2 * 2 * lp.config.h1 * lp.bls * lp.config.tpSize +
    4 * (lp.config.s + lp.config.n) * lp.config.hKv * lp.bls * lp.config.l * (v.cg + v.cc * gattn)
  gpuHomeP_eq : v.gpuHomeP = lp.config.wOther + lp.config.wi * lp.config.l * v.wg +
    4 * lp.config.s * lp.config.hKv * lp.bls * v.cg +
    lp.config.tpSize * (2 * lp.config.h1 * lp.gbs * 2 * lp.config.s +
      lp.config.h1 * lp.bls * 2 * lp.config.s) +
    4 * lp.config.s * lp.config.hKv * lp.gbs * 2 * v.cc
  inter_eq : v.inter = 2 * (lp.gbs * lp.config.topk * lp.config.h1 * lp.config.tpSize * lp.config.s +
    lp.gbs * lp.config.topk * 3 * lp.config.h2 * lp.config.s) * 1.2
  gpuW_eq : v.gpuW = 2 * lp.config.wi * (1 - v.wg) + v.inter
  gmem_le : v.gpuHome + v.gpuW ≤ lp.config.gmem * 0.86
  cpuHome_eq : v.cpuHome = lp.config.wi * lp.config.l * v.wc +
    4 * (lp.config.s + lp.config.n) * lp.config.hKv * lp.bls * lp.config.l * v.cc +
    2 * lp.config.h1 * lp.bls * lp.config.s * lp.config.tpSize
  cpuW_eq : v.cpuW = lp.config.wi * (1 - v.wg) * 2
  cmem_le : v.cpuHome + v.cpuW ≤ lp.config.cmem * 0.8

/-- What is minimized. -/
def objective (lp : StorageLp) (v : LpVars) : ℚ := v.T * (1 / lp.bls)

structure Optimal (lp : StorageLp) (v : LpVars) : Prop where
  feasible : lp.Feasible v
  le : ∀ w, lp.Feasible w → lp.objective v ≤ lp.objective w

end StorageLp

/-- What the solver returns for a program: its status, and the values of the variables. -/
abbrev LpSolver := StorageLp → ℤ × LpVars

/-- Status 1 with an optimal solution, or status -1 and there is no solution. -/
def SolverOk (solver : LpSolver) (lp : StorageLp) : Prop :=
  (solver lp).1 = 1 ∧ lp.Optimal (solver lp).2 ∨ (solver lp).1 = -1 ∧ ∀ v, ¬ lp.Feasible v

/-- `Policy` -/
structure Policy where
  ubs : ℕ
  nUb : ℕ
  wg : ℚ
  wc : ℚ
  cg : ℚ
  cc : ℚ
  eg : ℕ

/-- What `solve_lp` returns. -/
structure LpResult where
  status : ℤ
  policy : Option Policy
  throughput : ℚ
  tTot : ℚ
  gpuPeak : Option ℚ
  cpuPeak : Option ℚ

/-- The time of the whole model and the throughput; none for a division by zero. -/
def throughputOf (config : CostModelConfig) (bls : ℕ) (stage : Stage) (t : ℚ) : Option (ℚ × ℚ) :=
  match stage with
  | .decode =>
      let tTot := t * (config.n - 1) * config.l
      if tTot = 0 then none else some (bls * config.n / tTot, tTot)
  | .prefill =>
      let tTot := t * config.l
      if tTot = 0 then none else some (bls / tTot, tTot)

/-- `solve_lp`; none where it raises. -/
def solveLp (solver : LpSolver) (config : CostModelConfig) (bls gbs : ℕ) (stage : Stage) :
    Option LpResult :=
  if ¬ (bls > 0 ∧ gbs > 0) then none
  else if ¬ (bls ≥ gbs ∧ bls % gbs = 0) then none
  else
    let (status, v) := solver ⟨config, bls, gbs, stage⟩
    if status = -1 then some ⟨status, none, 0, -1, none, none⟩
    else (throughputOf config bls stage v.T).map fun (throughput, tTot) =>
      { status := status
        policy := some ⟨gbs, bls / gbs, v.wg, v.wc, v.cg, v.cc, config.nExperts⟩
        throughput := throughput
        tTot := tTot
        gpuPeak := some (v.gpuHome + v.gpuW)
        cpuPeak := some (v.cpuHome + v.cpuW) }

/-- Sizes, memories and speeds are positive, and there is something to generate. -/
structure CostModelConfig.Valid (c : CostModelConfig) : Prop where
  s_pos : 0 < c.s
  two_le_n : 2 ≤ c.n
  l_pos : 0 < c.l
  h1_pos : 0 < c.h1
  h2_pos : 0 < c.h2
  nkvh_pos : 0 < c.nkvh
  nkvh_le : c.nkvh ≤ c.nh
  nExperts_pos : 0 < c.nExperts
  topk_pos : 0 < c.topk
  gmem_pos : 0 < c.gmem
  cmem_pos : 0 < c.cmem
  ctogBdw_pos : 0 < c.ctogBdw
  gBdw_pos : 0 < c.gBdw
  cBdw_pos : 0 < c.cBdw
  gpuFlops_pos : 0 < c.gpuFlops
  cpuFlops_pos : 0 < c.cpuFlops
  tpSize_pos : 0 < c.tpSize

/-- The defaults are valid. -/
theorem CostModelConfig.valid_default : ({} : CostModelConfig).Valid := by
  constructor <;> norm_num [gigabyte, tera]

end HarvestMoE
