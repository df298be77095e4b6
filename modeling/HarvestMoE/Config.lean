import Mathlib.Data.Rat.Floor
import Mathlib.Tactic.Linarith

/-!
# Engine configuration

The sizes `ExecutionContext.build_context` and `ExecutionEngine.init_gpu_experts`
derive from the model configuration and the policy of the roofline search. The
policy's `eg` is always the number of experts, so the CPU side has one page; the
proofs the rest of the development needs are fields, so a configuration the engine
would reject cannot be written down.

## Main definitions

* `EngineConfig` — an admitted configuration.
* `EngineConfig.numExpertsGpu` — `int(num_local_experts * wg)`.
* `EngineConfig.expertsPoolSize` — the rows of the expert cache.
-/

namespace HarvestMoE

/-- A configuration the engine starts with. -/
structure EngineConfig where
  numHiddenLayers : ℕ
  numLocalExperts : ℕ
  hiddenSize : ℕ
  /-- Requests per micro-batch, and micro-batches, of the policy. -/
  ubs : ℕ
  nUb : ℕ
  /-- Experts computed at once, and the fraction of experts kept on the GPU. -/
  eg : ℕ
  wg : ℚ
  avgPromptTokens : ℕ
  genLen : ℕ
  layers_pos : 0 < numHiddenLayers
  layers_even : numHiddenLayers % 2 = 0
  experts_pos : 0 < numLocalExperts
  eg_eq : eg = numLocalExperts
  wg_nonneg : 0 ≤ wg
  wg_le_one : wg ≤ 1
  ubs_pos : 0 < ubs
  nUb_pos : 0 < nUb
  genLen_pos : 0 < genLen

/-- Pages of the GPU cache. -/
def weightsPrefetchNumPagesGpu : ℕ := 2

namespace EngineConfig

variable (cfg : EngineConfig)

/-- Experts of a layer that stay on the GPU. -/
def numExpertsGpu : ℕ := ⌊(cfg.numLocalExperts : ℚ) * cfg.wg⌋.toNat

/-- Experts of a layer that travel through a page. -/
def pageSize : ℕ := cfg.eg - cfg.numExpertsGpu

/-- Rows of the expert cache: the persistent experts of every layer, then two pages. -/
def expertsPoolSize : ℕ := cfg.numHiddenLayers * cfg.numExpertsGpu + 2 * cfg.pageSize

/-- Rows of width `intermediate_size` that one expert takes. -/
def expertRows : ℕ := 3 * cfg.hiddenSize

/-- Pages of a layer on the CPU side. -/
def weightsPrefetchNumPagesCpu : ℕ := cfg.numLocalExperts / cfg.eg

/-- `gpu_token_buffer_size` and `cpu_token_pool_size`. -/
def gpuTokenBufferSize : ℕ := 2 * (cfg.ubs * (cfg.avgPromptTokens + cfg.genLen))

def cpuTokenPoolSize : ℕ := cfg.nUb * cfg.ubs * (cfg.avgPromptTokens + cfg.genLen)

/-- Decode steps of a batch of `numMb` micro-batches. -/
def numDecodeSteps (numMb : ℕ) : ℕ := if numMb > 1 then cfg.genLen - 1 else 1

theorem numExpertsGpu_le : cfg.numExpertsGpu ≤ cfg.numLocalExperts := by
  have hle : (cfg.numLocalExperts : ℚ) * cfg.wg ≤ cfg.numLocalExperts := by
    have hE : (0 : ℚ) ≤ cfg.numLocalExperts := Nat.cast_nonneg _
    nlinarith [cfg.wg_le_one, cfg.wg_nonneg]
  have hfloor : ⌊(cfg.numLocalExperts : ℚ) * cfg.wg⌋ ≤ (cfg.numLocalExperts : ℤ) := by
    simpa using Int.floor_le_floor hle
  simp only [numExpertsGpu]
  omega

theorem numExpertsGpu_add_pageSize :
    cfg.numExpertsGpu + cfg.pageSize = cfg.numLocalExperts := by
  have := cfg.numExpertsGpu_le
  simp only [pageSize, cfg.eg_eq]
  omega

@[simp] theorem weightsPrefetchNumPagesCpu_eq : cfg.weightsPrefetchNumPagesCpu = 1 := by
  rw [weightsPrefetchNumPagesCpu, cfg.eg_eq, Nat.div_self cfg.experts_pos]

theorem two_le_layers : 2 ≤ cfg.numHiddenLayers := by
  have := cfg.layers_pos
  have := cfg.layers_even
  omega

/-- The smallest configuration with a persistent and a paged expert: two layers, two
experts of one row each per matrix, two micro-batches of two requests. -/
def small (genLen : ℕ) (h : 0 < genLen) : EngineConfig where
  numHiddenLayers := 2
  numLocalExperts := 2
  hiddenSize := 1
  ubs := 2
  nUb := 3
  eg := 2
  wg := 1 / 2
  avgPromptTokens := 2
  genLen := genLen
  layers_pos := by decide
  layers_even := by decide
  experts_pos := by decide
  eg_eq := rfl
  wg_nonneg := by norm_num
  wg_le_one := by norm_num
  ubs_pos := by decide
  nUb_pos := by decide
  genLen_pos := h

@[simp] theorem small_numExpertsGpu {genLen : ℕ} (h : 0 < genLen) :
    (small genLen h).numExpertsGpu = 1 := by
  norm_num [small, numExpertsGpu]

/-- Two layers of two experts of two rows each per matrix, all of them persistent. -/
def persistent : EngineConfig where
  numHiddenLayers := 2
  numLocalExperts := 2
  hiddenSize := 2
  ubs := 1
  nUb := 1
  eg := 2
  wg := 1
  avgPromptTokens := 1
  genLen := 1
  layers_pos := by decide
  layers_even := by decide
  experts_pos := by decide
  eg_eq := rfl
  wg_nonneg := by norm_num
  wg_le_one := by norm_num
  ubs_pos := by decide
  nUb_pos := by decide
  genLen_pos := by decide

theorem persistent_numExpertsGpu : persistent.numExpertsGpu = 2 := by
  rw [numExpertsGpu, persistent, mul_one, Int.floor_natCast]
  rfl

end EngineConfig

end HarvestMoE
