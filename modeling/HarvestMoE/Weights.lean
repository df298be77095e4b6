import HarvestMoE.Lib.Cuts
import HarvestMoE.Schedule
import Mathlib.Tactic.Ring

/-!
# Expert weights: the caches and the prefetch

The expert cache holds the persistent experts of every layer, followed by two
pages. A prefetch copies a page from the cold cache of the second device, whole
in prefill, and slot by slot through pinned memory in decode. Every tensor is seen
as rows of width `intermediate_size`, of which an expert takes
`3 * hidden_size`; calls take effect in host order, so a copy job runs when it is
submitted.

## Main definitions

* `WeightState` — the tensors, the page pointers and the copy futures.
* `prefetchExperts`, `prefetchExpertsToPinFunc` — the two copies.
* `weightStep` — the effect of a host call on the weights.
* `initExpertsMapping`, `initGpuExperts` — what `init_gpu_experts` builds.
* `prefetchExperts_prefill`, `prefetchExperts_decode`, `prefetchExpertsToPin_spec` —
  what each copy does to the memories.
-/

namespace HarvestMoE

open Lib

variable {α : Type*}

/-- The weights side of the engine. -/
structure WeightState (α : Type*) where
  expertsCache : ℕ → α
  expertsCacheCold : ℕ → α
  expertsPin : ℕ → α
  weightsPrefetchPageGpu : ℕ
  weightsPrefetchPageCpu : ℕ
  /-- The layer named by the last copy job of a slot. -/
  copyFutures : ℕ → Option ℕ

namespace EngineConfig

variable (cfg : EngineConfig) (numMb : ℕ)

/-- Rows of a page at decode granularity. -/
def fgPageSize : ℕ := cfg.pageSize * 3 * cfg.hiddenSize

/-- Rows of a decode slot, all but the last. -/
def decodeSlotSize : ℕ := cfg.fgPageSize / numMb

/-- First row of a page of the GPU cache. -/
def pageBase (page : ℕ) : ℕ :=
  (cfg.numHiddenLayers * cfg.numExpertsGpu + page * cfg.pageSize) * cfg.expertRows

/-- Rows of a given decode slot: the last one takes what is left of the page. -/
def slotRows (slotId : ℕ) : ℕ :=
  if slotId = numMb - 1 then cfg.fgPageSize - slotId * cfg.decodeSlotSize numMb
  else cfg.decodeSlotSize numMb

theorem fgPageSize_eq : cfg.fgPageSize = cfg.pageSize * cfg.expertRows := by
  simp [fgPageSize, expertRows, Nat.mul_assoc]

/-- The pages end with the cache. -/
theorem pageBase_two : cfg.pageBase 2 = cfg.expertsPoolSize * cfg.expertRows := rfl

theorem pageBase_add (page : ℕ) : cfg.pageBase (page + 1) = cfg.pageBase page + cfg.fgPageSize := by
  rw [fgPageSize_eq, pageBase, pageBase]
  ring

theorem pageBase_mono {p q : ℕ} (h : p ≤ q) : cfg.pageBase p ≤ cfg.pageBase q := by
  apply Nat.mul_le_mul_right
  have := Nat.mul_le_mul_right cfg.pageSize h
  omega

/-- A page of rows behind the first `num_experts_gpu` rows is inside the cache. -/
theorem gpuRows_add_fgPageSize_le (hu : 0 < cfg.expertRows) :
    cfg.numExpertsGpu + cfg.fgPageSize ≤ cfg.expertsPoolSize * cfg.expertRows := by
  have hG : cfg.numExpertsGpu ≤ cfg.numHiddenLayers * cfg.numExpertsGpu * cfg.expertRows :=
    calc cfg.numExpertsGpu
        ≤ cfg.numHiddenLayers * cfg.numExpertsGpu := Nat.le_mul_of_pos_left _ cfg.layers_pos
      _ ≤ _ := Nat.le_mul_of_pos_right _ hu
  have hpool : cfg.expertsPoolSize * cfg.expertRows =
      cfg.numHiddenLayers * cfg.numExpertsGpu * cfg.expertRows + 2 * cfg.fgPageSize := by
    rw [cfg.fgPageSize_eq, expertsPoolSize]
    ring
  omega

variable {numMb}

theorem slotStart_le {slotId : ℕ} (h : slotId < numMb) :
    (slotId + 1) * cfg.decodeSlotSize numMb ≤ cfg.fgPageSize := mul_div_le_total h

/-- A slot starts where the previous one ends; the last one ends with the page. -/
theorem slotEnd_eq {slotId : ℕ} (h : slotId < numMb) :
    slotId * cfg.decodeSlotSize numMb + cfg.slotRows numMb slotId =
      if slotId = numMb - 1 then cfg.fgPageSize else (slotId + 1) * cfg.decodeSlotSize numMb := by
  have hle := cfg.slotStart_le h
  rw [Nat.add_mul, Nat.one_mul] at hle
  simp only [slotRows]
  split_ifs
  · omega
  · rw [Nat.add_mul, Nat.one_mul]

theorem slotEnd_le {slotId : ℕ} (h : slotId < numMb) :
    slotId * cfg.decodeSlotSize numMb + cfg.slotRows numMb slotId ≤ cfg.fgPageSize := by
  rw [cfg.slotEnd_eq h]
  split_ifs
  · exact le_rfl
  · exact cfg.slotStart_le h

end EngineConfig

section Prefetch

variable (cfg : EngineConfig) (numMb : ℕ)

/-- `_get_prefetch_cpu_slice`: the slice of the cold cache and the next page pointer.
The decode branch counts rows of width `intermediate_size`, but starts at
`num_experts_gpu` of them. -/
def getPrefetchCpuSlice (pageCpu slotId : ℕ) : Stage → Slice × ℕ
  | .prefill =>
      let pageId := pageCpu % cfg.weightsPrefetchNumPagesCpu
      let start := cfg.numExpertsGpu + pageId * cfg.pageSize + slotId * cfg.pageSize
      (⟨start, some (start + cfg.pageSize)⟩, (pageCpu + 1) % cfg.weightsPrefetchNumPagesCpu)
  | .decode =>
      let pageId := pageCpu % cfg.weightsPrefetchNumPagesCpu
      let start := cfg.numExpertsGpu + pageId * cfg.pageSize + slotId * cfg.decodeSlotSize numMb
      if slotId = numMb - 1 then (⟨start, none⟩, (pageCpu + 1) % cfg.weightsPrefetchNumPagesCpu)
      else (⟨start, some (start + cfg.decodeSlotSize numMb)⟩, pageCpu)

/-- `_get_prefetch_gpu_slice`: the slice of the expert cache and the next page
pointer. -/
def getPrefetchGpuSlice (pageGpu slotId : ℕ) : Stage → Slice × ℕ
  | .prefill =>
      let pageId := pageGpu % weightsPrefetchNumPagesGpu
      let start := cfg.expertsPoolSize - weightsPrefetchNumPagesGpu * cfg.pageSize +
        pageId * cfg.pageSize + slotId * cfg.pageSize
      (⟨start, some (start + cfg.pageSize)⟩, (pageGpu + 1) % weightsPrefetchNumPagesGpu)
  | .decode =>
      let pageId := pageGpu % weightsPrefetchNumPagesGpu
      let start := cfg.expertsPoolSize * 3 * cfg.hiddenSize -
        weightsPrefetchNumPagesGpu * cfg.fgPageSize +
        pageId * cfg.fgPageSize + slotId * cfg.decodeSlotSize numMb
      if slotId = numMb - 1 then
        (⟨start, some (start + (cfg.fgPageSize - slotId * cfg.decodeSlotSize numMb))⟩,
          (pageGpu + 1) % weightsPrefetchNumPagesGpu)
      else (⟨start, some (start + cfg.decodeSlotSize numMb)⟩, pageGpu)

/-- The slice of pinned memory that `prefetch_experts` reads in decode. -/
def fromPinSlice (slotId : ℕ) : Slice :=
  ⟨slotId * cfg.decodeSlotSize numMb,
    if slotId ≠ numMb - 1 then some ((slotId + 1) * cfg.decodeSlotSize numMb) else none⟩

/-- `prefetch_experts`. The layer number is not used: the source rows depend on the
page and the slot alone. A failed assertion or a missing future raises. -/
def prefetchExperts (s : WeightState α) (_layerId pageId slotId : ℕ) :
    Stage → Option (WeightState α)
  | .prefill =>
      if slotId = 0 ∧ pageId = s.weightsPrefetchPageCpu then
        let gpu := getPrefetchGpuSlice cfg numMb s.weightsPrefetchPageGpu slotId .prefill
        let cpu := getPrefetchCpuSlice cfg numMb s.weightsPrefetchPageCpu slotId .prefill
        (copySlice cfg.expertRows s.expertsCache cfg.expertsPoolSize gpu.1
          s.expertsCacheCold cfg.expertsPoolSize cpu.1).map fun cache =>
          { s with
            expertsCache := cache
            weightsPrefetchPageGpu := gpu.2
            weightsPrefetchPageCpu := cpu.2 }
      else none
  | .decode =>
      if (s.copyFutures slotId).isSome ∧ slotId < numMb then
        let gpu := getPrefetchGpuSlice cfg numMb s.weightsPrefetchPageGpu slotId .decode
        (copySlice 1 s.expertsCache (cfg.expertsPoolSize * cfg.expertRows) gpu.1
          s.expertsPin (cfg.pageSize * cfg.expertRows) (fromPinSlice cfg numMb slotId)).map
          fun cache =>
          { s with
            expertsCache := cache
            weightsPrefetchPageGpu := gpu.2 }
      else none

/-- `prefetch_experts_to_pin_func`, the job of the copy executor. -/
def prefetchExpertsToPinFunc (s : WeightState α) (slotId : ℕ) : Option (WeightState α) :=
  let start := slotId * cfg.decodeSlotSize numMb
  let totalRows := cfg.pageSize * cfg.expertRows
  let stop := if slotId ≠ numMb - 1 then start + cfg.decodeSlotSize numMb else totalRows
  let cpu := getPrefetchCpuSlice cfg numMb s.weightsPrefetchPageCpu slotId .decode
  let length := stop - start
  (copySlice 1 s.expertsPin totalRows ⟨start, some stop⟩ s.expertsCacheCold
    (cfg.expertsPoolSize * cfg.expertRows) ⟨cpu.1.start, some (cpu.1.start + length)⟩).map
    fun pin => { s with expertsPin := pin, weightsPrefetchPageCpu := cpu.2 }

/-- `prefetch_experts_to_pin`: submit the job and keep its future. -/
def prefetchExpertsToPin (s : WeightState α) (layerId slotId : ℕ) : Option (WeightState α) :=
  if slotId < numMb then
    (prefetchExpertsToPinFunc cfg numMb s slotId).map fun t =>
      { t with copyFutures := Function.update t.copyFutures slotId (some layerId) }
  else none

/-- The effect of a host call on the weights. -/
def weightStep (s : WeightState α) : Call → Option (WeightState α)
  | .prefetchExperts layerId pageId slotId stage =>
      prefetchExperts cfg numMb s layerId pageId slotId stage
  | .prefetchExpertsToPin layerId slotId => prefetchExpertsToPin cfg numMb s layerId slotId
  | _ => some s

end Prefetch

/-- `create_micro_batches` clears the futures of the previous batch. -/
def WeightState.newBatch (s : WeightState α) : WeightState α :=
  { s with copyFutures := fun _ => none }

/-- `ExecutionEngine.reset`. -/
def WeightState.reset (s : WeightState α) : WeightState α :=
  { s with
    weightsPrefetchPageGpu := 0
    weightsPrefetchPageCpu := 0
    copyFutures := fun _ => none }

/-- The row of the expert cache that `init_gpu_experts` assigns to an expert: its own
row when it is persistent, a row of the page of the layer's parity otherwise. -/
def initExpertsMapping (cfg : EngineConfig) (layerId expertId : ℕ) : ℤ :=
  if expertId < cfg.numExpertsGpu then (layerId * cfg.numExpertsGpu + expertId : ℕ)
  else
    let pageId := (expertId - cfg.numExpertsGpu) / cfg.pageSize
    let gpuPageId := (layerId * cfg.weightsPrefetchNumPagesCpu + pageId) %
      weightsPrefetchNumPagesGpu
    (cfg.expertsPoolSize - weightsPrefetchNumPagesGpu * cfg.pageSize +
      gpuPageId * cfg.pageSize + (expertId - cfg.numExpertsGpu) % cfg.pageSize : ℕ)

/-- `ExecutionContext.init_gpu_experts`: copy the first experts of every layer of the
host memory to the front of the cache. `mem i` is the memory of layer `i`. -/
def initGpuExperts (cfg : EngineConfig) (mem : ℕ → ℕ → α) (cache : ℕ → α) : ℕ → α :=
  (List.range cfg.numHiddenLayers).foldl (fun cache i =>
    copyRows cache (i * cfg.numExpertsGpu * cfg.expertRows) (mem i) 0
      (cfg.numExpertsGpu * cfg.expertRows)) cache

section Specs

variable {cfg : EngineConfig} {numMb : ℕ} {s : WeightState α}

theorem initExpertsMapping_gpu {i e : ℕ} (h : e < cfg.numExpertsGpu) :
    initExpertsMapping cfg i e = (i * cfg.numExpertsGpu + e : ℕ) := by
  simp [initExpertsMapping, h]

theorem initExpertsMapping_page {i t : ℕ} (h : t < cfg.pageSize) :
    initExpertsMapping cfg i (cfg.numExpertsGpu + t) =
      (cfg.numHiddenLayers * cfg.numExpertsGpu + (i % 2) * cfg.pageSize + t : ℕ) := by
  have hlt : ¬ cfg.numExpertsGpu + t < cfg.numExpertsGpu := by omega
  simp only [initExpertsMapping, if_neg hlt, Nat.add_sub_cancel_left, Nat.div_eq_of_lt h,
    Nat.mod_eq_of_lt h, EngineConfig.weightsPrefetchNumPagesCpu_eq,
    weightsPrefetchNumPagesGpu, EngineConfig.expertsPoolSize]
  simp

/-- The rows a decode slot is copied to start inside the page of the pointer. -/
theorem getPrefetchGpuSlice_decode {page slotId : ℕ} (hp : page < 2) :
    getPrefetchGpuSlice cfg numMb page slotId .decode =
      (⟨cfg.pageBase page + slotId * cfg.decodeSlotSize numMb,
        some (cfg.pageBase page + slotId * cfg.decodeSlotSize numMb +
          cfg.slotRows numMb slotId)⟩,
        if slotId = numMb - 1 then (page + 1) % 2 else page) := by
  have hbase : cfg.expertsPoolSize * 3 * cfg.hiddenSize - 2 * cfg.fgPageSize +
      page * cfg.fgPageSize = cfg.pageBase page := by
    have h1 : cfg.pageBase 2 = cfg.pageBase 0 + 2 * cfg.fgPageSize := by
      rw [cfg.pageBase_add 1, cfg.pageBase_add 0]; ring
    have h2 : cfg.expertsPoolSize * 3 * cfg.hiddenSize = cfg.pageBase 2 := by
      rw [cfg.pageBase_two, EngineConfig.expertRows, Nat.mul_assoc]
    have h3 : cfg.pageBase page = cfg.pageBase 0 + page * cfg.fgPageSize := by
      obtain rfl | rfl : page = 0 ∨ page = 1 := by omega
      · ring
      · rw [cfg.pageBase_add 0]; ring
    omega
  simp only [getPrefetchGpuSlice, weightsPrefetchNumPagesGpu,
    Nat.mod_eq_of_lt hp, hbase, EngineConfig.slotRows]
  split_ifs <;> rfl

/-- The prefill prefetch copies experts `num_experts_gpu` and on of the cold cache
into the page of the pointer, whole. -/
theorem prefetchExperts_prefill (layerId : ℕ) {page : ℕ} (hgpu : s.weightsPrefetchPageGpu = page)
    (hp : page < 2) (hcpu : s.weightsPrefetchPageCpu = 0) :
    prefetchExperts cfg numMb s layerId 0 0 .prefill = some
      { s with
        expertsCache := copyRows s.expertsCache (cfg.pageBase page) s.expertsCacheCold
          (cfg.numExpertsGpu * cfg.expertRows) cfg.fgPageSize
        weightsPrefetchPageGpu := (page + 1) % 2
        weightsPrefetchPageCpu := 0 } := by
  have hbase : cfg.expertsPoolSize - 2 * cfg.pageSize =
      cfg.numHiddenLayers * cfg.numExpertsGpu := by
    simp [EngineConfig.expertsPoolSize]
  have hgpuLen : (Slice.mk (cfg.numHiddenLayers * cfg.numExpertsGpu + page * cfg.pageSize)
      (some (cfg.numHiddenLayers * cfg.numExpertsGpu + page * cfg.pageSize +
        cfg.pageSize))).length cfg.expertsPoolSize = cfg.pageSize := by
    apply Slice.length_of_le
    simp only [EngineConfig.expertsPoolSize]
    obtain rfl | rfl : page = 0 ∨ page = 1 := by omega
    · omega
    · omega
  have hcpuLen : (Slice.mk cfg.numExpertsGpu
      (some (cfg.numExpertsGpu + cfg.pageSize))).length cfg.expertsPoolSize = cfg.pageSize := by
    apply Slice.length_of_le
    have := Nat.mul_le_mul_right cfg.numExpertsGpu cfg.layers_pos
    simp only [EngineConfig.expertsPoolSize]
    omega
  simp only [prefetchExperts, hgpu, hcpu, and_self, if_true, getPrefetchGpuSlice,
    getPrefetchCpuSlice, weightsPrefetchNumPagesGpu, Nat.mod_eq_of_lt hp,
    EngineConfig.weightsPrefetchNumPagesCpu_eq, hbase, Nat.zero_mul, Nat.add_zero, Nat.mod_one]
  rw [copySlice_eq hgpuLen hcpuLen, cfg.fgPageSize_eq]
  rfl

/-- The decode prefetch copies one slot of pinned memory to its place in the page, and
turns the page after the last slot. -/
theorem prefetchExperts_decode (layerId pageId : ℕ) {slotId page : ℕ}
    (hgpu : s.weightsPrefetchPageGpu = page) (hp : page < 2) (hk : slotId < numMb)
    (hfut : (s.copyFutures slotId).isSome) :
    prefetchExperts cfg numMb s layerId pageId slotId .decode = some
      { s with
        expertsCache := copyRows s.expertsCache
          (cfg.pageBase page + slotId * cfg.decodeSlotSize numMb) s.expertsPin
          (slotId * cfg.decodeSlotSize numMb) (cfg.slotRows numMb slotId)
        weightsPrefetchPageGpu := if slotId = numMb - 1 then (page + 1) % 2 else page } := by
  have hend := cfg.slotEnd_le hk
  have hgpuLen : (Slice.mk (cfg.pageBase page + slotId * cfg.decodeSlotSize numMb)
      (some (cfg.pageBase page + slotId * cfg.decodeSlotSize numMb +
        cfg.slotRows numMb slotId))).length (cfg.expertsPoolSize * cfg.expertRows) =
      cfg.slotRows numMb slotId := by
    apply Slice.length_of_le
    rw [← cfg.pageBase_two]
    have h2 : cfg.pageBase (page + 1) ≤ cfg.pageBase 2 := cfg.pageBase_mono (by omega)
    rw [cfg.pageBase_add] at h2
    omega
  have hpinLen : (fromPinSlice cfg numMb slotId).length (cfg.pageSize * cfg.expertRows) =
      cfg.slotRows numMb slotId := by
    rw [← cfg.fgPageSize_eq]
    simp only [fromPinSlice, ne_eq, EngineConfig.slotRows]
    by_cases hlast : slotId = numMb - 1
    · simp only [hlast, not_true_eq_false, if_false, if_true]
      exact Slice.length_of_none (by rw [← hlast]; omega)
    · simp only [hlast, not_false_eq_true, if_true, if_false, Nat.add_mul, Nat.one_mul]
      apply Slice.length_of_le
      have := cfg.slotStart_le hk
      rw [Nat.add_mul, Nat.one_mul] at this
      exact this
  simp only [prefetchExperts, hfut, hk, and_self, if_true, hgpu, getPrefetchGpuSlice_decode hp]
  rw [copySlice_eq hgpuLen hpinLen]
  simp [fromPinSlice]

/-- The copy job fills the rows of its slot from the cold cache, from row
`num_experts_gpu` on. -/
theorem prefetchExpertsToPin_spec (layerId : ℕ) {slotId : ℕ} (hcpu : s.weightsPrefetchPageCpu = 0)
    (hk : slotId < numMb) :
    prefetchExpertsToPin cfg numMb s layerId slotId = some
      { s with
        expertsPin := copyRows s.expertsPin (slotId * cfg.decodeSlotSize numMb)
          s.expertsCacheCold (cfg.numExpertsGpu + slotId * cfg.decodeSlotSize numMb)
          (cfg.slotRows numMb slotId)
        copyFutures := Function.update s.copyFutures slotId (some layerId) } := by
  have hend := cfg.slotEnd_le hk
  have hstop : (if slotId ≠ numMb - 1 then
      slotId * cfg.decodeSlotSize numMb + cfg.decodeSlotSize numMb
      else cfg.pageSize * cfg.expertRows) =
      slotId * cfg.decodeSlotSize numMb + cfg.slotRows numMb slotId := by
    rw [cfg.slotEnd_eq hk, ← cfg.fgPageSize_eq, Nat.add_mul, Nat.one_mul]
    split_ifs <;> first | rfl | contradiction
  have hcpuSlice : getPrefetchCpuSlice cfg numMb 0 slotId .decode =
      (⟨cfg.numExpertsGpu + slotId * cfg.decodeSlotSize numMb,
        if slotId = numMb - 1 then none
        else some (cfg.numExpertsGpu + slotId * cfg.decodeSlotSize numMb +
          cfg.decodeSlotSize numMb)⟩, 0) := by
    simp only [getPrefetchCpuSlice, EngineConfig.weightsPrefetchNumPagesCpu_eq, Nat.mod_one,
      Nat.zero_mul, Nat.add_zero]
    split_ifs <;> rfl
  have hdstLen : (Slice.mk (slotId * cfg.decodeSlotSize numMb)
      (some (slotId * cfg.decodeSlotSize numMb + cfg.slotRows numMb slotId))).length
      (cfg.pageSize * cfg.expertRows) = cfg.slotRows numMb slotId := by
    apply Slice.length_of_le
    rwa [← cfg.fgPageSize_eq]
  -- The cold cache is as large as the GPU cache, so even the misplaced block is inside.
  have hsrcLen : (Slice.mk (cfg.numExpertsGpu + slotId * cfg.decodeSlotSize numMb)
      (some (cfg.numExpertsGpu + slotId * cfg.decodeSlotSize numMb +
        cfg.slotRows numMb slotId))).length (cfg.expertsPoolSize * cfg.expertRows) =
      cfg.slotRows numMb slotId := by
    rcases Nat.eq_zero_or_pos cfg.expertRows with hu | hu
    · have hfg : cfg.fgPageSize = 0 := by rw [cfg.fgPageSize_eq, hu, Nat.mul_zero]
      have hrows : cfg.slotRows numMb slotId = 0 := by omega
      simp [Slice.length, hrows]
    · apply Slice.length_of_le
      have := cfg.gpuRows_add_fgPageSize_le hu
      omega
  simp only [prefetchExpertsToPin, if_pos hk, prefetchExpertsToPinFunc, hcpu, hcpuSlice, hstop,
    Nat.add_sub_cancel_left]
  rw [copySlice_eq hdstLen hsrcLen]
  simp

end Specs

end HarvestMoE
