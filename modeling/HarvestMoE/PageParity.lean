import HarvestMoE.Residency
import Mathlib.Order.CompletePartialOrder

/-!
# The page a prefetch fills

No prefetch looks at the layer it is issued for: the page it fills is that of a pointer
which turns once at each prefill prefetch and once at the last slot of each decode
layer. The rows it fills are nevertheless the ones that `experts_mapping` gives to the
paged experts of its layer, since a step turns the pointer once a layer and the number
of layers is even.

## Main definitions

* `mappedRows`, `slotShare` — the rows of the paged experts of a layer, and the part of
  a decode slot.
* `PageWritten` — what a prefetch does to the expert cache.
* `WritesPage` — a prefetch writes the rows of its layer, and no other call writes any.
* `pageStep` — the pointer by itself.
* `pages_of_batches` — every prefetch of a sequence of batches.
-/

namespace HarvestMoE

open Lib

variable {α : Type*}

/-- Row `q` of the paged experts of a layer, by the mapping. -/
def pagedRow (cfg : EngineConfig) (layerId q : ℕ) : ℕ :=
  (initExpertsMapping cfg layerId (cfg.numExpertsGpu + q / cfg.expertRows)).toNat *
    cfg.expertRows + q % cfg.expertRows

/-- The rows that the mapping of a layer gives to the experts from `a` to `b`. -/
def expertsRows (cfg : EngineConfig) (layerId a b : ℕ) : Set ℕ :=
  {r | ∃ e, a ≤ e ∧ e < b ∧ ∃ q, q < cfg.expertRows ∧
    r = (initExpertsMapping cfg layerId e).toNat * cfg.expertRows + q}

/-- The rows of the paged experts of a layer. -/
def mappedRows (cfg : EngineConfig) (layerId : ℕ) : Set ℕ :=
  expertsRows cfg layerId cfg.numExpertsGpu cfg.numLocalExperts

/-- The rows a layer reads. -/
def layerRows (cfg : EngineConfig) (layerId : ℕ) : Set ℕ :=
  expertsRows cfg layerId 0 cfg.numLocalExperts

/-- The rows of the persistent experts of all layers. -/
def persistentRows (cfg : EngineConfig) : Set ℕ :=
  {r | r < cfg.numHiddenLayers * cfg.numExpertsGpu * cfg.expertRows}

/-- The part of the paged rows of a layer that a decode slot stands for. -/
def slotShare (cfg : EngineConfig) (numMb layerId slotId : ℕ) : Set ℕ :=
  {r | ∃ q, slotId * cfg.decodeSlotSize numMb ≤ q ∧
    q < slotId * cfg.decodeSlotSize numMb + cfg.slotRows numMb slotId ∧ r = pagedRow cfg layerId q}

/-- The rows a prefetch for the layer is meant to write. -/
def targetRows (cfg : EngineConfig) (numMb layerId slotId : ℕ) : Stage → Set ℕ
  | .prefill => mappedRows cfg layerId
  | .decode => slotShare cfg numMb layerId slotId

/-- What a prefetch has for row `q` of its page: in prefill the block behind the
persistent experts of the cold cache, in decode pinned memory. -/
def prefetchedRow (cfg : EngineConfig) (s : WeightState α) : Stage → ℕ → α
  | .prefill => prefillBlock cfg s.expertsCacheCold
  | .decode => s.expertsPin

/-- From `s` to `t` the expert cache gets the rows that the mapping gives to the paged
experts of a layer, in decode the part of the slot, and no others. No persistent row is
among them, and none that the layer being computed reads, which is the one before. -/
structure PageWritten (cfg : EngineConfig) (numMb layerId slotId : ℕ) (stage : Stage)
    (s t : WeightState α) : Prop where
  written : ∀ r ∈ targetRows cfg numMb layerId slotId stage, ∃ q < cfg.fgPageSize,
    r = pagedRow cfg layerId q ∧ t.expertsCache r = prefetchedRow cfg s stage q
  kept : ∀ r ∉ targetRows cfg numMb layerId slotId stage, t.expertsCache r = s.expertsCache r
  persistent : Disjoint (targetRows cfg numMb layerId slotId stage) (persistentRows cfg)
  read : ∀ i, i < cfg.numHiddenLayers → layerId = (i + 1) % cfg.numHiddenLayers →
    Disjoint (targetRows cfg numMb layerId slotId stage) (layerRows cfg i)

/-- A call does not raise. A prefetch writes the page of its layer, and any other call
leaves the expert cache as it is. -/
def WritesPage (cfg : EngineConfig) (numMb : ℕ) (s : WeightState α) (c : Call) : Prop :=
  ∃ t, weightStep cfg numMb s c = some t ∧
    match c with
    | .prefetchExperts layerId _ slotId stage => PageWritten cfg numMb layerId slotId stage s t
    | _ => t.expertsCache = s.expertsCache

/-- Batches one after the other, given by their micro-batches and decode steps, each
followed by `reset`. A batch that raises is the last. -/
def BatchesAlong (cfg : EngineConfig) (P : ℕ → WeightState α → Call → Prop) :
    WeightState α → List (ℕ × ℕ) → Prop
  | _, [] => True
  | s, (numMb, steps) :: batches =>
      let calls := forwardCalls cfg.numHiddenLayers cfg.weightsPrefetchNumPagesCpu numMb steps
      Along (weightStep cfg numMb) (P numMb) s.newBatch calls ∧
        ∀ t, exec (weightStep cfg numMb) s.newBatch calls = some t →
          BatchesAlong cfg P t.reset batches

/-! ### The rows of a page -/

section Rows

variable {cfg : EngineConfig} {numMb i m k q : ℕ}

/-- The rows of a page. -/
def pageRows (cfg : EngineConfig) (page : ℕ) : Set ℕ :=
  {r | cfg.pageBase page ≤ r ∧ r < cfg.pageBase page + cfg.fgPageSize}

theorem mapping_page_row {t : ℕ} (ht : t < cfg.pageSize) (q : ℕ) :
    (initExpertsMapping cfg m (cfg.numExpertsGpu + t)).toNat * cfg.expertRows + q =
      cfg.pageBase (m % 2) + (t * cfg.expertRows + q) := by
  rw [initExpertsMapping_page ht, Int.toNat_natCast, EngineConfig.pageBase]
  ring

theorem pagedRow_eq (hq : q < cfg.fgPageSize) : pagedRow cfg m q = cfg.pageBase (m % 2) + q := by
  rw [cfg.fgPageSize_eq] at hq
  have hu : 0 < cfg.expertRows := Nat.pos_of_ne_zero fun h0 => by simp [h0] at hq
  have ht : q / cfg.expertRows < cfg.pageSize := (Nat.div_lt_iff_lt_mul hu).mpr hq
  rw [pagedRow, mapping_page_row ht, Nat.div_add_mod']

/-- The mapping gives the paged experts of a layer the page of its parity. -/
theorem mappedRows_eq (cfg : EngineConfig) (m : ℕ) : mappedRows cfg m = pageRows cfg (m % 2) := by
  have hE := cfg.numExpertsGpu_add_pageSize
  ext r
  constructor
  · rintro ⟨e, hge, hlt, q, hq, rfl⟩
    obtain ⟨t, rfl⟩ := Nat.exists_eq_add_of_le hge
    have ht : t < cfg.pageSize := by omega
    have hrow := Nat.mul_le_mul_right cfg.expertRows ht
    rw [Nat.succ_mul, ← cfg.fgPageSize_eq] at hrow
    simp only [pageRows, Set.mem_ofPred_eq, mapping_page_row ht]
    omega
  · intro hr
    obtain ⟨q, rfl⟩ := Nat.exists_eq_add_of_le hr.1
    have hq : q < cfg.pageSize * cfg.expertRows := by
      rw [← cfg.fgPageSize_eq]
      have := hr.2
      omega
    have hu : 0 < cfg.expertRows := Nat.pos_of_ne_zero fun h0 => by simp [h0] at hq
    have ht : q / cfg.expertRows < cfg.pageSize := (Nat.div_lt_iff_lt_mul hu).mpr hq
    refine ⟨cfg.numExpertsGpu + q / cfg.expertRows, Nat.le_add_right .., by omega,
      q % cfg.expertRows, Nat.mod_lt q hu, ?_⟩
    rw [mapping_page_row ht, Nat.div_add_mod']

theorem slotShare_eq (hk : k < numMb) (m : ℕ) : slotShare cfg numMb m k =
    {r | cfg.pageBase (m % 2) + k * cfg.decodeSlotSize numMb ≤ r ∧
      r < cfg.pageBase (m % 2) + k * cfg.decodeSlotSize numMb + cfg.slotRows numMb k} := by
  have hend := cfg.slotEnd_le hk
  ext r
  constructor
  · rintro ⟨q, hge, hlt, rfl⟩
    simp only [Set.mem_ofPred_eq, pagedRow_eq (show q < cfg.fgPageSize by omega)]
    omega
  · rintro ⟨hge, hlt⟩
    refine ⟨r - cfg.pageBase (m % 2), by omega, by omega, ?_⟩
    rw [pagedRow_eq (by omega)]
    omega

/-- The slots of a page make up the paged rows of its layer. -/
theorem iUnion_slotShare (hn : 0 < numMb) (m : ℕ) :
    ⋃ k ∈ {k | k < numMb}, slotShare cfg numMb m k = mappedRows cfg m := by
  rw [mappedRows_eq]
  ext r
  simp only [Set.mem_iUnion, Set.mem_ofPred_eq, exists_prop]
  constructor
  · rintro ⟨k, hk, hr⟩
    have hend := cfg.slotEnd_le hk
    rw [slotShare_eq hk] at hr
    refine ⟨?_, ?_⟩
    · have := hr.1
      omega
    · have := hr.2
      omega
  · intro hr
    obtain ⟨q, rfl⟩ := Nat.exists_eq_add_of_le hr.1
    have hq : q < cfg.fgPageSize := by
      have := hr.2
      omega
    by_cases hlast : (numMb - 1) * cfg.decodeSlotSize numMb ≤ q
    · refine ⟨numMb - 1, by omega, ?_⟩
      have hend := cfg.slotEnd_eq (show numMb - 1 < numMb by omega)
      rw [if_pos rfl] at hend
      rw [slotShare_eq (by omega)]
      exact ⟨by omega, by omega⟩
    · have hd : 0 < cfg.decodeSlotSize numMb := Nat.pos_of_ne_zero fun h0 => by simp [h0] at hlast
      have hk : q / cfg.decodeSlotSize numMb < numMb - 1 :=
        (Nat.div_lt_iff_lt_mul hd).mpr (by omega)
      have hend := cfg.slotEnd_eq (show q / cfg.decodeSlotSize numMb < numMb by omega)
      rw [if_neg (by omega), Nat.add_mul, Nat.one_mul] at hend
      have hdiv := Nat.div_add_mod' q (cfg.decodeSlotSize numMb)
      have hmod := Nat.mod_lt q hd
      refine ⟨q / cfg.decodeSlotSize numMb, by omega, ?_⟩
      rw [slotShare_eq (by omega)]
      exact ⟨by omega, by omega⟩

theorem pageRows_disjoint_persistent (page : ℕ) :
    Disjoint (pageRows cfg page) (persistentRows cfg) := by
  have hbase : cfg.pageBase 0 = cfg.numHiddenLayers * cfg.numExpertsGpu * cfg.expertRows := by
    simp [EngineConfig.pageBase]
  have hmono := cfg.pageBase_mono (Nat.zero_le page)
  refine Set.disjoint_left.mpr fun r hr hpers => ?_
  have hge : cfg.pageBase page ≤ r := hr.1
  have hlt : r < cfg.numHiddenLayers * cfg.numExpertsGpu * cfg.expertRows := hpers
  omega

theorem pageRows_disjoint {p q : ℕ} (hne : p ≠ q) (hp : p < 2) (hq : q < 2) :
    Disjoint (pageRows cfg p) (pageRows cfg q) := by
  have h01 : cfg.pageBase 1 = cfg.pageBase 0 + cfg.fgPageSize := cfg.pageBase_add 0
  refine Set.disjoint_left.mpr fun r hr hr' => ?_
  simp only [pageRows, Set.mem_ofPred_eq] at hr hr'
  rcases Nat.lt_or_gt_of_ne hne with hlt | hgt
  · obtain ⟨rfl, rfl⟩ : p = 0 ∧ q = 1 := by omega
    omega
  · obtain ⟨rfl, rfl⟩ : p = 1 ∧ q = 0 := by omega
    omega

/-- A layer reads persistent rows and the page of its parity. -/
theorem layerRows_subset (hi : i < cfg.numHiddenLayers) :
    layerRows cfg i ⊆ persistentRows cfg ∪ pageRows cfg (i % 2) := by
  rintro r ⟨e, -, he, q, hq, rfl⟩
  rcases Nat.lt_or_ge e cfg.numExpertsGpu with hlt | hge
  · left
    have hrow : (i * cfg.numExpertsGpu + e + 1) * cfg.expertRows ≤
        cfg.numHiddenLayers * cfg.numExpertsGpu * cfg.expertRows := by
      apply Nat.mul_le_mul_right
      have := Nat.mul_le_mul_right cfg.numExpertsGpu hi
      rw [Nat.succ_mul] at this
      omega
    rw [Nat.succ_mul] at hrow
    simp only [persistentRows, Set.mem_ofPred_eq, initExpertsMapping_gpu hlt, Int.toNat_natCast]
    omega
  · right
    rw [← mappedRows_eq]
    exact ⟨e, hge, he, q, hq, rfl⟩

end Rows

/-! ### The pointer -/

/-- The page pointer after a call. -/
def pageStep (numMb page : ℕ) : Call → ℕ
  | .prefetchExperts _ _ _ .prefill => (page + 1) % 2
  | .prefetchExperts _ _ slotId .decode => if slotId = numMb - 1 then (page + 1) % 2 else page
  | _ => page

/-- `num_weights_slots_prefill` and `num_weights_slots_decode`. -/
def numWeightsSlots (numMb : ℕ) : Stage → ℕ
  | .prefill => 1
  | .decode => numMb

/-- A prefetch is issued when the pointer is at the page of its layer's parity. -/
def PageDue (numMb page : ℕ) : Call → Prop
  | .prefetchExperts layerId _ slotId stage =>
      page = layerId % 2 ∧ slotId < numWeightsSlots numMb stage
  | _ => True

section Pointer

variable {cfg : EngineConfig} {numMb numLayers : ℕ} {s t : WeightState α}

theorem weightStep_page {c : Call} (h : weightStep cfg numMb s c = some t) :
    t.weightsPrefetchPageGpu = pageStep numMb s.weightsPrefetchPageGpu c := by
  cases c with
  | prefetchExperts layerId pageId slotId stage =>
      cases stage with
      | prefill =>
          simp only [weightStep, prefetchExperts] at h
          split_ifs at h
          obtain ⟨cache, -, rfl⟩ := Option.map_eq_some_iff.mp h
          rfl
      | decode =>
          simp only [weightStep, prefetchExperts] at h
          split_ifs at h
          obtain ⟨cache, -, rfl⟩ := Option.map_eq_some_iff.mp h
          simp only [getPrefetchGpuSlice, pageStep]
          split_ifs <;> rfl
  | prefetchExpertsToPin layerId slotId =>
      simp only [weightStep, prefetchExpertsToPin] at h
      split_ifs at h
      obtain ⟨u, hu, rfl⟩ := Option.map_eq_some_iff.mp h
      simp only [prefetchExpertsToPinFunc] at hu
      obtain ⟨pin, -, rfl⟩ := Option.map_eq_some_iff.mp hu
      rfl
  | _ =>
      obtain rfl : s = t := by simpa [weightStep] using h
      rfl

theorem prefill_written {layerId : ℕ} (hcpu : s.weightsPrefetchPageCpu = 0)
    (hgpu : s.weightsPrefetchPageGpu = layerId % 2)
    (h : prefetchExperts cfg numMb s layerId 0 0 .prefill = some t) :
    (∀ r ∈ mappedRows cfg layerId, ∃ q < cfg.fgPageSize, r = pagedRow cfg layerId q ∧
        t.expertsCache r = prefetchedRow cfg s .prefill q) ∧
      ∀ r ∉ mappedRows cfg layerId, t.expertsCache r = s.expertsCache r := by
  rw [prefetchExperts_prefill layerId hgpu (Nat.mod_lt _ (by omega)) hcpu] at h
  obtain rfl := Option.some.inj h
  rw [mappedRows_eq]
  refine ⟨fun r hr => ?_, fun r hr => if_neg hr⟩
  obtain ⟨q, rfl⟩ := Nat.exists_eq_add_of_le hr.1
  have hq : q < cfg.fgPageSize := Nat.lt_of_add_lt_add_left hr.2
  exact ⟨q, hq, (pagedRow_eq hq).symm, copyRows_add hq⟩

theorem decode_written {layerId pageId slotId : ℕ}
    (hgpu : s.weightsPrefetchPageGpu = layerId % 2) (hk : slotId < numMb)
    (hfut : (s.copyFutures slotId).isSome)
    (h : prefetchExperts cfg numMb s layerId pageId slotId .decode = some t) :
    (∀ r ∈ slotShare cfg numMb layerId slotId, ∃ q < cfg.fgPageSize, r = pagedRow cfg layerId q ∧
        t.expertsCache r = prefetchedRow cfg s .decode q) ∧
      ∀ r ∉ slotShare cfg numMb layerId slotId, t.expertsCache r = s.expertsCache r := by
  have hend := cfg.slotEnd_le hk
  rw [prefetchExperts_decode layerId pageId hgpu (Nat.mod_lt _ (by omega)) hk hfut] at h
  obtain rfl := Option.some.inj h
  refine ⟨fun r hr => ?_, fun r hr => ?_⟩
  · obtain ⟨q, hge, hlt, rfl⟩ := hr
    have hq : q < cfg.fgPageSize := by omega
    refine ⟨q, hq, rfl, ?_⟩
    simp only [pagedRow_eq hq, prefetchedRow]
    rw [copyRows_inside (by omega) (by omega)]
    congr 1
    omega
  · rw [slotShare_eq hk] at hr
    exact if_neg hr

/-- The rows a prefetch is meant to write are rows of the page of its layer. -/
theorem targetRows_subset {layerId slotId : ℕ} {stage : Stage}
    (hslot : slotId < numWeightsSlots numMb stage) :
    targetRows cfg numMb layerId slotId stage ⊆ pageRows cfg (layerId % 2) := by
  rw [← mappedRows_eq]
  cases stage with
  | prefill => exact subset_rfl
  | decode =>
      have hk : slotId < numMb := hslot
      rw [← iUnion_slotShare (show 0 < numMb by omega)]
      exact Set.subset_biUnion_of_mem (u := fun k => slotShare cfg numMb layerId k) hk

/-- A prefetch that comes when it is due, and does not raise, writes the page of its
layer. -/
theorem PageWritten.of_due {layerId pageId slotId : ℕ} {stage : Stage}
    (hcpu : s.weightsPrefetchPageCpu = 0)
    (hdue : PageDue numMb s.weightsPrefetchPageGpu (.prefetchExperts layerId pageId slotId stage))
    (h : prefetchExperts cfg numMb s layerId pageId slotId stage = some t) :
    PageWritten cfg numMb layerId slotId stage s t := by
  obtain ⟨hgpu, hslot⟩ := hdue
  have hpage : targetRows cfg numMb layerId slotId stage ⊆ pageRows cfg (layerId % 2) :=
    targetRows_subset hslot
  have hpers : Disjoint (pageRows cfg (layerId % 2)) (persistentRows cfg) :=
    pageRows_disjoint_persistent _
  have hrows : (∀ r ∈ targetRows cfg numMb layerId slotId stage, ∃ q < cfg.fgPageSize,
        r = pagedRow cfg layerId q ∧ t.expertsCache r = prefetchedRow cfg s stage q) ∧
      ∀ r ∉ targetRows cfg numMb layerId slotId stage, t.expertsCache r = s.expertsCache r := by
    cases stage with
    | prefill =>
        by_cases hassert : slotId = 0 ∧ pageId = s.weightsPrefetchPageCpu
        · obtain ⟨rfl, rfl⟩ := hassert
          rw [hcpu] at h
          exact prefill_written hcpu hgpu h
        · simp [prefetchExperts, hassert] at h
    | decode =>
        by_cases hassert : (s.copyFutures slotId).isSome ∧ slotId < numMb
        · exact decode_written hgpu hassert.2 hassert.1 h
        · simp [prefetchExperts, hassert] at h
  refine ⟨hrows.1, hrows.2, hpers.mono_left hpage, fun i hi hnext => ?_⟩
  -- an even number of layers gives the next layer the other page, also around the end
  have hne : layerId % 2 ≠ i % 2 := by
    have heven := cfg.layers_even
    rw [hnext, Nat.mod_mod_of_dvd _ (Nat.dvd_of_mod_eq_zero heven)]
    omega
  have hother : Disjoint (pageRows cfg (layerId % 2)) (pageRows cfg (i % 2)) :=
    pageRows_disjoint hne (Nat.mod_lt _ (by omega)) (Nat.mod_lt _ (by omega))
  exact (Disjoint.mono_right (layerRows_subset hi)
    (Set.disjoint_union_right.mpr ⟨hpers, hother⟩)).mono_left hpage

theorem WritesPage.of_due {c : Call} (hcpu : s.weightsPrefetchPageCpu = 0)
    (hdue : PageDue numMb s.weightsPrefetchPageGpu c) (h : weightStep cfg numMb s c = some t) :
    WritesPage cfg numMb s c := by
  refine ⟨t, h, ?_⟩
  cases c with
  | prefetchExperts layerId pageId slotId stage => exact PageWritten.of_due hcpu hdue h
  | prefetchExpertsToPin layerId slotId =>
      simp only [weightStep, prefetchExpertsToPin] at h
      split_ifs at h
      obtain ⟨u, hu, rfl⟩ := Option.map_eq_some_iff.mp h
      simp only [prefetchExpertsToPinFunc] at hu
      obtain ⟨pin, -, rfl⟩ := Option.map_eq_some_iff.mp hu
      rfl
  | _ =>
      obtain rfl : s = t := by simpa [weightStep] using h
      rfl

/-! The pointer along the schedule: it is at the page of the next layer whenever a
layer ends, so at page 1 when a phase does. -/

/-- The pointer as a machine of its own. -/
def pointerStep (numMb page : ℕ) (c : Call) : Option ℕ := some (pageStep numMb page c)

def Call.isPrefetch : Call → Bool
  | .prefetchExperts .. => true
  | _ => false

theorem pointer_skip {page : ℕ} {cs : List Call} (h : ∀ c ∈ cs, c.isPrefetch = false) :
    Runs (pointerStep numMb) (PageDue numMb) (· = page) cs (· = page) := by
  refine Runs.skip fun c hc s _ => ?_
  have hnot := h c hc
  cases c with
  | prefetchExperts l p k stage => exact absurd hnot (by simp [Call.isPrefetch])
  | _ => exact ⟨trivial, rfl⟩

theorem isPrefetch_prefillBatchCalls {i k : ℕ} {c : Call} (hc : c ∈ prefillBatchCalls numMb i 0 k) :
    c.isPrefetch = false := by
  rcases mem_prefillBatchCalls hc with rfl | rfl | ⟨-, rfl | rfl⟩ <;> rfl

theorem isPrefetch_attentionCalls {i k : ℕ} {c : Call} (hc : c ∈ attentionCalls i k) :
    c.isPrefetch = false := by
  simp only [attentionCalls, List.mem_cons, List.not_mem_nil, or_false] at hc
  rcases hc with rfl | rfl | rfl <;> rfl

theorem isPrefetch_lookAheadCalls {i k : ℕ} {c : Call}
    (hc : c ∈ lookAheadCalls numLayers numMb i k) : c.isPrefetch = false := by
  simp only [lookAheadCalls] at hc
  split_ifs at hc
  · exact isPrefetch_attentionCalls hc
  · exact isPrefetch_attentionCalls hc
  · simp at hc
  · simp at hc

theorem isPrefetch_relayCalls {i k : ℕ} {c : Call} (hc : c ∈ relayCalls numLayers 1 numMb i 0 k) :
    c.isPrefetch = false := by
  rw [relayCalls] at hc
  split at hc
  · rw [List.mem_singleton.mp hc]
    rfl
  · simp at hc

theorem pointer_prefill {page layerId : ℕ} (h : page = layerId % 2) :
    Runs (pointerStep numMb) (PageDue numMb) (· = page) [.prefetchExperts layerId 0 0 .prefill]
      (· = (page + 1) % 2) :=
  Runs.single fun s hs => ⟨⟨hs.trans h, Nat.one_pos⟩, _, rfl, by rw [hs]; rfl⟩

theorem pointer_prefillCalls (heven : numLayers % 2 = 0) :
    Runs (pointerStep numMb) (PageDue numMb) (· = 0) (prefillCalls numLayers 1 numMb) (· = 1) := by
  have hlayer : ∀ i, i < numLayers → Runs (pointerStep numMb) (PageDue numMb) (· = (i + 1) % 2)
      (prefillLayerCalls numLayers 1 numMb i) (· = (i + 1 + 1) % 2) := by
    intro i _
    rw [prefillLayerCalls_one]
    refine Runs.append (pointer_skip ?_) ((pointer_prefill ?_).conseq (fun _ => id) fun s hs => ?_)
    · intro c hc
      obtain ⟨k, -, hc⟩ := List.mem_flatMap.mp hc
      exact isPrefetch_prefillBatchCalls hc
    · rw [Nat.mod_mod_of_dvd _ (Nat.dvd_of_mod_eq_zero heven)]
    · omega
  refine Runs.cons (pointer_prefill rfl) ((Runs.loop numLayers hlayer).conseq ?_ ?_)
  · exact fun s hs => hs
  · intro s hs
    omega

/-- A slot of a layer of the decode loop turns the pointer when it is the last. -/
theorem pointer_decodeBatchCalls (heven : numLayers % 2 = 0) {i k : ℕ} (hk : k < numMb) :
    Runs (pointerStep numMb) (PageDue numMb) (· = (i + 1) % 2)
      (decodeBatchCalls numLayers 1 numMb i k)
      (· = if k = numMb - 1 then (i + 1 + 1) % 2 else (i + 1) % 2) := by
  have hdue : (i + 1) % numLayers % 2 = (i + 1) % 2 :=
    Nat.mod_mod_of_dvd _ (Nat.dvd_of_mod_eq_zero heven)
  rw [decodeBatchCalls_one]
  refine Runs.append (Runs.append ?_ (pointer_skip fun c => isPrefetch_lookAheadCalls))
    (pointer_skip fun c => isPrefetch_relayCalls)
  refine Runs.cons (pointer_skip (by simp [Call.isPrefetch])) (Runs.cons ?_
    (pointer_skip (by simp [Call.isPrefetch])))
  refine Runs.single fun s hs => ⟨⟨hs.trans hdue.symm, hk⟩, _, rfl, ?_⟩
  subst hs
  simp only [pageStep]
  split_ifs <;> omega

theorem pointer_decodeStepCalls (heven : numLayers % 2 = 0) (hn : 0 < numMb) :
    Runs (pointerStep numMb) (PageDue numMb) (· = 1) (decodeStepCalls numLayers 1 numMb)
      (· = 1) := by
  have hlayer : ∀ i, i < numLayers → Runs (pointerStep numMb) (PageDue numMb) (· = (i + 1) % 2)
      (decodeLayerCalls numLayers 1 numMb i) (· = (i + 1 + 1) % 2) := by
    intro i _
    obtain ⟨m, rfl⟩ : ∃ m, numMb = m + 1 := ⟨numMb - 1, by omega⟩
    rw [decodeLayerCalls_one, List.range_succ, List.flatMap_append, List.flatMap_singleton]
    refine Runs.append (Runs.loop m (I := fun _ page => page = (i + 1) % 2) fun k hk => ?_) ?_
    · have hbatch := pointer_decodeBatchCalls (i := i) heven (show k < m + 1 by omega)
      rwa [if_neg (by omega)] at hbatch
    · have hbatch := pointer_decodeBatchCalls (i := i) heven (show m < m + 1 by omega)
      rwa [if_pos (by omega)] at hbatch
  have hprologue : ∀ c ∈ (List.range (min 2 numMb)).flatMap (prologueCalls 1),
      c.isPrefetch = false := by
    intro c hc
    obtain ⟨k, -, hc⟩ := List.mem_flatMap.mp hc
    rw [prologueCalls, List.mem_append, List.mem_singleton] at hc
    rcases hc with hc | rfl
    · exact isPrefetch_attentionCalls hc
    · rfl
  rw [decodeStepCalls, decodeBodyCalls]
  refine Runs.cons (pointer_skip (by simp [Call.isPrefetch]))
    (Runs.append (pointer_skip hprologue) ((Runs.loop numLayers hlayer).conseq ?_ ?_))
  · exact fun s hs => hs
  · intro s hs
    omega

theorem pointer_forwardCalls (heven : numLayers % 2 = 0) (hn : 0 < numMb) (steps : ℕ) :
    Runs (pointerStep numMb) (PageDue numMb) (· = 0) (forwardCalls numLayers 1 numMb steps)
      (· = 1) :=
  Runs.append (pointer_prefillCalls heven)
    (Runs.loop steps (I := fun _ page => page = 1) fun _ _ => pointer_decodeStepCalls heven hn)

/-- The call of a batch is made where the pointer is due. -/
theorem forwardCalls_due (hn : 0 < numMb) (steps : ℕ) (hs : s.weightsPrefetchPageGpu = 0) :
    Along (weightStep cfg numMb) (fun s c => PageDue numMb s.weightsPrefetchPageGpu c) s
      (forwardCalls cfg.numHiddenLayers 1 numMb steps) := by
  have hrun := (pointer_forwardCalls cfg.layers_even hn steps 0 rfl).1
  refine Along.of_map (f := WeightState.weightsPrefetchPageGpu) ?_ (fun _ _ => id) (hs ▸ hrun)
  exact fun s c t ht => congrArg some (weightStep_page ht).symm

/-- A batch after `reset` writes its pages: no call of it raises, and each prefetch comes
when it is due. -/
theorem forwardCalls_pages (hn : 0 < numMb) (steps : ℕ) (hgpu : s.weightsPrefetchPageGpu = 0)
    (hcpu : s.weightsPrefetchPageCpu = 0) :
    Along (weightStep cfg numMb) (WritesPage cfg numMb) s
      (forwardCalls cfg.numHiddenLayers 1 numMb steps) := by
  let mem : ℕ → ℕ → α := fun i q => s.expertsCache (i * cfg.numExpertsGpu * cfg.expertRows + q)
  have hinv : WeightInv cfg mem s.expertsCacheCold s :=
    ⟨fun _ _ _ _ => rfl, rfl, hcpu, by omega⟩
  have hstart : BatchStart cfg mem s.expertsCacheCold 0
      (fun q => s.expertsCache (cfg.pageBase 0 + q)) s := ⟨hinv, hgpu, fun _ _ => rfl⟩
  obtain ⟨-, u, hu, -⟩ := forward_runs (by omega) hn steps s hstart
  have hdue : Along (weightStep cfg numMb) (fun s c => PageDue numMb s.weightsPrefetchPageGpu c) s
      (forwardCalls cfg.numHiddenLayers 1 numMb steps) := forwardCalls_due hn steps hgpu
  refine Along.of_split fun before c after t hsplit ht => ?_
  rw [hsplit] at hu hdue
  obtain ⟨v, hv⟩ := exec_step hu ht
  exact WritesPage.of_due (weightRun_inv hinv ht).pageCpu_eq (hdue.at ht) hv

end Pointer

/-- From the page pointers that the engine starts with, and in any sequence of batches, each
followed by `reset`, no call raises and every prefetch writes the rows that the mapping of
its layer gives to the paged experts, in decode the share of its slot, where the slots
together make up those rows. It writes no persistent row and none that the layer being
computed reads. -/
theorem pages_of_batches (cfg : EngineConfig) (s : WeightState α)
    (hgpu : s.weightsPrefetchPageGpu = 0) (hcpu : s.weightsPrefetchPageCpu = 0)
    (batches : List (ℕ × ℕ)) (hn : ∀ b ∈ batches, 0 < b.1) :
    BatchesAlong cfg (WritesPage cfg) s batches ∧
      ∀ b ∈ batches, ∀ m, ⋃ k ∈ {k | k < b.1}, slotShare cfg b.1 m k = mappedRows cfg m := by
  refine ⟨?_, fun b hb m => iUnion_slotShare (hn b hb) m⟩
  induction batches generalizing s with
  | nil => trivial
  | cons b batches ih =>
      rw [BatchesAlong, cfg.weightsPrefetchNumPagesCpu_eq]
      refine ⟨forwardCalls_pages (hn b List.mem_cons_self) b.2 hgpu hcpu, fun t _ => ?_⟩
      exact ih t.reset rfl rfl fun b' hb' => hn b' (List.mem_cons_of_mem _ hb')

theorem pages_of_batches_two :
    BatchesAlong (EngineConfig.small 2 (by decide)) (WritesPage (EngineConfig.small 2 (by decide)))
        (⟨id, id, id, 0, 0, fun _ => none⟩ : WeightState ℕ) [(1, 2), (3, 1)] ∧
      ∀ b ∈ [(1, 2), (3, 1)], ∀ m, ⋃ k ∈ {k | k < b.1},
        slotShare (EngineConfig.small 2 (by decide)) b.1 m k =
          mappedRows (EngineConfig.small 2 (by decide)) m :=
  pages_of_batches _ _ rfl rfl _ (by decide)

end HarvestMoE
