import HarvestMoE.Residency
import HarvestMoE.SlotOwnership

/-!
# The weights of a persistent expert are never lost

Bytes move between three places: the slots of the cache, which change hands; the CPU
buffers, one for each expert and never given up; and the pages at the end of the cache,
which the prefetch overwrites. `ContentsKept` says where the weights of an expert are. A
move that raises has torn the destination of its copy at most, and that is a place no
record points to yet.

## Main definitions

* `ContentsKept` — the weights of every expert that started on the GPU are where the
  tracker says.
* `RowsKept` — the part of it that says whose weights are in a slot or in a buffer.
-/

namespace HarvestMoE

open Lib

variable {cfg : EngineConfig} {α : Type*}

/-- The weights of expert `e` of layer `l`, row by row. -/
def expertRowsOf (cfg : EngineConfig) (mem : ℕ → ℕ → α) (l e q : ℕ) : α :=
  mem l (e * cfg.expertRows + q)

/-- Every expert that `init_gpu_experts` put on the GPU has its weights where it is
tracked: in the rows of its slot, or in the buffer under its own key. -/
structure ContentsKept (mem : ℕ → ℕ → α) (s : MoverState cfg α) : Prop where
  gpu : ∀ l e, l < cfg.numHiddenLayers → e < cfg.numExpertsGpu →
    (s.tracker.layers l e).location = .gpuPersistent → ∀ q, q < cfg.expertRows →
      s.weights.expertsCache ((s.tracker.layers l e).cacheSlot.toNat * cfg.expertRows + q) =
        expertRowsOf cfg mem l e q
  cpu : ∀ l e, l < cfg.numHiddenLayers → e < cfg.numExpertsGpu →
    (s.tracker.layers l e).location = .cpuMemory →
      ∃ tensor, s.cpuExpertStorage (storageKey l e) = some tensor ∧
        ∀ q, q < cfg.expertRows → tensor.row q = expertRowsOf cfg mem l e q

/-- The experts that `who` picks have their own weights where they are: in the slot of one
that is on the GPU, and in the buffer, if there is one, of one that is on the CPU. -/
structure RowsKept (mem : ℕ → ℕ → α) (who : ℕ → ℕ → Prop) (s : MoverState cfg α) : Prop where
  gpu : ∀ l e, l < cfg.numHiddenLayers → who l e →
    (s.tracker.layers l e).location = .gpuPersistent → ∀ q, q < cfg.expertRows →
      s.weights.expertsCache ((s.tracker.layers l e).cacheSlot.toNat * cfg.expertRows + q) =
        expertRowsOf cfg mem l e q
  cpu : ∀ l e, l < cfg.numHiddenLayers → who l e →
    (s.tracker.layers l e).location = .cpuMemory →
      ∀ tensor, s.cpuExpertStorage (storageKey l e) = some tensor →
        ∀ q, q < cfg.expertRows → tensor.row q = expertRowsOf cfg mem l e q

/-- The weights of the experts that started on the GPU are kept when they are where they
are, and none that is on the CPU is without a buffer. -/
theorem contentsKept_iff {mem : ℕ → ℕ → α} {s : MoverState cfg α} : ContentsKept mem s ↔
    RowsKept mem (fun _ e => e < cfg.numExpertsGpu) s ∧
      ∀ l e, l < cfg.numHiddenLayers → e < cfg.numExpertsGpu →
        (s.tracker.layers l e).location = .cpuMemory →
        (s.cpuExpertStorage (storageKey l e)).isSome := by
  constructor
  · intro h
    refine ⟨⟨h.gpu, fun l e hl he hcpu tensor htensor => ?_⟩, fun l e hl he hcpu => ?_⟩
    · have ⟨kept, hkept, hrow⟩ := h.cpu l e hl he hcpu
      rw [htensor] at hkept
      rwa [Option.some.inj hkept]
    · have ⟨kept, hkept, _⟩ := h.cpu l e hl he hcpu
      rw [hkept]
      rfl
  · intro h
    refine ⟨h.1.gpu, fun l e hl he hcpu => ?_⟩
    have ⟨tensor, htensor⟩ := Option.isSome_iff_exists.mp (h.2 l e hl he hcpu)
    exact ⟨tensor, htensor, h.1.cpu l e hl he hcpu tensor htensor⟩

section Prefetch

variable {numMb : ℕ}

/-- A prefetch into the GPU starts behind the persistent rows, wherever the page pointer
is. -/
theorem pageBase_le_prefill (pageGpu slotId : ℕ) :
    cfg.pageBase 0 ≤ (getPrefetchGpuSlice cfg numMb pageGpu slotId .prefill).1.start *
      cfg.expertRows := by
  apply Nat.mul_le_mul_right
  simp only [getPrefetchGpuSlice, weightsPrefetchNumPagesGpu, EngineConfig.expertsPoolSize]
  omega

theorem pageBase_le_decode (pageGpu slotId : ℕ) :
    cfg.pageBase 0 ≤ (getPrefetchGpuSlice cfg numMb pageGpu slotId .decode).1.start := by
  have hpool : cfg.expertsPoolSize * 3 * cfg.hiddenSize =
      cfg.pageBase 0 + weightsPrefetchNumPagesGpu * cfg.fgPageSize := by
    simp only [EngineConfig.expertsPoolSize, EngineConfig.pageBase, EngineConfig.expertRows,
      EngineConfig.fgPageSize, weightsPrefetchNumPagesGpu]
    ring
  simp only [getPrefetchGpuSlice]
  split_ifs <;> simp only <;> omega

/-- No call of the engine writes a persistent row. -/
theorem weightStep_below {w w' : WeightState α} {call : Call}
    (h : weightStep cfg numMb w call = some w') {r : ℕ} (hr : r < cfg.pageBase 0) :
    w'.expertsCache r = w.expertsCache r := by
  cases call
  case prefetchExperts layerId pageId slotId stage =>
    cases stage with
    | prefill =>
        simp only [weightStep, prefetchExperts] at h
        split_ifs at h
        obtain ⟨cache, hcopy, rfl⟩ := Option.map_eq_some_iff.mp h
        exact copySlice_below hcopy (hr.trans_le (pageBase_le_prefill _ _))
    | decode =>
        simp only [weightStep, prefetchExperts] at h
        split_ifs at h
        obtain ⟨cache, hcopy, rfl⟩ := Option.map_eq_some_iff.mp h
        refine copySlice_below hcopy (hr.trans_le ?_)
        rw [Nat.mul_one]
        exact pageBase_le_decode _ _
  case prefetchExpertsToPin layerId slotId =>
    rw [weightStep, prefetchExpertsToPin] at h
    split_ifs at h
    obtain ⟨t, ht, rfl⟩ := Option.map_eq_some_iff.mp h
    rw [prefetchExpertsToPinFunc] at ht
    obtain ⟨pin, -, rfl⟩ := Option.map_eq_some_iff.mp ht
    rfl
  all_goals
    obtain rfl := Option.some.inj h
    rfl

end Prefetch

section Slots

variable {l e : ℕ} {k : ℤ}

/-- The rows of a slot of a layer lie before the pages. -/
theorem slotRow_lt_pageBase (hl : l < cfg.numHiddenLayers) (hk : k ∈ layerSlots cfg l) {q : ℕ}
    (hq : q < cfg.expertRows) : k.toNat * cfg.expertRows + q < cfg.pageBase 0 := by
  obtain ⟨i, hi, rfl⟩ := mem_layerSlots.mp hk
  have hlayer : (l + 1) * cfg.numExpertsGpu ≤ cfg.numHiddenLayers * cfg.numExpertsGpu :=
    Nat.mul_le_mul_right _ hl
  rw [Nat.add_mul, Nat.one_mul] at hlayer
  have hrow : (l * cfg.numExpertsGpu + i + 1) * cfg.expertRows ≤
      cfg.numHiddenLayers * cfg.numExpertsGpu * cfg.expertRows :=
    Nat.mul_le_mul_right _ (by omega)
  rw [Nat.add_mul, Nat.one_mul] at hrow
  rw [Int.toNat_natCast, EngineConfig.pageBase, Nat.zero_mul, Nat.add_zero]
  omega

/-- The rows of two slots do not meet. -/
theorem slotRow_outside {slot : ℕ} (hk : 0 ≤ k) (hne : k ≠ slot) {q : ℕ}
    (hq : q < cfg.expertRows) :
    k.toNat * cfg.expertRows + q < slot * cfg.expertRows ∨
      slot * cfg.expertRows + cfg.expertRows ≤ k.toNat * cfg.expertRows + q := by
  rcases Nat.lt_or_gt_of_ne (show k.toNat ≠ slot by omega) with hlt | hgt
  · left
    have := Nat.mul_le_mul_right cfg.expertRows hlt
    rw [Nat.succ_mul] at this
    omega
  · right
    have := Nat.mul_le_mul_right cfg.expertRows hgt
    rw [Nat.succ_mul] at this
    omega

end Slots

section Step

variable {mem : ℕ → ℕ → α} {s : MoverState cfg α}

theorem contentsKept_start (mem : ℕ → ℕ → α) (cache cold pin : ℕ → α) :
    ContentsKept mem (MoverState.start cfg
      ⟨initGpuExperts cfg mem cache, cold, pin, 0, 0, fun _ => none⟩) := by
  have hG := cfg.numExpertsGpu_le
  have hloc : ∀ l e, l < cfg.numHiddenLayers → e < cfg.numExpertsGpu →
      (initExpertTracker cfg).layers l e = initExpertLocation cfg l e := by
    intro l e hl he
    have heE : e < cfg.numLocalExperts := by omega
    rw [initExpertTracker_eq]
    simp [hl, heE]
  constructor
  · intro l e hl he _ q hq
    simp only [MoverState.start, hloc l e hl he, initExpertLocation, if_pos he,
      Int.toNat_natCast, expertRowsOf]
    rw [Nat.add_mul, Nat.add_assoc]
    apply initGpuExperts_persistent cache l hl
    have := Nat.mul_le_mul_right cfg.expertRows he
    rw [Nat.succ_mul] at this
    omega
  · intro l e hl he hcpu
    simp [MoverState.start, hloc l e hl he, initExpertLocation, he] at hcpu

/-- A move to the GPU keeps the rows of the others, since the slot it writes belongs to no
expert; it keeps those of the expert when they are what it brings. -/
theorem ToGpuEffect.rowsKept {env : MoveEnv α} {l e slot : ℕ} {device : ℤ}
    {r : MoverState cfg α × MoveResult} {who : ℕ → ℕ → Prop}
    (heff : ToGpuEffect env s l e slot device r) (hplaced : Placed cfg s.tracker)
    (hadm : GpuAdmits cfg s.tracker l e slot)
    (hbrings : who l e → env.Tracks s l e → ∀ q, q < cfg.expertRows →
      r.1.weights.expertsCache (slot * cfg.expertRows + q) = expertRowsOf cfg mem l e q)
    (h : RowsKept mem who s) : RowsKept mem who r.1 := by
  obtain ⟨hl, he, hnone, hslot, hfree⟩ := hplaced.slot_of_admits hadm
  -- An expert that was on the GPU before keeps its rows.
  have hkeep : ∀ a b, a < cfg.numHiddenLayers → who a b →
      (s.tracker.layers a b).location = .gpuPersistent → ∀ q, q < cfg.expertRows →
      r.1.weights.expertsCache ((s.tracker.layers a b).cacheSlot.toNat * cfg.expertRows + q) =
        expertRowsOf cfg mem a b q := by
    intro a b ha hb hgpu q hq
    have hab := ExpertTracker.slotOf_of_gpu hgpu
    obtain ⟨-, -, hmem⟩ := hplaced.slot_mem a b _ hab
    have hne : (s.tracker.layers a b).cacheSlot ≠ slot := by
      intro heq
      rw [heq] at hab hmem
      obtain rfl := layer_eq_of_mem hmem hslot
      exact hfree b hab
    have hpos : 0 ≤ (s.tracker.layers a b).cacheSlot := by
      obtain ⟨i, -, hi⟩ := mem_layerSlots.mp hmem
      omega
    rw [heff.outside _ (slotRow_outside hpos hne hq)]
    exact h.gpu a b ha hb hgpu q hq
  have htracker := heff.tracker_eq
  split_ifs at htracker with htracks
  · constructor
    · intro a b ha hb hgpu q hq
      rw [htracker] at hgpu ⊢
      by_cases hab : a = l ∧ b = e
      · obtain ⟨rfl, rfl⟩ := hab
        simp only [put_self, Int.toNat_natCast]
        exact hbrings hb htracks q hq
      · simp only [put_of_ne hab] at hgpu ⊢
        exact hkeep a b ha hb hgpu q hq
    · intro a b ha hb hloc
      rw [htracker] at hloc
      rw [heff.storage_eq]
      by_cases hab : a = l ∧ b = e
      · obtain ⟨rfl, rfl⟩ := hab
        simp at hloc
      · simp only [put_of_ne hab] at hloc
        exact h.cpu a b ha hb hloc
  · constructor
    · intro a b ha hb hgpu q hq
      rw [htracker] at hgpu ⊢
      exact hkeep a b ha hb hgpu q hq
    · intro a b ha hb hloc
      rw [htracker] at hloc
      rw [heff.storage_eq]
      exact h.cpu a b ha hb hloc

/-- A move to the CPU keeps the rows: it writes the buffer of the expert only, and before
the tracker points there the copy is complete. -/
theorem ToCpuEffect.rowsKept {env : MoveEnv α} {l e slot : ℕ}
    {r : MoverState cfg α × MoveResult} {who : ℕ → ℕ → Prop} (heff : ToCpuEffect env s l e slot r)
    (hplaced : Placed cfg s.tracker) (hadm : CpuAdmits s.tracker l e slot)
    (h : RowsKept mem who s) : RowsKept mem who r.1 := by
  obtain ⟨hgpu, hslot⟩ := ExpertTracker.slotOf_eq_some.mp hadm.2
  have hl := (hplaced.slot_mem l e _ hadm.2).1
  have hother : ∀ a b, a < cfg.numHiddenLayers → who a b → ¬ (a = l ∧ b = e) →
      (s.tracker.layers a b).location = .cpuMemory →
      ∀ tensor, r.1.cpuExpertStorage (storageKey a b) = some tensor →
        ∀ q, q < cfg.expertRows → tensor.row q = expertRowsOf cfg mem a b q := by
    intro a b ha hb hab hloc
    rw [heff.storage_other _ fun hkey => hab (storageKey_inj hkey)]
    exact h.cpu a b ha hb hloc
  have htracker := heff.tracker_eq
  split_ifs at htracker with htracks
  · constructor
    · intro a b ha hb hloc q hq
      rw [htracker] at hloc ⊢
      rw [heff.weights_eq]
      by_cases hab : a = l ∧ b = e
      · obtain ⟨rfl, rfl⟩ := hab
        simp at hloc
      · simp only [put_of_ne hab] at hloc ⊢
        exact h.gpu a b ha hb hloc q hq
    · intro a b ha hb hloc
      by_cases hab : a = l ∧ b = e
      · obtain ⟨rfl, rfl⟩ := hab
        obtain ⟨stored, hstored, hrow⟩ := heff.storage_own htracks
        intro tensor htensor q hq
        rw [hstored] at htensor
        rw [← Option.some.inj htensor, hrow q hq]
        have hkept := h.gpu a b hl hb hgpu q hq
        rwa [hslot, Int.toNat_natCast] at hkept
      · rw [htracker] at hloc
        simp only [put_of_ne hab] at hloc
        exact hother a b ha hb hab hloc
  · constructor
    · intro a b ha hb hloc q hq
      rw [htracker] at hloc ⊢
      rw [heff.weights_eq]
      exact h.gpu a b ha hb hloc q hq
    · intro a b ha hb hloc
      rw [htracker] at hloc
      by_cases hab : a = l ∧ b = e
      · obtain ⟨rfl, rfl⟩ := hab
        exact absurd (hgpu.symm.trans hloc) (by decide)
      · exact hother a b ha hb hab hloc

/-- A call of the engine writes no persistent row. -/
theorem RowsKept.engine {who : ℕ → ℕ → Prop} (hplaced : Placed cfg s.tracker)
    (h : RowsKept mem who s) (numMb : ℕ) (call : Call) :
    RowsKept mem who (moverStep s (.engine numMb call)) := by
  refine ⟨fun l e hl he hgpu q hq => ?_, h.cpu⟩
  rw [← h.gpu l e hl he hgpu q hq]
  obtain ⟨-, -, hmem⟩ := hplaced.slot_mem l e _ (ExpertTracker.slotOf_of_gpu hgpu)
  simp only [moverStep]
  cases hstep : weightStep cfg numMb s.weights call with
  | none => rfl
  | some w => exact weightStep_below hstep (slotRow_lt_pageBase hl hmem hq)

/-- What a move to the GPU brings for an expert that has a buffer. -/
theorem ToGpuEffect.contentsKept {env : MoveEnv α} {l e slot : ℕ} {device : ℤ}
    {r : MoverState cfg α × MoveResult} (heff : ToGpuEffect env s l e slot device r)
    (hplaced : Placed cfg s.tracker) (hadm : GpuAdmits cfg s.tracker l e slot)
    (h : ContentsKept mem s) : ContentsKept mem r.1 := by
  obtain ⟨hl, he, hnone, -, -⟩ := hplaced.slot_of_admits hadm
  have hcpu := (hplaced.off_gpu l e hl he hnone).1
  refine contentsKept_iff.mpr ⟨?_, fun a b ha hb hloc => ?_⟩
  · apply heff.rowsKept hplaced hadm ?_ (contentsKept_iff.mp h).1
    intro hG htracks q hq
    obtain ⟨tensor, hstored, hrow⟩ := h.cpu l e hl hG hcpu
    rw [heff.inside htracks tensor hstored q hq]
    exact hrow q hq
  · rw [heff.storage_eq]
    refine (contentsKept_iff.mp h).2 a b ha hb ?_
    rw [heff.tracker_eq] at hloc
    split_ifs at hloc with htracks
    · by_cases hab : a = l ∧ b = e
      · obtain ⟨rfl, rfl⟩ := hab
        simp at hloc
      · simpa only [put_of_ne hab] using hloc
    · exact hloc

/-- A move to the CPU fills the buffer it points to. -/
theorem ToCpuEffect.contentsKept {env : MoveEnv α} {l e slot : ℕ}
    {r : MoverState cfg α × MoveResult} (heff : ToCpuEffect env s l e slot r)
    (hplaced : Placed cfg s.tracker) (hadm : CpuAdmits s.tracker l e slot)
    (h : ContentsKept mem s) : ContentsKept mem r.1 := by
  refine contentsKept_iff.mpr
    ⟨heff.rowsKept hplaced hadm (contentsKept_iff.mp h).1, fun a b ha hb hloc => ?_⟩
  have hold := (contentsKept_iff.mp h).2 a b ha hb
  by_cases hab : a = l ∧ b = e
  · obtain ⟨rfl, rfl⟩ := hab
    rw [heff.tracker_eq] at hloc
    split_ifs at hloc with htracks
    · obtain ⟨tensor, hstored, -⟩ := heff.storage_own htracks
      rw [hstored]
      rfl
    · exact heff.stored_iff.mpr (.inl (hold hloc))
  · rw [heff.storage_other _ fun hkey => hab (storageKey_inj hkey)]
    refine hold ?_
    rw [heff.tracker_eq] at hloc
    split_ifs at hloc with htracks
    · simpa only [put_of_ne hab] using hloc
    · exact hloc

/-- Every call keeps the contents. -/
theorem moverStep_contentsKept (hplaced : Placed cfg s.tracker) (h : ContentsKept mem s)
    (c : MoverCall α) : ContentsKept mem (moverStep s c) := by
  cases c with
  | moveExpertToGpu layerId expertId target env =>
      rcases moveExpertToGpu_cases env s layerId expertId target with
        ⟨l, e, slot, rfl, rfl, hadm, heff⟩ | ⟨-, hsame, -⟩
      · exact heff.contentsKept hplaced hadm h
      · rwa [moverStep, hsame]
  | moveExpertToCpu layerId expertId env =>
      rcases moveExpertToCpu_cases env s layerId expertId with
        ⟨l, e, slot, rfl, rfl, hadm, heff⟩ | ⟨-, hsame, -⟩
      · exact heff.contentsKept hplaced hadm h
      · rwa [moverStep, hsame]
  | engine numMb call =>
      have hkept := contentsKept_iff.mp h
      exact contentsKept_iff.mpr ⟨hkept.1.engine hplaced numMb call, hkept.2⟩
  | newBatch => exact ⟨h.gpu, h.cpu⟩
  | reset => exact ⟨h.gpu, h.cpu⟩

end Step

/-- In every state that moves, failed or not, and calls of the engine lead to, the weights
of every expert that started on the GPU are where the tracker says. -/
theorem moverRun_contentsKept (cfg : EngineConfig) (mem : ℕ → ℕ → α) (cache cold pin : ℕ → α)
    (calls : List (MoverCall α)) :
    ContentsKept mem (moverRun (.start cfg
      ⟨initGpuExperts cfg mem cache, cold, pin, 0, 0, fun _ => none⟩) calls) :=
  (foldl_preserves (I := fun s : MoverState cfg α => Placed cfg s.tracker ∧ ContentsKept mem s)
    (fun _ c _ hs => ⟨moverStep_placed hs.1 c, moverStep_contentsKept hs.1 hs.2 c⟩)
    ⟨Placed.start cfg, contentsKept_start mem cache cold pin⟩).2

end HarvestMoE
