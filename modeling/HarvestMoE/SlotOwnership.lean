import HarvestMoE.Lib.Run
import HarvestMoE.MoveEffects

/-!
# Who owns a slot of the GPU

The tracker alone says which slots are taken. `Placed` is what every move keeps, whatever
torch raises: the slots of a layer are its own `num_experts_gpu`, and no two experts hold
one. The counters of `can_move_to_gpu` need no bookkeeping, because there are never more
owners than slots; and the mapping follows the tracker as long as its writes go through.

## Main definitions

* `Placed` — the invariant of the tracker.
* `Synced` — the mapping names the tracked slots.
* `SlotsOwned` — ownership, as the records show it.
-/

namespace HarvestMoE

open Lib

variable {cfg : EngineConfig} {α : Type*}

/-- Slots of a layer. -/
def layerSlots (cfg : EngineConfig) (l : ℕ) : List ℤ :=
  (List.range cfg.numExpertsGpu).map fun i => ((l * cfg.numExpertsGpu + i : ℕ) : ℤ)

/-- The invariant of the tracker. -/
structure Placed (cfg : EngineConfig) (t : ExpertTracker) : Prop where
  layers_eq : t.numLayers = cfg.numHiddenLayers
  experts_eq : t.numExpertsPerLayer = cfg.numLocalExperts
  capacity_eq : t.gpuCapacity = cfg.numExpertsGpu * cfg.numHiddenLayers
  slot_mem : ∀ l e k, t.slotOf l e = some k →
    l < cfg.numHiddenLayers ∧ e < cfg.numLocalExperts ∧ k ∈ layerSlots cfg l
  exclusive : ∀ l, Exclusive (t.slotOf l)
  off_gpu : ∀ l e, l < cfg.numHiddenLayers → e < cfg.numLocalExperts → t.slotOf l e = none →
    (t.layers l e).location = .cpuMemory ∧ (t.layers l e).cacheSlot = -1

/-- The mapping names the slot of every persistent expert. -/
def Synced (s : MoverState cfg α) : Prop :=
  ∀ l e k, s.tracker.slotOf l e = some k → s.expertsMapping l e = k

/-- The persistent experts own their slots. -/
structure SlotsOwned (s : MoverState cfg α) : Prop where
  slot_mem : ∀ l e, l < cfg.numHiddenLayers → e < cfg.numLocalExperts →
    (s.tracker.layers l e).location = .gpuPersistent →
    ((l * cfg.numExpertsGpu : ℕ) : ℤ) ≤ (s.tracker.layers l e).cacheSlot ∧
      (s.tracker.layers l e).cacheSlot < (((l + 1) * cfg.numExpertsGpu : ℕ) : ℤ)
  distinct : ∀ l e e', l < cfg.numHiddenLayers → e < cfg.numLocalExperts →
    e' < cfg.numLocalExperts → (s.tracker.layers l e).location = .gpuPersistent →
    (s.tracker.layers l e').location = .gpuPersistent →
    (s.tracker.layers l e).cacheSlot = (s.tracker.layers l e').cacheSlot → e = e'
  mapping_eq : ∀ l e, l < cfg.numHiddenLayers → e < cfg.numLocalExperts →
    (s.tracker.layers l e).location = .gpuPersistent →
    s.expertsMapping l e = (s.tracker.layers l e).cacheSlot
  unshared : ∀ l l' e e', l < cfg.numHiddenLayers → l' < cfg.numHiddenLayers →
    e < cfg.numLocalExperts → e' < cfg.numLocalExperts →
    (s.tracker.layers l e).location = .gpuPersistent →
    (s.tracker.layers l' e').location = .gpuPersistent →
    (s.tracker.layers l e).cacheSlot = (s.tracker.layers l' e').cacheSlot → l = l'
  layer_le : ∀ l, l < cfg.numHiddenLayers → s.tracker.layerGpuExperts l ≤ cfg.numExpertsGpu
  total_le : s.tracker.totalGpuExperts ≤ s.tracker.gpuCapacity

theorem mem_layerSlots {l : ℕ} {k : ℤ} : k ∈ layerSlots cfg l ↔
    ∃ i, i < cfg.numExpertsGpu ∧ k = ((l * cfg.numExpertsGpu + i : ℕ) : ℤ) := by
  simp only [layerSlots, List.mem_map, List.mem_range]
  exact exists_congr fun i => and_congr_right fun _ => eq_comm

theorem layerSlots_length (cfg : EngineConfig) (l : ℕ) : (layerSlots cfg l).length = cfg.numExpertsGpu := by
  simp [layerSlots]

theorem layerSlots_nodup (cfg : EngineConfig) (l : ℕ) : (layerSlots cfg l).Nodup := by
  apply List.nodup_range.map
  intro i j h
  simpa using h

/-- A slot belongs to one layer. -/
theorem layer_eq_of_mem {l l' : ℕ} {k : ℤ} (h : k ∈ layerSlots cfg l)
    (h' : k ∈ layerSlots cfg l') : l = l' := by
  obtain ⟨i, hi, rfl⟩ := mem_layerSlots.mp h
  obtain ⟨j, hj, hij⟩ := mem_layerSlots.mp h'
  have heq : l * cfg.numExpertsGpu + i = l' * cfg.numExpertsGpu + j := by exact_mod_cast hij
  have hpos : 0 < cfg.numExpertsGpu := by omega
  have hl : (l * cfg.numExpertsGpu + i) / cfg.numExpertsGpu = l := by
    rw [Nat.mul_comm, Nat.mul_add_div hpos, Nat.div_eq_of_lt hi, Nat.add_zero]
  have hl' : (l' * cfg.numExpertsGpu + j) / cfg.numExpertsGpu = l' := by
    rw [Nat.mul_comm, Nat.mul_add_div hpos, Nat.div_eq_of_lt hj, Nat.add_zero]
  rw [← hl, heq, hl']

namespace Placed

variable {t : ExpertTracker}

/-- The slots that `init_gpu_experts` gives out. -/
theorem slotOf_initExpertTracker (cfg : EngineConfig) (l e : ℕ) :
    (initExpertTracker cfg).slotOf l e =
      if l < cfg.numHiddenLayers ∧ e < cfg.numExpertsGpu then
        some ((l * cfg.numExpertsGpu + e : ℕ) : ℤ)
      else none := by
  have hG := cfg.numExpertsGpu_le
  rw [initExpertTracker_eq]
  simp only [ExpertTracker.slotOf, initExpertLocation]
  by_cases hl : l < cfg.numHiddenLayers
  · by_cases he : e < cfg.numExpertsGpu
    · have heE : e < cfg.numLocalExperts := by omega
      simp [hl, he, heE]
    · by_cases heE : e < cfg.numLocalExperts <;> simp [hl, he, heE]
  · simp [hl]

/-- `init_gpu_experts` places the first experts of every layer. -/
theorem start (cfg : EngineConfig) : Placed cfg (initExpertTracker cfg) := by
  constructor
  case layers_eq => rw [initExpertTracker_eq]
  case experts_eq => rw [initExpertTracker_eq]
  case capacity_eq => rw [initExpertTracker_eq]
  case slot_mem =>
    intro l e k hk
    rw [slotOf_initExpertTracker] at hk
    split_ifs at hk with h
    obtain rfl := Option.some.inj hk
    have hG := cfg.numExpertsGpu_le
    exact ⟨h.1, by omega, mem_layerSlots.mpr ⟨e, h.2, rfl⟩⟩
  case exclusive =>
    intro l i j k hi hj
    rw [slotOf_initExpertTracker] at hi hj
    split_ifs at hi hj
    have heq : ((l * cfg.numExpertsGpu + i : ℕ) : ℤ) = (l * cfg.numExpertsGpu + j : ℕ) :=
      (Option.some.inj hi).trans (Option.some.inj hj).symm
    have : l * cfg.numExpertsGpu + i = l * cfg.numExpertsGpu + j := by exact_mod_cast heq
    omega
  case off_gpu =>
    intro l e hl he hnone
    rw [slotOf_initExpertTracker] at hnone
    have hG : ¬ e < cfg.numExpertsGpu := fun h => by simp [hl, h] at hnone
    rw [initExpertTracker_eq]
    simp [hl, he, hG, initExpertLocation]

/-- An expert takes a free slot of its layer. -/
theorem take (h : Placed cfg t) {l e : ℕ} {k : ℤ} (hl : l < cfg.numHiddenLayers)
    (he : e < cfg.numLocalExperts) (hk : k ∈ layerSlots cfg l)
    (hfree : ∀ e', t.slotOf l e' ≠ some k) (status : ExpertStatus) (device : ℤ) :
    Placed cfg { t with layers := put t.layers l e ⟨.gpuPersistent, status, device, k⟩ } := by
  have hslot := ExpertTracker.slotOf_put_gpu (t := t) (l := l) (e := e) k status device
  refine ⟨h.layers_eq, h.experts_eq, h.capacity_eq, ?_, ?_, ?_⟩
  · intro a b c hc
    rw [hslot] at hc
    by_cases hab : a = l ∧ b = e
    · obtain ⟨rfl, rfl⟩ := hab
      obtain rfl : k = c := by simpa using hc
      exact ⟨hl, he, hk⟩
    · rw [put_of_ne hab] at hc
      exact h.slot_mem a b c hc
  · intro a
    rw [hslot]
    by_cases ha : a = l
    · subst ha
      rw [put_row]
      exact (h.exclusive a).take e hfree
    · rw [put_row_of_ne ha]
      exact h.exclusive a
  · intro a b ha hb hnone
    rw [hslot] at hnone
    by_cases hab : a = l ∧ b = e
    · obtain ⟨rfl, rfl⟩ := hab
      simp at hnone
    · rw [put_of_ne hab] at hnone
      simpa [hab] using h.off_gpu a b ha hb hnone

/-- An expert leaves the GPU. -/
theorem release (h : Placed cfg t) (l e : ℕ) (status : ExpertStatus) (device : ℤ) :
    Placed cfg { t with layers := put t.layers l e ⟨.cpuMemory, status, device, -1⟩ } := by
  have hslot : ({ t with layers := put t.layers l e ⟨.cpuMemory, status, device, -1⟩ } :
      ExpertTracker).slotOf = put t.slotOf l e none := ExpertTracker.slotOf_put_other (by simp)
  refine ⟨h.layers_eq, h.experts_eq, h.capacity_eq, ?_, ?_, ?_⟩
  · intro a b c hc
    rw [hslot] at hc
    by_cases hab : a = l ∧ b = e
    · obtain ⟨rfl, rfl⟩ := hab
      simp at hc
    · rw [put_of_ne hab] at hc
      exact h.slot_mem a b c hc
  · intro a
    rw [hslot]
    by_cases ha : a = l
    · subst ha
      rw [put_row]
      exact (h.exclusive a).release e
    · rw [put_row_of_ne ha]
      exact h.exclusive a
  · intro a b ha hb hnone
    by_cases hab : a = l ∧ b = e
    · obtain ⟨rfl, rfl⟩ := hab
      simp
    · rw [hslot, put_of_ne hab] at hnone
      simpa [hab] using h.off_gpu a b ha hb hnone

/-- An admitted move to the GPU finds a slot of the layer that nobody holds. -/
theorem slot_of_admits (h : Placed cfg t) {l e slot : ℕ} (ha : GpuAdmits cfg t l e slot) :
    l < cfg.numHiddenLayers ∧ e < cfg.numLocalExperts ∧ t.slotOf l e = none ∧
      (slot : ℤ) ∈ layerSlots cfg l ∧ ∀ e', t.slotOf l e' ≠ some (slot : ℤ) := by
  obtain ⟨hknown, hnone, -, -⟩ := canMoveToGpu_eq_none.mp ha.1
  obtain ⟨hl, he⟩ := ExpertTracker.known_natCast.mp hknown
  obtain ⟨⟨i, hi, rfl⟩, hfree⟩ := findFreeGpuSlot_spec ha.2
  refine ⟨h.layers_eq ▸ hl, h.experts_eq ▸ he, by simpa using hnone,
    mem_layerSlots.mpr ⟨i, hi, rfl⟩, fun e' he' => hfree e' ?_ he'⟩
  rw [h.experts_eq]
  exact (h.slot_mem l e' _ he').2.1

theorem layerGpuExperts_le (h : Placed cfg t) (l : ℕ) : t.layerGpuExperts l ≤ cfg.numExpertsGpu := by
  rw [ExpertTracker.layerGpuExperts_eq, ← layerSlots_length cfg l]
  exact (h.exclusive l).countP_le List.nodup_range fun e _ k hk => (h.slot_mem l e k hk).2.2

theorem totalGpuExperts_le (h : Placed cfg t) : t.totalGpuExperts ≤ t.gpuCapacity := by
  have hsum := List.sum_le_card_nsmul ((List.range t.numLayers).map t.layerGpuExperts)
    cfg.numExpertsGpu fun n hn => by
      obtain ⟨l, -, rfl⟩ := List.mem_map.mp hn
      exact h.layerGpuExperts_le l
  rw [h.capacity_eq, Nat.mul_comm, ← h.layers_eq]
  simpa [ExpertTracker.totalGpuExperts] using hsum

end Placed

section Step

variable {s : MoverState cfg α}

/-- No call of torch raises. -/
def MoverCall.NoFault : MoverCall α → Prop
  | .moveExpertToGpu _ _ _ env => ∀ step, env.fails step = none
  | .moveExpertToCpu _ _ env => ∀ step, env.fails step = none
  | _ => True

/-- Every call keeps the tracker placed, also one that raises. -/
theorem moverStep_placed (h : Placed cfg s.tracker) (c : MoverCall α) :
    Placed cfg (moverStep s c).tracker := by
  cases c with
  | moveExpertToGpu layerId expertId target env =>
      rcases moveExpertToGpu_cases env s layerId expertId target with
        ⟨l, e, slot, rfl, rfl, hadm, heff⟩ | ⟨-, hsame, -⟩
      · obtain ⟨hl, he, -, hk, hfree⟩ := h.slot_of_admits hadm
        rw [moverStep, heff.tracker_eq]
        split_ifs
        · exact h.take hl he hk hfree _ _
        · exact h
      · rwa [moverStep, hsame]
  | moveExpertToCpu layerId expertId env =>
      rcases moveExpertToCpu_cases env s layerId expertId with
        ⟨l, e, slot, rfl, rfl, -, heff⟩ | ⟨-, hsame, -⟩
      · rw [moverStep, heff.tracker_eq]
        split_ifs
        · exact h.release l e _ _
        · exact h
      · rwa [moverStep, hsame]
  | engine numMb call => exact h
  | newBatch => exact h
  | reset => exact h

theorem moverRun_placed (weights : WeightState α) (calls : List (MoverCall α)) :
    Placed cfg (moverRun (.start cfg weights) calls).tracker :=
  foldl_preserves (I := fun s : MoverState cfg α => Placed cfg s.tracker)
    (fun _ c _ hs => moverStep_placed hs c) (Placed.start cfg)

/-- Without a torch failure the mapping follows the tracker. -/
theorem moverStep_synced (h : Synced s) {c : MoverCall α} (hc : c.NoFault) :
    Synced (moverStep s c) := by
  cases c with
  | moveExpertToGpu layerId expertId target env =>
      rcases moveExpertToGpu_cases env s layerId expertId target with
        ⟨l, e, slot, rfl, rfl, -, heff⟩ | ⟨-, hsame, -⟩
      · intro a b k hk
        rw [moverStep, heff.tracker_eq] at hk
        rw [moverStep, heff.mapping_eq]
        have hwrite : env.fails .writeMapping = none := hc _
        split_ifs at hk with htracks
        · rw [if_pos ⟨htracks, hwrite⟩]
          rw [ExpertTracker.slotOf_put_gpu] at hk
          by_cases hab : a = l ∧ b = e
          · obtain ⟨rfl, rfl⟩ := hab
            simpa using hk
          · rw [put_of_ne hab] at hk ⊢
            exact h a b k hk
        · rw [if_neg fun hw => htracks hw.1]
          exact h a b k hk
      · rwa [moverStep, hsame]
  | moveExpertToCpu layerId expertId env =>
      rcases moveExpertToCpu_cases env s layerId expertId with
        ⟨l, e, slot, rfl, rfl, -, heff⟩ | ⟨-, hsame, -⟩
      · intro a b k hk
        rw [moverStep, heff.tracker_eq] at hk
        rw [moverStep, heff.mapping_eq]
        have hwrite : env.fails .writeMapping = none := hc _
        split_ifs at hk with htracks
        · rw [if_pos ⟨htracks, hwrite⟩]
          rw [ExpertTracker.slotOf_put_other (by simp)] at hk
          by_cases hab : a = l ∧ b = e
          · obtain ⟨rfl, rfl⟩ := hab
            simp at hk
          · rw [put_of_ne hab] at hk ⊢
            exact h a b k hk
        · rw [if_neg fun hw => htracks hw.1]
          exact h a b k hk
      · rwa [moverStep, hsame]
  | engine numMb call => exact h
  | newBatch => exact h
  | reset => exact h

theorem synced_start (weights : WeightState α) : Synced (MoverState.start cfg weights) := by
  intro l e k hk
  simp only [MoverState.start] at hk ⊢
  rw [initExpertTracker_eq] at hk
  obtain ⟨hgpu, hslot⟩ := ExpertTracker.slotOf_eq_some.mp hk
  simp only at hgpu hslot
  split_ifs at hgpu hslot with hle
  by_cases hG : e < cfg.numExpertsGpu
  · rw [initExpertsMapping_gpu hG, ← hslot]
    simp [initExpertLocation, hG]
  · simp [initExpertLocation, hG] at hgpu

/-- A placed tracker and a synced mapping are ownership. -/
theorem slotsOwned_of_placed (h : Placed cfg s.tracker) (hsync : Synced s) : SlotsOwned s := by
  have hmem : ∀ l e, (s.tracker.layers l e).location = .gpuPersistent →
      (s.tracker.layers l e).cacheSlot ∈ layerSlots cfg l := fun l e hgpu =>
    (h.slot_mem l e _ (ExpertTracker.slotOf_of_gpu hgpu)).2.2
  constructor
  case slot_mem =>
    intro l e _ _ hgpu
    obtain ⟨i, hi, hk⟩ := mem_layerSlots.mp (hmem l e hgpu)
    rw [hk, Nat.add_mul, Nat.one_mul]
    omega
  case distinct =>
    intro l e e' _ _ _ hgpu hgpu' heq
    refine h.exclusive l e e' _ (ExpertTracker.slotOf_of_gpu hgpu) ?_
    rw [heq]
    exact ExpertTracker.slotOf_of_gpu hgpu'
  case mapping_eq => exact fun l e _ _ hgpu => hsync l e _ (ExpertTracker.slotOf_of_gpu hgpu)
  case unshared =>
    intro l l' e e' _ _ _ _ hgpu hgpu' heq
    exact layer_eq_of_mem (hmem l e hgpu) (heq ▸ hmem l' e' hgpu')
  case layer_le => exact fun l _ => h.layerGpuExperts_le l
  case total_le => exact h.totalGpuExperts_le

end Step

/-- In every state that moves without a torch failure lead to, the persistent experts own
their slots. -/
theorem moverRun_slotsOwned (weights : WeightState α) (calls : List (MoverCall α))
    (hok : ∀ c ∈ calls, c.NoFault) : SlotsOwned (moverRun (.start cfg weights) calls) :=
  slotsOwned_of_placed (moverRun_placed weights calls)
    (foldl_preserves (fun _ c hc hs => moverStep_synced hs (hok c hc)) (synced_start weights))

/-- The swap of the two experts of layer 0. -/
theorem moverRun_slotsOwned_swap :
    SlotsOwned (moverRun
      (.start (EngineConfig.small 3 (by decide))
        ⟨fun _ => 0, fun _ => 0, fun _ => 0, 0, 0, fun _ => none⟩)
      [.moveExpertToCpu 0 0 (.calm fun _ => 0), .moveExpertToGpu 0 1 none (.calm fun _ => 0)]) :=
  moverRun_slotsOwned _ _ (by simp [MoverCall.NoFault, MoveEnv.calm])

end HarvestMoE
