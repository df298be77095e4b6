import HarvestMoE.SlotOwnership

/-!
# When a layer has room

`move_expert_to_gpu` asks three times whether there is room: it counts the persistent
experts of all layers, it counts those of the layer, and it looks for a slot. The last two
agree because the persistent experts of a layer hold different slots, all of the layer; and
when one layer has room, the sum over the layers is below the capacity. So the count of
the layer decides alone.

## Main definitions

* `RoomDecides` — the move to the GPU succeeds when the layer has room, and only then.
-/

namespace HarvestMoE

open Lib

variable {cfg : EngineConfig} {α : Type*}

/-- Torch raises nothing during the move. -/
def MoveEnv.Quiet (env : MoveEnv α) : Prop := ∀ step, env.fails step = none

/-- What admits an expert to the GPU. -/
structure RoomDecides (s : MoverState cfg α) : Prop where
  succeeds_iff : ∀ (env : MoveEnv α) (layerId expertId : ℤ) (target : Option ℤ), env.Quiet →
    ((moveExpertToGpu env s layerId expertId target).2.1 = true ↔
      s.tracker.Known layerId expertId ∧
        (s.tracker.layers layerId.toNat expertId.toNat).location ≠ .gpuPersistent ∧
        s.tracker.layerGpuExperts layerId.toNat < cfg.numExpertsGpu)
  slot_found : ∀ layerId expertId : ℤ, canMoveToGpu cfg s.tracker layerId expertId = none →
    findFreeGpuSlot cfg s.tracker layerId.toNat ≠ none
  capacity_left : ∀ layerId expertId : ℤ, s.tracker.Known layerId expertId →
    s.tracker.layerGpuExperts layerId.toNat < cfg.numExpertsGpu →
      canMoveToGpu cfg s.tracker layerId expertId ≠ some "GPU expert capacity full"
  swap : ∀ (env env' : MoveEnv α) (layerId expertId expertId' : ℤ) (target : Option ℤ),
    (moveExpertToCpu env s layerId expertId).2.1 = true → env'.Quiet →
      s.tracker.Known layerId expertId' →
      ((moveExpertToCpu env s layerId expertId).1.tracker.layers layerId.toNat
        expertId'.toNat).location = .cpuMemory →
      (moveExpertToGpu env' (moveExpertToCpu env s layerId expertId).1 layerId expertId'
        target).2.1 = true

section Counters

variable {t : ExpertTracker} {l : ℕ}

/-- The layer has room when one of its slots is held by nobody. -/
theorem Placed.layerGpuExperts_lt_iff (h : Placed cfg t) (l : ℕ) :
    t.layerGpuExperts l < cfg.numExpertsGpu ↔
      ∃ k ∈ layerSlots cfg l, ∀ e, e < t.numExpertsPerLayer → t.slotOf l e ≠ some k := by
  rw [ExpertTracker.layerGpuExperts_eq, ← layerSlots_length cfg l]
  have hrange : (∃ k ∈ layerSlots cfg l, ∀ e, e < t.numExpertsPerLayer → t.slotOf l e ≠ some k) ↔
      ∃ k ∈ layerSlots cfg l, ∀ e ∈ List.range t.numExpertsPerLayer, t.slotOf l e ≠ some k := by
    simp only [List.mem_range]
  rw [hrange]
  exact (h.exclusive l).countP_lt_iff List.nodup_range (layerSlots_nodup cfg l)
    fun e _ k hk => (h.slot_mem l e k hk).2.2

/-- The scan finds a slot when the layer has room. -/
theorem Placed.findFreeGpuSlot_isSome_iff (h : Placed cfg t) (l : ℕ) :
    (findFreeGpuSlot cfg t l).isSome ↔ t.layerGpuExperts l < cfg.numExpertsGpu := by
  rw [h.layerGpuExperts_lt_iff l]
  constructor
  · intro hsome
    have ⟨slot, hslot⟩ := Option.isSome_iff_exists.mp hsome
    have ⟨⟨i, hi, heq⟩, hfree⟩ := findFreeGpuSlot_spec hslot
    exact ⟨slot, mem_layerSlots.mpr ⟨i, hi, by rw [heq]⟩, hfree⟩
  · intro hroom
    have ⟨k, hk, hfree⟩ := hroom
    have ⟨i, hi, hki⟩ := mem_layerSlots.mp hk
    have hG : cfg.numExpertsGpu ≠ 0 := by omega
    rw [findFreeGpuSlot, if_neg hG, List.find?_isSome]
    refine ⟨l * cfg.numExpertsGpu + i, List.mem_map.mpr ⟨i, List.mem_range.mpr hi, rfl⟩, ?_⟩
    rw [isSlotFree_iff, ← hki]
    exact hfree

/-- When one layer has room, the capacity is not used up. -/
theorem Placed.totalGpuExperts_lt (h : Placed cfg t) (hl : l < cfg.numHiddenLayers)
    (hroom : t.layerGpuExperts l < cfg.numExpertsGpu) : t.totalGpuExperts < t.gpuCapacity := by
  have hsum : ((List.range t.numLayers).map t.layerGpuExperts).sum <
      ((List.range t.numLayers).map fun _ => cfg.numExpertsGpu).sum := by
    apply List.sum_lt_sum
    · exact fun a _ => h.layerGpuExperts_le a
    · exact ⟨l, List.mem_range.mpr (h.layers_eq ▸ hl), hroom⟩
  have hcap : ((List.range t.numLayers).map fun _ => cfg.numExpertsGpu).sum = t.gpuCapacity := by
    rw [h.capacity_eq, h.layers_eq, Nat.mul_comm]
    simp
  rwa [hcap] at hsum

/-- The count of the layer is the one guard that counts. -/
theorem Placed.canMoveToGpu_eq_none_iff (h : Placed cfg t) {layerId expertId : ℤ} :
    canMoveToGpu cfg t layerId expertId = none ↔
      t.Known layerId expertId ∧
        (t.layers layerId.toNat expertId.toNat).location ≠ .gpuPersistent ∧
        t.layerGpuExperts layerId.toNat < cfg.numExpertsGpu := by
  rw [canMoveToGpu_eq_none, ExpertTracker.slotOf_eq_none]
  constructor
  · intro hguards
    exact ⟨hguards.1, hguards.2.1, hguards.2.2.2⟩
  · intro hroom
    have hl : layerId.toNat < cfg.numHiddenLayers := by
      have hknown := hroom.1.2.1
      rw [h.layers_eq] at hknown
      have := cfg.layers_pos
      omega
    exact ⟨hroom.1, hroom.2.1, h.totalGpuExperts_lt hl hroom.2.2, hroom.2.2⟩

end Counters

section Moves

variable {s : MoverState cfg α}

theorem MoveEnv.Quiet.tracks {env : MoveEnv α} (h : env.Quiet) (s : MoverState cfg α) (l e : ℕ) :
    env.Tracks s l e :=
  ⟨h _, .inr (h _), h _, h _⟩

/-- A move that torch does not disturb succeeds when the guard passes. -/
theorem moveExpertToGpu_succeeds_iff (h : Placed cfg s.tracker) {env : MoveEnv α}
    (hquiet : env.Quiet) (layerId expertId : ℤ) (target : Option ℤ) :
    (moveExpertToGpu env s layerId expertId target).2.1 = true ↔
      canMoveToGpu cfg s.tracker layerId expertId = none := by
  rcases moveExpertToGpu_cases env s layerId expertId target with
    ⟨l, e, slot, rfl, rfl, hadm, heff⟩ | ⟨hrefused, -, hfail⟩
  · rw [heff.succeeded_iff]
    exact iff_of_true ⟨hquiet.tracks s l e, hquiet _, hquiet _⟩ hadm.1
  · rw [hfail]
    refine iff_of_false (by simp) fun hcan => ?_
    have hroom := h.canMoveToGpu_eq_none_iff.mp hcan
    have ⟨l, e, hl, he, _⟩ := hroom.1.exists_natCast
    subst hl he
    have ⟨slot, hslot⟩ := Option.isSome_iff_exists.mp
      ((h.findFreeGpuSlot_isSome_iff l).mpr hroom.2.2)
    exact hrefused l e slot rfl rfl ⟨hcan, hslot⟩

/-- A successful move to the CPU leaves room in the layer: the slot given back is held by
nobody. -/
theorem ToCpuEffect.leaves_room {env : MoveEnv α} {l e slot : ℕ}
    {r : MoverState cfg α × MoveResult} (heff : ToCpuEffect env s l e slot r)
    (h : Placed cfg s.tracker) (hadm : CpuAdmits s.tracker l e slot) (hok : r.2.1 = true) :
    r.1.tracker.layerGpuExperts l < cfg.numExpertsGpu := by
  have htracked := (heff.succeeded_iff.mp hok).1
  have htracker := heff.tracker_eq
  rw [if_pos htracked] at htracker
  have hplaced : Placed cfg r.1.tracker := by
    rw [htracker]
    exact h.release l e _ _
  refine (hplaced.layerGpuExperts_lt_iff l).mpr
    ⟨slot, (h.slot_mem l e _ hadm.2).2.2, fun e' _ hheld => ?_⟩
  rw [htracker, ExpertTracker.slotOf_put_other (by simp)] at hheld
  by_cases he : e' = e
  · subst he
    simp at hheld
  · rw [put_of_ne fun hab => he hab.2] at hheld
    exact he (h.exclusive l e' e _ hheld hadm.2)

theorem Placed.roomDecides (h : Placed cfg s.tracker) : RoomDecides s := by
  constructor
  case succeeds_iff =>
    intro env layerId expertId target hquiet
    rw [moveExpertToGpu_succeeds_iff h hquiet, h.canMoveToGpu_eq_none_iff]
  case slot_found =>
    intro layerId expertId hcan
    rw [← Option.isSome_iff_ne_none, h.findFreeGpuSlot_isSome_iff]
    exact (h.canMoveToGpu_eq_none_iff.mp hcan).2.2
  case capacity_left =>
    intro layerId expertId hknown hroom hfull
    by_cases hloc : (s.tracker.layers layerId.toNat expertId.toNat).location = .gpuPersistent
    · simp [canMoveToGpu, ExpertTracker.getExpertLocation, hknown, hloc] at hfull
    · rw [h.canMoveToGpu_eq_none_iff.mpr ⟨hknown, hloc, hroom⟩] at hfull
      simp at hfull
  case swap =>
    intro env env' layerId expertId expertId' target hok hquiet hknown hcpu
    rcases moveExpertToCpu_cases env s layerId expertId with
      ⟨l, e, slot, rfl, rfl, hadm, heff⟩ | ⟨-, -, hfail⟩
    · have hplaced : Placed cfg (moveExpertToCpu env s l e).1.tracker :=
        moverStep_placed h (.moveExpertToCpu l e env)
      have hroom := heff.leaves_room h hadm hok
      rw [moveExpertToGpu_succeeds_iff hplaced hquiet]
      refine hplaced.canMoveToGpu_eq_none_iff.mpr ⟨?_, by rw [hcpu]; simp, hroom⟩
      have hL := hplaced.layers_eq.trans h.layers_eq.symm
      have hE := hplaced.experts_eq.trans h.experts_eq.symm
      simpa only [ExpertTracker.Known, hL, hE] using hknown
    · rw [hok] at hfail
      exact absurd hfail (by simp)

end Moves

/-- In every state that calls lead to, also calls that fail, room in the layer decides. -/
theorem moverRun_roomDecides (cfg : EngineConfig) (weights : WeightState α)
    (calls : List (MoverCall α)) : RoomDecides (moverRun (.start cfg weights) calls) :=
  (moverRun_placed weights calls).roomDecides

end HarvestMoE
