import HarvestMoE.Lib.Mutex
import HarvestMoE.SlotOwnership

/-!
# Resynchronising the tracker

`sync_with_experts_mapping` takes the lock of the tracker and calls
`update_expert_location` for every expert of the layer. That takes the same lock, which is
a plain `Lock`: the call never returns. Even if it did, it would go by the number of the
expert and not by the mapping, so that the experts that swaps have brought to the GPU
would lose their slots.

## Main definitions

* `updateOps`, `syncOps` — the two methods, as programs over the lock.
* `SyncHarmless` — the call returns, and the persistent experts keep their slots.
* `syncBody` — what the call would do to the tracker.
-/

namespace HarvestMoE

open Lib

variable {cfg : EngineConfig} {α : Type*}

/-- `update_expert_location`. -/
def updateOps (layerId expertId : ℤ) (loc : ExpertLocation) : List (LockOp ExpertTracker) :=
  [.acquire, .act fun t => t.updateExpertLocation layerId expertId loc, .release]

/-- The location that the call enters for an expert. -/
def syncLocation (numGpuExperts expertId : ℕ) (cacheIdx : ℤ) : ExpertLocation :=
  let slot := if 0 ≤ cacheIdx then cacheIdx else -1
  if expertId < numGpuExperts then
    { location := .gpuPersistent, status := .cached, deviceId := 0, cacheSlot := slot }
  else if 0 ≤ cacheIdx then
    { location := .gpuCache, status := .cached, deviceId := 0, cacheSlot := slot }
  else
    { location := .cpuMemory, status := .cached, deviceId := -1, cacheSlot := slot }

/-- `sync_with_experts_mapping`. -/
def syncOps (t : ExpertTracker) (layerId : ℤ) (mapping : List ℤ) (numGpuExperts : ℕ) :
    List (LockOp ExpertTracker) :=
  .acquire ::
    ((if 0 ≤ layerId ∧ layerId < t.numLayers then
        (List.range mapping.length).flatMap fun (e : ℕ) =>
          updateOps layerId e (syncLocation numGpuExperts e (mapping.getD e 0))
      else []) ++ [.release])

/-- The mapping of a layer. -/
def mappingRow (s : MoverState cfg α) (l : ℕ) : List ℤ :=
  (List.range cfg.numLocalExperts).map (s.expertsMapping l)

/-- Thread 0 calls `sync_with_experts_mapping`, while other threads run other methods. -/
def callSync (s : MoverState cfg α) (layerId : ℤ) (others : ℕ → List (LockOp ExpertTracker)) :
    Threads ExpertTracker where
  owner := none
  data := s.tracker
  code := Function.update others 0
    (syncOps s.tracker layerId (mappingRow s layerId.toNat) cfg.numExpertsGpu)

/-- In some schedule the call returns, and the persistent experts of the layer are the same
and have the same slots. -/
def SyncHarmless (s : MoverState cfg α) (l : ℕ) (others : ℕ → List (LockOp ExpertTracker)) :
    Prop :=
  ∃ schedule, ((callSync s l others).run schedule).code 0 = [] ∧
    ∀ e, ((callSync s l others).run schedule).data.slotOf l e = s.tracker.slotOf l e

section Lock

variable {s : MoverState cfg α} {others : ℕ → List (LockOp ExpertTracker)}

/-- A layer that the tracker does not know is left at once. -/
theorem sync_completes_of_unknown {layerId : ℤ}
    (hunknown : ¬ (0 ≤ layerId ∧ layerId < s.tracker.numLayers)) :
    (callSync s layerId others).Completes 0 := by
  have hcode : (callSync s layerId others).code 0 =
      .acquire :: (([] : List (ExpertTracker → ExpertTracker)).map .act ++ [.release]) := by
    simp [callSync, syncOps, hunknown]
  exact Threads.completes_of_block rfl hcode

/-- For a layer it knows, the call asks for the lock again at the first expert. -/
theorem syncOps_reenters {t : ExpertTracker} {layerId : ℤ}
    (hknown : 0 ≤ layerId ∧ layerId < t.numLayers) {mapping : List ℤ} {n : ℕ}
    (hlength : mapping.length = n + 1) (numGpuExperts : ℕ) :
    ∃ rest, syncOps t layerId mapping numGpuExperts = .acquire :: .acquire :: rest := by
  rw [syncOps, if_pos hknown, hlength, List.range_succ_eq_map, List.flatMap_cons]
  exact ⟨_, rfl⟩

/-- The call for a layer of the tracker waits for itself. -/
theorem not_syncHarmless (h : Placed cfg s.tracker) {l : ℕ} (hl : l < cfg.numHiddenLayers)
    (hothers : ∀ i, Bracketed False (others i)) : ¬ SyncHarmless s l others := by
  have hknown : 0 ≤ (l : ℤ) ∧ (l : ℤ) < s.tracker.numLayers := by
    rw [h.layers_eq]
    omega
  have ⟨n, hn⟩ := Nat.exists_eq_succ_of_ne_zero cfg.experts_pos.ne'
  have hlength : (mappingRow s l).length = n + 1 := by
    rw [mappingRow, List.length_map, List.length_range, hn]
  have ⟨rest, hops⟩ := syncOps_reenters hknown hlength cfg.numExpertsGpu
  have hcode : (callSync s l others).code 0 = .acquire :: .acquire :: rest := by
    simpa [callSync] using hops
  have hdisciplined : (callSync s l others).Disciplined := by
    intro j
    by_cases hj : j = 0
    · subst hj
      rw [hcode]
      exact .inr (.inl trivial)
    · have hother := hothers j
      simpa [callSync, hj] using hother
  have hreenters : (callSync s l others).Reenters 0 :=
    .inl ⟨by simp [callSync], [], rest, hcode⟩
  intro hharmless
  have ⟨schedule, hend, _⟩ := hharmless
  exact Threads.not_completes_of_reentry hdisciplined hreenters ⟨schedule, hend⟩

end Lock

/-- In no state that calls lead to, and for no layer, resynchronising is harmless. -/
theorem moverRun_not_syncHarmless (cfg : EngineConfig) (weights : WeightState α)
    (calls : List (MoverCall α)) (others : ℕ → List (LockOp ExpertTracker))
    (hothers : ∀ i, Bracketed False (others i)) (l : ℕ) (hl : l < cfg.numHiddenLayers) :
    ¬ SyncHarmless (moverRun (.start cfg weights) calls) l others :=
  not_syncHarmless (moverRun_placed weights calls) hl hothers

theorem moverRun_not_syncHarmless_small :
    ¬ SyncHarmless (moverRun
      (.start (EngineConfig.small 3 (by decide))
        ⟨fun _ => 0, fun _ => 0, fun _ => 0, 0, 0, fun _ => none⟩)
      [.moveExpertToCpu 0 0 (.calm fun _ => 0)]) 0 fun _ => [] :=
  moverRun_not_syncHarmless _ _ _ _ (fun _ => bracketed_nil) 0 (by decide)

/-- Right after `init_gpu_experts`, with nobody else around, the call does not return. -/
theorem moverRun_syncHarmless_fails :
    ¬ ∀ l, l < 2 → SyncHarmless (moverRun
      (.start (EngineConfig.small 3 (by decide))
        ⟨fun _ => 0, fun _ => 0, fun _ => 0, 0, 0, fun _ => none⟩) ([] : List (MoverCall ℕ))) l
          fun _ => [] := by
  intro h
  exact not_syncHarmless (Placed.start _) (by decide) (fun _ => bracketed_nil) (h 0 (by decide))

section Classification

variable {s : MoverState cfg α} {l : ℕ}

/-- The updates of `sync_with_experts_mapping`, if the lock let them through. -/
def syncBody (t : ExpertTracker) (l : ℕ) (mapping : List ℤ) (numGpuExperts : ℕ) : ExpertTracker :=
  (List.range mapping.length).foldl (fun t (e : ℕ) =>
    t.updateExpertLocation l e (syncLocation numGpuExperts e (mapping.getD e 0))) t

/-- The first experts of the layer are persistent afterwards, wherever they are. -/
theorem syncBody_slotOf (h : Placed cfg s.tracker) (hl : l < cfg.numHiddenLayers) {e : ℕ}
    (he : e < cfg.numLocalExperts) :
    (syncBody s.tracker l (mappingRow s l) cfg.numExpertsGpu).slotOf l e =
      if e < cfg.numExpertsGpu then
        some (if 0 ≤ s.expertsMapping l e then s.expertsMapping l e else -1)
      else none := by
  have hlength : (mappingRow s l).length = cfg.numLocalExperts := by simp [mappingRow]
  have hentry : (mappingRow s l).getD e 0 = s.expertsMapping l e := by
    simp [mappingRow, List.getD_eq_getElem?_getD, he]
  rw [syncBody, hlength, foldl_updateExpertLocation _ (h.layers_eq ▸ hl) (h.experts_eq ▸ le_rfl)]
  simp only [ExpertTracker.slotOf, he, and_self, if_true, hentry, syncLocation]
  by_cases hG : e < cfg.numExpertsGpu
  · simp [hG]
  · by_cases hpos : 0 ≤ s.expertsMapping l e <;> simp [hG, hpos]

/-- Without the lock the call keeps the slots of the layer if and only if its persistent
experts are the first ones, as before any swap. -/
theorem syncBody_keeps_iff (h : Placed cfg s.tracker) (hsync : Synced s)
    (hl : l < cfg.numHiddenLayers) :
    (∀ e, e < cfg.numLocalExperts →
      (syncBody s.tracker l (mappingRow s l) cfg.numExpertsGpu).slotOf l e =
        s.tracker.slotOf l e) ↔
      ∀ e, e < cfg.numLocalExperts →
        ((s.tracker.slotOf l e).isSome ↔ e < cfg.numExpertsGpu) := by
  refine forall₂_congr fun e he => ?_
  rw [syncBody_slotOf h hl he]
  cases hslot : s.tracker.slotOf l e with
  | none => simp
  | some k =>
      have hmapping := hsync l e k hslot
      have ⟨i, _, hk⟩ := mem_layerSlots.mp (h.slot_mem l e k hslot).2.2
      have hpos : 0 ≤ k := by omega
      simp [hmapping, hpos]

end Classification

end HarvestMoE
