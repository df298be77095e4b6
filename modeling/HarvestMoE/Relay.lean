import HarvestMoE.Lib.Loops
import HarvestMoE.Lib.Places
import HarvestMoE.Schedule

/-!
# The relay of the weights through pinned memory

Each `prefetch_experts_to_pin` submits a copy job and keeps its future under the slot;
the decode branch of `prefetch_experts` waits for the future of its slot. The futures
are overwritten and never cleared, so nothing but the schedule keeps jobs and uses in
step. `RelayLedger` keeps the jobs with their uses. Above it each slot is a one-place
buffer, which a job fills and a use of the same layer empties; the ledger follows the
buffers (`run_of_slots`), and the schedule runs on them (`exec_forwardCalls`).

## Main definitions

* `RelayLedger`, `relayStep` — the copy jobs and the futures.
* `Call.HandedOver` — a decode prefetch finds the latest job of its slot, for its layer
  and not used before.
* `slotStep` — one slot as a one-place buffer.
* `relay_handedOver` — the relay over a whole batch.
-/

namespace HarvestMoE

open Lib

/-- A copy job, with the number of prefetches that have waited for it. -/
structure RelayJob where
  layerId : ℕ
  slotId : ℕ
  consumed : ℕ
  deriving DecidableEq, Repr

/-- The jobs in the order they were submitted, and for each slot the index of the job
whose future is kept. -/
structure RelayLedger where
  jobs : List RelayJob
  copyFutures : ℕ → Option ℕ

/-- `create_micro_batches` clears the futures. -/
def RelayLedger.newBatch : RelayLedger := ⟨[], fun _ => none⟩

namespace RelayLedger

/-- `prefetch_experts_to_pin`: submit a job and keep its future. -/
def prefetchExpertsToPin (s : RelayLedger) (layerId slotId : ℕ) : RelayLedger where
  jobs := s.jobs ++ [⟨layerId, slotId, 0⟩]
  copyFutures := Function.update s.copyFutures slotId (some s.jobs.length)

/-- `self.copy_futures[slot_id].result()`, which raises when there is no future. -/
def result (s : RelayLedger) (slotId : ℕ) : Option RelayLedger :=
  (s.copyFutures slotId).map fun j =>
    { s with jobs := s.jobs.modify j fun job => { job with consumed := job.consumed + 1 } }

end RelayLedger

/-- The effect of a host call on the relay. -/
def relayStep (s : RelayLedger) : Call → Option RelayLedger
  | .prefetchExpertsToPin layerId slotId => some (s.prefetchExpertsToPin layerId slotId)
  | .prefetchExperts _ _ slotId .decode => s.result slotId
  | _ => some s

/-- The future of the slot is set, its job is the latest one of the slot, was submitted
for the layer, and no prefetch has waited for it. -/
def RelayLedger.Ready (s : RelayLedger) (layerId slotId : ℕ) : Prop :=
  ∃ j, s.copyFutures slotId = some j ∧ s.jobs[j]? = some ⟨layerId, slotId, 0⟩ ∧
    ∀ j' job, j < j' → s.jobs[j']? = some job → job.slotId ≠ slotId

/-- What a decode prefetch relies on. -/
def HandedOver (s : RelayLedger) : Call → Prop
  | .prefetchExperts layerId _ slotId .decode => s.Ready layerId slotId
  | _ => True

/-- The slot of the relay that a call fills or empties. -/
def Call.relaySlot : Call → Option ℕ
  | .prefetchExpertsToPin _ slotId => some slotId
  | .prefetchExperts _ _ slotId .decode => some slotId
  | _ => none

/-- A slot as a buffer with one place. A job for a full slot and a use of an empty one
fail, and so does a use for another layer than the job's. -/
def slotStep (layer : Option ℕ) : Call → Option (Option ℕ)
  | .prefetchExpertsToPin layerId _ => if layer = none then some (some layerId) else none
  | .prefetchExperts layerId _ _ .decode => if layer = some layerId then some none else none
  | _ => some layer

/-- All slots together. -/
def slotsStep : (ℕ → Option ℕ) → Call → Option (ℕ → Option ℕ) :=
  placesStep Call.relaySlot fun _ => slotStep

/-- The ledger agrees with the buffers: a full slot has a job that is ready, and the
other jobs have been used once. -/
structure RelayLedger.Agrees (s : RelayLedger) (layer : ℕ → Option ℕ) : Prop where
  ready : ∀ k l, layer k = some l → s.Ready l k
  used : ∀ (j : ℕ) job, s.jobs[j]? = some job →
    job.consumed = 1 ∨ ∃ l, layer job.slotId = some l ∧ s.copyFutures job.slotId = some j

section Agrees

variable {s : RelayLedger} {layer layer' : ℕ → Option ℕ}

theorem RelayLedger.Agrees.newBatch : RelayLedger.newBatch.Agrees fun _ => none :=
  ⟨by simp, by simp [RelayLedger.newBatch]⟩

/-- A job is submitted for an empty slot. -/
theorem RelayLedger.Agrees.submit (h : s.Agrees layer) (l : ℕ) {k : ℕ} (hk : layer k = none) :
    (s.prefetchExpertsToPin l k).Agrees (Function.update layer k (some l)) := by
  constructor
  · intro k' l' hl'
    by_cases hne : k' = k
    · subst hne
      simp only [Function.update_self, Option.some.injEq] at hl'
      subst hl'
      refine ⟨s.jobs.length, by simp [prefetchExpertsToPin], by simp [prefetchExpertsToPin], ?_⟩
      intro j' job hj' hjob
      have hlt := (List.getElem?_eq_some_iff.mp hjob).1
      simp only [prefetchExpertsToPin, List.length_append, List.length_singleton] at hlt
      omega
    · rw [Function.update_of_ne hne] at hl'
      obtain ⟨j, hfut, hjob, hlatest⟩ := h.ready k' l' hl'
      have hj := (List.getElem?_eq_some_iff.mp hjob).1
      refine ⟨j, by simpa [prefetchExpertsToPin, Function.update_of_ne hne] using hfut, ?_, ?_⟩
      · rw [prefetchExpertsToPin, List.getElem?_append_left hj]
        exact hjob
      · intro j' job hj' hjob'
        simp only [prefetchExpertsToPin, List.getElem?_append] at hjob'
        split_ifs at hjob' with hlt
        · exact hlatest j' job hj' hjob'
        · have hnew := List.mem_of_getElem? hjob'
          rw [List.mem_singleton] at hnew
          subst hnew
          exact fun heq => hne heq.symm
  · intro j job hjob
    simp only [prefetchExpertsToPin, List.getElem?_append] at hjob
    split_ifs at hjob with hlt
    · refine (h.used j job hjob).imp_right fun hfull => ?_
      obtain ⟨l', hl', hfut⟩ := hfull
      have hne : job.slotId ≠ k := fun heq => by simp [heq, hk] at hl'
      exact ⟨l', by rwa [Function.update_of_ne hne],
        by simpa [prefetchExpertsToPin, Function.update_of_ne hne] using hfut⟩
    · right
      have hnew := List.mem_of_getElem? hjob
      rw [List.mem_singleton] at hnew
      subst hnew
      have hj := (List.getElem?_eq_some_iff.mp hjob).1
      simp only [List.length_singleton] at hj
      have hlast : j = s.jobs.length := by omega
      exact ⟨l, by simp, by simp [prefetchExpertsToPin, hlast]⟩

/-- The job of a full slot is used. -/
theorem RelayLedger.Agrees.use (h : s.Agrees layer) {l k : ℕ} (hk : layer k = some l) :
    ∃ t, s.result k = some t ∧ t.Agrees (Function.update layer k none) := by
  obtain ⟨j, hfut, hjob, hlatest⟩ := h.ready k l hk
  let use : RelayJob → RelayJob := fun job => { job with consumed := job.consumed + 1 }
  refine ⟨{ s with jobs := s.jobs.modify j use }, by rw [result, hfut]; rfl, ?_, ?_⟩
  · intro k' l' hl'
    have hne : k' ≠ k := fun heq => by simp [heq] at hl'
    rw [Function.update_of_ne hne] at hl'
    obtain ⟨j', hfut', hjob', hlatest'⟩ := h.ready k' l' hl'
    have hj : j ≠ j' := by
      rintro rfl
      rw [hjob'] at hjob
      exact hne (by simpa using congrArg (Option.map RelayJob.slotId) hjob)
    refine ⟨j', hfut', by simp [hj, hjob'], fun i job hi hmem => ?_⟩
    obtain ⟨old, hold, heq⟩ :=
      Option.map_eq_some_iff.mp ((List.getElem?_modify use j _ i).symm.trans hmem)
    have hslot : job.slotId = old.slotId := by
      rw [← heq]
      split_ifs <;> rfl
    exact hslot ▸ hlatest' i old hi hold
  · intro i job hmem
    obtain ⟨old, hold, heq⟩ :=
      Option.map_eq_some_iff.mp ((List.getElem?_modify use j _ i).symm.trans hmem)
    by_cases hi : j = i
    · subst hi
      rw [hjob] at hold
      left
      rw [if_pos rfl] at heq
      rw [← heq, ← Option.some.inj hold]
    · rw [if_neg hi] at heq
      subst heq
      refine (h.used i old hold).imp_right fun hfull => ?_
      obtain ⟨l', hl', hfut'⟩ := hfull
      have hne : old.slotId ≠ k := by
        intro hslot
        rw [hslot, hfut] at hfut'
        exact hi (Option.some.inj hfut')
      exact ⟨l', by rwa [Function.update_of_ne hne], hfut'⟩

/-- The ledger follows a step of the buffers. -/
theorem relayStep_of_slots (h : s.Agrees layer) {c : Call} (hc : slotsStep layer c = some layer') :
    HandedOver s c ∧ ∃ t, relayStep s c = some t ∧ t.Agrees layer' := by
  cases hslot : c.relaySlot with
  | none =>
      obtain rfl : layer = layer' := by simpa [slotsStep, placesStep_none hslot] using hc
      cases c with
      | prefetchExperts l p k stage =>
          cases stage with
          | prefill => exact ⟨trivial, s, rfl, h⟩
          | decode => simp [Call.relaySlot] at hslot
      | prefetchExpertsToPin l k => simp [Call.relaySlot] at hslot
      | _ => exact ⟨trivial, s, rfl, h⟩
  | some k =>
      rw [slotsStep, placesStep_some hslot] at hc
      obtain ⟨x, hx, rfl⟩ := Option.map_eq_some_iff.mp hc
      cases c with
      | prefetchExperts l p k' stage =>
          cases stage with
          | prefill => simp [Call.relaySlot] at hslot
          | decode =>
              obtain rfl : k' = k := by simpa [Call.relaySlot] using hslot
              simp only [slotStep] at hx
              split_ifs at hx with hk
              obtain rfl : none = x := by simpa using hx
              exact ⟨h.ready k' l hk, h.use hk⟩
      | prefetchExpertsToPin l k' =>
          obtain rfl : k' = k := by simpa [Call.relaySlot] using hslot
          simp only [slotStep] at hx
          split_ifs at hx with hk
          obtain rfl : some l = x := by simpa using hx
          exact ⟨trivial, _, rfl, h.submit l hk⟩
      | _ => simp [Call.relaySlot] at hslot

/-- The ledger follows a run of the buffers. -/
theorem run_of_slots {cs : List Call} (h : s.Agrees layer)
    (hcs : exec slotsStep layer cs = some layer') :
    Along relayStep HandedOver s cs ∧ ∃ t, exec relayStep s cs = some t ∧ t.Agrees layer' := by
  induction cs generalizing s layer with
  | nil =>
      obtain rfl : layer = layer' := by simpa using hcs
      exact ⟨trivial, s, rfl, h⟩
  | cons c cs ih =>
      obtain ⟨layer₁, hstep, hrest⟩ := Option.bind_eq_some_iff.mp hcs
      obtain ⟨hover, t, ht, hagrees⟩ := relayStep_of_slots h hstep
      obtain ⟨halong, u, hu, hend⟩ := ih hagrees hrest
      refine ⟨⟨hover, fun t' ht' => ?_⟩, u, ?_, hend⟩
      · obtain rfl : t = t' := Option.some.inj (ht.symm.trans ht')
        exact halong
      · rw [exec_cons, ht]
        exact hu

end Agrees

/-! ### The schedule, seen from one slot -/

section Schedule

variable {numLayers numMb slotId : ℕ}

/-- What the relay does for a slot during layer `i`: the job for the next layer and its
use. -/
def slotLayerCalls (numLayers slotId i : ℕ) : List Call :=
  [.prefetchExpertsToPin ((i + 1) % numLayers) slotId,
    .prefetchExperts ((i + 1) % numLayers) 0 slotId .decode]

/-- Whether a call concerns the slot. -/
def Call.onSlot (slotId : ℕ) (c : Call) : Bool := c.relaySlot = some slotId

theorem onSlot_attentionCalls (i k : ℕ) :
    (attentionCalls i k).filter (Call.onSlot slotId) = [] := by
  simp [attentionCalls, Call.onSlot, Call.relaySlot]

theorem onSlot_lookAheadCalls (i k : ℕ) :
    (lookAheadCalls numLayers numMb i k).filter (Call.onSlot slotId) = [] := by
  rw [lookAheadCalls]
  split_ifs <;> simp [onSlot_attentionCalls]

theorem onSlot_prologueCalls (k : ℕ) : (prologueCalls 1 k).filter (Call.onSlot slotId) =
    if k = slotId then [.prefetchExpertsToPin 1 slotId] else [] := by
  rw [prologueCalls, List.filter_append, onSlot_attentionCalls]
  by_cases hk : k = slotId
  · subst hk
    simp [Call.onSlot, Call.relaySlot]
  · simp [Call.onSlot, Call.relaySlot, hk]

/-- The job that micro-batch `k` submits for the slot. -/
theorem onSlot_relayCalls (i k : ℕ) :
    (relayCalls numLayers 1 numMb i 0 k).filter (Call.onSlot slotId) =
      if k + 2 < numMb then
        if k + 2 = slotId then [.prefetchExpertsToPin ((i + 1) % numLayers) slotId] else []
      else if i + 1 < numLayers then
        if (k + 2) % numMb = slotId then [.prefetchExpertsToPin ((i + 2) % numLayers) slotId] else []
      else [] := by
  simp only [relayCalls, getPrefetchE2pIdx]
  split_ifs <;> simp_all [Call.onSlot, Call.relaySlot]

/-- What micro-batch `k` does for the slot. -/
theorem onSlot_decodeBatchCalls (i k : ℕ) :
    (decodeBatchCalls numLayers 1 numMb i k).filter (Call.onSlot slotId) =
      (if k = slotId then [.prefetchExperts ((i + 1) % numLayers) 0 slotId .decode] else []) ++
        (relayCalls numLayers 1 numMb i 0 k).filter (Call.onSlot slotId) := by
  rw [decodeBatchCalls_one, List.filter_append, List.filter_append, onSlot_lookAheadCalls,
    List.append_nil]
  by_cases hk : k = slotId
  · subst hk
    simp [Call.onSlot, Call.relaySlot]
  · simp [Call.onSlot, Call.relaySlot, hk]

/-- A slot that is not the prologue's gets its job in the layer that uses it. -/
theorem onSlot_decodeLayerCalls_late (hs : slotId < numMb) (h2 : 2 ≤ slotId) (i : ℕ) :
    (decodeLayerCalls numLayers 1 numMb i).filter (Call.onSlot slotId) =
      slotLayerCalls numLayers slotId i := by
  have hwrap : ∀ k, k < numMb → ¬ k + 2 < numMb → (k + 2) % numMb ≠ slotId := by
    intro k hk hge heq
    rw [Nat.mod_eq_sub_mod (by omega), Nat.mod_eq_of_lt (by omega)] at heq
    omega
  rw [decodeLayerCalls_one, List.filter_flatMap,
    flatMap_range_pair (show slotId - 2 < slotId by omega) hs]
  · rw [onSlot_decodeBatchCalls, onSlot_decodeBatchCalls, onSlot_relayCalls, onSlot_relayCalls,
      if_neg (show ¬ slotId - 2 = slotId by omega), if_pos rfl,
      if_pos (show slotId - 2 + 2 < numMb by omega), if_pos (show slotId - 2 + 2 = slotId by omega),
      if_neg (show ¬ slotId + 2 = slotId by omega)]
    have hlast := hwrap slotId hs
    split_ifs <;> first | rfl | omega
  · intro k hk hne hne'
    rw [onSlot_decodeBatchCalls, onSlot_relayCalls, if_neg hne', List.nil_append]
    have hk' := hwrap k hk
    split_ifs <;> first | rfl | omega

/-- A slot of the prologue gets the job for the next layer at the end of the loop. -/
theorem onSlot_decodeLayerCalls_early (hs : slotId < numMb) (h2 : slotId < 2) (i : ℕ) :
    (decodeLayerCalls numLayers 1 numMb i).filter (Call.onSlot slotId) =
      [.prefetchExperts ((i + 1) % numLayers) 0 slotId .decode] ++
        if i + 1 < numLayers then [.prefetchExpertsToPin ((i + 2) % numLayers) slotId] else [] := by
  rw [decodeLayerCalls_one, List.filter_flatMap]
  by_cases hn : numMb ≤ 2
  · -- one iteration uses the slot and submits the next job for it
    have hself : (slotId + 2) % numMb = slotId := by
      obtain rfl | rfl : numMb = 1 ∨ numMb = 2 := by omega
      · omega
      · omega
    rw [flatMap_range_single hs]
    · rw [onSlot_decodeBatchCalls, onSlot_relayCalls, if_pos rfl,
        if_neg (show ¬ slotId + 2 < numMb by omega), hself, if_pos rfl]
    · intro k hk hne
      have hother : (k + 2) % numMb ≠ slotId := by
        obtain rfl | rfl : numMb = 1 ∨ numMb = 2 := by omega
        · omega
        · omega
      rw [onSlot_decodeBatchCalls, onSlot_relayCalls, if_neg hne, if_neg hother,
        if_neg (show ¬ k + 2 < numMb by omega), ite_self, List.nil_append]
  · have hwrap : ∀ k, k < numMb → ¬ k + 2 < numMb →
        ((k + 2) % numMb = slotId ↔ k = slotId + numMb - 2) := by
      intro k hk hge
      rw [Nat.mod_eq_sub_mod (by omega), Nat.mod_eq_of_lt (by omega)]
      omega
    have hlast := (hwrap (slotId + numMb - 2) (by omega) (by omega)).mpr rfl
    rw [flatMap_range_pair (show slotId < slotId + numMb - 2 by omega)
      (show slotId + numMb - 2 < numMb by omega)]
    · rw [onSlot_decodeBatchCalls, onSlot_decodeBatchCalls, onSlot_relayCalls, onSlot_relayCalls,
        if_pos rfl, if_neg (show ¬ slotId + numMb - 2 = slotId by omega),
        if_neg (show ¬ slotId + numMb - 2 + 2 < numMb by omega), if_pos hlast, List.nil_append,
        if_neg (show ¬ slotId + 2 = slotId by omega)]
      have hself := hwrap slotId hs
      split_ifs <;> first | rfl | omega
    · intro k hk hne hne'
      rw [onSlot_decodeBatchCalls, onSlot_relayCalls, if_neg hne, List.nil_append]
      have hk' := hwrap k hk
      split_ifs <;> first | rfl | omega

/-- A decode step works on each slot layer by layer. -/
theorem onSlot_decodeBodyCalls (hL : 2 ≤ numLayers) (hs : slotId < numMb) :
    (decodeBodyCalls numLayers 1 numMb).filter (Call.onSlot slotId) =
      (List.range numLayers).flatMap (slotLayerCalls numLayers slotId) := by
  have hprologue : ((List.range (min 2 numMb)).flatMap (prologueCalls 1)).filter
      (Call.onSlot slotId) = if slotId < 2 then [.prefetchExpertsToPin 1 slotId] else [] := by
    rw [List.filter_flatMap]
    by_cases h2 : slotId < 2
    · rw [flatMap_range_single (show slotId < min 2 numMb by omega), if_pos h2,
        onSlot_prologueCalls, if_pos rfl]
      intro k _ hne
      rw [onSlot_prologueCalls, if_neg hne]
    · rw [if_neg h2]
      refine flatMap_range_nil _ fun k hk => ?_
      rw [onSlot_prologueCalls, if_neg (by omega)]
  rw [decodeBodyCalls, List.filter_append, hprologue, List.filter_flatMap]
  by_cases h2 : slotId < 2
  · simp only [if_pos h2, onSlot_decodeLayerCalls_early hs h2]
    obtain ⟨m, rfl⟩ : ∃ m, numLayers = m + 1 := ⟨numLayers - 1, by omega⟩
    have hshift := flatMap_range_shift
      (fun i => [Call.prefetchExpertsToPin ((i + 1) % (m + 1)) slotId])
      (fun i => [.prefetchExperts ((i + 1) % (m + 1)) 0 slotId .decode]) m
    rw [Nat.mod_eq_of_lt (show 0 + 1 < m + 1 by omega)] at hshift
    simp only [Nat.add_lt_add_iff_right]
    exact hshift
  · simp only [if_neg h2, List.nil_append, onSlot_decodeLayerCalls_late hs (by omega)]

/-- No call names a slot that the page does not have. -/
theorem onSlot_decodeBodyCalls_ge (hs : numMb ≤ slotId) :
    (decodeBodyCalls numLayers 1 numMb).filter (Call.onSlot slotId) = [] := by
  have hprologue : ∀ k, k < min 2 numMb → (prologueCalls 1 k).filter (Call.onSlot slotId) = [] := by
    intro k hk
    rw [onSlot_prologueCalls, if_neg (by omega)]
  have hlayer : ∀ i, (decodeLayerCalls numLayers 1 numMb i).filter (Call.onSlot slotId) = [] := by
    intro i
    rw [decodeLayerCalls_one, List.filter_flatMap]
    refine flatMap_range_nil _ fun k hk => ?_
    have hmod : (k + 2) % numMb < numMb := Nat.mod_lt _ (by omega)
    rw [onSlot_decodeBatchCalls, onSlot_relayCalls, if_neg (by omega)]
    split_ifs <;> first | rfl | omega
  rw [decodeBodyCalls, List.filter_append, List.filter_flatMap, List.filter_flatMap,
    flatMap_range_nil _ hprologue, flatMap_range_nil _ fun i _ => hlayer i, List.append_nil]

/-- Prefill does not use the relay. -/
theorem onSlot_prefillCalls :
    (prefillCalls numLayers 1 numMb).filter (Call.onSlot slotId) = [] := by
  have hbatch : ∀ i k, (prefillBatchCalls numMb i 0 k).filter (Call.onSlot slotId) = [] := by
    intro i k
    rw [prefillBatchCalls]
    split_ifs <;> simp [Call.onSlot, Call.relaySlot]
  have hlayer : ∀ i, (prefillLayerCalls numLayers 1 numMb i).filter (Call.onSlot slotId) = [] := by
    intro i
    rw [prefillLayerCalls_one, List.filter_append, List.filter_flatMap,
      flatMap_range_nil _ fun k _ => hbatch i k]
    simp [Call.onSlot, Call.relaySlot]
  rw [prefillCalls, List.filter_cons_of_neg (by simp [Call.onSlot, Call.relaySlot]),
    List.filter_flatMap, flatMap_range_nil _ fun i _ => hlayer i]

/-- The relay of a slot leaves it empty after every layer. -/
theorem exec_slotLayerCalls (m slotId : ℕ) :
    exec slotStep none ((List.range m).flatMap (slotLayerCalls numLayers slotId)) = some none := by
  induction m with
  | zero => rfl
  | succ m ih =>
      rw [List.range_succ, List.flatMap_append, List.flatMap_singleton, exec_append, ih]
      simp [slotLayerCalls, slotStep]

theorem onSlot_decodeStepCalls :
    (decodeStepCalls numLayers 1 numMb).filter (Call.onSlot slotId) =
      (decodeBodyCalls numLayers 1 numMb).filter (Call.onSlot slotId) :=
  List.filter_cons_of_neg (by simp [Call.onSlot, Call.relaySlot])

/-- In every decode step the slot has a job and a prefetch for every layer. -/
theorem onSlot_forwardCalls (hL : 2 ≤ numLayers) (hs : slotId < numMb) (steps : ℕ) :
    (forwardCalls numLayers 1 numMb steps).filter (Call.onSlot slotId) =
      (List.range steps).flatMap fun _ =>
        (List.range numLayers).flatMap (slotLayerCalls numLayers slotId) := by
  simp only [forwardCalls, List.filter_append, onSlot_prefillCalls, List.nil_append,
    List.filter_flatMap, onSlot_decodeStepCalls, onSlot_decodeBodyCalls hL hs]

/-- The slots execute a decode step, and are empty after it. -/
theorem exec_decodeStepCalls (hL : 2 ≤ numLayers) :
    exec slotsStep (fun _ => none) (decodeStepCalls numLayers 1 numMb) = some fun _ => none := by
  refine exec_places fun slotId => ?_
  change exec slotStep none ((decodeStepCalls numLayers 1 numMb).filter (Call.onSlot slotId)) =
    some none
  by_cases hs : slotId < numMb
  · rw [onSlot_decodeStepCalls, onSlot_decodeBodyCalls hL hs]
    exact exec_slotLayerCalls numLayers slotId
  · rw [onSlot_decodeStepCalls, onSlot_decodeBodyCalls_ge (by omega)]
    rfl

theorem exec_forwardCalls (hL : 2 ≤ numLayers) (steps : ℕ) :
    exec slotsStep (fun _ => none) (forwardCalls numLayers 1 numMb steps) =
      some fun _ => none := by
  have hprefill : exec slotsStep (fun _ => none) (prefillCalls numLayers 1 numMb) =
      some fun _ => none := by
    refine exec_places fun slotId => ?_
    change exec slotStep none ((prefillCalls numLayers 1 numMb).filter (Call.onSlot slotId)) =
      some none
    rw [onSlot_prefillCalls]
    rfl
  rw [forwardCalls, exec_append, hprefill]
  induction steps with
  | zero => rfl
  | succ m ih =>
      rw [List.range_succ, List.flatMap_append, List.flatMap_singleton, Option.bind_some, exec_append]
      rw [Option.bind_some] at ih
      rw [ih]
      exact exec_decodeStepCalls hL

end Schedule

/-- In every decode step every slot has one job and one prefetch for each layer, in this order.
Every prefetch finds the latest job of its slot, submitted for its layer and not used before, and
after the last step every job has been used exactly once. -/
theorem relay_handedOver {numLayers : ℕ} (hL : 2 ≤ numLayers) (numMb steps : ℕ) :
    (∀ slotId < numMb, (forwardCalls numLayers 1 numMb steps).filter (Call.onSlot slotId) =
      (List.range steps).flatMap fun _ =>
        (List.range numLayers).flatMap (slotLayerCalls numLayers slotId)) ∧
      Along relayStep HandedOver RelayLedger.newBatch (forwardCalls numLayers 1 numMb steps) ∧
      ∃ t, exec relayStep RelayLedger.newBatch (forwardCalls numLayers 1 numMb steps) = some t ∧
        ∀ job ∈ t.jobs, job.consumed = 1 := by
  obtain ⟨halong, t, ht, hagrees⟩ :=
    run_of_slots RelayLedger.Agrees.newBatch (exec_forwardCalls hL steps)
  refine ⟨fun slotId hs => onSlot_forwardCalls hL hs steps, halong, t, ht, fun job hjob => ?_⟩
  obtain ⟨j, hj⟩ := List.getElem?_of_mem hjob
  exact (hagrees.used j job hj).resolve_right fun ⟨l, hl, _⟩ => nomatch hl

/-- Two layers, three slots and two decode steps. -/
theorem relay_handedOver_three :
    2 ≤ 2 ∧
      (∀ slotId < 3, (forwardCalls 2 1 3 2).filter (Call.onSlot slotId) =
        (List.range 2).flatMap fun _ => (List.range 2).flatMap (slotLayerCalls 2 slotId)) ∧
      Along relayStep HandedOver RelayLedger.newBatch (forwardCalls 2 1 3 2) ∧
      ∃ t, exec relayStep RelayLedger.newBatch (forwardCalls 2 1 3 2) = some t ∧
        ∀ job ∈ t.jobs, job.consumed = 1 :=
  ⟨le_rfl, relay_handedOver le_rfl 3 2⟩

end HarvestMoE
