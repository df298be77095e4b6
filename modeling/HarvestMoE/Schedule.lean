import Mathlib.Data.List.Flatten
import Mathlib.Data.List.Range
import HarvestMoE.Config

/-!
# The host schedule of a batch

`ModelRpcServer.batch_forward_step` drives the engine through a fixed list of
calls: for given sizes the loops, their look-ahead and the relay of the weights
pages decide which call comes when, and nothing a call computes changes that. The
list is the model of the host program; the machines of the later modules give each
call its effect on one part of the engine.

## Main definitions

* `Call` — a call of the host program on the engine.
* `getPrefetchE2pIdx` — which page slot is relayed next.
* `prefillCalls`, `decodeStepCalls` — the two phases.
* `batchForwardStep` — the whole batch.
-/

namespace HarvestMoE

/-- The two modes of `prefetch_experts`. -/
inductive Stage
  | prefill
  | decode
  deriving DecidableEq, Repr

/-- A call of `batch_forward_step` on the engine. -/
inductive Call
  | prefetchExperts (layerId pageId slotId : ℕ) (stage : Stage)
  | layer (layerId pageId batchId : ℕ)
  | offloadKvCache (layerId batchId : ℕ)
  | offloadHiddenPrefill (batchId : ℕ)
  | loadHiddenPrefill (batchId : ℕ)
  | prepareForDecode
  | preAttention (layerId batchId : ℕ)
  | offloadQkv (layerId batchId : ℕ)
  | cpuAttention (layerId batchId : ℕ)
  | prefetchExpertsToPin (layerId slotId : ℕ)
  | loadHidden (layerId batchId : ℕ)
  | postAttention (layerId pageId batchId : ℕ)
  deriving DecidableEq, Repr

section Loops

variable (numLayers numPages numMb : ℕ)

/-- One micro-batch of the prefill loop. The hidden states go through the CPU only
when there is another micro-batch to make room for. -/
def prefillBatchCalls (i j k : ℕ) : List Call :=
  .layer i j k :: (if j = 0 then [.offloadKvCache i k] else []) ++
    (if numMb > 1 then [.offloadHiddenPrefill k, .loadHiddenPrefill ((k + 1) % numMb)] else [])

/-- One page of one layer of the prefill loop, with the prefetch that follows it. -/
def prefillPageCalls (i j : ℕ) : List Call :=
  (List.range numMb).flatMap (prefillBatchCalls numMb i j) ++
    [if j = numPages - 1 then .prefetchExperts ((i + 1) % numLayers) 0 0 .prefill
      else .prefetchExperts i (j + 1) 0 .prefill]

def prefillLayerCalls (i : ℕ) : List Call :=
  (List.range numPages).flatMap (prefillPageCalls numLayers numPages numMb i)

/-- The prefill phase. -/
def prefillCalls : List Call :=
  .prefetchExperts 0 0 0 .prefill ::
    (List.range numLayers).flatMap (prefillLayerCalls numLayers numPages numMb)

/-- `get_prefetch_e2p_idx`: the layer and the slot to copy to pinned memory after
micro-batch `k` of page `j` of layer `i`, or nothing at the end of a step. -/
def getPrefetchE2pIdx (i j k : ℕ) : Option (ℕ × ℕ) :=
  if numPages = 1 then
    if i + 1 < numLayers then
      if k + 2 < numMb then some ((i + 1) % numLayers, k + 2)
      else some ((i + 2) % numLayers, (k + 2) % numMb)
    else if k + 2 < numMb then some ((i + 1) % numLayers, k + 2)
    else none
  else if j + 1 < numPages then
    if k + 2 < numMb then some (i, k + 2)
    else if j + 2 < numPages then some (i, (k + 2) % numMb)
    else some ((i + 1) % numLayers, (k + 2) % numMb)
  else if k + 2 < numMb then some ((i + 1) % numLayers, k + 2)
  else none

/-- The three calls that send micro-batch `k` to CPU attention at layer `i`. -/
def attentionCalls (i k : ℕ) : List Call :=
  [.preAttention i k, .offloadQkv i k, .cpuAttention i k]

/-- The look-ahead of the decode loop: two micro-batches ahead, into the next layer
at the end of a layer. It is guarded by `num_mb > 2`. -/
def lookAheadCalls (i k : ℕ) : List Call :=
  if numMb > 2 then
    if k + 2 < numMb then attentionCalls i (k + 2)
    else if i < numLayers - 1 then attentionCalls (i + 1) ((k + 2) % numMb)
    else []
  else []

/-- The relay of the next page slot, in the loop over page 0. -/
def relayCalls (i j k : ℕ) : List Call :=
  match getPrefetchE2pIdx numLayers numPages numMb i j k with
  | some (layerId, slotId) => [.prefetchExpertsToPin layerId slotId]
  | none => []

/-- The relay in the loop over the later pages, which tests the two numbers for
truth and so also skips layer 0 and slot 0. -/
def laterRelayCalls (i j k : ℕ) : List Call :=
  match getPrefetchE2pIdx numLayers numPages numMb i j k with
  | some (layerId, slotId) =>
      if layerId ≠ 0 ∧ slotId ≠ 0 then [.prefetchExpertsToPin layerId slotId] else []
  | none => []

/-- Micro-batch `k` of layer `i` in the decode loop. -/
def decodeBatchCalls (i k : ℕ) : List Call :=
  [.loadHidden i k,
    if numPages > 1 then .prefetchExperts i 1 k .decode
      else .prefetchExperts ((i + 1) % numLayers) 0 k .decode,
    .postAttention i 0 k] ++
    lookAheadCalls numLayers numMb i k ++ relayCalls numLayers numPages numMb i 0 k

/-- Micro-batch `k` of a later page `j` of layer `i`. -/
def decodeLaterPageCalls (i j k : ℕ) : List Call :=
  [if j = numPages - 1 then .prefetchExperts ((i + 1) % numLayers) 0 k .decode
      else .prefetchExperts i j k .decode,
    .postAttention i j k] ++ laterRelayCalls numLayers numPages numMb i j k

def decodeLayerCalls (i : ℕ) : List Call :=
  (List.range numMb).flatMap (decodeBatchCalls numLayers numPages numMb i) ++
    (List.range' 1 (numPages - 1)).flatMap fun j =>
      (List.range numMb).flatMap (decodeLaterPageCalls numLayers numPages numMb i j)

/-- The prologue of a decode step, for the first two micro-batches. -/
def prologueCalls (k : ℕ) : List Call :=
  attentionCalls 0 k ++ [.prefetchExpertsToPin (if numPages > 1 then 0 else 1) k]

/-- The prologue and the layers of a decode step. -/
def decodeBodyCalls : List Call :=
  (List.range (min 2 numMb)).flatMap (prologueCalls numPages) ++
    (List.range numLayers).flatMap (decodeLayerCalls numLayers numPages numMb)

/-- One decode step. -/
def decodeStepCalls : List Call :=
  .prepareForDecode :: decodeBodyCalls numLayers numPages numMb

/-- Prefill and the given number of decode steps. -/
def forwardCalls (steps : ℕ) : List Call :=
  prefillCalls numLayers numPages numMb ++
    (List.range steps).flatMap fun _ => decodeStepCalls numLayers numPages numMb

end Loops

/-- The calls of `batch_forward_step` for a batch of `numMb` micro-batches. -/
def batchForwardStep (cfg : EngineConfig) (numMb : ℕ) : List Call :=
  forwardCalls cfg.numHiddenLayers cfg.weightsPrefetchNumPagesCpu numMb (cfg.numDecodeSteps numMb)

section OnePage

variable {numLayers numMb : ℕ}

/-! With one page on the CPU side, the only value the policy yields, the page loops
disappear. -/

@[simp] theorem prefillLayerCalls_one (i : ℕ) :
    prefillLayerCalls numLayers 1 numMb i =
      (List.range numMb).flatMap (prefillBatchCalls numMb i 0) ++
        [.prefetchExperts ((i + 1) % numLayers) 0 0 .prefill] := by
  simp [prefillLayerCalls, prefillPageCalls]

@[simp] theorem decodeLayerCalls_one (i : ℕ) :
    decodeLayerCalls numLayers 1 numMb i =
      (List.range numMb).flatMap (decodeBatchCalls numLayers 1 numMb i) := by
  simp [decodeLayerCalls]

theorem decodeBatchCalls_one (i k : ℕ) :
    decodeBatchCalls numLayers 1 numMb i k =
      [.loadHidden i k, .prefetchExperts ((i + 1) % numLayers) 0 k .decode,
        .postAttention i 0 k] ++
        lookAheadCalls numLayers numMb i k ++ relayCalls numLayers 1 numMb i 0 k := by
  simp [decodeBatchCalls]

/-- The calls of a micro-batch in prefill. -/
theorem mem_prefillBatchCalls {i k : ℕ} {c : Call} (hc : c ∈ prefillBatchCalls numMb i 0 k) :
    c = .layer i 0 k ∨ c = .offloadKvCache i k ∨
      (1 < numMb ∧ (c = .offloadHiddenPrefill k ∨ c = .loadHiddenPrefill ((k + 1) % numMb))) := by
  simp only [prefillBatchCalls, if_true, List.cons_append, List.nil_append, List.mem_cons] at hc
  split_ifs at hc with hn
  · simpa [hn] using hc
  · simp only [List.not_mem_nil, or_false] at hc
    exact hc.imp_right Or.inl

/-- The calls of prefill. -/
theorem mem_prefillCalls {c : Call} (hc : c ∈ prefillCalls numLayers 1 numMb) :
    (∃ l, c = .prefetchExperts l 0 0 .prefill) ∨
      ∃ i k, i < numLayers ∧ k < numMb ∧ c ∈ prefillBatchCalls numMb i 0 k := by
  simp only [prefillCalls, List.mem_cons, List.mem_flatMap, List.mem_range] at hc
  rcases hc with rfl | ⟨i, hi, hc⟩
  · exact Or.inl ⟨0, rfl⟩
  · simp only [prefillLayerCalls_one, List.mem_append, List.mem_flatMap, List.mem_range,
      List.mem_singleton] at hc
    rcases hc with ⟨k, hk, hc⟩ | rfl
    · exact Or.inr ⟨i, k, hi, hk, hc⟩
    · exact Or.inl ⟨_, rfl⟩

/-- The relayed slot is a slot of the page. -/
theorem getPrefetchE2pIdx_slot_lt {i k layerId slotId : ℕ} (hn : 0 < numMb)
    (h : getPrefetchE2pIdx numLayers 1 numMb i 0 k = some (layerId, slotId)) :
    slotId < numMb := by
  simp only [getPrefetchE2pIdx, if_true] at h
  split_ifs at h with hi hk hk <;> simp only [Option.some.injEq, Prod.mk.injEq] at h
  · omega
  · rw [← h.2]
    exact Nat.mod_lt _ hn
  · omega

/-- The relayed slot is the one two ahead. -/
theorem getPrefetchE2pIdx_slot_eq {i k layerId slotId : ℕ}
    (h : getPrefetchE2pIdx numLayers 1 numMb i 0 k = some (layerId, slotId)) :
    slotId = (k + 2) % numMb := by
  simp only [getPrefetchE2pIdx, if_true] at h
  split_ifs at h with hi hk hk <;> simp only [Option.some.injEq, Prod.mk.injEq] at h
  · rw [Nat.mod_eq_of_lt hk, h.2]
  · exact h.2.symm
  · rw [Nat.mod_eq_of_lt hk, h.2]

/-- Below the last two micro-batches the relayed slot is the one two ahead. -/
theorem getPrefetchE2pIdx_of_lt (numLayers i : ℕ) {k : ℕ} (hk : k + 2 < numMb) :
    ∃ layerId, getPrefetchE2pIdx numLayers 1 numMb i 0 k = some (layerId, k + 2) := by
  simp only [getPrefetchE2pIdx, if_true, if_pos hk]
  split_ifs <;> exact ⟨_, rfl⟩

/-- The calls of a decode step that touch neither keys nor values. -/
def Call.keepsKv : Call → Bool
  | .preAttention .. | .offloadQkv .. | .prefetchExpertsToPin .. | .loadHidden .. |
    .prefetchExperts .. | .postAttention .. => true
  | _ => false

theorem mem_attentionCalls {i k : ℕ} {c : Call} (hc : c ∈ attentionCalls i k) :
    c = .cpuAttention i k ∨ c.keepsKv := by
  simp only [attentionCalls, List.mem_cons, List.not_mem_nil, or_false] at hc
  rcases hc with rfl | rfl | rfl
  · exact Or.inr rfl
  · exact Or.inr rfl
  · exact Or.inl rfl

theorem mem_lookAheadCalls {i k : ℕ} {c : Call} (hc : c ∈ lookAheadCalls numLayers numMb i k)
    (hi : i < numLayers) : ∃ j k', j < numLayers ∧ k' < numMb ∧ c ∈ attentionCalls j k' := by
  simp only [lookAheadCalls] at hc
  split_ifs at hc with hn hk hlast
  · exact ⟨i, k + 2, hi, hk, hc⟩
  · exact ⟨i + 1, (k + 2) % numMb, by omega, Nat.mod_lt _ (by omega), hc⟩
  · simp at hc
  · simp at hc

/-- The body of a decode step consists of attention calls of layers and micro-batches
in range, and of calls that leave keys and values alone. -/
theorem mem_decodeBodyCalls {c : Call} (hL : 0 < numLayers)
    (hc : c ∈ decodeBodyCalls numLayers 1 numMb) :
    (∃ i k, i < numLayers ∧ k < numMb ∧ c = .cpuAttention i k) ∨ c.keepsKv := by
  have hattn : ∀ i k, i < numLayers → k < numMb → c ∈ attentionCalls i k →
      (∃ i k, i < numLayers ∧ k < numMb ∧ c = .cpuAttention i k) ∨ c.keepsKv := by
    intro i k hi hk hmem
    exact (mem_attentionCalls hmem).imp (fun h => ⟨i, k, hi, hk, h⟩) id
  rw [decodeBodyCalls, List.mem_append, List.mem_flatMap, List.mem_flatMap] at hc
  rcases hc with ⟨k, hk, hc⟩ | ⟨i, hi, hc⟩
  · have hlt := List.mem_range.mp hk
    rw [prologueCalls, List.mem_append, List.mem_singleton] at hc
    rcases hc with hc | rfl
    · exact hattn 0 k hL (by omega) hc
    · exact Or.inr rfl
  · rw [decodeLayerCalls_one, List.mem_flatMap] at hc
    obtain ⟨k, hk, hc⟩ := hc
    simp only [decodeBatchCalls_one, List.mem_append, List.mem_cons, List.not_mem_nil,
      or_false] at hc
    rcases hc with ((rfl | rfl | rfl) | hc) | hc
    · exact Or.inr rfl
    · exact Or.inr rfl
    · exact Or.inr rfl
    · obtain ⟨j, k', hj, hk', hc⟩ := mem_lookAheadCalls hc (List.mem_range.mp hi)
      exact hattn j k' hj hk' hc
    · right
      rw [relayCalls] at hc
      split at hc
      · obtain rfl := List.mem_singleton.mp hc
        rfl
      · simp at hc

end OnePage

end HarvestMoE
