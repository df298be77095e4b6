import HarvestMoE.KvContract
import HarvestMoE.Lookahead

/-!
# Which layers attend

`kvCache_contract` speaks of the attention calls that a batch makes. This module adds
that they are made: with three or more micro-batches every decode step computes
attention for every layer and micro-batch, each over the micro-batch's own tokens. With
one or two the look-ahead is off and the layers after the first are never sent to
attention, so there the contract fails for every batch that decodes
(`kvCache_contract_iff`).

## Main definitions

* `Attends` — attention of a layer is computed in a decode step.
* `KvCacheContract` — the contract of a whole batch.
-/

namespace HarvestMoE

open Lib

variable {κ : Type*}

/-- In decode step `d` attention of micro-batch `k` is computed at layer `i`, and reads
the tokens of its sequences. -/
def Attends (rows : KvRows κ) (s : KvState κ) (calls : List Call) (d i k : ℕ) : Prop :=
  ∃ before after t, calls = before ++ .cpuAttention i k :: after ∧
    exec (kvStep rows) s before = some t ∧ t.decodeStep = d ∧
    AttentionReads rows t (.cpuAttention i k)

/-- The contract of a batch, from the state that `prepare_for_prefill` leaves. -/
structure KvCacheContract (cfg : EngineConfig) (rows : KvRows κ) (lens : List (List ℕ))
    (s : KvState κ) : Prop where
  /-- The layout holds at every call, and attention reads its own tokens. -/
  calls : Along (kvStep rows) (KvContract cfg rows) s (batchForwardStep cfg lens.length)
  ends : ∃ t, exec (kvStep rows) s (batchForwardStep cfg lens.length) = some t ∧ KvLayout cfg t
  /-- No decode step leaves out a layer of a micro-batch. -/
  attends : ∀ d, 0 < d → d ≤ cfg.numDecodeSteps lens.length → ∀ i < cfg.numHiddenLayers,
    ∀ k < lens.length, Attends rows s (batchForwardStep cfg lens.length) d i k

variable {cfg : EngineConfig} {rows : KvRows κ} {lens : List (List ℕ)} {s t : KvState κ}

section Steps

theorem kvStep_decodeStep {c : Call} (h : kvStep rows s c = some t) :
    t.decodeStep = s.decodeStep + [c].count .prepareForDecode := by
  cases c with
  | layer i j k | offloadKvCache i k | cpuAttention i k =>
      obtain ⟨b, -, h⟩ := Option.bind_eq_some_iff.mp h
      obtain ⟨pool, -, rfl⟩ := Option.map_eq_some_iff.mp h
      simp
  | prepareForDecode =>
      obtain rfl := Option.some.inj h
      simp
  | _ =>
      obtain rfl := Option.some.inj h
      simp

/-- The step counter counts the `prepare_for_decode` calls. -/
theorem exec_decodeStep {calls : List Call} (h : exec (kvStep rows) s calls = some t) :
    t.decodeStep = s.decodeStep + calls.count .prepareForDecode := by
  induction calls generalizing s with
  | nil =>
      obtain rfl : s = t := by simpa using h
      simp
  | cons c calls ih =>
      obtain ⟨u, hu, ht⟩ := Option.bind_eq_some_iff.mp h
      have hcount : ([c] ++ calls).count Call.prepareForDecode =
          [c].count .prepareForDecode + calls.count .prepareForDecode := List.count_append
      rw [ih ht, kvStep_decodeStep hu, Nat.add_assoc, ← hcount, List.singleton_append]

theorem count_prefillCalls (numLayers numMb : ℕ) :
    (prefillCalls numLayers 1 numMb).count .prepareForDecode = 0 := by
  rw [List.count_eq_zero]
  intro hc
  rcases mem_prefillCalls hc with ⟨i, h⟩ | ⟨i, k, -, -, h⟩
  · cases h
  · rcases mem_prefillBatchCalls h with h | h | ⟨-, h | h⟩ <;> cases h

theorem count_decodeBodyCalls {numLayers : ℕ} (hL : 0 < numLayers) (numMb : ℕ) :
    (decodeBodyCalls numLayers 1 numMb).count .prepareForDecode = 0 := by
  rw [List.count_eq_zero]
  intro hc
  rcases mem_decodeBodyCalls hL hc with ⟨i, k, -, -, h⟩ | h
  · cases h
  · cases h

/-- Each decode step calls `prepare_for_decode` once. -/
theorem count_decodeSteps {numLayers : ℕ} (hL : 0 < numLayers) (numMb d : ℕ) :
    ((List.range d).flatMap fun _ => decodeStepCalls numLayers 1 numMb).count
      .prepareForDecode = d := by
  induction d with
  | zero => rfl
  | succ d ih =>
      rw [List.range_succ, List.flatMap_append, List.count_append, ih, List.flatMap_singleton,
        decodeStepCalls, List.count_cons_self, count_decodeBodyCalls hL]

end Steps

section Coverage

variable {numLayers numMb i k : ℕ}

/-- A call of a decode step stands in the batch once for every step, behind the
`prepare_for_decode` of the step. -/
theorem forwardCalls_split {d steps : ℕ} (hd : d < steps) (hL : 0 < numLayers) {c : Call}
    (hc : c ∈ decodeBodyCalls numLayers 1 numMb) :
    ∃ before after, forwardCalls numLayers 1 numMb steps = before ++ c :: after ∧
      before.count .prepareForDecode = d + 1 := by
  obtain ⟨start, rest, hbody⟩ := List.append_of_mem hc
  obtain ⟨m, rfl⟩ : ∃ m, steps = d + (m + 1) := ⟨steps - d - 1, by omega⟩
  have hsteps : ((List.range (d + (m + 1))).flatMap fun _ => decodeStepCalls numLayers 1 numMb) =
      ((List.range d).flatMap fun _ => decodeStepCalls numLayers 1 numMb) ++
        (decodeStepCalls numLayers 1 numMb ++
          (List.range m).flatMap fun _ => decodeStepCalls numLayers 1 numMb) := by
    rw [List.range_add, List.flatMap_append, List.flatMap_map, List.range_succ_eq_map,
      List.flatMap_cons, List.flatMap_map]
  have hstart : start.count .prepareForDecode = 0 := by
    have hcount := count_decodeBodyCalls hL numMb
    rw [hbody, List.count_append] at hcount
    omega
  refine ⟨prefillCalls numLayers 1 numMb ++
      ((List.range d).flatMap fun _ => decodeStepCalls numLayers 1 numMb) ++
      .prepareForDecode :: start,
    rest ++ (List.range m).flatMap fun _ => decodeStepCalls numLayers 1 numMb, ?_, ?_⟩
  · rw [forwardCalls, hsteps, decodeStepCalls, hbody]
    simp only [List.append_assoc, List.cons_append]
  · rw [List.count_append, List.count_append, count_prefillCalls, count_decodeSteps hL,
      List.count_cons_self, hstart]
    omega

/-- With three or more micro-batches every layer is sent to attention. -/
theorem cpuAttention_mem (hn : 3 ≤ numMb) (hi : i < numLayers) (hk : k < numMb) :
    Call.cpuAttention i k ∈ decodeBodyCalls numLayers 1 numMb := by
  have hcount := decodeBodyCalls_count hn hi hk (show Call.cpuAttention i k ∈ aloneLayerCalls k i by
    simp [aloneLayerCalls, attentionCalls])
  exact List.count_pos_iff.mp (by omega)

/-- With one or two only layer 0 is. -/
theorem cpuAttention_notMem (hn : numMb ≤ 2) (hk : k < numMb) (hi : 0 < i) (steps : ℕ) :
    Call.cpuAttention i k ∉ forwardCalls numLayers 1 numMb steps := by
  have hof : Call.isOf k (.cpuAttention i k) := by simp [Call.isOf, Call.batch]
  intro hmem
  rw [forwardCalls, List.mem_append, List.mem_flatMap] at hmem
  rcases hmem with hprefill | ⟨-, -, hdecode⟩
  · have hnone := List.mem_filter.mpr ⟨hprefill, hof⟩
    rw [filter_prefillCalls] at hnone
    cases hnone
  · have hbody := (List.mem_cons.mp hdecode).resolve_left (by simp)
    have hshort := List.mem_filter.mpr ⟨hbody, hof⟩
    rw [decodeBodyCalls_short hn hk] at hshort
    simp [attentionCalls, Nat.ne_of_gt hi] at hshort

/-- In a run that keeps the contract, the attention calls of every step are computed in
that step. -/
theorem attends_of_mem (hstart : s.decodeStep = 0)
    (hcalls : Along (kvStep rows) (KvContract cfg rows) s (batchForwardStep cfg lens.length))
    (hrun : exec (kvStep rows) s (batchForwardStep cfg lens.length) = some t) {d : ℕ} (hd : 0 < d)
    (hsteps : d ≤ cfg.numDecodeSteps lens.length)
    (hmem : Call.cpuAttention i k ∈ decodeBodyCalls cfg.numHiddenLayers 1 lens.length) :
    Attends rows s (batchForwardStep cfg lens.length) d i k := by
  obtain ⟨e, rfl⟩ : ∃ e, d = e + 1 := ⟨d - 1, by omega⟩
  obtain ⟨before, after, hsplit, hcount⟩ :=
    forwardCalls_split (show e < cfg.numDecodeSteps lens.length by omega) cfg.layers_pos hmem
  rw [← cfg.weightsPrefetchNumPagesCpu_eq] at hsplit
  have hbatch : batchForwardStep cfg lens.length = before ++ .cpuAttention i k :: after := hsplit
  rw [hbatch] at hcalls hrun ⊢
  obtain ⟨u, hu, -⟩ := Option.bind_eq_some_iff.mp ((exec_append _ _ _).symm.trans hrun)
  refine ⟨before, after, u, rfl, hu, ?_, (hcalls.at hu).2⟩
  rw [exec_decodeStep hu, hstart, hcount, Nat.zero_add]

/-- One or two micro-batches that decode leave the second layer out. -/
theorem not_kvCacheContract_short (hne : lens ≠ []) (hn : lens.length ≤ 2)
    (hsteps : 0 < cfg.numDecodeSteps lens.length) : ¬ KvCacheContract cfg rows lens s := by
  intro h
  have hpos : 0 < lens.length := List.length_pos_of_ne_nil hne
  have htwo := cfg.two_le_layers
  obtain ⟨before, after, t, hsplit, -⟩ := h.attends 1 one_pos hsteps 1 (by omega) 0 hpos
  have hmem : Call.cpuAttention 1 0 ∈ batchForwardStep cfg lens.length := by
    rw [hsplit]
    exact List.mem_append_right _ List.mem_cons_self
  rw [batchForwardStep, cfg.weightsPrefetchNumPagesCpu_eq] at hmem
  exact cpuAttention_notMem hn hpos one_pos _ hmem

end Coverage

/-- The contract of the pool. Admitted micro-batches get a layout, the whole run executes
in it, and every attention call that is made reads the tokens of its sequences. Attention
is computed in every decode step at every layer just when there are three micro-batches
or more, or none, or two that are not decoded. -/
theorem kvCache_contract_iff (cfg : EngineConfig) (rows : KvRows κ) {lens : List (List ℕ)}
    (hadm : Admitted cfg lens) (gpu : ℕ → κ) (cpu : ℕ → ℕ → κ) :
    ∃ batches pool, prepareForPrefill cfg.genLen
        (TokenToKVPool.new cfg.gpuTokenBufferSize cfg.cpuTokenPoolSize gpu cpu).clear lens =
          some (batches, pool) ∧
      Along (kvStep rows) (KvContract cfg rows) ⟨pool, batches, 0⟩
        (batchForwardStep cfg lens.length) ∧
      (∃ t, exec (kvStep rows) ⟨pool, batches, 0⟩ (batchForwardStep cfg lens.length) = some t ∧
        KvLayout cfg t) ∧
      (KvCacheContract cfg rows lens ⟨pool, batches, 0⟩ ↔
        3 ≤ lens.length ∨ lens = [] ∨ lens.length = 2 ∧ cfg.genLen = 1) := by
  obtain ⟨batches, pool, hprepare, hcalls, t, hrun, hlayout⟩ :=
    kvCache_contract cfg rows hadm gpu cpu
  refine ⟨batches, pool, hprepare, hcalls, ⟨t, hrun, hlayout⟩, ?_, ?_⟩
  · intro h
    by_contra hcond
    have hne : lens ≠ [] := fun hnil => hcond (Or.inr (Or.inl hnil))
    have hgen := cfg.genLen_pos
    refine not_kvCacheContract_short hne (by omega) ?_ h
    rw [EngineConfig.numDecodeSteps]
    split_ifs <;> omega
  · intro hcond
    refine ⟨hcalls, ⟨t, hrun, hlayout⟩, fun d hd hsteps i hi k hk => ?_⟩
    rcases hcond with hn | rfl | ⟨htwo, hgen⟩
    · exact attends_of_mem rfl hcalls hrun hd hsteps (cpuAttention_mem hn hi hk)
    · simp at hk
    · rw [EngineConfig.numDecodeSteps, htwo, hgen] at hsteps
      simp at hsteps
      omega

/-- Three micro-batches, of two prompts, of one and of two. -/
theorem kvCache_contract_iff_three :
    Admitted (EngineConfig.small 3 (by decide)) [[2, 1], [2], [1, 1]] ∧
    ∃ batches pool, prepareForPrefill 3
        (TokenToKVPool.new (EngineConfig.small 3 (by decide)).gpuTokenBufferSize
          (EngineConfig.small 3 (by decide)).cpuTokenPoolSize (fun _ => 0) fun _ _ => 0).clear
        [[2, 1], [2], [1, 1]] = some (batches, pool) ∧
      KvCacheContract (EngineConfig.small 3 (by decide))
        ⟨fun i k q t => i + k + q + t, fun d i k q => d + i + k + q⟩ [[2, 1], [2], [1, 1]]
        ⟨pool, batches, 0⟩ := by
  have hadm : Admitted (EngineConfig.small 3 (by decide)) [[2, 1], [2], [1, 1]] :=
    ⟨by decide, by decide, by decide⟩
  obtain ⟨batches, pool, hprepare, -, -, hiff⟩ := kvCache_contract_iff
    (EngineConfig.small 3 (by decide))
    ⟨fun i k q t => i + k + q + t, fun d i k q => d + i + k + q⟩ hadm (fun _ => 0) fun _ _ => 0
  exact ⟨hadm, batches, pool, hprepare, hiff.mpr (Or.inl (by decide))⟩

/-- A single prompt of one token, decoded once: the second layer does not attend. -/
theorem kvCacheContract_single_request :
    ¬ ∀ (cfg : EngineConfig) (rows : KvRows ℕ) (lens : List (List ℕ)), Admitted cfg lens →
      ∃ batches pool, prepareForPrefill cfg.genLen
          (TokenToKVPool.new cfg.gpuTokenBufferSize cfg.cpuTokenPoolSize (fun _ => 0)
            fun _ _ => 0).clear lens = some (batches, pool) ∧
        KvCacheContract cfg rows lens ⟨pool, batches, 0⟩ := by
  intro hall
  obtain ⟨batches, pool, -, h⟩ := hall (EngineConfig.small 3 (by decide))
    ⟨fun i k q t => i + k + q + t, fun d i k q => d + i + k + q⟩ [[1]]
    ⟨by decide, by decide, by decide⟩
  exact not_kvCacheContract_short (by decide) (by decide) (by decide) h

end HarvestMoE
