import HarvestMoE.Answers

/-!
# Stop conditions

`check_finished` notes once that a request is finished, by its limit on new tokens or by the
end of sequence. The decode loop runs the same number of steps for every request of a batch,
and appends a token to each of them in each step, whether it is finished or not. So what
`handle_finished_requests` reports respects the stop conditions if and only if no request of
the micro-batch meets one before the last step (`reported_respects_iff`).

## Main definitions

* `RespectsStops` — an output that ends where the stop conditions say.
* `StepsWithin` — the steps of the batch do not go beyond a stop condition.
* `ReportsAt` — a run comes to the report of a micro-batch.
-/

namespace HarvestMoE

open Lib

variable {κ α : Type*}

section Requests

variable {eosTokenId steps : ℕ} {tokens : ℕ → ℕ}

/-- At most `max_new_tokens` tokens and, unless it is ignored, the end of sequence at most as
the last of them. -/
structure RespectsStops (eosTokenId : ℕ) (r : Req) : Prop where
  length_le : (r.outputIds.length : ℤ) ≤ r.samplingParams.maxNewTokens
  eos_last : r.samplingParams.ignoreEos = false → eosTokenId ∉ r.outputIds.dropLast

/-- The tokens of prefill and of the decode steps are at most `max_new_tokens` and, unless it
is ignored, no token before the last step is the end of sequence. -/
structure StepsWithin (eosTokenId steps : ℕ) (tokens : ℕ → ℕ) (r : Req) : Prop where
  limit : (steps : ℤ) + 1 ≤ r.samplingParams.maxNewTokens
  eos_ne : r.samplingParams.ignoreEos = false → ∀ t < steps, tokens t ≠ eosTokenId

theorem sampled_respectsStops (r : Req) :
    RespectsStops eosTokenId (r.sampled eosTokenId tokens steps) ↔
      StepsWithin eosTokenId steps tokens r := by
  have hdrop : ((List.range (steps + 1)).map tokens).dropLast = (List.range steps).map tokens := by
    rw [List.range_succ, List.map_append]
    exact List.dropLast_concat
  have hmem : eosTokenId ∉ (List.range steps).map tokens ↔ ∀ t < steps, tokens t ≠ eosTokenId := by
    simp
  constructor
  · intro h
    have hlength := h.length_le
    have hlast := h.eos_last
    rw [sampled_outputIds, sampled_samplingParams, List.length_map, List.length_range] at hlength
    rw [sampled_outputIds, sampled_samplingParams, hdrop, hmem] at hlast
    exact ⟨by exact_mod_cast hlength, hlast⟩
  · intro h
    refine ⟨?_, ?_⟩
    · rw [sampled_outputIds, sampled_samplingParams, List.length_map, List.length_range]
      exact_mod_cast h.limit
    · rw [sampled_outputIds, sampled_samplingParams, hdrop, hmem]
      exact h.eos_ne

/-- A request that the steps go beyond a stop condition of is finished. -/
theorem finished_of_not_stepsWithin {r : Req} (h : ¬ StepsWithin eosTokenId steps tokens r) :
    (r.sampled eosTokenId tokens steps).finished = true := by
  refine (sampled_finished r).mpr ?_
  by_cases hlimit : r.samplingParams.maxNewTokens ≤ steps + 1
  · exact Or.inr (Or.inl hlimit)
  · refine Or.inr (Or.inr ?_)
    by_contra hno
    refine h ⟨by omega, fun hignore t ht heq => hno ⟨hignore, t, ht.le, heq⟩⟩

/-- **A request, once finished, respects the stop conditions if and only if the steps do.** -/
theorem sampled_respectsStops_of_finished (r : Req) :
    ((r.sampled eosTokenId tokens steps).finished = true →
      RespectsStops eosTokenId (r.sampled eosTokenId tokens steps)) ↔
        StepsWithin eosTokenId steps tokens r := by
  constructor
  · intro h
    by_contra hnot
    exact hnot ((sampled_respectsStops r).mp (h (finished_of_not_stepsWithin hnot)))
  · intro h _
    exact (sampled_respectsStops r).mpr h

end Requests

section Batch

variable {cfg : ServeConfig} {env : BatchEnv κ} {s u : Server κ α} {k : ℕ}

/-- The run of `batch_forward_step` comes to the report of micro-batch `k` in the state `u`;
an exception may strike afterwards. -/
def ReportsAt (cfg : ServeConfig) (env : BatchEnv κ) (s : Server κ α) (k : ℕ) (u : Server κ α) :
    Prop :=
  ∃ before after, batchCalls cfg.engine (s.numMb cfg) = before ++ .handleFinishedRequests k :: after ∧
    exec (serveStep cfg env) s before = some u

/-- The parts of a batch before its reports. -/
def unreportedCalls (cfg : EngineConfig) (numMb : ℕ) : List ServeCall :=
  admitCalls ++ (prepareCalls numMb ++ (batchForwardStep cfg numMb).map .forward)

theorem batchCalls_unreported (cfg : EngineConfig) (numMb : ℕ) :
    batchCalls cfg numMb =
      unreportedCalls cfg numMb ++ (List.range numMb).map .handleFinishedRequests := by
  rw [batchCalls, unreportedCalls]
  simp only [List.append_assoc]

theorem not_mem_unreportedCalls (cfg : EngineConfig) (numMb k : ℕ) :
    .handleFinishedRequests k ∉ unreportedCalls cfg numMb := by
  intro hmem
  rw [unreportedCalls, List.mem_append, List.mem_append] at hmem
  rcases hmem with hmem | hmem | hmem
  · simp [admitCalls] at hmem
  · rcases mem_prepareCalls hmem with h | ⟨j, h⟩ <;> cases h
  · rcases List.mem_map.mp hmem with ⟨c, -, h⟩
    cases h

/-- What comes before the report of a micro-batch are the other parts, and reports of other
micro-batches. -/
theorem before_report {cfg : EngineConfig} {numMb : ℕ} {before after : List ServeCall}
    (h : batchCalls cfg numMb = before ++ .handleFinishedRequests k :: after) :
    k < numMb ∧ ∃ reports, before = unreportedCalls cfg numMb ++ reports ∧
      ∀ c ∈ reports, ∃ j, j ≠ k ∧ c = .handleFinishedRequests j := by
  rw [batchCalls_unreported] at h
  have hsplit : ∃ reports, before = unreportedCalls cfg numMb ++ reports ∧
      (List.range numMb).map .handleFinishedRequests =
        reports ++ .handleFinishedRequests k :: after := by
    rcases List.append_eq_append_iff.mp h with ⟨reports, hbefore, hrest⟩ | ⟨rest, hbefore, hrest⟩
    · exact ⟨reports, hbefore, hrest⟩
    · cases rest with
      | nil => exact ⟨[], by simpa using hbefore.symm, by simpa using hrest.symm⟩
      | cons c rest =>
          obtain rfl : .handleFinishedRequests k = c := (List.cons.inj hrest).1
          exact absurd (by simp [hbefore]) (not_mem_unreportedCalls cfg numMb k)
  rcases hsplit with ⟨reports, hbefore, hreports⟩
  have hnodup : ((List.range numMb).map ServeCall.handleFinishedRequests).Nodup :=
    List.nodup_range.map fun _ _ heq => ServeCall.handleFinishedRequests.inj heq
  have hmem : ServeCall.handleFinishedRequests k ∈
      (List.range numMb).map ServeCall.handleFinishedRequests := by simp [hreports]
  refine ⟨by simpa using hmem, reports, hbefore, fun c hc => ?_⟩
  have hin : c ∈ (List.range numMb).map ServeCall.handleFinishedRequests := by simp [hreports, hc]
  rcases List.mem_map.mp hin with ⟨j, -, rfl⟩
  refine ⟨j, fun hjk => ?_, rfl⟩
  rw [hreports, List.nodup_append] at hnodup
  exact hnodup.2.2 _ hc _ List.mem_cons_self (congrArg _ hjk)

/-- The requests of a micro-batch that is reported have the tokens of prefill and of all
decode steps. -/
theorem reported_tokens (h : ReportsAt cfg env s k u) :
    k < (createMicroBatches (s.policy cfg) s.forwardQueue).1.length ∧
      u.engine.tokens.microBatches[k]? =
        (sampledBatches cfg env (createMicroBatches (s.policy cfg) s.forwardQueue).1)[k]? := by
  rcases h with ⟨before, after, hcalls, hrun⟩
  rcases before_report hcalls with ⟨hk, reports, rfl, hreports⟩
  rw [unreportedCalls, exec_append, exec_append, exec_admitCalls, Option.bind_some,
    exec_append] at hrun
  rcases Option.bind_eq_some_iff.mp hrun with ⟨v, hv, hrest⟩
  rcases Option.bind_eq_some_iff.mp hv with ⟨w, hw, hforward⟩
  have hlength : k < (sampledBatches cfg env
      (createMicroBatches (s.policy cfg) s.forwardQueue).1).length := by
    rw [sampledBatches, List.length_mapIdx]
    exact hk
  rw [← forwarded_tokens hw hforward k hlength]
  -- The reports of other micro-batches leave this one.
  have hkeep : u.engine.tokens.microBatches[k]? = v.engine.tokens.microBatches[k]? := by
    refine exec_preserves (I := fun x : Server κ α =>
      x.engine.tokens.microBatches[k]? = v.engine.tokens.microBatches[k]?) ?_ rfl hrest
    intro x c hc y hx hy
    rcases hreports c hc with ⟨j, hj, rfl⟩
    rcases Option.map_eq_some_iff.mp hy with ⟨reqs, -, rfl⟩
    simp only [List.getElem?_set_ne hj]
    exact hx
  exact ⟨hk, hkeep⟩

/-- Whatever a run reports as finished respects the stop conditions: if and only if, in the
micro-batches it reports, every request's limit is at least the number of tokens that the batch
samples for it and, unless that is ignored, none of them but the last is the end of sequence. -/
theorem reported_respects_iff (cfg : ServeConfig) (env : BatchEnv κ) (s : Server κ α) :
    (∀ k u done, ReportsAt cfg env s k u → u.engine.tokens.microBatches[k]? = some done →
      ∀ r ∈ done, r.finished = true → RespectsStops cfg.eosTokenId r) ↔
    ∀ k u reqs, ReportsAt cfg env s k u →
      (createMicroBatches (s.policy cfg) s.forwardQueue).1[k]? = some reqs →
      ∀ q r, reqs[q]? = some r → StepsWithin cfg.eosTokenId
        (cfg.engine.numDecodeSteps (s.numMb cfg)) (fun e => env.sample e k q) r := by
  constructor
  · intro h k u reqs hreport hreqs q r hr
    refine (sampled_respectsStops_of_finished r).mp ?_
    have hdone := (reported_tokens hreport).2
    rw [sampledBatches, List.getElem?_mapIdx, hreqs, Option.map_some] at hdone
    refine h k u _ hreport hdone _ (List.mem_of_getElem? (i := q) ?_)
    rw [List.getElem?_mapIdx, hr, Option.map_some]
    rfl
  · intro h k u done hreport hdone r hr
    rcases reported_tokens hreport with ⟨hk, htokens⟩
    have hreqs := List.getElem?_eq_getElem hk
    rw [sampledBatches, List.getElem?_mapIdx, hreqs, Option.map_some, hdone,
      Option.some.injEq] at htokens
    rw [htokens] at hr
    rcases List.mem_mapIdx.mp hr with ⟨q, hq, rfl⟩
    exact (sampled_respectsStops_of_finished _).mpr
      (h k u _ hreport hreqs q _ (List.getElem?_eq_getElem hq))

theorem oneWaiting_genLen_pos : 0 < 3 := by decide

/-- The server with one prompt waiting, that wants one token. -/
def oneWaiting : Server ℕ ℕ :=
  (handleBatchGenerateRequest (.small 3 oneWaiting_genLen_pos) ⟨["a"], [[5, 6]], ⟨1, false, true⟩⟩
    (.small 3 oneWaiting_genLen_pos)).1

/-- Two tokens are reported for it. -/
theorem reports_beyond_limit :
    ¬ ∀ (cfg : ServeConfig) (env : BatchEnv ℕ) (s : Server ℕ ℕ),
      (∀ r ∈ s.forwardQueue, 1 ≤ r.samplingParams.maxNewTokens ∧ r.finished = false) →
      ∀ k u done, ReportsAt cfg env s k u → u.engine.tokens.microBatches[k]? = some done →
        ∀ r ∈ done, r.finished = true → RespectsStops cfg.eosTokenId r := by
  intro hall
  let cfg : ServeConfig := .small 3 oneWaiting_genLen_pos
  let env : BatchEnv ℕ := ⟨⟨fun _ _ _ _ => 0, fun _ _ _ _ => 0⟩, fun _ _ _ => 1⟩
  have hruns : (exec (serveStep cfg env) oneWaiting (unreportedCalls cfg.engine 1)).isSome := by
    decide +kernel
  rcases Option.isSome_iff_exists.mp hruns with ⟨u, hu⟩
  have hreport : ReportsAt cfg env oneWaiting 0 u :=
    ⟨unreportedCalls cfg.engine 1, [], batchCalls_unreported cfg.engine 1, hu⟩
  let done : Req := ⟨"a", [5, 6], 2, [1, 1], ⟨1, false, true⟩, true, some .length, none⟩
  have hsampled : (sampledBatches cfg env (createMicroBatches (oneWaiting.policy cfg)
      oneWaiting.forwardQueue).1)[0]? = some [done] := by decide +kernel
  have hrespects := hall cfg env oneWaiting (by decide) 0 u [done] hreport
    ((reported_tokens hreport).2.trans hsampled) done List.mem_cons_self rfl
  exact absurd hrespects.length_le (by decide)

end Batch

end HarvestMoE
