import HarvestMoE.Lib.Loops
import HarvestMoE.Lib.Projection
import HarvestMoE.Serve

/-!
# Which requests are answered

A batch answers the requests it aborts, and of the admitted ones those that are finished
after its last decode step; the others are dropped. So every request is answered exactly
once if and only if every admitted request finishes within the tokens that the batch
samples for it (`exposedStep_answers_iff`).

## Main definitions

* `Req.sampled` — a request after a number of decode steps.
* `Finishes` — a request finishes within its tokens.
* `BatchAnswers`, `AllAnswered` — every admitted request of a batch, of a list, does.
-/

namespace HarvestMoE

open Lib

variable {κ α : Type*}

section Requests

variable {eosTokenId : ℕ}

@[simp] theorem checkFinished_rid (r : Req) : (r.checkFinished eosTokenId).rid = r.rid := by
  simp only [Req.checkFinished]
  split_ifs <;> rfl

@[simp] theorem checkFinished_outputIds (r : Req) :
    (r.checkFinished eosTokenId).outputIds = r.outputIds := by
  simp only [Req.checkFinished]
  split_ifs <;> rfl

@[simp] theorem checkFinished_samplingParams (r : Req) :
    (r.checkFinished eosTokenId).samplingParams = r.samplingParams := by
  simp only [Req.checkFinished]
  split_ifs <;> rfl

theorem checkFinished_finished (r : Req) :
    (r.checkFinished eosTokenId).finished ↔ r.finished ∨
      r.samplingParams.maxNewTokens ≤ r.outputIds.length ∨
      (r.samplingParams.ignoreEos = false ∧ r.outputIds.getLast? = some eosTokenId) := by
  simp only [Req.checkFinished]
  split_ifs <;> simp_all [and_comm]

/-- A request after prefill and `d` decode steps, with the tokens sampled for it. -/
def Req.sampled (eosTokenId : ℕ) (tokens : ℕ → ℕ) (r : Req) : ℕ → Req
  | 0 => r.prefillToken eosTokenId (tokens 0)
  | d + 1 => (r.sampled eosTokenId tokens d).decodeToken eosTokenId (tokens (d + 1))

variable {tokens : ℕ → ℕ} {d : ℕ}

@[simp] theorem sampled_rid (r : Req) : (r.sampled eosTokenId tokens d).rid = r.rid := by
  induction d with
  | zero => simp [Req.sampled, Req.prefillToken]
  | succ d ih => simpa [Req.sampled, Req.decodeToken] using ih

@[simp] theorem sampled_samplingParams (r : Req) :
    (r.sampled eosTokenId tokens d).samplingParams = r.samplingParams := by
  induction d with
  | zero => simp [Req.sampled, Req.prefillToken]
  | succ d ih => simpa [Req.sampled, Req.decodeToken] using ih

/-- All sampled tokens are kept, also those after the request has finished. -/
@[simp] theorem sampled_outputIds (r : Req) :
    (r.sampled eosTokenId tokens d).outputIds = (List.range (d + 1)).map tokens := by
  induction d with
  | zero => simp [Req.sampled, Req.prefillToken]
  | succ d ih =>
      rw [List.range_succ, List.map_append, ← ih]
      simp [Req.sampled, Req.decodeToken]

/-- The request is finished by the tokens of prefill and of the given decode steps: they
reach its limit, or one of them is the end of sequence and this is not ignored. -/
def Finishes (eosTokenId steps : ℕ) (tokens : ℕ → ℕ) (r : Req) : Prop :=
  r.finished ∨ r.samplingParams.maxNewTokens ≤ steps + 1 ∨
    (r.samplingParams.ignoreEos = false ∧ ∃ t ≤ steps, tokens t = eosTokenId)

theorem sampled_finished (r : Req) :
    (r.sampled eosTokenId tokens d).finished ↔ Finishes eosTokenId d tokens r := by
  induction d with
  | zero => simp [Req.sampled, Req.prefillToken, checkFinished_finished, Finishes]
  | succ d ih =>
      have hlast : ((List.range (d + 1)).map tokens ++ [tokens (d + 1)]).getLast? =
          some (tokens (d + 1)) := by simp
      have hexists : (∃ t ≤ d + 1, tokens t = eosTokenId) ↔
          (∃ t ≤ d, tokens t = eosTokenId) ∨ tokens (d + 1) = eosTokenId := by
        constructor
        · rintro ⟨t, ht, heq⟩
          rcases Nat.le_succ_iff.mp ht with ht | rfl
          · exact Or.inl ⟨t, ht, heq⟩
          · exact Or.inr heq
        · rintro (⟨t, ht, heq⟩ | heq)
          · exact ⟨t, by omega, heq⟩
          · exact ⟨d + 1, le_rfl, heq⟩
      simp only [Req.sampled, Req.decodeToken, checkFinished_finished, ih, sampled_samplingParams,
        sampled_outputIds, hlast, Option.some.injEq, Finishes, hexists, List.length_append,
        List.length_map, List.length_range, List.length_singleton]
      constructor
      · rintro ((h | h | h) | h | h)
        · exact Or.inl h
        · exact Or.inr (Or.inl (by push_cast; omega))
        · exact Or.inr (Or.inr ⟨h.1, Or.inl h.2⟩)
        · exact Or.inr (Or.inl (by push_cast at h ⊢; omega))
        · exact Or.inr (Or.inr ⟨h.1, Or.inr h.2⟩)
      · rintro (h | h | ⟨h1, h2 | h2⟩)
        · exact Or.inl (Or.inl h)
        · exact Or.inr (Or.inl (by push_cast at h ⊢; omega))
        · exact Or.inl (Or.inr (Or.inr ⟨h1, h2⟩))
        · exact Or.inr (Or.inr ⟨h1, h2⟩)

end Requests

section TokenRun

variable {numLayers numMb k eosTokenId : ℕ} {sample : ℕ → ℕ → ℕ → ℕ}

/-- The calls that sample for micro-batch `k`, and those that count the steps. -/
def Call.samples (numLayers k : ℕ) : Call → Bool
  | .prepareForDecode => true
  | .layer i _ k' | .postAttention i _ k' => decide (k' = k ∧ ¬ i < numLayers - 1)
  | _ => false

/-- Two states agree on the requests of micro-batch `k`. -/
structure SameTokens (k : ℕ) (s u : TokenState) : Prop where
  step_eq : s.decodeStep = u.decodeStep
  reqs_eq : s.microBatches[k]? = u.microBatches[k]?

theorem SameTokens.set {s u : TokenState} (h : SameTokens k s u) {old : List Req}
    (hold : u.microBatches[k]? = some old) (reqs : List Req) :
    SameTokens k ⟨s.microBatches.set k reqs, u.decodeStep⟩
      ⟨u.microBatches.set k reqs, u.decodeStep⟩ := by
  have hu := (List.getElem?_eq_some_iff.mp hold).1
  have hs := (List.getElem?_eq_some_iff.mp (h.reqs_eq.trans hold)).1
  exact ⟨rfl, by simp [hs, hu]⟩

/-- The outputs of a micro-batch depend on the calls that sample for it. -/
theorem token_projects (numLayers k eosTokenId : ℕ) (sample : ℕ → ℕ → ℕ → ℕ) :
    Projects (tokenStep numLayers eosTokenId sample) (Call.samples numLayers k) (SameTokens k)
      fun _ _ => True where
  own := by
    intro s u c u' hc _ h hu
    cases c with
    | prepareForDecode =>
        obtain rfl := Option.some.inj hu
        exact ⟨_, rfl, congrArg (· + 1) h.step_eq, h.reqs_eq⟩
    | layer i page k' | postAttention i page k' =>
        obtain ⟨rfl, hi⟩ : k' = k ∧ ¬ i < numLayers - 1 := by simpa [Call.samples] using hc
        obtain ⟨reqs, hreqs, rfl⟩ := Option.map_eq_some_iff.mp hu
        simp only [tokenStep, h.reqs_eq, hreqs, Option.map_some, if_neg hi, h.step_eq]
        exact ⟨_, rfl, h.set hreqs _⟩
    | _ => simp [Call.samples] at hc
  other := by
    intro s u c s' hc h hs
    cases c with
    | prepareForDecode => simp [Call.samples] at hc
    | layer i page k' | postAttention i page k' =>
        obtain ⟨reqs, -, rfl⟩ := Option.map_eq_some_iff.mp hs
        by_cases hi : i < numLayers - 1
        · rwa [if_pos hi]
        · have hne : k' ≠ k := fun heq => hc (by simp [Call.samples, heq, hi])
          rw [if_neg hi]
          exact ⟨h.step_eq, (List.getElem?_set_ne hne).trans h.reqs_eq⟩
    | _ =>
        obtain rfl := Option.some.inj hs
        exact h

/-- A loop over the layers and the micro-batches, of which the last layer samples. -/
theorem filter_layers (hL : 0 < numLayers) (hk : k < numMb) {body : ℕ → ℕ → List Call}
    {tail : ℕ → List Call} {last : ℕ → Call}
    (hbody : ∀ i k', (body i k').filter (Call.samples numLayers k) =
      if k' = k ∧ ¬ i < numLayers - 1 then [last i] else [])
    (htail : ∀ i, (tail i).filter (Call.samples numLayers k) = []) :
    ((List.range numLayers).flatMap fun i => (List.range numMb).flatMap (body i) ++ tail i).filter
      (Call.samples numLayers k) = [last (numLayers - 1)] := by
  have hlayer : ∀ i, ((List.range numMb).flatMap (body i) ++ tail i).filter
      (Call.samples numLayers k) = if i < numLayers - 1 then [] else [last i] := by
    intro i
    rw [List.filter_append, htail, List.append_nil, List.filter_flatMap,
      flatMap_range_single hk fun k' _ hne => by rw [hbody, if_neg (by simp [hne])], hbody]
    split_ifs <;> simp_all
  rw [List.filter_flatMap, flatMap_range_single (show numLayers - 1 < numLayers by omega), hlayer,
    if_neg (lt_irrefl _)]
  intro i hi hne
  rw [hlayer, if_pos (by omega)]

/-- Prefill samples once for a micro-batch. -/
theorem filter_samples_prefill (hL : 0 < numLayers) (hk : k < numMb) :
    (prefillCalls numLayers 1 numMb).filter (Call.samples numLayers k) =
      [.layer (numLayers - 1) 0 k] := by
  have hbody : ∀ i k', (prefillBatchCalls numMb i 0 k').filter (Call.samples numLayers k) =
      if k' = k ∧ ¬ i < numLayers - 1 then [.layer i 0 k] else [] := by
    intro i k'
    have hrest : (if numMb > 1 then [Call.offloadHiddenPrefill k',
        .loadHiddenPrefill ((k' + 1) % numMb)] else []).filter (Call.samples numLayers k) = [] := by
      split_ifs <;> rfl
    rw [prefillBatchCalls, List.filter_append, hrest, List.append_nil]
    by_cases h : k' = k ∧ ¬ i < numLayers - 1
    · obtain ⟨rfl, hi⟩ := h
      simp [Call.samples, hi]
    · rw [if_neg h, List.filter_eq_nil_iff]
      simpa [Call.samples] using h
  have htail : ∀ i, [Call.prefetchExperts ((i + 1) % numLayers) 0 0 .prefill].filter
      (Call.samples numLayers k) = [] := fun _ => rfl
  have hloop := filter_layers hL hk hbody htail
  simp only [← prefillLayerCalls_one] at hloop
  rw [prefillCalls, List.filter_cons_of_neg (by simp [Call.samples])]
  exact hloop

/-- A decode step samples once for a micro-batch. -/
theorem filter_samples_decode (hL : 0 < numLayers) (hk : k < numMb) :
    (decodeStepCalls numLayers 1 numMb).filter (Call.samples numLayers k) =
      [.prepareForDecode, .postAttention (numLayers - 1) 0 k] := by
  have hbody : ∀ i k', (decodeBatchCalls numLayers 1 numMb i k').filter (Call.samples numLayers k) =
      if k' = k ∧ ¬ i < numLayers - 1 then [.postAttention i 0 k] else [] := by
    intro i k'
    have hahead : (lookAheadCalls numLayers numMb i k').filter (Call.samples numLayers k) = [] := by
      rw [lookAheadCalls]
      split_ifs <;> rfl
    have hrelay : (relayCalls numLayers 1 numMb i 0 k').filter (Call.samples numLayers k) = [] := by
      rw [relayCalls]
      split <;> rfl
    rw [decodeBatchCalls_one, List.filter_append, List.filter_append, hahead, hrelay,
      List.append_nil, List.append_nil]
    by_cases h : k' = k ∧ ¬ i < numLayers - 1
    · obtain ⟨rfl, hi⟩ := h
      simp [Call.samples, hi]
    · rw [if_neg h, List.filter_eq_nil_iff]
      simpa [Call.samples] using h
  have hprologue : ((List.range (min 2 numMb)).flatMap (prologueCalls 1)).filter
      (Call.samples numLayers k) = [] := by
    rw [List.filter_flatMap]
    exact flatMap_range_nil _ fun k' _ => rfl
  have htail : ∀ _ : ℕ, [].filter (Call.samples numLayers k) = [] := fun _ => rfl
  have hloop := filter_layers hL hk hbody htail
  simp only [List.append_nil, ← decodeLayerCalls_one] at hloop
  rw [decodeStepCalls, List.filter_cons_of_pos (by rfl), decodeBodyCalls, List.filter_append,
    hprologue, List.nil_append]
  exact congrArg _ hloop

/-- The requests of micro-batch `k` have the tokens of prefill and of `d` decode steps. -/
structure SampledAt (eosTokenId : ℕ) (sample : ℕ → ℕ → ℕ → ℕ) (k : ℕ) (reqs : List Req) (d : ℕ)
    (s : TokenState) : Prop where
  step_eq : s.decodeStep = d
  reqs_eq : s.microBatches[k]? =
    some (reqs.mapIdx fun q r => r.sampled eosTokenId (fun e => sample e k q) d)

/-- What a batch leaves of a micro-batch: every request has the tokens of prefill and of
all decode steps. -/
theorem tokens_run (cfg : EngineConfig) {mbs : List (List Req)} {reqs : List Req} {t : TokenState}
    (hk : mbs[k]? = some reqs)
    (h : exec (tokenStep cfg.numHiddenLayers eosTokenId sample) ⟨mbs, 0⟩
      (batchForwardStep cfg mbs.length) = some t) :
    t.microBatches[k]? = some (reqs.mapIdx fun q r =>
      r.sampled eosTokenId (fun e => sample e k q) (cfg.numDecodeSteps mbs.length)) := by
  have hlt := (List.getElem?_eq_some_iff.mp hk).1
  have hfilter : (batchForwardStep cfg mbs.length).filter (Call.samples cfg.numHiddenLayers k) =
      .layer (cfg.numHiddenLayers - 1) 0 k :: (List.range (cfg.numDecodeSteps mbs.length)).flatMap
        fun _ => [.prepareForDecode, .postAttention (cfg.numHiddenLayers - 1) 0 k] := by
    rw [batchForwardStep, cfg.weightsPrefetchNumPagesCpu_eq, forwardCalls, List.filter_append,
      filter_samples_prefill cfg.layers_pos hlt, List.filter_flatMap]
    simp only [filter_samples_decode cfg.layers_pos hlt, List.singleton_append]
  have hprefill : Runs (tokenStep cfg.numHiddenLayers eosTokenId sample) (fun _ _ => True)
      (fun s => s = ⟨mbs, 0⟩) [.layer (cfg.numHiddenLayers - 1) 0 k]
      (SampledAt eosTokenId sample k reqs 0) := by
    refine Runs.single fun s hs => ⟨trivial, ?_⟩
    subst hs
    simp only [tokenStep, hk, Option.map_some, lt_irrefl, if_false]
    exact ⟨_, rfl, rfl, List.getElem?_set_self hlt⟩
  have hstep : ∀ d, Runs (tokenStep cfg.numHiddenLayers eosTokenId sample) (fun _ _ => True)
      (SampledAt eosTokenId sample k reqs d)
      [.prepareForDecode, .postAttention (cfg.numHiddenLayers - 1) 0 k]
      (SampledAt eosTokenId sample k reqs (d + 1)) := by
    intro d s hs
    have hlen := (List.getElem?_eq_some_iff.mp hs.reqs_eq).1
    refine ⟨Along.of_forall fun _ _ _ => trivial, ?_⟩
    simp only [exec_cons, exec_nil, tokenStep, Option.bind_some, hs.step_eq, hs.reqs_eq,
      Option.map_some, lt_irrefl, if_false]
    refine ⟨_, rfl, rfl, ?_⟩
    rw [List.getElem?_set_self hlen, List.mapIdx_mapIdx]
    rfl
  obtain ⟨halong, v, hv, hsampled⟩ := hprefill.cons (Runs.loop _ fun d _ => hstep d) ⟨mbs, 0⟩ rfl
  rw [← hfilter] at halong hv
  have hsame := (token_projects _ k eosTokenId sample).exec ⟨rfl, rfl⟩ h halong hv
  exact hsame.reqs_eq.trans hsampled.reqs_eq

end TokenRun

section Batch

variable {cfg : ServeConfig} {env : BatchEnv κ} {s t : Server κ α} {fault : Option ℕ}

/-- The ids of those requests that are finished. -/
def finishedRids (reqs : List Req) : List String := (reqs.filter Req.finished).map Req.rid

theorem reportFinished_rids (reqs : List Req) (tokens : Req → List ℕ) (outs : List BatchTokenIDOut) :
    (reportFinished reqs tokens outs).flatMap BatchTokenIDOut.rids =
      outs.flatMap BatchTokenIDOut.rids ++ finishedRids reqs := by
  by_cases h : reqs.filter Req.finished = []
  · simp [reportFinished, finishedRids, h]
  · simp [reportFinished, finishedRids, h]

/-- The micro-batches after prefill and all decode steps. -/
def sampledBatches (cfg : ServeConfig) (env : BatchEnv κ) (mbs : List (List Req)) :
    List (List Req) :=
  mbs.mapIdx fun k reqs => reqs.mapIdx fun q r =>
    r.sampled cfg.eosTokenId (fun e => env.sample e k q) (cfg.engine.numDecodeSteps mbs.length)

/-- The ids that a batch answers: of its aborted requests, and of those that are finished
at its end. -/
def answeredRids (cfg : ServeConfig) (env : BatchEnv κ) (policy : AdmissionPolicy)
    (queue : List Req) : List String :=
  finishedRids (createMicroBatches policy queue).2 ++
    (sampledBatches cfg env (createMicroBatches policy queue).1).flatMap finishedRids

/-- The parts of a batch between admission and the answers leave the queue, the answers
and the number of micro-batches. -/
theorem serveStep_middle {c : ServeCall} (hc : c = .allocCpu ∨ (∃ k, c = .prepareForPrefill k) ∨
    ∃ a, c = .forward a) (h : serveStep cfg env s c = some t) :
    t.forwardQueue = s.forwardQueue ∧ t.outPyobjs = s.outPyobjs := by
  rcases hc with rfl | ⟨k, rfl⟩ | ⟨a, rfl⟩
  · obtain rfl := Option.some.inj h
    exact ⟨rfl, rfl⟩
  · obtain ⟨reqs, -, h⟩ := Option.bind_eq_some_iff.mp h
    obtain ⟨b, -, rfl⟩ := Option.map_eq_some_iff.mp h
    exact ⟨rfl, rfl⟩
  · obtain ⟨engine, -, rfl⟩ := Option.map_eq_some_iff.mp h
    exact ⟨rfl, rfl⟩

theorem mem_prepareCalls {numMb : ℕ} {c : ServeCall} (hc : c ∈ prepareCalls numMb) :
    c = .allocCpu ∨ ∃ k, c = .prepareForPrefill k := by
  obtain ⟨k, -, hc⟩ := List.mem_flatMap.mp hc
  simp only [List.mem_cons, List.not_mem_nil, or_false] at hc
  exact hc.imp id fun h => ⟨k, h⟩

theorem prepareCalls_tokens {numMb : ℕ}
    (h : exec (serveStep cfg env) s (prepareCalls numMb) = some t) :
    t.engine.tokens = s.engine.tokens := by
  refine exec_preserves (I := fun u : Server κ α => u.engine.tokens = s.engine.tokens) ?_ rfl h
  intro u c hc v hu hv
  rcases mem_prepareCalls hc with rfl | ⟨k, rfl⟩
  · obtain rfl := Option.some.inj hv
    exact hu
  · obtain ⟨reqs, -, hv⟩ := Option.bind_eq_some_iff.mp hv
    obtain ⟨b, -, rfl⟩ := Option.map_eq_some_iff.mp hv
    exact hu

/-- The micro-batches before `j` are answered, the others are as they will be answered. -/
structure AnsweredTo (final : List (List Req)) (outs : List BatchTokenIDOut) (queue : List Req)
    (j : ℕ) (s : Server κ α) : Prop where
  queue_eq : s.forwardQueue = queue
  rids_eq : s.outPyobjs.flatMap BatchTokenIDOut.rids =
    outs.flatMap BatchTokenIDOut.rids ++ (final.take j).flatMap finishedRids
  rest_eq : ∀ k, j ≤ k → k < final.length → s.engine.tokens.microBatches[k]? = final[k]?

/-- The next micro-batch is answered. -/
theorem AnsweredTo.next {final : List (List Req)} {outs : List BatchTokenIDOut} {queue : List Req}
    {j : ℕ} (hj : j < final.length) :
    Runs (serveStep cfg env) (fun _ _ => True)
      (AnsweredTo final outs queue j : Server κ α → Prop)
      [.handleFinishedRequests j] (AnsweredTo final outs queue (j + 1)) := by
  refine Runs.single fun s hs => ⟨trivial, ?_⟩
  have hbatch := hs.rest_eq j le_rfl hj
  rw [List.getElem?_eq_getElem hj] at hbatch
  simp only [serveStep, hbatch, Option.map_some]
  refine ⟨_, rfl, hs.queue_eq, ?_, fun k hk hlt => ?_⟩
  · rw [handleFinishedRequests, reportFinished_rids, hs.rids_eq,
      List.take_succ_eq_append_getElem hj, List.flatMap_append, List.flatMap_singleton,
      List.append_assoc]
  · have hne : j ≠ k := by omega
    simp only [List.getElem?_set_ne hne]
    exact hs.rest_eq k (by omega) hlt

/-- The answers of the last loop. -/
theorem finish_runs (final : List (List Req)) (outs : List BatchTokenIDOut) (queue : List Req) :
    Runs (serveStep cfg env) (fun _ _ => True)
      (fun s : Server κ α => s.forwardQueue = queue ∧ s.outPyobjs = outs ∧
        ∀ k < final.length, s.engine.tokens.microBatches[k]? = final[k]?)
      ((List.range final.length).map .handleFinishedRequests)
      (fun s => s.forwardQueue = queue ∧ s.outPyobjs.flatMap BatchTokenIDOut.rids =
        outs.flatMap BatchTokenIDOut.rids ++ final.flatMap finishedRids) := by
  have hloop : Runs (serveStep cfg env) (fun _ _ => True)
      (AnsweredTo final outs queue 0 : Server κ α → Prop)
      ((List.range final.length).flatMap fun j => [.handleFinishedRequests j])
      (AnsweredTo final outs queue final.length) :=
    Runs.loop final.length fun _ hj => AnsweredTo.next hj
  rw [List.map_eq_flatMap]
  refine hloop.conseq ?_ ?_
  · rintro s ⟨hqueue, rfl, hleft⟩
    exact ⟨hqueue, by simp, fun k _ hk => hleft k hk⟩
  · exact fun s hs => ⟨hs.queue_eq, by simpa using hs.rids_eq⟩

/-- A batch that raises nothing has run all its parts. -/
theorem runBatch_true (h : runBatch cfg env fault s = (t, true)) :
    exec (serveStep cfg env) s (batchCalls cfg.engine (s.numMb cfg)) = some t := by
  cases fault with
  | none => exact reach_eq_true.mp h
  | some m =>
      simp only [runBatch] at h
      split_ifs at h
      · simp at h
      · exact reach_eq_true.mp h

/-- Before the answers, the micro-batches have the tokens of prefill and of all decode steps. -/
theorem forwarded_tokens {u v : Server κ α}
    (hu : exec (serveStep cfg env) (s.admitted cfg) (prepareCalls (s.numMb cfg)) = some u)
    (hv : exec (serveStep cfg env) u
      ((batchForwardStep cfg.engine (s.numMb cfg)).map .forward) = some v) :
    ∀ k < (sampledBatches cfg env (createMicroBatches (s.policy cfg) s.forwardQueue).1).length,
      v.engine.tokens.microBatches[k]? =
        (sampledBatches cfg env (createMicroBatches (s.policy cfg) s.forwardQueue).1)[k]? := by
  have htokens : exec (tokenStep cfg.engine.numHiddenLayers cfg.eosTokenId env.sample)
      u.engine.tokens (batchForwardStep cfg.engine (s.numMb cfg)) = some v.engine.tokens := by
    refine exec_map (f := fun x : Server κ α => x.engine.tokens) (fun x c y hy => ?_) hv
    obtain ⟨engine, hengine, rfl⟩ := Option.map_eq_some_iff.mp hy
    exact engineStep_tokens hengine
  rw [prepareCalls_tokens hu] at htokens
  intro k hk
  rw [sampledBatches, List.length_mapIdx] at hk
  have hreqs := List.getElem?_eq_getElem hk
  rw [tokens_run cfg.engine hreqs htokens, sampledBatches, List.getElem?_mapIdx, hreqs]
  rfl

/-- What a batch that raises nothing answers. -/
theorem runBatch_answers (h : runBatch cfg env fault s = (t, true)) :
    t.forwardQueue = [] ∧ t.outPyobjs.flatMap BatchTokenIDOut.rids =
      s.outPyobjs.flatMap BatchTokenIDOut.rids ++
        answeredRids cfg env (s.policy cfg) s.forwardQueue := by
  have hrun := runBatch_true h
  rw [batchCalls, exec_append, exec_admitCalls, Option.bind_some, exec_append] at hrun
  obtain ⟨u, hu, hrun⟩ := Option.bind_eq_some_iff.mp hrun
  rw [exec_append] at hrun
  obtain ⟨v, hv, hrun⟩ := Option.bind_eq_some_iff.mp hrun
  -- The parts in between keep the queue and the answers.
  have hkeep : ∀ {cs : List ServeCall} {x y : Server κ α}, (∀ c ∈ cs, c = .allocCpu ∨
      (∃ k, c = .prepareForPrefill k) ∨ ∃ a, c = .forward a) →
      exec (serveStep cfg env) x cs = some y →
      y.forwardQueue = x.forwardQueue ∧ y.outPyobjs = x.outPyobjs := by
    intro cs x y hcs hy
    refine exec_preserves (I := fun z : Server κ α => z.forwardQueue = x.forwardQueue ∧
      z.outPyobjs = x.outPyobjs) (fun z c hc w hz hw => ?_) ⟨rfl, rfl⟩ hy
    have hstep := serveStep_middle (hcs c hc) hw
    exact ⟨hstep.1.trans hz.1, hstep.2.trans hz.2⟩
  have hprepare := hkeep (fun c hc => (mem_prepareCalls hc).imp id Or.inl) hu
  have hforward := hkeep (fun c hc => by
    obtain ⟨a, -, rfl⟩ := List.mem_map.mp hc
    exact Or.inr (Or.inr ⟨a, rfl⟩)) hv
  have hleft := forwarded_tokens hu hv
  obtain ⟨-, w, hw, hqueue, houts⟩ := (finish_runs _ v.outPyobjs v.forwardQueue :
    Runs (serveStep cfg env) _ _ _ _) v ⟨rfl, rfl, hleft⟩
  rw [sampledBatches, List.length_mapIdx] at hw
  obtain rfl : w = t := Option.some.inj (hw.symm.trans hrun)
  refine ⟨hqueue.trans (hforward.1.trans hprepare.1), houts.trans ?_⟩
  rw [hforward.2, hprepare.2, answeredRids, ← List.append_assoc]
  exact congrArg (· ++ _) (reportFinished_rids _ _ _)

end Batch

section Count

variable {cfg : ServeConfig} {env : BatchEnv κ} {policy : AdmissionPolicy} {queue : List Req}

/-- Every admitted request of a batch finishes within the tokens sampled for it. -/
def BatchAnswers (cfg : ServeConfig) (env : BatchEnv κ) (mbs : List (List Req)) : Prop :=
  ∀ k reqs, mbs[k]? = some reqs → ∀ q r, reqs[q]? = some r →
    Finishes cfg.eosTokenId (cfg.engine.numDecodeSteps mbs.length) (fun e => env.sample e k q) r

/-- A batch answers requests for one token. -/
theorem BatchAnswers.of_one {cfg : ServeConfig} (env : BatchEnv κ) {mbs : List (List Req)}
    (h : ∀ reqs ∈ mbs, ∀ r ∈ reqs, r.samplingParams.maxNewTokens ≤ 1) :
    BatchAnswers cfg env mbs := by
  intro k reqs hk q r hq
  have := h reqs (List.mem_of_getElem? hk) r (List.mem_of_getElem? hq)
  exact Or.inr (Or.inl (by omega))

theorem finishedRids_abort (reqs : List Req) :
    finishedRids (reqs.map Req.abort) = reqs.map Req.rid := by
  have hall : ∀ r ∈ reqs.map Req.abort, r.finished := by
    intro r hr
    obtain ⟨r, -, rfl⟩ := List.mem_map.mp hr
    rfl
  rw [finishedRids, List.filter_eq_self.mpr hall, List.map_map]
  rfl

theorem flatMap_finishedRids (mbs : List (List Req)) :
    mbs.flatMap finishedRids = (mbs.flatten.filter Req.finished).map Req.rid := by
  induction mbs with
  | nil => rfl
  | cons reqs mbs ih => simp [finishedRids, ih]

theorem sampledBatches_rids (mbs : List (List Req)) :
    (sampledBatches cfg env mbs).flatten.map Req.rid = mbs.flatten.map Req.rid := by
  have hbatch : ∀ k (reqs : List Req), (reqs.mapIdx fun q r => r.sampled cfg.eosTokenId
      (fun e => env.sample e k q) (cfg.engine.numDecodeSteps mbs.length)).map Req.rid =
        reqs.map Req.rid := by
    intro k reqs
    apply List.ext_getElem?
    intro q
    cases hq : reqs[q]? with
    | none => simp [hq]
    | some r => simp [hq]
  rw [List.map_flatten, List.map_flatten]
  congr 1
  apply List.ext_getElem?
  intro k
  cases hk : mbs[k]? with
  | none => simp [sampledBatches, hk]
  | some reqs => simp [sampledBatches, hk, hbatch]

/-- The batch answers all of its admitted requests when they all finish in time. -/
theorem sampledBatches_finished (mbs : List (List Req)) :
    (∀ r ∈ (sampledBatches cfg env mbs).flatten, r.finished) ↔ BatchAnswers cfg env mbs := by
  constructor
  · intro h k reqs hk q r hq
    have hreqs : (sampledBatches cfg env mbs)[k]? = some (reqs.mapIdx fun q r =>
        r.sampled cfg.eosTokenId (fun e => env.sample e k q)
          (cfg.engine.numDecodeSteps mbs.length)) := by
      rw [sampledBatches, List.getElem?_mapIdx, hk, Option.map_some]
    have hr : r.sampled cfg.eosTokenId (fun e => env.sample e k q)
        (cfg.engine.numDecodeSteps mbs.length) ∈ (sampledBatches cfg env mbs).flatten := by
      refine List.mem_flatten.mpr ⟨_, List.mem_of_getElem? hreqs, List.mem_mapIdx.mpr ?_⟩
      obtain ⟨hlt, rfl⟩ := List.getElem?_eq_some_iff.mp hq
      exact ⟨q, hlt, rfl⟩
    exact (sampled_finished r).mp (h _ hr)
  · intro h r hr
    obtain ⟨reqs', hreqs', hr⟩ := List.mem_flatten.mp hr
    obtain ⟨k, hk, rfl⟩ := List.mem_mapIdx.mp hreqs'
    obtain ⟨q, hq, rfl⟩ := List.mem_mapIdx.mp hr
    exact (sampled_finished _).mpr (h k _ (List.getElem?_eq_getElem hk) q _
      (List.getElem?_eq_getElem hq))

/-- The answers of a batch are some of its requests, and all of them exactly when every
admitted request finishes. -/
theorem batch_rids (cfg : ServeConfig) (env : BatchEnv κ) (policy : AdmissionPolicy)
    (queue : List Req) :
    (answeredRids cfg env policy queue).Subperm (queue.map Req.rid) ∧
    ((queue.map Req.rid).length ≤ (answeredRids cfg env policy queue).length ↔
      BatchAnswers cfg env (createMicroBatches policy queue).1) := by
  obtain ⟨aborted, habort, hperm⟩ := createMicroBatches_perm policy queue
  rw [answeredRids]
  generalize createMicroBatches policy queue = out at habort hperm ⊢
  have hrids : (aborted.map Req.rid ++
      (sampledBatches cfg env out.1).flatten.map Req.rid).Perm (queue.map Req.rid) := by
    rw [sampledBatches_rids, ← List.map_append]
    exact hperm.map Req.rid
  rw [habort, finishedRids_abort, flatMap_finishedRids, ← sampledBatches_finished]
  generalize (sampledBatches cfg env out.1).flatten = all at hrids ⊢
  constructor
  · have hsub : (aborted.map Req.rid ++ (all.filter Req.finished).map Req.rid).Sublist
        (aborted.map Req.rid ++ all.map Req.rid) :=
      (List.filter_sublist.map Req.rid).append_left _
    exact hsub.subperm.trans hrids.subperm
  · rw [← hrids.length_eq, ← List.length_filter_eq_length_iff]
    have hle := List.length_filter_le Req.finished all
    simp only [List.length_append, List.length_map]
    omega

variable {s t : Server κ α} {fault : Option ℕ}

theorem flushCache_frame (s : Server κ α) : (flushCache s).forwardQueue = s.forwardQueue ∧
    (flushCache s).outPyobjs = s.outPyobjs ∧
    (flushCache s).engine.kv.pool.cacheLine = s.engine.kv.pool.cacheLine := by
  rw [flushCache]
  split_ifs <;> exact ⟨rfl, rfl, rfl⟩

/-- A batch keeps the line of the pool. -/
theorem runBatch_cacheLine (cfg : ServeConfig) (env : BatchEnv κ) (fault : Option ℕ)
    (s : Server κ α) : (runBatch cfg env fault s).1.engine.kv.pool.cacheLine = s.engine.kv.pool.cacheLine := by
  cases fault with
  | none => exact (reach_cursor _).2
  | some m =>
      simp only [runBatch]
      split_ifs <;> exact (reach_cursor _).2

/-- The ids that are put in the queue, those already waiting included. -/
def queuedRids (cfg : ServeConfig) (queue : List Req) (recvReqs : List (RecvReq κ)) :
    List String :=
  queue.map Req.rid ++ recvReqs.flatMap fun
    | .batch recvReq _ _ => (newRequests cfg recvReq).map Req.rid
    | .invalid => []

/-- Every admitted request of every batch of the list finishes within its tokens. -/
def AllAnswered (cfg : ServeConfig) (cacheLine : ℕ) : List Req → List (RecvReq κ) → Prop
  | queue, [] => queue = []
  | queue, .batch recvReq env _ :: rest =>
      BatchAnswers cfg env (createMicroBatches (admissionPolicy cfg cacheLine)
        (queue ++ newRequests cfg recvReq)).1 ∧ AllAnswered cfg cacheLine [] rest
  | _, .invalid :: _ => False

/-- The answers of a list that raises nothing. -/
theorem serveLoop_answers (recvReqs : List (RecvReq κ)) (s : Server κ α)
    (h : ∀ o ∈ (serveLoop cfg s recvReqs).2, o = .processed) :
    ∃ answers, (serveLoop cfg s recvReqs).1.outPyobjs.flatMap BatchTokenIDOut.rids =
        s.outPyobjs.flatMap BatchTokenIDOut.rids ++ answers ∧
      answers.Subperm (queuedRids cfg s.forwardQueue recvReqs) ∧
      ((queuedRids cfg s.forwardQueue recvReqs).length ≤ answers.length ↔
        AllAnswered cfg s.engine.kv.pool.cacheLine s.forwardQueue recvReqs) := by
  induction recvReqs generalizing s with
  | nil => exact ⟨[], by simp [serveLoop], List.nil_subperm, by simp [queuedRids, AllAnswered]⟩
  | cons r rest ih =>
      cases r with
      | invalid => simp [serveLoop] at h
      | batch recvReq env fault =>
          have hqueued : (handleBatchGenerateRequest cfg recvReq s).2 = true := by
            by_contra hf
            exact absurd (h .raised (by simp [serveLoop, hf])) (by simp)
          obtain ⟨t, ht⟩ : ∃ t,
              runBatch cfg env fault (handleBatchGenerateRequest cfg recvReq s).1 = (t, true) := by
            refine ⟨_, Prod.ext rfl ?_⟩
            cases hf : (runBatch cfg env fault (handleBatchGenerateRequest cfg recvReq s).1).2 with
            | true => rfl
            | false => exact absurd (h .raised (by simp [serveLoop, hqueued, hf])) (by simp)
          simp only [serveLoop, hqueued, ht, Bool.true_eq_false, if_false, List.mem_cons,
            forall_eq_or_imp] at h ⊢
          obtain ⟨hqueue, houts⟩ := runBatch_answers ht
          change _ = s.outPyobjs.flatMap BatchTokenIDOut.rids ++ answeredRids cfg env
            (s.policy cfg) (s.forwardQueue ++ newRequests cfg recvReq) at houts
          have hline : t.engine.kv.pool.cacheLine = s.engine.kv.pool.cacheLine := by
            have := runBatch_cacheLine cfg env fault (handleBatchGenerateRequest cfg recvReq s).1
            rwa [ht] at this
          obtain ⟨hqueue', houts', hline'⟩ := flushCache_frame t
          obtain ⟨answers, hrest, hsub, hiff⟩ := ih (flushCache t) h.2
          rw [hqueue', hqueue, hline', hline] at hiff
          rw [hqueue', hqueue] at hsub
          rw [houts', houts, List.append_assoc] at hrest
          -- The ids of this batch come first.
          have hsplit : queuedRids cfg s.forwardQueue (.batch recvReq env fault :: rest) =
              (s.forwardQueue ++ newRequests cfg recvReq).map Req.rid ++ queuedRids cfg [] rest := by
            simp [queuedRids]
          obtain ⟨hfirst, hall⟩ := batch_rids cfg env (s.policy cfg)
            (s.forwardQueue ++ newRequests cfg recvReq)
          refine ⟨_, hrest, hsplit ▸ ((List.subperm_append_left _).mpr hsub).trans
            ((List.subperm_append_right _).mpr hfirst), ?_⟩
          have h1 := hfirst.length_le
          have h2 := hsub.length_le
          rw [hsplit, AllAnswered, ← hiff, ← Server.policy, ← hall, List.length_append,
            List.length_append]
          constructor
          · intro hlen
            exact ⟨by omega, by omega⟩
          · rintro ⟨hbatch, hlen⟩
            exact Nat.add_le_add hbatch hlen

/-- A request is answered exactly once if and only if the batch it is admitted to
finishes it. -/
theorem exposedStep_answers_iff (cfg : ServeConfig) (s : Server κ α) (hs : s.outPyobjs = [])
    (recvReqs : List (RecvReq κ)) (h : ∀ o ∈ (exposedStep cfg s recvReqs).2.2, o = .processed) :
    ((exposedStep cfg s recvReqs).1.flatMap BatchTokenIDOut.rids).Perm
        (queuedRids cfg s.forwardQueue recvReqs) ↔
      AllAnswered cfg s.engine.kv.pool.cacheLine s.forwardQueue recvReqs := by
  obtain ⟨answers, houts, hsub, hiff⟩ := serveLoop_answers recvReqs s h
  rw [hs, List.flatMap_nil, List.nil_append] at houts
  rw [← hiff, exposedStep, houts]
  exact ⟨fun hperm => hperm.length_eq.ge, hsub.perm_of_length_le⟩

/-- A request for one token is answered. -/
theorem exposedStep_answers_one :
    ((exposedStep (.small 3 (by decide)) (.small 3 (by decide)) [.one 1 none]).1.flatMap
      BatchTokenIDOut.rids).Perm
        (queuedRids (.small 3 (by decide)) (Server.small 3 (by decide)).forwardQueue
          [.one 1 none]) := by
  refine (exposedStep_answers_iff (.small 3 (by decide)) (.small 3 (by decide)) rfl [.one 1 none]
    (by decide +kernel)).mpr ⟨?_, rfl⟩
  exact BatchAnswers.of_one _ (by decide +kernel)

/-- A single request with the default limit of 16 tokens: the batch samples two tokens for
it and drops it. -/
theorem exposedStep_drops_request :
    ¬ ∀ (cfg : ServeConfig) (s : Server ℕ ℕ) (recvReqs : List (RecvReq ℕ)), s.outPyobjs = [] →
      (∀ o ∈ (exposedStep cfg s recvReqs).2.2, o = .processed) →
      ((exposedStep cfg s recvReqs).1.flatMap BatchTokenIDOut.rids).Perm
        (queuedRids cfg s.forwardQueue recvReqs) := by
  intro h
  have hnone : (exposedStep (.small 3 (by decide)) (.small 3 (by decide)) [.one 16 none]).1 = [] := by
    decide +kernel
  have hone := h (.small 3 (by decide)) (.small 3 (by decide)) [.one 16 none] rfl (by decide +kernel)
  rw [hnone] at hone
  exact absurd hone.length_eq (by decide +kernel)

end Count

end HarvestMoE
