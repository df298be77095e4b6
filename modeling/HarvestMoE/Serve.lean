import HarvestMoE.Admission
import HarvestMoE.KvContract
import HarvestMoE.Weights

/-!
# Serving batches

`ModelRpcServer.exposed_step` takes a list of batch requests, and for each of them
queues its prompts, runs `batch_forward_step`, and resets the engine. The engine is the
product of the earlier machines: keys and values, weights, and the tokens of the
requests, which the host calls of `batchForwardStep` move together. An exception ends
the loop over the list, wherever it strikes, and leaves what has been done.

## Main definitions

* `tokenStep` — what a host call appends to the outputs.
* `Engine`, `engineStep` — the product of the machines.
* `Server`, `ServeCall`, `serveStep` — the server, and the parts of a batch.
* `runBatch` — `batch_forward_step`, with an exception at a given point or at none.
* `exposedStep` — the answers, and what became of each request of the list.
-/

namespace HarvestMoE

open Lib

variable {κ α : Type*}

section Tokens

/-- The requests of the micro-batches, and the decode steps started. -/
structure TokenState where
  microBatches : List (List Req)
  decodeStep : ℕ

/-- The last layer of prefill: the first output token, and the finish condition. -/
def Req.prefillToken (eosTokenId token : ℕ) (r : Req) : Req :=
  { r with outputIds := [token] }.checkFinished eosTokenId

/-- The last layer of a decode step: one more output token. -/
def Req.decodeToken (eosTokenId token : ℕ) (r : Req) : Req :=
  { r with outputIds := r.outputIds ++ [token] }.checkFinished eosTokenId

/-- The effect of a host call on the outputs; `sample` gives the tokens, by decode step
(prefill is step 0), micro-batch and request. -/
def tokenStep (numLayers eosTokenId : ℕ) (sample : ℕ → ℕ → ℕ → ℕ) (s : TokenState) :
    Call → Option TokenState
  | .layer i _ k =>
      s.microBatches[k]?.map fun reqs =>
        if i < numLayers - 1 then s
        else { s with
          microBatches := s.microBatches.set k
            (reqs.mapIdx fun q r => r.prefillToken eosTokenId (sample 0 k q)) }
  | .prepareForDecode => some { s with decodeStep := s.decodeStep + 1 }
  | .postAttention i _ k =>
      s.microBatches[k]?.map fun reqs =>
        if i < numLayers - 1 then s
        else { s with
          microBatches := s.microBatches.set k
            (reqs.mapIdx fun q r => r.decodeToken eosTokenId (sample s.decodeStep k q)) }
  | _ => some s

end Tokens

section Engine

/-- The engine. -/
structure Engine (κ α : Type*) where
  kv : KvState κ
  weights : WeightState α
  tokens : TokenState

/-- What the network computes for a batch. -/
structure BatchEnv (κ : Type*) where
  rows : KvRows κ
  sample : ℕ → ℕ → ℕ → ℕ

/-- A host call moves the three machines. -/
def engineStep (cfg : EngineConfig) (eosTokenId : ℕ) (env : BatchEnv κ) (s : Engine κ α)
    (c : Call) : Option (Engine κ α) :=
  (kvStep env.rows s.kv c).bind fun kv =>
    (weightStep cfg s.tokens.microBatches.length s.weights c).bind fun weights =>
      (tokenStep cfg.numHiddenLayers eosTokenId env.sample s.tokens c).map fun tokens =>
        ⟨kv, weights, tokens⟩

/-- `ExecutionEngine.reset`. -/
def Engine.reset (s : Engine κ α) : Engine κ α where
  kv := ⟨s.kv.pool.clear, [], 0⟩
  weights := s.weights.reset
  tokens := ⟨[], 0⟩

end Engine

/-- The meta information of an answer. -/
structure MetaInfo where
  promptTokens : ℕ
  completionTokens : ℕ
  deriving DecidableEq, Repr

/-- `BatchTokenIDOut`. -/
structure BatchTokenIDOut where
  rids : List String
  outputTokens : List (List ℕ)
  hitStopStr : List (Option String)
  skipSpecialTokens : List Bool
  metaInfo : List MetaInfo
  finished : List Bool
  deriving DecidableEq, Repr

/-- The answer to those of the requests that are finished, with the given tokens; there
is none when there are none. -/
def reportFinished (reqs : List Req) (tokens : Req → List ℕ) (outPyobjs : List BatchTokenIDOut) :
    List BatchTokenIDOut :=
  let done := reqs.filter Req.finished
  if done = [] then outPyobjs
  else outPyobjs ++ [
    { rids := done.map Req.rid
      outputTokens := done.map tokens
      hitStopStr := done.map Req.hitStopStr
      skipSpecialTokens := done.map fun r => r.samplingParams.skipSpecialTokens
      metaInfo := done.map fun r => ⟨r.inputIds.length, (tokens r).length⟩
      finished := done.map Req.finished }]

/-- The answers of `handle_finished_requests`. -/
def handleFinishedRequests (reqs : List Req) (outPyobjs : List BatchTokenIDOut) :
    List BatchTokenIDOut :=
  reportFinished reqs Req.outputIds outPyobjs

/-- The answers of `handle_aborted_requests`. -/
def handleAbortedRequests (reqs : List Req) (outPyobjs : List BatchTokenIDOut) :
    List BatchTokenIDOut :=
  reportFinished reqs (fun _ => []) outPyobjs

/-- `BatchTokenizedGenerateReqInput`, as far as the server reads it. -/
structure BatchTokenizedGenerateReqInput where
  rid : List String
  inputIds : List (List ℕ)
  samplingParams : SamplingParams

/-- What the server is started with. -/
structure ServeConfig where
  engine : EngineConfig
  contextLen : ℕ
  eosTokenId : ℕ
  context_pos : 0 < contextLen

/-- The server, with two locals of the running batch. -/
structure Server (κ α : Type*) where
  forwardQueue : List Req
  outPyobjs : List BatchTokenIDOut
  engine : Engine κ α
  /-- Local of `batch_forward_step`. -/
  abortRequests : List Req
  /-- Local of `prepare_for_prefill`: the line it has been given. -/
  loc : ℕ × ℕ × ℕ

/-- The parts of `batch_forward_step`. -/
inductive ServeCall
  | createMicroBatches
  | clearQueue
  | handleAbortedRequests
  | initWeightsPrefetchMeta
  | allocCpu
  | prepareForPrefill (batchId : ℕ)
  | forward (c : Call)
  | handleFinishedRequests (batchId : ℕ)
  deriving DecidableEq, Repr

section Serve

variable (cfg : ServeConfig)

/-- The numbers `create_micro_batches` reads, for a pool with the given line. -/
def admissionPolicy (cacheLine : ℕ) : AdmissionPolicy where
  ubs := cfg.engine.ubs
  nUb := cfg.engine.nUb
  genLen := cfg.engine.genLen
  cacheCapacity := cacheLine

def Server.policy (s : Server κ α) : AdmissionPolicy :=
  admissionPolicy cfg s.engine.kv.pool.cacheLine

/-- The server that `exposed_init_model` starts: `mem` is the host memory, and the other
tensors are uninitialised. -/
def Server.start (mem : ℕ → ℕ → α) (cache cold pin : ℕ → α) (gpu : ℕ → κ) (cpu : ℕ → ℕ → κ) :
    Server κ α where
  forwardQueue := []
  outPyobjs := []
  engine :=
    { kv := ⟨.new cfg.engine.gpuTokenBufferSize cfg.engine.cpuTokenPoolSize gpu cpu, [], 0⟩
      weights := ⟨initGpuExperts cfg.engine mem cache, cold, pin, 0, 0, fun _ => none⟩
      tokens := ⟨[], 0⟩ }
  abortRequests := []
  loc := (0, 0, 0)

/-- The effect of a part of a batch. -/
def serveStep (env : BatchEnv κ) (s : Server κ α) : ServeCall → Option (Server κ α)
  | .createMicroBatches =>
      let (microBatches, abortRequests) := createMicroBatches (s.policy cfg) s.forwardQueue
      some { s with
        engine :=
          { kv := { s.engine.kv with microBatches := [], decodeStep := 0 }
            weights := s.engine.weights.newBatch
            tokens := ⟨microBatches, 0⟩ }
        abortRequests := abortRequests }
  | .clearQueue => some { s with forwardQueue := [] }
  | .handleAbortedRequests =>
      some { s with outPyobjs := handleAbortedRequests s.abortRequests s.outPyobjs }
  | .initWeightsPrefetchMeta => some s
  | .allocCpu =>
      let (loc, pool) := s.engine.kv.pool.allocCpu
      some { s with engine := { s.engine with kv := { s.engine.kv with pool := pool } }, loc := loc }
  | .prepareForPrefill k =>
      s.engine.tokens.microBatches[k]?.bind fun reqs =>
        (KvBatch.layout cfg.engine.genLen s.loc (reqs.map fun r => r.inputIds.length)).map fun b =>
          { s with
            engine := { s.engine with
              kv := { s.engine.kv with microBatches := s.engine.kv.microBatches ++ [b] } } }
  | .forward c =>
      (engineStep cfg.engine cfg.eosTokenId env s.engine c).map fun engine =>
        { s with engine := engine }
  | .handleFinishedRequests k =>
      s.engine.tokens.microBatches[k]?.map fun reqs =>
        { s with
          outPyobjs := handleFinishedRequests reqs s.outPyobjs
          engine := { s.engine with
            tokens := { s.engine.tokens with
              microBatches := s.engine.tokens.microBatches.set k
                (if reqs.any Req.finished then [] else reqs) } } }

/-- The parts of `batch_forward_step` up to the first line of the KV pool. -/
def admitCalls : List ServeCall :=
  [.createMicroBatches, .clearQueue, .handleAbortedRequests, .initWeightsPrefetchMeta]

/-- `prepare_for_prefill` of every micro-batch. -/
def prepareCalls (numMb : ℕ) : List ServeCall :=
  (List.range numMb).flatMap fun k => [.allocCpu, .prepareForPrefill k]

/-- `batch_forward_step`. -/
def batchCalls (cfg : EngineConfig) (numMb : ℕ) : List ServeCall :=
  admitCalls ++ (prepareCalls numMb ++ ((batchForwardStep cfg numMb).map .forward ++
    (List.range numMb).map .handleFinishedRequests))

/-- The number of micro-batches the waiting requests make. -/
def Server.numMb (s : Server κ α) : ℕ := (createMicroBatches (s.policy cfg) s.forwardQueue).1.length

/-- Run `batch_forward_step`. With `fault = some m` an exception strikes in part `m`,
before it takes effect; a part may also raise by itself. The flag says that nothing was
raised. -/
def runBatch (env : BatchEnv κ) (fault : Option ℕ) (s : Server κ α) : Server κ α × Bool :=
  let program := batchCalls cfg.engine (s.numMb cfg)
  match fault with
  | none => reach (serveStep cfg env) s program
  | some m =>
      if m < program.length then ((reach (serveStep cfg env) s (program.take m)).1, false)
      else reach (serveStep cfg env) s program

/-- The limit on new tokens that `handle_batch_generate_request` leaves in the sampling
parameters, which all prompts of the request share. -/
def sharedParams (contextLen : ℕ) (params : SamplingParams) (inputIds : List (List ℕ)) :
    SamplingParams :=
  inputIds.foldl (fun params ids =>
    { params with
      maxNewTokens := min params.maxNewTokens
        (contextLen - 1 - (ids.take (contextLen - 1)).length : ℤ) }) params

/-- `Req.__init__`, and the fields that `handle_batch_generate_request` sets. -/
def Req.new (contextLen : ℕ) (params : SamplingParams) (rid : String) (inputIds : List ℕ) : Req where
  rid := rid
  inputIds := inputIds.take (contextLen - 1)
  inputLen := inputIds.length
  outputIds := []
  samplingParams := params
  finished := false
  finishReason := none
  hitStopStr := none

/-- The requests that `handle_batch_generate_request` queues. With fewer prompts than
ids it raises after the last prompt. -/
def newRequests (recvReq : BatchTokenizedGenerateReqInput) : List Req :=
  let pairs := recvReq.rid.zip recvReq.inputIds
  let params := sharedParams cfg.contextLen recvReq.samplingParams (pairs.map Prod.snd)
  pairs.map fun p => Req.new cfg.contextLen params p.1 p.2

/-- `handle_batch_generate_request`, with a flag that says that nothing was raised. -/
def handleBatchGenerateRequest (recvReq : BatchTokenizedGenerateReqInput) (s : Server κ α) :
    Server κ α × Bool :=
  ({ s with forwardQueue := s.forwardQueue ++ newRequests cfg recvReq },
    decide (recvReq.rid.length ≤ recvReq.inputIds.length))

/-- `flush_cache`; `running_batch` is never set. -/
def flushCache (s : Server κ α) : Server κ α :=
  if s.forwardQueue = [] then { s with engine := s.engine.reset } else s

/-- A request of the list: a batch, what the network will compute for it, and the point
at which an exception will strike; or something else, which raises. -/
inductive RecvReq (κ : Type*)
  | batch (recvReq : BatchTokenizedGenerateReqInput) (env : BatchEnv κ) (fault : Option ℕ)
  | invalid

/-- What becomes of a request of the list. -/
inductive Outcome
  | processed
  | raised
  | skipped
  deriving DecidableEq, Repr

/-- The loop of `exposed_step`. -/
def serveLoop : Server κ α → List (RecvReq κ) → Server κ α × List Outcome
  | s, [] => (s, [])
  | s, .invalid :: rest => (s, .raised :: rest.map fun _ => .skipped)
  | s, .batch recvReq env fault :: rest =>
      let queued := handleBatchGenerateRequest cfg recvReq s
      let ran := runBatch cfg env fault queued.1
      if queued.2 = false then (queued.1, .raised :: rest.map fun _ => .skipped)
      else if ran.2 = false then (ran.1, .raised :: rest.map fun _ => .skipped)
      else
        let last := serveLoop (flushCache ran.1) rest
        (last.1, .processed :: last.2)

/-- `exposed_step`: the answers, the server, and the outcomes. -/
def exposedStep (s : Server κ α) (recvReqs : List (RecvReq κ)) :
    List BatchTokenIDOut × Server κ α × List Outcome :=
  let (s, outcomes) := serveLoop cfg s recvReqs
  (s.outPyobjs, { s with outPyobjs := [] }, outcomes)

end Serve

section Frame

variable {cfg : ServeConfig} {env : BatchEnv κ}

theorem engineStep_kv {eosTokenId : ℕ} {s t : Engine κ α} {c : Call}
    (h : engineStep cfg.engine eosTokenId env s c = some t) :
    kvStep env.rows s.kv c = some t.kv := by
  obtain ⟨kv, hkv, h⟩ := Option.bind_eq_some_iff.mp h
  obtain ⟨weights, -, h⟩ := Option.bind_eq_some_iff.mp h
  obtain ⟨tokens, -, rfl⟩ := Option.map_eq_some_iff.mp h
  exact hkv

theorem engineStep_tokens {eosTokenId : ℕ} {s t : Engine κ α} {c : Call}
    (h : engineStep cfg.engine eosTokenId env s c = some t) :
    tokenStep cfg.engine.numHiddenLayers eosTokenId env.sample s.tokens c = some t.tokens := by
  obtain ⟨kv, -, h⟩ := Option.bind_eq_some_iff.mp h
  obtain ⟨weights, -, h⟩ := Option.bind_eq_some_iff.mp h
  obtain ⟨tokens, htokens, rfl⟩ := Option.map_eq_some_iff.mp h
  exact htokens

/-- The calls of a batch leave the cursor of the pool, and its line. -/
theorem kvStep_cursor {rows : KvRows κ} {s t : KvState κ} {c : Call}
    (h : kvStep rows s c = some t) :
    t.pool.curStartLoc = s.pool.curStartLoc ∧ t.pool.cacheLine = s.pool.cacheLine := by
  cases c with
  | layer i page k =>
      obtain ⟨b, -, h⟩ := Option.bind_eq_some_iff.mp h
      obtain ⟨pool, hpool, rfl⟩ := Option.map_eq_some_iff.mp h
      obtain ⟨mem, -, rfl⟩ := Option.map_eq_some_iff.mp hpool
      exact ⟨rfl, rfl⟩
  | offloadKvCache i k =>
      obtain ⟨b, -, h⟩ := Option.bind_eq_some_iff.mp h
      obtain ⟨pool, hpool, rfl⟩ := Option.map_eq_some_iff.mp h
      obtain ⟨mem, -, rfl⟩ := Option.map_eq_some_iff.mp hpool
      exact ⟨rfl, rfl⟩
  | cpuAttention i k =>
      obtain ⟨b, -, h⟩ := Option.bind_eq_some_iff.mp h
      obtain ⟨pool, hpool, rfl⟩ := Option.map_eq_some_iff.mp h
      obtain ⟨mem, -, rfl⟩ := Option.map_eq_some_iff.mp hpool
      exact ⟨rfl, rfl⟩
  | _ =>
      obtain rfl := Option.some.inj h
      exact ⟨rfl, rfl⟩

/-- No part of a batch moves the cursor back, or changes the line. -/
theorem serveStep_cursor {s t : Server κ α} {c : ServeCall} (h : serveStep cfg env s c = some t) :
    s.engine.kv.pool.curStartLoc ≤ t.engine.kv.pool.curStartLoc ∧
      t.engine.kv.pool.cacheLine = s.engine.kv.pool.cacheLine := by
  cases c with
  | forward c =>
      obtain ⟨engine, hengine, rfl⟩ := Option.map_eq_some_iff.mp h
      obtain ⟨hstart, hline⟩ := kvStep_cursor (engineStep_kv hengine)
      exact ⟨hstart.ge, hline⟩
  | prepareForPrefill k =>
      obtain ⟨reqs, -, h⟩ := Option.bind_eq_some_iff.mp h
      obtain ⟨b, -, rfl⟩ := Option.map_eq_some_iff.mp h
      exact ⟨le_rfl, rfl⟩
  | handleFinishedRequests k =>
      obtain ⟨reqs, -, rfl⟩ := Option.map_eq_some_iff.mp h
      exact ⟨le_rfl, rfl⟩
  | allocCpu =>
      obtain rfl := Option.some.inj h
      exact ⟨Nat.le_add_right _ _, rfl⟩
  | _ =>
      obtain rfl := Option.some.inj h
      exact ⟨le_rfl, rfl⟩

/-- The cursor and the line where a batch gets to. -/
theorem reach_cursor {s : Server κ α} (cs : List ServeCall) :
    s.engine.kv.pool.curStartLoc ≤
        (reach (serveStep cfg env) s cs).1.engine.kv.pool.curStartLoc ∧
      (reach (serveStep cfg env) s cs).1.engine.kv.pool.cacheLine = s.engine.kv.pool.cacheLine := by
  refine reach_preserves (I := fun t : Server κ α =>
    s.engine.kv.pool.curStartLoc ≤ t.engine.kv.pool.curStartLoc ∧
      t.engine.kv.pool.cacheLine = s.engine.kv.pool.cacheLine) ?_ cs ⟨le_rfl, rfl⟩
  intro t c u ht hu
  obtain ⟨hstart, hline⟩ := serveStep_cursor hu
  exact ⟨ht.1.trans hstart, hline.trans ht.2⟩

/-- The server after admission. -/
def Server.admitted (cfg : ServeConfig) (s : Server κ α) : Server κ α :=
  let (microBatches, abortRequests) := createMicroBatches (s.policy cfg) s.forwardQueue
  { s with
    forwardQueue := []
    outPyobjs := handleAbortedRequests abortRequests s.outPyobjs
    engine :=
      { kv := { s.engine.kv with microBatches := [], decodeStep := 0 }
        weights := s.engine.weights.newBatch
        tokens := ⟨microBatches, 0⟩ }
    abortRequests := abortRequests }

/-- Admission does not raise. -/
theorem exec_admitCalls (s : Server κ α) :
    exec (serveStep cfg env) s admitCalls = some (s.admitted cfg) := rfl

end Frame

section Small

/-- The smallest engine, with a context of 100 tokens and 7 as the end of sequence. -/
def ServeConfig.small (genLen : ℕ) (h : 0 < genLen) : ServeConfig where
  engine := .small genLen h
  contextLen := 100
  eosTokenId := 7
  context_pos := by decide

/-- Its server, over numbers. -/
def Server.small (genLen : ℕ) (h : 0 < genLen) : Server ℕ ℕ :=
  .start (.small genLen h) (fun _ _ => 1) (fun _ => 0) (fun _ => 0) (fun _ => 0) (fun _ => 0)
    fun _ _ => 0

/-- A request of one prompt of two tokens, for which the network always samples 1. -/
def RecvReq.one (maxNewTokens : ℤ) (fault : Option ℕ) : RecvReq ℕ :=
  .batch ⟨["a"], [[5, 6]], ⟨maxNewTokens, false, true⟩⟩
    ⟨⟨fun _ _ _ _ => 0, fun _ _ _ _ => 0⟩, fun _ _ _ => 1⟩ fault

end Small

end HarvestMoE
