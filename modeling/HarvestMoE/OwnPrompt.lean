import HarvestMoE.Generation
import HarvestMoE.MessagePath
import HarvestMoE.StopConditions
import HarvestMoE.TopPTopK

/-!
# Each text belongs to its own prompt

Admission sorts the prompts of all clients into micro-batches, an exception may leave some of them
to the next list, and the processes take their steps in any order. While sampling looks at each
row by itself, the text that comes back under an id is that of plain generation of the prompt that
was sent with it, whatever is computed beside it (`delivered_texts_own`).

## Main definitions

* `CausalLM.grown`, `CausalLM.ownTokens` — plain generation of one prompt.
* `BatchEnv.Generates` — the network samples what the model gives the micro-batches.
* `OwnAnswer` — the tokens of a request are those of its own prompt.
* `Server.Own`, `MessagePath.Own` — all requests and answers are.
-/

namespace HarvestMoE

open Lib

variable {D Q V A L κ α : Type*} [Inhabited L]

section Plain

namespace CausalLM

variable (m : CausalLM D Q V A L) (pick : L → ℕ)

/-- Sampling looks at each row by itself. -/
def SamplesRows : Prop := ∀ d k rows, m.sample d k rows = rows.map pick

/-- A sequence after some tokens, generated alone. -/
def grown (ids : List ℕ) : ℕ → List ℕ
  | 0 => ids
  | d + 1 => grown ids d ++ [pick (m.logitsOf (grown ids d))]

/-- The first `n` of its tokens. -/
def ownTokens (ids : List ℕ) (n : ℕ) : List ℕ :=
  (List.range n).map fun d => pick (m.logitsOf (m.grown pick ids d))

variable {m pick}

/-- The sequences of a micro-batch grow by themselves. -/
theorem generated_eq_map (hpick : m.SamplesRows pick) (k : ℕ) (prompts : List (List ℕ)) (d : ℕ) :
    m.generated k prompts d = prompts.map fun ids => m.grown pick ids d := by
  induction d with
  | zero => simp [generated, grown]
  | succ d ih =>
      rw [generated, ih, hpick]
      simp [grown, List.zipWith_map, List.zipWith_self]

theorem getElem?_nextTokens (hpick : m.SamplesRows pick) (k : ℕ) (prompts : List (List ℕ))
    (d q : ℕ) : (m.nextTokens k prompts d)[q]? =
      prompts[q]?.map fun ids => pick (m.logitsOf (m.grown pick ids d)) := by
  rw [nextTokens, generated_eq_map hpick, hpick]
  simp [Function.comp_def]

end CausalLM

end Plain

section Sampling

variable {F : Type*} [Field F] [LinearOrder F] {sort : List F → List ℕ}

/-- `Batch.sample` on the rows of a micro-batch, all of them with `top_k = 1`, as `SamplingParams`
sets it where the temperature is zero. Every draw is one of its own. -/
def sampleGreedy (sort : List F → List ℕ) (draw : ℕ → ℕ → ℕ → List F → ℕ) (softmax : L → List F)
    (topP : ℕ → ℕ → F) (d k : ℕ) (rows : List L) : List ℕ :=
  rows.mapIdx fun q row => (sampleRow sort (draw d k q) (softmax row) (.fin (topP k q)) 1).1

variable [IsStrictOrderedRing F]

/-- With `top_k = 1` the token is the first in the order, whatever is drawn. -/
theorem sampleRow_topK_one (hsort : SortsDescending sort) {multinomial : List F → ℕ}
    (hdraw : DrawsPositive multinomial) {probs : List F} (hrow : ProbabilityRow probs) {topP : F}
    (hp : 0 < topP) :
    (sampleRow sort multinomial probs (.fin topP) 1).1 = (sort probs).getD 0 0 := by
  have hsrow := hrow.sortedRow hsort
  have hsorted := hsort.sorted probs
  cases hcons : sortedRow sort probs with
  | nil => exact absurd hcons hsrow.ne_nil
  | cons p rest =>
      rw [← sortedRow, hcons] at hsorted
      rw [hcons] at hsrow
      have hfin : PyNum.lt (.fin topP) (.fin 0) = false := by simpa using hp.le
      have hweight := getD_topPTopK hcons (rowMax_maskedRow hsrow.nonneg hsorted hfin le_rfl)
      have hfirst : 0 ∈ unmasked (p :: rest) (.fin topP) 1 :=
        mem_unmasked.mpr ⟨by simp, by simpa using hp.le, by simp⟩
      have hone : (topPTopK sort probs (.fin topP) 1).1.getD 0 0 = 1 := by
        rw [hweight, if_pos hfirst, List.getD_cons_zero, div_self (hsrow.head_pos hsorted).ne']
      exact congrArg (fun i => (sort probs).getD i 0) (drawn_first hdraw hsrow hone hweight)

omit [Inhabited L] in
/-- So sampling looks at each row by itself. -/
theorem sampleGreedy_samplesRows (m : CausalLM D Q V A L) (hsort : SortsDescending sort)
    {draw : ℕ → ℕ → ℕ → List F → ℕ} (hdraw : ∀ d k q, DrawsPositive (draw d k q))
    {softmax : L → List F} (hrow : ∀ row, ProbabilityRow (softmax row)) {topP : ℕ → ℕ → F}
    (hp : ∀ k q, 0 < topP k q) :
    ({ m with sample := sampleGreedy sort draw softmax topP } :
      CausalLM D Q V A L).SamplesRows fun row => (sort (softmax row)).getD 0 0 := by
  intro d k rows
  have htokens : ∀ q row, (sampleRow sort (draw d k q) (softmax row) (.fin (topP k q)) 1).1 =
      (sort (softmax row)).getD 0 0 := fun q row =>
    sampleRow_topK_one hsort (hdraw d k q) (hrow row) (hp k q)
  simp only [sampleGreedy, htokens]
  exact List.mapIdx_eq_iff.mpr fun q => by simp

end Sampling

section Answer

variable (m : CausalLM D Q V A L) (pick : L → ℕ) (cfg : ServeConfig)
  (sent : List (String × List ℕ))

/-- The prompts of the micro-batches. -/
def promptsOf (mbs : List (List Req)) : List (List (List ℕ)) := mbs.map (List.map Req.inputIds)

/-- The network samples for the micro-batches what the model gives their prompts. -/
def BatchEnv.Generates (env : BatchEnv κ) (mbs : List (List Req)) : Prop :=
  ∀ e ≤ cfg.engine.numDecodeSteps mbs.length, ∀ k ps, (promptsOf mbs)[k]? = some ps →
    ∀ q t, (m.nextTokens k ps e)[q]? = some t → env.sample e k q = t

/-- The request is for a prompt that was sent under its id. -/
structure Req.SentAs (contextLen : ℕ) (r : Req) : Prop where
  prompt : ∃ ids, (r.rid, ids) ∈ sent ∧ r.inputIds = ids.take (contextLen - 1)
  hitStopStr_eq : r.hitStopStr = none

/-- The tokens are those of a prompt that was sent under the id: none where the request was
aborted, and two where its micro-batch was the only one. -/
def OwnAnswer (rid : String) (tokens : List ℕ) : Prop :=
  ∃ ids n, (rid, ids) ∈ sent ∧ (n = 0 ∨ n = 2 ∨ n = cfg.engine.genLen) ∧
    tokens = m.ownTokens pick (ids.take (cfg.contextLen - 1)) n

structure BatchTokenIDOut.Own (out : BatchTokenIDOut) : Prop where
  tokens_own : ∀ a ∈ out.rids.zip out.outputTokens, OwnAnswer m pick cfg sent a.1 a.2
  hitStopStr_eq : ∀ stop ∈ out.hitStopStr, stop = none

/-- The requests that wait or are aborted were sent, and the answers are their own. -/
structure Server.Own (s : Server κ α) : Prop where
  queue_sent : ∀ r ∈ s.forwardQueue, r.SentAs sent cfg.contextLen
  abort_sent : ∀ r ∈ s.abortRequests, r.SentAs sent cfg.contextLen
  outs_own : ∀ out ∈ s.outPyobjs, out.Own m pick cfg sent

end Answer

section Pipeline

variable {m : CausalLM D Q V A L} {cfg : ServeConfig} {env : BatchEnv κ} {mbs : List (List Req)}

/-- At least three micro-batches that fit are what the pipeline generates for: it is enough that
the samples are the tokens which the lanes hold when their steps are done. -/
theorem generates_of_runs [Inhabited V] (hsample : m.SamplesEach)
    (hlayers : m.numHiddenLayers = cfg.engine.numHiddenLayers)
    (hprompts : ∀ ps ∈ promptsOf mbs, ∀ ids ∈ ps, ids ≠ [])
    (hadm : Admitted cfg.engine (CausalLM.promptLens (promptsOf mbs))) (hn : 3 ≤ mbs.length)
    (gpu : ℕ → V) (cpu : ℕ → ℕ → V) (lanes : ℕ → Lane (Rows D Q V A L) V)
    {batches : List KvBatch} {pool : TokenToKVPool V} {t : KvState V}
    (hprepare : prepareForPrefill cfg.engine.genLen
      (TokenToKVPool.new cfg.engine.gpuTokenBufferSize cfg.engine.cpuTokenPoolSize gpu cpu).clear
      (CausalLM.promptLens (promptsOf mbs)) = some (batches, pool))
    (ht : exec (kvStep (m.prefillRows (promptsOf mbs))) ⟨pool, batches, 0⟩
      (prefillCalls cfg.engine.numHiddenLayers cfg.engine.weightsPrefetchNumPagesCpu mbs.length) =
        some t)
    (hruns : ∀ e ≤ cfg.engine.numDecodeSteps mbs.length, ∃ done p,
      PipeRun m.network cfg.engine.numHiddenLayers
        ⟨decodeCalls cfg.engine mbs.length e, [],
          decodeStart cfg.engine batches t.pool (m.prefilledLane (promptsOf mbs) lanes)⟩ done p ∧
      p.calls = [] ∧ p.queue = [] ∧
      ∀ k q token, (p.state.lanes k).lastIds[q]? = some token → env.sample e k q = token) :
    env.Generates m cfg mbs := by
  intro e he k ps hk q token htoken
  obtain ⟨done, p, hrun, hcalls, hqueue, hread⟩ := hruns e he
  have hlength : (promptsOf mbs).length = mbs.length := List.length_map _
  have hsteps : e ≤ cfg.engine.genLen := by
    rw [EngineConfig.numDecodeSteps, if_pos (by omega)] at he
    omega
  rw [← hlength] at hn ht hrun
  have hend := (prefilled_generates hsample hlayers hprompts hadm hn hsteps hprepare ht lanes hrun
    hk).2 hcalls hqueue
  exact hread k q token (hend.2 ▸ htoken)

end Pipeline

section Batch

variable {m : CausalLM D Q V A L} {pick : L → ℕ} {cfg : ServeConfig} {env : BatchEnv κ}
  {sent : List (String × List ℕ)} {s t : Server κ α} {eosTokenId d : ℕ} {tokens : ℕ → ℕ}

@[simp] theorem checkFinished_hitStopStr (r : Req) :
    (r.checkFinished eosTokenId).hitStopStr = r.hitStopStr := by
  simp only [Req.checkFinished]
  split_ifs <;> rfl

@[simp] theorem sampled_hitStopStr (r : Req) :
    (r.sampled eosTokenId tokens d).hitStopStr = r.hitStopStr := by
  induction d with
  | zero => simp [Req.sampled, Req.prefillToken]
  | succ d ih => simpa [Req.sampled, Req.decodeToken] using ih

/-- An answer is its requests' own if their tokens are. -/
theorem reportFinished_own {reqs : List Req} {answer : Req → List ℕ} {outs : List BatchTokenIDOut}
    (houts : ∀ out ∈ outs, out.Own m pick cfg sent)
    (hreqs : ∀ r ∈ reqs, OwnAnswer m pick cfg sent r.rid (answer r) ∧ r.hitStopStr = none) :
    ∀ out ∈ reportFinished reqs answer outs, out.Own m pick cfg sent := by
  simp only [reportFinished]
  split_ifs
  · exact houts
  · intro out hout
    rcases List.mem_append.mp hout with hout | hout
    · exact houts out hout
    · obtain rfl := List.mem_singleton.mp hout
      refine ⟨fun a ha => ?_, fun stop hstop => ?_⟩
      · rw [List.zip_map', List.mem_map] at ha
        obtain ⟨r, hr, rfl⟩ := ha
        exact (hreqs r (List.mem_filter.mp hr).1).1
      · obtain ⟨r, hr, rfl⟩ := List.mem_map.mp hstop
        exact (hreqs r (List.mem_filter.mp hr).1).2

/-- An aborted request is answered without tokens. -/
theorem Req.SentAs.own_nil {r : Req} (hr : r.SentAs sent cfg.contextLen) :
    OwnAnswer m pick cfg sent r.rid [] := by
  obtain ⟨ids, hids, -⟩ := hr.prompt
  exact ⟨ids, 0, hids, Or.inl rfl, rfl⟩

/-- The steps of a batch give a request the tokens of its own prompt. -/
theorem sampled_own (hpick : m.SamplesRows pick) {mbs : List (List Req)} {reqs : List Req} {r : Req}
    {k q : ℕ} (henv : env.Generates m cfg mbs) (hk : mbs[k]? = some reqs) (hq : reqs[q]? = some r)
    (hr : r.SentAs sent cfg.contextLen) :
    OwnAnswer m pick cfg sent r.rid (r.sampled cfg.eosTokenId (fun e => env.sample e k q)
      (cfg.engine.numDecodeSteps mbs.length)).outputIds := by
  obtain ⟨ids, hids, hprompt⟩ := hr.prompt
  refine ⟨ids, cfg.engine.numDecodeSteps mbs.length + 1, hids, Or.inr ?_, ?_⟩
  · have hgen := cfg.engine.genLen_pos
    rw [EngineConfig.numDecodeSteps]
    split_ifs <;> omega
  · rw [sampled_outputIds, CausalLM.ownTokens, ← hprompt]
    refine List.map_congr_left fun e he => ?_
    have hps : (promptsOf mbs)[k]? = some (reqs.map Req.inputIds) := by simp [promptsOf, hk]
    refine henv e (Nat.lt_succ_iff.mp (List.mem_range.mp he)) k _ hps q _ ?_
    rw [CausalLM.getElem?_nextTokens hpick, List.getElem?_map, hq]
    rfl

/-- **Wherever a batch gets to, its answers are the requests' own.** -/
theorem exec_own (hpick : m.SamplesRows pick)
    (henv : env.Generates m cfg (createMicroBatches (s.policy cfg) s.forwardQueue).1)
    (hs : s.Own m pick cfg sent) {bs : List ServeCall}
    (hbs : bs <+: batchCalls cfg.engine (s.numMb cfg))
    (h : exec (serveStep cfg env) s bs = some t) : t.Own m pick cfg sent := by
  induction bs using List.reverseRecOn generalizing t with
  | nil =>
      obtain rfl : s = t := by simpa using h
      exact hs
  | append_singleton before c ih =>
      rw [exec_append] at h
      obtain ⟨u, hu, hc⟩ := Option.bind_eq_some_iff.mp h
      replace hc : serveStep cfg env u c = some t := by simpa using hc
      have hown := ih ((List.prefix_append before [c]).trans hbs) hu
      cases c with
      | createMicroBatches =>
          obtain rfl := Option.some.inj hc
          refine ⟨hown.queue_sent, fun r hr => ?_, hown.outs_own⟩
          obtain ⟨aborted, haborted, hperm⟩ := createMicroBatches_perm (u.policy cfg) u.forwardQueue
          replace hr : r ∈ (createMicroBatches (u.policy cfg) u.forwardQueue).2 := hr
          rw [haborted] at hr
          obtain ⟨waiting, hwaiting, rfl⟩ := List.mem_map.mp hr
          have hsent := hown.queue_sent waiting
            (hperm.subset (List.mem_append_left _ hwaiting))
          exact ⟨hsent.prompt, hsent.hitStopStr_eq⟩
      | clearQueue =>
          obtain rfl := Option.some.inj hc
          exact ⟨by simp, hown.abort_sent, hown.outs_own⟩
      | handleAbortedRequests =>
          obtain rfl := Option.some.inj hc
          exact ⟨hown.queue_sent, hown.abort_sent, reportFinished_own hown.outs_own fun r hr =>
            ⟨(hown.abort_sent r hr).own_nil, (hown.abort_sent r hr).hitStopStr_eq⟩⟩
      | handleFinishedRequests k =>
          obtain ⟨after, hafter⟩ := hbs
          have hreport : ReportsAt cfg env s k u :=
            ⟨before, after, by simpa using hafter.symm, hu⟩
          obtain ⟨done, hdone, rfl⟩ := Option.map_eq_some_iff.mp hc
          refine ⟨hown.queue_sent, hown.abort_sent, reportFinished_own hown.outs_own fun r hr => ?_⟩
          -- A request of the micro-batch is one of the queue with the tokens of the batch.
          obtain ⟨hk, htokens⟩ := reported_tokens hreport
          have hreqs := List.getElem?_eq_getElem hk
          rw [sampledBatches, List.getElem?_mapIdx, hreqs, hdone] at htokens
          rw [Option.some.inj htokens] at hr
          obtain ⟨q, hq, rfl⟩ := List.mem_mapIdx.mp hr
          obtain ⟨aborted, -, hperm⟩ := createMicroBatches_perm (s.policy cfg) s.forwardQueue
          have hsent := hs.queue_sent _ (hperm.subset (List.mem_append_right _
            (List.mem_flatten.mpr ⟨_, List.getElem_mem hk, List.getElem_mem hq⟩)))
          rw [sampled_rid, sampled_hitStopStr]
          exact ⟨sampled_own hpick henv hreqs (List.getElem?_eq_getElem hq) hsent,
            hsent.hitStopStr_eq⟩
      | initWeightsPrefetchMeta =>
          obtain rfl := Option.some.inj hc
          exact hown
      | allocCpu =>
          obtain rfl := Option.some.inj hc
          exact ⟨hown.queue_sent, hown.abort_sent, hown.outs_own⟩
      | prepareForPrefill k =>
          obtain ⟨reqs, -, hc⟩ := Option.bind_eq_some_iff.mp hc
          obtain ⟨b, -, rfl⟩ := Option.map_eq_some_iff.mp hc
          exact ⟨hown.queue_sent, hown.abort_sent, hown.outs_own⟩
      | forward c =>
          obtain ⟨engine, -, rfl⟩ := Option.map_eq_some_iff.mp hc
          exact ⟨hown.queue_sent, hown.abort_sent, hown.outs_own⟩

end Batch

section Lists

variable {m : CausalLM D Q V A L} {pick : L → ℕ} {cfg : ServeConfig}
  {sent : List (String × List ℕ)} {s : Server κ α}

/-- The prompts of a request of the list, with their ids. -/
def RecvReq.prompts : RecvReq κ → List (String × List ℕ)
  | .batch recvReq _ _ => recvReq.rid.zip recvReq.inputIds
  | .invalid => []

/-- The network computes each batch of the list with the model. -/
def ComputedBy (m : CausalLM D Q V A L) (cfg : ServeConfig) :
    Server κ α → List (RecvReq κ) → Prop
  | _, [] => True
  | _, .invalid :: _ => True
  | s, .batch recvReq env fault :: rest =>
      let queued := (handleBatchGenerateRequest cfg recvReq s).1
      env.Generates m cfg (createMicroBatches (queued.policy cfg) queued.forwardQueue).1 ∧
        ComputedBy m cfg (flushCache (runBatch cfg env fault queued).1) rest

theorem handleBatchGenerateRequest_own {recvReq : BatchTokenizedGenerateReqInput}
    (hs : s.Own m pick cfg sent) (hsent : recvReq.rid.zip recvReq.inputIds ⊆ sent) :
    (handleBatchGenerateRequest cfg recvReq s).1.Own m pick cfg sent := by
  refine ⟨fun r hr => ?_, hs.abort_sent, hs.outs_own⟩
  rcases List.mem_append.mp hr with hr | hr
  · exact hs.queue_sent r hr
  · obtain ⟨a, ha, rfl⟩ := List.mem_map.mp hr
    exact ⟨⟨a.2, hsent ha, rfl⟩, rfl⟩

theorem flushCache_own (hs : s.Own m pick cfg sent) : (flushCache s).Own m pick cfg sent := by
  rw [flushCache]
  split_ifs
  · exact ⟨hs.queue_sent, hs.abort_sent, hs.outs_own⟩
  · exact hs

theorem serveLoop_own (hpick : m.SamplesRows pick) (recvReqs : List (RecvReq κ))
    (hs : s.Own m pick cfg sent) (henv : ComputedBy m cfg s recvReqs)
    (hsent : ∀ r ∈ recvReqs, r.prompts ⊆ sent) :
    (serveLoop cfg s recvReqs).1.Own m pick cfg sent := by
  induction recvReqs generalizing s with
  | nil => exact hs
  | cons r rest ih =>
      cases r with
      | invalid => exact hs
      | batch recvReq env fault =>
          have hqueued := handleBatchGenerateRequest_own hs (hsent _ List.mem_cons_self)
          obtain ⟨bs, hbs, hexec⟩ := runBatch_prefix cfg env fault
            (handleBatchGenerateRequest cfg recvReq s).1
          have hran := exec_own hpick henv.1 hqueued hbs hexec
          simp only [serveLoop]
          split_ifs
          · exact hqueued
          · exact hran
          · exact ih (flushCache_own hran) henv.2 fun r hr => hsent r (List.mem_cons_of_mem _ hr)

end Lists

section Path

variable {m : CausalLM D Q V A L} {pick : L → ℕ} {cfg : ServeConfig} {tok : Detokenizer}
  {sent : List (String × List ℕ)} {p q : MessagePath κ α}

/-- The prompts of a message, with their ids. -/
def Sent.prompts (x : Sent κ) : List (String × List ℕ) := x.recvReq.prompts

/-- The list that the model works on is computed with the model. -/
def ComputesWith (m : CausalLM D Q V A L) (cfg : ServeConfig) (p : MessagePath κ α)
    (a : PathAct κ) : Prop :=
  a = .finish → ∀ recvReqs, p.nextStepInput = some recvReqs → ComputedBy m cfg p.server recvReqs

/-- The text is that of the tokens of a prompt that was sent under the id. The flag is that of the
first request of the answer. -/
def TextFor (m : CausalLM D Q V A L) (pick : L → ℕ) (cfg : ServeConfig) (tok : Detokenizer)
    (sent : List (String × List ℕ)) (rid : String) (text : List Char) : Prop :=
  ∃ tokens skip, OwnAnswer m pick cfg sent rid tokens ∧ text = outputText tok skip tokens none

/-- Each text of the message is. -/
def OwnText (m : CausalLM D Q V A L) (pick : L → ℕ) (cfg : ServeConfig) (tok : Detokenizer)
    (sent : List (String × List ℕ)) (str : BatchStrOut) : Prop :=
  ∀ a ∈ str.rids.zip str.outputStr, TextFor m pick cfg tok sent a.1 a.2

/-- All messages are for prompts that were sent, and all answers are their own. -/
structure MessagePath.Own (m : CausalLM D Q V A L) (pick : L → ℕ) (cfg : ServeConfig)
    (tok : Detokenizer) (sent : List (String × List ℕ)) (p : MessagePath κ α) : Prop where
  router_sent : ∀ x ∈ p.toRouter, x.prompts ⊆ sent
  recv_sent : ∀ x ∈ p.recvReqs, x.prompts ⊆ sent
  next_sent : ∀ recvReqs, p.nextStepInput = some recvReqs → ∀ r ∈ recvReqs, r.prompts ⊆ sent
  server_own : p.server.Own m pick cfg sent
  out_own : ∀ out ∈ p.toDetokenizer, out.Own m pick cfg sent
  str_own : ∀ str ∈ p.toTokenizer, OwnText m pick cfg tok sent str
  delivered_own : ∀ str ∈ p.delivered, OwnText m pick cfg tok sent str

theorem MessagePath.Own.start {s : Server κ α} (hqueue : s.forwardQueue = [])
    (habort : s.abortRequests = []) (houts : s.outPyobjs = []) :
    (MessagePath.start s).Own m pick cfg tok sent := by
  refine ⟨by simp [MessagePath.start], by simp [MessagePath.start], by simp [MessagePath.start],
    ⟨?_, ?_, ?_⟩, by simp [MessagePath.start], by simp [MessagePath.start],
    by simp [MessagePath.start]⟩
  · simp [MessagePath.start, hqueue]
  · simp [MessagePath.start, habort]
  · simp [MessagePath.start, houts]

/-- Each text is made of the tokens under its id. -/
theorem detokenize_own {out : BatchTokenIDOut} {str : BatchStrOut} (hout : out.Own m pick cfg sent)
    (h : detokenize tok out = some str) : OwnText m pick cfg tok sent str := by
  obtain ⟨skip, -, h⟩ := Option.bind_eq_some_iff.mp h
  split_ifs at h
  obtain rfl := Option.some.inj h
  intro a ha
  obtain ⟨i, hi, rfl⟩ := List.mem_iff_getElem.mp ha
  simp only [List.length_zip, List.length_zipWith, lt_min_iff] at hi
  have htokens := hout.tokens_own (out.rids[i], out.outputTokens[i])
    (List.mem_iff_getElem.mpr ⟨i, by simp [hi], by simp⟩)
  have hstop := hout.hitStopStr_eq out.hitStopStr[i] (List.getElem_mem _)
  exact ⟨_, skip, by simpa using htokens, by simp [hstop]⟩

/-- No step mixes prompts or answers. -/
theorem pathStep_own (hpick : m.SamplesRows pick) {a : PathAct κ} (hp : p.Own m pick cfg tok sent)
    (hsent : ∀ x, a = .send x → x.prompts ⊆ sent) (henv : ComputesWith m cfg p a)
    (h : pathStep cfg tok p a = some q) : q.Own m pick cfg tok sent := by
  cases a with
  | send x =>
      obtain rfl := Option.some.inj h
      refine { hp with router_sent := fun y hy => ?_ }
      rcases List.mem_append.mp hy with hy | hy
      · exact hp.router_sent y hy
      · obtain rfl := List.mem_singleton.mp hy
        exact hsent y rfl
  | recv =>
      cases hr : p.toRouter with
      | nil => simp [pathStep, hr] at h
      | cons x rest =>
          simp only [pathStep, hr] at h
          obtain rfl := Option.some.inj h
          refine { hp with
            router_sent := fun y hy => hp.router_sent y (hr ▸ List.mem_cons_of_mem _ hy)
            recv_sent := fun y hy => ?_ }
          rcases List.mem_append.mp hy with hy | hy
          · exact hp.recv_sent y hy
          · obtain rfl := List.mem_singleton.mp hy
            exact hp.router_sent y (hr ▸ List.mem_cons_self)
  | take =>
      cases hn : p.nextStepInput with
      | some recvReqs => simp [pathStep, hn] at h
      | none =>
          simp only [pathStep, hn] at h
          obtain rfl := Option.some.inj h
          refine { hp with recv_sent := by simp, next_sent := fun recvReqs heq r hr => ?_ }
          obtain rfl := Option.some.inj heq
          obtain ⟨x, hx, rfl⟩ := List.mem_map.mp hr
          exact hp.recv_sent x hx
  | finish =>
      obtain ⟨recvReqs, hn, rfl⟩ := Option.map_eq_some_iff.mp h
      have hserved := serveLoop_own hpick recvReqs hp.server_own (henv rfl recvReqs hn)
        (hp.next_sent recvReqs hn)
      refine { hp with
        next_sent := by simp
        server_own := ⟨hserved.queue_sent, hserved.abort_sent, by simp [exposedStep]⟩
        out_own := fun out hout => ?_ }
      rcases List.mem_append.mp hout with hout | hout
      · exact hp.out_own out hout
      · exact hserved.outs_own out hout
  | detokenize =>
      cases hd : p.toDetokenizer with
      | nil => simp [pathStep, hd] at h
      | cons out rest =>
          simp only [pathStep, hd] at h
          obtain ⟨str, hstr, rfl⟩ := Option.map_eq_some_iff.mp h
          refine { hp with
            out_own := fun o ho => hp.out_own o (hd ▸ List.mem_cons_of_mem _ ho)
            str_own := fun y hy => ?_ }
          rcases List.mem_append.mp hy with hy | hy
          · exact hp.str_own y hy
          · obtain rfl := List.mem_singleton.mp hy
            exact detokenize_own (hp.out_own out (hd ▸ List.mem_cons_self)) hstr
  | deliver =>
      cases ht : p.toTokenizer with
      | nil => simp [pathStep, ht] at h
      | cons str rest =>
          simp only [pathStep, ht] at h
          obtain rfl := Option.some.inj h
          refine { hp with
            str_own := fun y hy => hp.str_own y (ht ▸ List.mem_cons_of_mem _ hy)
            delivered_own := fun y hy => ?_ }
          rcases List.mem_append.mp hy with hy | hy
          · exact hp.delivered_own y hy
          · obtain rfl := List.mem_singleton.mp hy
            exact hp.str_own y (ht ▸ List.mem_cons_self)

/-- From the start of the processes, in whatever order they take their steps, wherever an exception
strikes and however the prompts of the clients are put together: the text under an id is that of
the tokens that plain generation gives the prompt sent under this id. -/
theorem delivered_texts_own (cfg : ServeConfig) (tok : Detokenizer) (m : CausalLM D Q V A L)
    {pick : L → ℕ} (hpick : m.SamplesRows pick) (s : Server κ α) (hqueue : s.forwardQueue = [])
    (habort : s.abortRequests = []) (houts : s.outPyobjs = []) {acts : List (PathAct κ)}
    (henv : Along (pathStep cfg tok) (ComputesWith m cfg) (.start s) acts) {p : MessagePath κ α}
    (h : exec (pathStep cfg tok) (.start s) acts = some p) :
    ∀ str ∈ p.delivered, ∀ a ∈ str.rids.zip str.outputStr, ∃ ids n skip,
      (a.1, ids) ∈ (sentBy acts).flatMap Sent.prompts ∧
      (n = 0 ∨ n = 2 ∨ n = cfg.engine.genLen) ∧
      a.2 = outputText tok skip (m.ownTokens pick (ids.take (cfg.contextLen - 1)) n) none := by
  have hsent : ∀ x, .send x ∈ acts → x.prompts ⊆ (sentBy acts).flatMap Sent.prompts :=
    fun x hx a ha => List.mem_flatMap.mpr ⟨x, List.mem_filterMap.mpr ⟨_, hx, rfl⟩, ha⟩
  have hp := henv.preserves (I := MessagePath.Own m pick cfg tok _)
    (fun _ _ ha _ hu hc hv => pathStep_own hpick hu (fun x hx => hsent x (hx ▸ ha)) hc hv)
    (.start hqueue habort houts) h
  intro str hstr a ha
  obtain ⟨_, skip, ⟨ids, n, hids, hn, rfl⟩, htext⟩ := hp.delivered_own str hstr a ha
  exact ⟨ids, n, skip, hids, hn, htext⟩

/-- A model that samples by the remainder of the logits. -/
def CausalLM.residues : CausalLM ℕ ℕ ℕ ℕ ℕ :=
  { CausalLM.sum with sample := fun _ _ rows => rows.map fun row => row % 5 + 1 }

theorem samplesRows_residues : CausalLM.residues.SamplesRows fun row => row % 5 + 1 :=
  fun _ _ _ => rfl

/-- What the model gives the prompts of the micro-batches. -/
def BatchEnv.computed (m : CausalLM D Q V A L) (rows : KvRows κ) (ps : List (List (List ℕ))) :
    BatchEnv κ :=
  ⟨rows, fun e k q => (m.nextTokens k (ps.getD k []) e).getD q 0⟩

theorem BatchEnv.computed_generates (m : CausalLM D Q V A L) (cfg : ServeConfig) (rows : KvRows κ)
    {ps : List (List (List ℕ))} {mbs : List (List Req)} (h : promptsOf mbs = ps) :
    (BatchEnv.computed m rows ps).Generates m cfg mbs := by
  intro e _ k prompts hk q token htoken
  rw [h] at hk
  simp [BatchEnv.computed, List.getD_eq_getElem?_getD, hk, htoken]

/-- A message, with the micro-batches that its prompts are computed in. -/
def Sent.computed (msg : RouterMsg) (ps : List (List (List ℕ))) (fault : Option ℕ) : Sent ℕ :=
  ⟨msg, .computed CausalLM.residues ⟨fun _ _ _ _ => 0, fun _ _ _ _ => 0⟩ ps, fault⟩

/-- A batch that raises at once, and leaves its prompts to the next one. -/
def Sent.raising : Sent ℕ :=
  .computed (.batch ⟨["a", "b"], [[5, 6], [8]], ⟨3, false, true⟩⟩) [[[5, 6]], [[8]], []] (some 0)

/-- The next batch, in which `b` shares a micro-batch with `d`. -/
def Sent.next : Sent ℕ :=
  .computed (.batch ⟨["c", "d"], [[9, 9, 9], [4]], ⟨3, false, true⟩⟩)
    [[[8], [4]], [[9, 9, 9]], [[5, 6]]] none

/-- The second message comes while the model works on the first. -/
def raisingThenNext : List (PathAct ℕ) :=
  [.send .raising, .recv, .take, .send .next, .recv, .finish, .take, .finish, .detokenize, .deliver,
    .detokenize, .detokenize, .deliver, .deliver]

/-- Prompts of two messages in one micro-batch, behind an exception. -/
theorem delivered_texts_own_raising : ∃ p,
    exec (pathStep (.small 3 (by decide)) .letters) (.start (.small 3 (by decide)))
      raisingThenNext = some p ∧
    p.delivered.flatMap BatchStrOut.rids = ["b", "d", "c", "a"] ∧
    ∀ str ∈ p.delivered, ∀ a ∈ str.rids.zip str.outputStr, ∃ ids n skip,
      (a.1, ids) ∈ [("a", [5, 6]), ("b", [8]), ("c", [9, 9, 9]), ("d", [4])] ∧
      (n = 0 ∨ n = 2 ∨ n = 3) ∧
      a.2 = outputText .letters skip
        (CausalLM.residues.ownTokens (fun row => row % 5 + 1) (ids.take 99) n) none := by
  obtain ⟨p, hp, hrids⟩ : ∃ p ∈ exec (pathStep (.small 3 (by decide)) .letters)
      (.start (.small 3 (by decide))) raisingThenNext,
      p.delivered.flatMap BatchStrOut.rids = ["b", "d", "c", "a"] := by
    decide +kernel
  refine ⟨p, hp, hrids,
    delivered_texts_own _ _ CausalLM.residues samplesRows_residues _ rfl rfl rfl ?_ hp⟩
  iterate 5
    refine ⟨nofun, fun _ h => ?_⟩
    obtain rfl := Option.some.inj h
  refine ⟨fun _ _ hn => ?_, fun _ h => ?_⟩
  · obtain rfl := Option.some.inj hn
    exact ⟨BatchEnv.computed_generates _ _ _ (by decide +kernel), trivial⟩
  obtain rfl := Option.some.inj h
  refine ⟨nofun, fun _ h => ?_⟩
  obtain rfl := Option.some.inj h
  refine ⟨fun _ _ hn => ?_, fun _ _ => Along.of_forall fun _ a ha => ?_⟩
  · obtain rfl := Option.some.inj hn
    exact ⟨BatchEnv.computed_generates _ _ _ (by decide +kernel), trivial⟩
  · rintro rfl
    simp at ha

end Path

end HarvestMoE
