import HarvestMoE.ExpertResults
import HarvestMoE.ModelSimulation
import HarvestMoE.ParallelAttention

/-!
# The model on the ranks

Every rank has its share of the attention heads, of each expert and of the vocabulary, and a copy of
the rest. A layer adds up the results of the ranks twice, behind attention and behind the experts,
and the logits of the ranks are put one behind the other. The experts are read from the expert cache
of the rank, where the mapping of the layer says. With the weights that the loaders leave, and as
long as every layer finds its experts in the cache, this generates the tokens of the model with the
whole matrices (`tensorParallel_generated`).

## Main definitions

* `ModelMath` — the sizes, and the functions that the model calls.
* `ModelMath.moeInput` — what `stack_fused_moe` gets for a row.
* `RankParams`, `rankModel` — the parameters of a rank, and the model on the ranks.
* `MoeRank.ReadsResident` — a rank finds the experts of a layer in its cache.
* `ModelWeights`, `wholeModel` — the whole matrices, and the model with them.
-/

namespace HarvestMoE

open Lib

variable {K : Type*} [Field K] [LinearOrder K]

section Model

/-- The sizes and functions of the model. The weights of the norms and the embedding are part of
the functions. -/
structure ModelMath (K : Type*) where
  attention : AttentionMath K
  inputLayernorm : ℕ → (ℕ → K) → ℕ → K
  postAttentionLayernorm : ℕ → (ℕ → K) → ℕ → K
  norm : (ℕ → K) → ℕ → K
  embedTokens : ℕ → ℕ → K
  /-- The weights and the experts of a row of router logits. -/
  topkSoftmax : (ℕ → K) → (ℕ → K) × (ℕ → ℕ)
  topK : ℕ
  act : K → K
  numHiddenLayers : ℕ
  numLocalExperts : ℕ
  intermediateSize : ℕ
  vocabSize : ℕ
  sample : ℕ → ℕ → List (List K) → List ℕ

/-- The sizes of the experts. -/
def ModelMath.expertShape (math : ModelMath K) (cfg : HeadConfig) : ExpertShape :=
  ⟨cfg.hiddenSize, math.intermediateSize, cfg.tpSize⟩

/-- The experts of a row, with their weights behind `renormalize`. -/
def ModelMath.route (math : ModelMath K) (gate : Matrix2 K) (x : ℕ → K) (j : ℕ) : ℕ × K :=
  let (weights, ids) := math.topkSoftmax (linear gate x)
  (ids j, weights j / ∑ j' ∈ Finset.range math.topK, weights j')

/-- What `MixtralMoE.forward` gives to `stack_fused_moe` for a row, with its router logits. -/
def ModelMath.moeInput (math : ModelMath K) (hiddenSize : ℕ) (gate : Matrix2 K) (x : ℕ → K) :
    MoeInput K where
  numTokens := 1
  hiddenSize := hiddenSize
  numExperts := math.numLocalExperts
  topk := math.topK
  hiddenStates := x
  topkWeights := (math.topkSoftmax (linear gate x)).1
  topkIds := (math.topkSoftmax (linear gate x)).2
  renormalize := true
  act := math.act

/-- The parameters of a rank, the projections by layer. -/
structure RankParams (K : Type*) where
  qkvProj : ℕ → Matrix2 K
  oProj : ℕ → Matrix2 K
  moe : MoeParams K
  lmHead : Matrix2 K

/-- The queries, keys and values of a row at a position. -/
def tokenHeads (a : AttentionMath K) (headDim position : ℕ) (lin : ShardId → ℕ → ℕ → K) :
    (ℕ → ℕ → K) × KvRow K :=
  let heads := a.heads headDim (fun _ => position) lin
  (heads.q 0, ⟨heads.k 0, heads.v 0⟩)

/-- The row of attention of a query to keys and values. -/
def tokenAttention (a : AttentionMath K) (headDim group : ℕ) (q : ℕ → ℕ → K) (kv : ℕ → KvRow K)
    (len p : ℕ) : K :=
  gqaAttention a.exp a.scaling headDim group q kv len (p / headDim) (p % headDim)

/-- The model on the ranks. Queries, keys, values and attention are those of all ranks; rows are
the same on every rank. `moeRanks r i x` is what rank `r` launches the kernels of layer `i` on for
the row `x`: the expert cache as it is then, and the mapping of the layer. -/
def rankModel (math : ModelMath K) (cfg : HeadConfig) (attn : MixtralAttention)
    (ranks : ℕ → RankParams K) (moeRanks : ℕ → ℕ → (ℕ → K) → MoeRank K) :
    CausalLM (ℕ → K) (ℕ → ℕ → ℕ → K) (ℕ → KvRow K) (ℕ → ℕ → K) (List K) where
  embedTokens := math.embedTokens
  add x y d := x d + y d
  layers i :=
    { inputLayernorm := math.inputLayernorm i
      qkvProj x position :=
        let heads := fun r => tokenHeads math.attention attn.headDim position
          (attn.project math.attention ((ranks r).qkvProj i) fun _ => x)
        (fun r => (heads r).1, fun r => (heads r).2)
      attn q kvs r := tokenAttention math.attention attn.headDim (attn.numHeads / attn.numKvHeads)
        (q r) (fun u => kvs.getD u default r) kvs.length
      oProj y d := ∑ r ∈ Finset.range cfg.tpSize, linear ((ranks r).oProj i) (y r) d
      postAttentionLayernorm := math.postAttentionLayernorm i
      blockSparseMoe x h := ∑ r ∈ Finset.range cfg.tpSize,
        stackFusedMoe (math.moeInput cfg.hiddenSize ((ranks r).moe.gates i) x) (moeRanks r i x)
          0 h }
  numHiddenLayers := math.numHiddenLayers
  norm := math.norm
  lmHead x := ((List.range cfg.tpSize).flatMap fun r =>
    (List.range (ranks r).lmHead.rows).map (linear (ranks r).lmHead x)).take math.vocabSize
  emptyLike _ _ _ := 0
  sample := math.sample

/-- The matrices of the checkpoint. -/
structure ModelWeights (K : Type*) where
  attn : ℕ → AttnWeights K
  moe : MoeWeights K
  gates : ℕ → Matrix2 K
  lmHead : ℕ → ℕ → K

/-- The model with the whole matrices. -/
def wholeModel (math : ModelMath K) (cfg : HeadConfig) (headDim : ℕ) (w : ModelWeights K) :
    CausalLM (ℕ → K) (ℕ → ℕ → K) (KvRow K) (ℕ → K) (List K) where
  embedTokens := math.embedTokens
  add x y d := x d + y d
  layers i :=
    { inputLayernorm := math.inputLayernorm i
      qkvProj x position := tokenHeads math.attention headDim position
        ((w.attn i).project math.attention fun _ => x)
      attn q kvs := tokenAttention math.attention headDim
        (cfg.numAttentionHeads / cfg.numKeyValueHeads) q (fun u => kvs.getD u default) kvs.length
      oProj y d := ∑ p ∈ Finset.range (cfg.numAttentionHeads * headDim),
        y p * (w.attn i).oWeight d p
      postAttentionLayernorm := math.postAttentionLayernorm i
      blockSparseMoe x h := ∑ j ∈ Finset.range math.topK,
        w.moe.expertOutput (math.expertShape cfg) math.act i (math.route (w.gates i) x j).1 x h *
          (math.route (w.gates i) x j).2 }
  numHiddenLayers := math.numHiddenLayers
  norm := math.norm
  lmHead x := (List.range math.vocabSize).map fun t =>
    ∑ d ∈ Finset.range cfg.hiddenSize, x d * w.lmHead t d
  emptyLike _ _ := 0
  sample := math.sample

end Model

/-- The parts that decode calls make up what a rank computes of a sequence. -/
theorem MixtralAttention.forward_eq (attn : MixtralAttention) (a : AttentionMath K)
    (qkvProj oProj : Matrix2 K) (positions : ℕ → ℕ) (hiddenStates : ℕ → ℕ → K) (t : ℕ) :
    attn.forward a qkvProj oProj positions hiddenStates t =
      let heads := fun u => tokenHeads a attn.headDim (positions u)
        (attn.project a qkvProj fun _ => hiddenStates u)
      linear oProj (tokenAttention a attn.headDim (attn.numHeads / attn.numKvHeads) (heads t).1
        (fun u => (heads u).2) (t + 1)) := rfl

section Experts

variable {math : ModelMath K} {s : ExpertShape} {engine : EngineConfig}

/-- A rank launches on an expert cache in which the experts of the layer are where the mapping
says. -/
def MoeRank.ReadsResident (engine : EngineConfig) (s : ExpertShape) (x : MoeInput K)
    (ws : ParamData K) (i : ℕ) (rank : MoeRank K) : Prop :=
  ∃ cache, rank.ReadsCache engine s x i cache ∧ LayerResident engine (hostRows s ws) cache i

omit [Field K] [LinearOrder K] in
/-- With all experts persistent every layer is resident, in whatever state batches leave. -/
theorem Persistent.layerResident {mem : ℕ → ℕ → ℕ → K} {cache : ℕ → ℕ → K}
    (h : Persistent engine mem cache) (hall : engine.numExpertsGpu = engine.numLocalExperts) {i : ℕ}
    (hi : i < engine.numHiddenLayers) : LayerResident engine mem cache i :=
  fun _ he _ hr => h.expert hi (hall ▸ he) hr

omit [Field K] [LinearOrder K] in
/-- So every call of a batch that computes the experts of a layer finds them in the cache. -/
theorem BetweenBatches.layerResident {mem : ℕ → ℕ → ℕ → K} {cold : ℕ → ℕ → K}
    {state : WeightState (ℕ → K)} (hs : BetweenBatches engine mem cold state)
    (hall : engine.numExpertsGpu = engine.numLocalExperts) {numMb : ℕ} (hn : 0 < numMb)
    {done rest : List Call} {c : Call} (hcalls : batchForwardStep engine numMb = done ++ c :: rest)
    {i : ℕ} (hc : c.computes i) :
    ∃ u, exec (weightStep engine numMb) state.newBatch done = some u ∧
      LayerResident engine mem u.expertsCache i := by
  obtain ⟨u, hu, hi, hpers, -⟩ := hs.reaches hn hcalls hc
  exact ⟨u, hu, hpers.layerResident hall hi⟩

omit [LinearOrder K] in
/-- What ranks with resident experts leave for a token adds up to the experts of the token. -/
theorem sum_stackFusedMoe_resident {w : MoeWeights K} (hdvd : s.tpSize ∣ s.fullIntermediate)
    (hengine : engine.hiddenSize = s.hiddenSize) {i t h : ℕ} {x : MoeInput K}
    (hx : x.hiddenSize = s.hiddenSize) {ws : ℕ → ParamData K} {moeRanks : ℕ → MoeRank K}
    (hloaded : ∀ r < s.tpSize, ∀ e < engine.numLocalExperts, ∀ part,
      Loaded w s r (part, i, e) (ws r))
    (hranks : ∀ r < s.tpSize, (moeRanks r).ReadsResident engine s x (ws r) i)
    (ht : t < x.numTokens)
    (hids : ∀ j < x.topk, x.topkIds (t * x.topk + j) < engine.numLocalExperts)
    (hh : h < s.hiddenSize) :
    ∑ r ∈ Finset.range s.tpSize, stackFusedMoe x (moeRanks r) t h =
      ∑ j ∈ Finset.range x.topk,
        w.expertOutput s x.act i (x.topkIds (t * x.topk + j)) (x.row t) h *
          x.weight (t * x.topk + j) := by
  choose cache hreads hresident using hranks
  let cacheOf : ℕ → ℕ → ℕ → K := fun r => if hr : r < s.tpSize then cache r hr else fun _ _ => 0
  have hcache : ∀ r (hr : r < s.tpSize), cacheOf r = cache r hr := fun r hr => dif_pos hr
  have hcaches : ∀ r < s.tpSize, (moeRanks r).ReadsCache engine s x i (cacheOf r) := by
    intro r hr
    rw [hcache r hr]
    exact hreads r hr
  have hpages : ∀ r < s.tpSize, ∀ j < x.topk, ∀ part,
      Loaded w s r (part, i, x.topkIds (t * x.topk + j)) (cachePages engine s (cacheOf r)) := by
    intro r hr j hj part
    rw [hcache r hr]
    exact (hloaded r hr _ (hids j hj) part).inCache hengine
      fun row hrow => hresident r hr _ (hids j hj) row hrow
  exact sum_stackFusedMoe_inCache hdvd (by omega) hx hcaches ht hpages hh

/-- A row of a batch is sent where the router sends it. -/
structure MoeInput.Routed (math : ModelMath K) (gate : Matrix2 K) (x : MoeInput K) (t : ℕ) :
    Prop where
  topk : x.topk = math.topK
  act : x.act = math.act
  renormalize : x.renormalize = true
  topkIds : ∀ j < x.topk,
    x.topkIds (t * x.topk + j) = (math.topkSoftmax (linear gate (x.row t))).2 j
  topkWeights : ∀ j < x.topk,
    x.topkWeights (t * x.topk + j) = (math.topkSoftmax (linear gate (x.row t))).1 j

omit [LinearOrder K] in
theorem MoeInput.Routed.weight_eq {gate : Matrix2 K} {x : MoeInput K} {t j : ℕ}
    (h : x.Routed math gate t) (hj : j < x.topk) :
    x.weight (t * x.topk + j) = (math.route gate (x.row t) j).2 := by
  rw [MoeInput.weight, if_pos h.renormalize, (mul_add_div_mod hj).1, h.topkWeights j hj,
    Finset.sum_congr rfl fun j' hj' => h.topkWeights j' (Finset.mem_range.mp hj'), h.topk,
    ModelMath.route]

omit [LinearOrder K] in
@[simp] theorem ModelMath.row_moeInput (n : ℕ) (gate : Matrix2 K) (x : ℕ → K) :
    (math.moeInput n gate x).row 0 = x := by
  funext d
  simp [MoeInput.row, ModelMath.moeInput]

omit [LinearOrder K] in
theorem ModelMath.routed_moeInput (n : ℕ) (gate : Matrix2 K) (x : ℕ → K) :
    (math.moeInput n gate x).Routed math gate 0 := by
  constructor
  · rfl
  · rfl
  · rfl
  · intro j _
    rw [ModelMath.row_moeInput, Nat.zero_mul, Nat.zero_add]
    rfl
  · intro j _
    rw [ModelMath.row_moeInput, Nat.zero_mul, Nat.zero_add]
    rfl

omit [LinearOrder K] in
/-- The results of the ranks for a row of any batch are the experts of the row. -/
theorem sum_stackFusedMoe_routed {w : MoeWeights K} (hdvd : s.tpSize ∣ s.fullIntermediate)
    (hengine : engine.hiddenSize = s.hiddenSize) {i t h : ℕ} {x : MoeInput K}
    (hx : x.hiddenSize = s.hiddenSize) {ws : ℕ → ParamData K} {moeRanks : ℕ → MoeRank K}
    (hloaded : ∀ r < s.tpSize, ∀ e < engine.numLocalExperts, ∀ part,
      Loaded w s r (part, i, e) (ws r))
    (hranks : ∀ r < s.tpSize, (moeRanks r).ReadsResident engine s x (ws r) i) {gate : Matrix2 K}
    (hroute : x.Routed math gate t) (ht : t < x.numTokens)
    (hids : ∀ j < math.topK, (math.route gate (x.row t) j).1 < engine.numLocalExperts)
    (hh : h < s.hiddenSize) :
    ∑ r ∈ Finset.range s.tpSize, stackFusedMoe x (moeRanks r) t h =
      ∑ j ∈ Finset.range math.topK,
        w.expertOutput s math.act i (math.route gate (x.row t) j).1 (x.row t) h *
          (math.route gate (x.row t) j).2 := by
  have hid : ∀ j < x.topk, x.topkIds (t * x.topk + j) = (math.route gate (x.row t) j).1 :=
    hroute.topkIds
  rw [sum_stackFusedMoe_resident hdvd hengine hx hloaded hranks ht
    (fun j hj => by rw [hid j hj]; exact hids j (hroute.topk ▸ hj)) hh, ← hroute.topk, hroute.act]
  refine Finset.sum_congr rfl fun j hj => ?_
  have hj := Finset.mem_range.mp hj
  rw [hid j hj, hroute.weight_eq hj]

omit [LinearOrder K] in
/-- **In a batch every row gets what it gets alone.** -/
theorem sum_stackFusedMoe_alone {w : MoeWeights K} (hdvd : s.tpSize ∣ s.fullIntermediate)
    (hengine : engine.hiddenSize = s.hiddenSize) {i t h : ℕ} {x : MoeInput K}
    (hx : x.hiddenSize = s.hiddenSize) {ws : ℕ → ParamData K} {moeRanks alone : ℕ → MoeRank K}
    (hloaded : ∀ r < s.tpSize, ∀ e < engine.numLocalExperts, ∀ part,
      Loaded w s r (part, i, e) (ws r)) {gate : Matrix2 K}
    (hranks : ∀ r < s.tpSize, (moeRanks r).ReadsResident engine s x (ws r) i)
    (halone : ∀ r < s.tpSize,
      (alone r).ReadsResident engine s (math.moeInput s.hiddenSize gate (x.row t)) (ws r) i)
    (hroute : x.Routed math gate t) (ht : t < x.numTokens)
    (hids : ∀ j < math.topK, (math.route gate (x.row t) j).1 < engine.numLocalExperts)
    (hh : h < s.hiddenSize) :
    ∑ r ∈ Finset.range s.tpSize, stackFusedMoe x (moeRanks r) t h =
      ∑ r ∈ Finset.range s.tpSize,
        stackFusedMoe (math.moeInput s.hiddenSize gate (x.row t)) (alone r) 0 h := by
  rw [sum_stackFusedMoe_routed hdvd hengine hx hloaded hranks hroute ht hids hh,
    sum_stackFusedMoe_routed hdvd hengine rfl hloaded halone
      (ModelMath.routed_moeInput _ gate (x.row t)) Nat.one_pos
      (by rwa [ModelMath.row_moeInput]) hh, ModelMath.row_moeInput]

end Experts

section Shares

/-- Rows agree in the entries that a row has. -/
def AgreeBelow (n : ℕ) (x y : ℕ → K) : Prop := ∀ d < n, x d = y d

/-- The functions of the model read the entries that a row has, and experts of the model are
chosen. -/
structure ModelMath.ReadsRows (math : ModelMath K) (cfg : HeadConfig) (headDim : ℕ) : Prop where
  inputLayernorm : ∀ i {x y}, AgreeBelow cfg.hiddenSize x y →
    AgreeBelow cfg.hiddenSize (math.inputLayernorm i x) (math.inputLayernorm i y)
  postAttentionLayernorm : ∀ i {x y}, AgreeBelow cfg.hiddenSize x y →
    AgreeBelow cfg.hiddenSize (math.postAttentionLayernorm i x) (math.postAttentionLayernorm i y)
  norm : ∀ {x y}, AgreeBelow cfg.hiddenSize x y →
    AgreeBelow cfg.hiddenSize (math.norm x) (math.norm y)
  rotaryEmb : math.attention.RotatesHeads headDim
  topkIds : ∀ logits, ∀ j < math.topK, (math.topkSoftmax logits).2 j < math.numLocalExperts

/-- The matrices of the checkpoint take rows of the model. -/
structure ModelWeights.Fits (w : ModelWeights K) (math : ModelMath K) (cfg : HeadConfig) :
    Prop where
  inputSize : ∀ i < math.numHiddenLayers, (w.attn i).inputSize = cfg.hiddenSize
  gateCols : ∀ i < math.numHiddenLayers, (w.gates i).cols = cfg.hiddenSize

/-- The rows of the vocabulary are divided among the ranks, the last ones being padding. -/
structure VocabShares (math : ModelMath K) (cfg : HeadConfig) (w : ModelWeights K) (shard : ℕ)
    (lmHead : ℕ → Matrix2 K) : Prop where
  covers : math.vocabSize ≤ cfg.tpSize * shard
  rows : ∀ r < cfg.tpSize, (lmHead r).rows = shard
  cols : ∀ r < cfg.tpSize, (lmHead r).cols = cfg.hiddenSize
  entry : ∀ r < cfg.tpSize, ∀ t < shard, r * shard + t < math.vocabSize →
    ∀ d < cfg.hiddenSize, (lmHead r).entry t d = w.lmHead (r * shard + t) d

/-- A rank has its share of the matrices of the layers. -/
structure RankShares (math : ModelMath K) (cfg : HeadConfig) (attn : MixtralAttention)
    (w : ModelWeights K) (r : ℕ) (params : RankParams K) : Prop where
  qkvCols : ∀ i < math.numHiddenLayers, (params.qkvProj i).cols = (w.attn i).inputSize
  qkvProj : ∀ i < math.numHiddenLayers, ∀ id,
    (attn.qkvLayer cfg).HoldsShard (w.attn i).toQkvWeights r (params.qkvProj i) id
  oCols : ∀ i < math.numHiddenLayers,
    (params.oProj i).cols = cfg.numAttentionHeads / cfg.tpSize * attn.headDim
  oProj : ∀ i < math.numHiddenLayers, ∀ d < cfg.hiddenSize, ∀ p,
    (params.oProj i).entry d p = (w.attn i).oWeight d (r * (params.oProj i).cols + p)
  gates : ∀ i < math.numHiddenLayers, params.moe.gates i = w.gates i
  experts : ∀ i < math.numHiddenLayers, ∀ e < math.numLocalExperts, ∀ part,
    Loaded w.moe (math.expertShape cfg) r (part, i, e) params.moe.ws

variable {math : ModelMath K} {cfg : HeadConfig} {attn : MixtralAttention} {w : ModelWeights K}
  {ranks : ℕ → RankParams K}

/-- The queries of the ranks are heads of all queries. -/
def QueryShares (cfg : HeadConfig) (headDim : ℕ) (q : ℕ → ℕ → ℕ → K) (q' : ℕ → ℕ → K) : Prop :=
  ∀ r < cfg.tpSize, ∀ j < cfg.headsOf .q, ∀ e < headDim, q r j e = q' (cfg.firstHead r .q + j) e

/-- The keys and values of the ranks are. -/
def KvShares (cfg : HeadConfig) (headDim : ℕ) (kv : ℕ → KvRow K) (kv' : KvRow K) : Prop :=
  ∀ r < cfg.tpSize,
    (∀ j < cfg.headsOf .k, ∀ e < headDim, (kv r).key j e = kv'.key (cfg.firstHead r .k + j) e) ∧
    ∀ j < cfg.headsOf .v, ∀ e < headDim, (kv r).value j e = kv'.value (cfg.firstHead r .v + j) e

/-- The attention of the ranks, one behind the other, is the row of attention. -/
def AttnShares (cfg : HeadConfig) (headDim : ℕ) (y : ℕ → ℕ → K) (y' : ℕ → K) : Prop :=
  ∀ r < cfg.tpSize, ∀ p < cfg.numAttentionHeads / cfg.tpSize * headDim,
    y r p = y' (r * (cfg.numAttentionHeads / cfg.tpSize * headDim) + p)

omit [LinearOrder K] in
/-- An expert reads as many entries as a row has. -/
theorem MoeWeights.expertOutput_congr (w : MoeWeights K) (s : ExpertShape) (act : K → K)
    (layerId expertId : ℕ) {x y : ℕ → K} (hxy : AgreeBelow s.hiddenSize x y) :
    w.expertOutput s act layerId expertId x = w.expertOutput s act layerId expertId y := by
  have hdot : ∀ row : ℕ → K, ∑ d ∈ Finset.range s.hiddenSize, row d * x d =
      ∑ d ∈ Finset.range s.hiddenSize, row d * y d :=
    fun row => Finset.sum_congr rfl fun d hd => by rw [hxy d (Finset.mem_range.mp hd)]
  funext h
  simp only [MoeWeights.expertOutput, hdot]

omit [LinearOrder K] in
/-- A matrix reads as many entries as it has columns. -/
theorem linear_congr {m : Matrix2 K} {n : ℕ} (hcols : m.cols = n) {x y : ℕ → K}
    (hxy : AgreeBelow n x y) : linear m x = linear m y := by
  funext i
  refine Finset.sum_congr rfl fun d hd => ?_
  rw [hxy d (hcols ▸ Finset.mem_range.mp hd)]

section Layer

variable {a : AttentionMath K} {headDim position : ℕ} {full : ShardId → ℕ → ℕ → K}
  {share : ℕ → ShardId → ℕ → ℕ → K}

omit [Field K] [LinearOrder K] in
/-- Shares of the projections are shares of the heads. -/
theorem queryShares_tokenHeads (hrope : a.RotatesHeads headDim)
    (hshare : ∀ r < cfg.tpSize, IsShare cfg headDim r full (share r)) :
    QueryShares cfg headDim (fun r => (tokenHeads a headDim position (share r)).1)
      (tokenHeads a headDim position full).1 := by
  intro r hr j hj
  exact hrope _ _ _ fun e he => (hshare r hr).entry .q 0 hj he

omit [Field K] [LinearOrder K] in
theorem kvShares_tokenHeads (hrope : a.RotatesHeads headDim)
    (hshare : ∀ r < cfg.tpSize, IsShare cfg headDim r full (share r)) :
    KvShares cfg headDim (fun r => (tokenHeads a headDim position (share r)).2)
      (tokenHeads a headDim position full).2 := by
  refine fun r hr => ⟨fun j hj => ?_, fun j hj e he => (hshare r hr).entry .v 0 hj he⟩
  exact hrope _ _ _ fun e he => (hshare r hr).entry .k 0 hj he

omit [LinearOrder K] in
/-- Attention of the ranks to their shares is the row of attention. -/
theorem attnShares_tokenAttention (h : cfg.Accepted)
    (hgroup : cfg.numKeyValueHeads ∣ cfg.numAttentionHeads) {q : ℕ → ℕ → ℕ → K}
    {q' : ℕ → ℕ → K} (hq : QueryShares cfg headDim q q') {kvs : List (ℕ → KvRow K)}
    {kvs' : List (KvRow K)} (hkvs : List.Forall₂ (KvShares cfg headDim) kvs kvs') :
    AttnShares cfg headDim
      (fun r => tokenAttention a headDim (cfg.numAttentionHeads / cfg.tpSize / cfg.kvHeads) (q r)
        (fun u => kvs.getD u default r) kvs.length)
      (tokenAttention a headDim (cfg.numAttentionHeads / cfg.numKeyValueHeads) q'
        (fun u => kvs'.getD u default) kvs'.length) := by
  have hrow : ∀ u < kvs.length,
      KvShares cfg headDim (kvs.getD u default) (kvs'.getD u default) := by
    intro u hu
    have hu' : u < kvs'.length := hkvs.length_eq ▸ hu
    rw [List.getD_eq_getElem?_getD, List.getD_eq_getElem?_getD, List.getElem?_eq_getElem hu,
      List.getElem?_eq_getElem hu']
    exact (List.forall₂_iff_get.mp hkvs).2 u hu hu'
  intro r hr p hp
  simp only [tokenAttention, ← hkvs.length_eq]
  exact h.gqaAttention_eq hgroup (hq r hr) (fun u hu => (hrow u hu r hr).1)
    (fun u hu => (hrow u hu r hr).2) hp

end Layer

/-- A whole projection reads as many entries as its matrices take. -/
theorem AttnWeights.project_congr (w : AttnWeights K) (a : AttentionMath K) {n : ℕ}
    (hsize : w.inputSize = n) {x y : ℕ → K} (hxy : AgreeBelow n x y) :
    w.project a (fun _ => x) = w.project a fun _ => y := by
  funext id t p
  rw [AttnWeights.project, AttnWeights.project]
  congr 1
  refine Finset.sum_congr rfl fun d hd => ?_
  rw [hxy d (hsize ▸ Finset.mem_range.mp hd)]

omit [LinearOrder K] in
/-- The logits of the ranks, one behind the other, are those of the vocabulary. -/
theorem VocabShares.logits_eq {shard : ℕ} {lmHead : ℕ → Matrix2 K}
    (h : VocabShares math cfg w shard lmHead) {x y : ℕ → K}
    (hxy : AgreeBelow cfg.hiddenSize x y) :
    ((List.range cfg.tpSize).flatMap fun r =>
        (List.range (lmHead r).rows).map (linear (lmHead r) x)).take math.vocabSize =
      (List.range math.vocabSize).map fun t =>
        ∑ d ∈ Finset.range cfg.hiddenSize, y d * w.lmHead t d := by
  have hranks : ((List.range cfg.tpSize).flatMap fun r =>
      (List.range (lmHead r).rows).map (linear (lmHead r) x)) =
      (List.range (cfg.tpSize * shard)).map fun p => linear (lmHead (p / shard)) x (p % shard) := by
    rw [map_range_mul]
    refine List.flatMap_congr fun r hr => ?_
    rw [h.rows r (List.mem_range.mp hr)]
    refine List.map_congr_left fun t ht => ?_
    have ht := List.mem_range.mp ht
    rw [(mul_add_div_mod ht).1, (mul_add_div_mod ht).2]
  rw [hranks, ← List.map_take, List.take_range, Nat.min_eq_left h.covers]
  refine List.map_congr_left fun p hp => ?_
  have hp := List.mem_range.mp hp
  have hlt : p < cfg.tpSize * shard := hp.trans_le h.covers
  have hshard : 0 < shard := Nat.pos_of_ne_zero fun h0 => by simp [h0] at hlt
  have hrank : p / shard < cfg.tpSize := (Nat.div_lt_iff_lt_mul hshard).mpr hlt
  have hplace : p / shard * shard + p % shard = p := Nat.div_add_mod' p shard
  rw [linear, h.cols _ hrank]
  refine Finset.sum_congr rfl fun d hd => ?_
  have hd := Finset.mem_range.mp hd
  rw [h.entry _ hrank _ (Nat.mod_lt p hshard) (hplace.symm ▸ hp) d hd, hplace, hxy d hd]

/-- Every rank finds the experts of every layer in its cache when it computes the layer. -/
def ReadExperts (math : ModelMath K) (cfg : HeadConfig) (engine : EngineConfig)
    (ranks : ℕ → RankParams K) (moeRanks : ℕ → ℕ → (ℕ → K) → MoeRank K) : Prop :=
  ∀ r < cfg.tpSize, ∀ i < math.numHiddenLayers, ∀ x,
    (moeRanks r i x).ReadsResident engine (math.expertShape cfg)
      (math.moeInput cfg.hiddenSize ((ranks r).moe.gates i) x) (ranks r).moe.ws i

/-- The sizes of the engine are those of the model. -/
structure EngineConfig.Serves (engine : EngineConfig) (math : ModelMath K) (cfg : HeadConfig) :
    Prop where
  hiddenSize : engine.hiddenSize = cfg.hiddenSize
  numLocalExperts : engine.numLocalExperts = math.numLocalExperts

omit [LinearOrder K] in
/-- What the ranks compute of a row adds up to the experts of the row. -/
theorem sum_blockSparseMoe (hshares : ∀ r < cfg.tpSize, RankShares math cfg attn w r (ranks r))
    (hmath : math.ReadsRows cfg attn.headDim) (hw : w.Fits math cfg)
    (hdvd : cfg.tpSize ∣ math.intermediateSize) {engine : EngineConfig}
    (hengine : engine.Serves math cfg) {moeRanks : ℕ → ℕ → (ℕ → K) → MoeRank K}
    (hread : ReadExperts math cfg engine ranks moeRanks) {i : ℕ} (hi : i < math.numHiddenLayers)
    {x y : ℕ → K} (hxy : AgreeBelow cfg.hiddenSize x y) {h : ℕ} (hh : h < cfg.hiddenSize) :
    ∑ r ∈ Finset.range cfg.tpSize,
        stackFusedMoe (math.moeInput cfg.hiddenSize ((ranks r).moe.gates i) x) (moeRanks r i x)
          0 h =
      ∑ j ∈ Finset.range math.topK,
        w.moe.expertOutput (math.expertShape cfg) math.act i (math.route (w.gates i) y j).1 y h *
          (math.route (w.gates i) y j).2 := by
  have hroute : math.route (w.gates i) x = math.route (w.gates i) y := by
    funext j
    rw [ModelMath.route, ModelMath.route, linear_congr (hw.gateCols i hi) hxy]
  have hgates : ∀ r ∈ Finset.range cfg.tpSize,
      stackFusedMoe (math.moeInput cfg.hiddenSize ((ranks r).moe.gates i) x) (moeRanks r i x) 0 h =
        stackFusedMoe (math.moeInput cfg.hiddenSize (w.gates i) x) (moeRanks r i x) 0 h :=
    fun r hr => by rw [(hshares r (Finset.mem_range.mp hr)).gates i hi]
  have hresident : ∀ r < cfg.tpSize, (moeRanks r i x).ReadsResident engine (math.expertShape cfg)
      (math.moeInput cfg.hiddenSize (w.gates i) x) (ranks r).moe.ws i := by
    intro r hr
    rw [← (hshares r hr).gates i hi]
    exact hread r hr i hi x
  have hsum := sum_stackFusedMoe_routed (s := math.expertShape cfg) hdvd hengine.hiddenSize rfl
    (fun r hr e he part => (hshares r hr).experts i hi e (hengine.numLocalExperts ▸ he) part)
    hresident (ModelMath.routed_moeInput _ _ x) Nat.one_pos
    (fun j hj => hengine.numLocalExperts ▸ hmath.topkIds _ j hj) hh
  rw [ModelMath.row_moeInput, hroute] at hsum
  rw [Finset.sum_congr rfl hgates]
  refine hsum.trans (Finset.sum_congr rfl fun j _ => ?_)
  rw [w.moe.expertOutput_congr (math.expertShape cfg) _ _ _ hxy]

/-- **With their shares, the ranks simulate the model with the whole matrices.** -/
theorem rankModel_simulates (hshares : ∀ r < cfg.tpSize, RankShares math cfg attn w r (ranks r))
    {shard : ℕ} (hvocab : VocabShares math cfg w shard fun r => (ranks r).lmHead)
    (h : cfg.Accepted) (hs : attn.Sized cfg) (hgroup : cfg.numKeyValueHeads ∣ cfg.numAttentionHeads)
    (hmath : math.ReadsRows cfg attn.headDim) (hw : w.Fits math cfg)
    (hdvd : cfg.tpSize ∣ math.intermediateSize) {engine : EngineConfig}
    (hengine : engine.Serves math cfg) {moeRanks : ℕ → ℕ → (ℕ → K) → MoeRank K}
    (hread : ReadExperts math cfg engine ranks moeRanks) :
    CausalLM.Simulates (AgreeBelow cfg.hiddenSize) (QueryShares cfg attn.headDim)
      (KvShares cfg attn.headDim) (AttnShares cfg attn.headDim)
      (rankModel math cfg attn ranks moeRanks) (wholeModel math cfg attn.headDim w) where
  numHiddenLayers := rfl
  embedTokens _ _ _ := rfl
  add hx hy d hd := by
    simp only [rankModel, wholeModel, hx d hd, hy d hd]
  norm := hmath.norm
  lmHead := hvocab.logits_eq
  sample := rfl
  layers i hi := by
    have hproject : ∀ {x y}, AgreeBelow cfg.hiddenSize x y → ∀ r < cfg.tpSize,
        IsShare cfg attn.headDim r ((w.attn i).project math.attention fun _ => y)
          (attn.project math.attention ((ranks r).qkvProj i) fun _ => x) := by
      intro x y hxy r hr
      rw [← (w.attn i).project_congr math.attention (hw.inputSize i hi) hxy]
      exact hs.isShare ((hshares r hr).qkvCols i hi) ((hshares r hr).qkvProj i hi) _
    refine ⟨hmath.inputLayernorm i, fun position hx => ?_, fun position hx => ?_,
      fun hq hkvs => ?_, fun hy d hd => ?_, hmath.postAttentionLayernorm i, fun hx d hd => ?_⟩
    · exact queryShares_tokenHeads hmath.rotaryEmb (hproject hx)
    · exact kvShares_tokenHeads hmath.rotaryEmb (hproject hx)
    · simp only [rankModel, hs.numHeads, hs.numKvHeads]
      exact attnShares_tokenAttention h hgroup hq hkvs
    · exact h.sum_oProj (fun r hr => (hshares r hr).oCols i hi)
        (fun r hr p _ => (hshares r hr).oProj i hi d hd p) hy
    · exact sum_blockSparseMoe hshares hmath hw hdvd hengine hread hi hx hd

/-- The parameters of a rank come out of the loaders. -/
structure LoadedFrom (math : ModelMath K) (cfg : HeadConfig) (attn : MixtralAttention)
    (w : ModelWeights K) (r : ℕ) (start : RankParams K)
    (files : ℕ → List (Option ShardId × Matrix2 K)) (tensors : List MoeTensor)
    (params : RankParams K) : Prop where
  qkvProj : ∀ i < math.numHiddenLayers,
    (attn.qkvLayer cfg).load r (start.qkvProj i) (files i) = some (params.qkvProj i)
  oProj : ∀ i < math.numHiddenLayers,
    rowWeightLoader r (start.oProj i) ((w.attn i).oPart cfg attn.headDim) = some (params.oProj i)
  moe : loadWeights math.numHiddenLayers math.numLocalExperts (math.expertShape cfg) r start.moe
    (tensors.map fun t => (t.name, t.matrix w.moe w.gates (math.expertShape cfg))) = some params.moe
  lmHead : params.lmHead = start.lmHead

omit [Field K] [LinearOrder K] in
/-- The loaders go through, and leave the shares of the rank. -/
theorem exists_loadedFrom (h : cfg.Accepted) (hs : attn.Sized cfg) {r : ℕ} (hr : r < cfg.tpSize)
    {start : RankParams K}
    (halloc : ∀ i < math.numHiddenLayers,
      attn.Allocated cfg (w.attn i) (start.qkvProj i) (start.oProj i))
    {files : ℕ → List (Option ShardId × Matrix2 K)}
    (hfiles : ∀ i < math.numHiddenLayers,
      (attn.qkvLayer cfg).Files (w.attn i).toQkvWeights (files i))
    {tensors : List MoeTensor}
    (horder : tensors.Perm (moeTensors math.numHiddenLayers math.numLocalExperts)) :
    ∃ params, LoadedFrom math cfg attn w r start files tensors params ∧
      RankShares math cfg attn w r params := by
  obtain ⟨moe, hmoe, hgates, hexperts⟩ :=
    loadWeights_loaded (s := math.expertShape cfg) w.moe w.gates hr start.moe horder
  have hlayer := fun i (hi : i < math.numHiddenLayers) =>
    hs.exists_loaded h hr (halloc i hi) (hfiles i hi)
  choose qkvProj oProj hqkv ho hcols hholds hocols hentry using hlayer
  let params : RankParams K :=
    { qkvProj := fun i => if hi : i < math.numHiddenLayers then qkvProj i hi else start.qkvProj i
      oProj := fun i => if hi : i < math.numHiddenLayers then oProj i hi else start.oProj i
      moe := moe
      lmHead := start.lmHead }
  have hqkvProj : ∀ i (hi : i < math.numHiddenLayers), params.qkvProj i = qkvProj i hi :=
    fun i hi => dif_pos hi
  have hoProj : ∀ i (hi : i < math.numHiddenLayers), params.oProj i = oProj i hi :=
    fun i hi => dif_pos hi
  refine ⟨params, ⟨fun i hi => ?_, fun i hi => ?_, hmoe, rfl⟩, fun i hi => ?_, fun i hi => ?_,
    fun i hi => ?_, fun i hi => ?_, hgates, hexperts⟩
  · rw [hqkvProj i hi, hqkv i hi]
  · rw [hoProj i hi, ho i hi]
  · rw [hqkvProj i hi, hcols i hi]
  · rw [hqkvProj i hi]
    exact hholds i hi
  · rw [hoProj i hi, hocols i hi]
  · rw [hoProj i hi]
    exact hentry i hi

/-- The model on the ranks generates the tokens of the model with the whole matrices, if every layer
finds its experts in the expert cache of every rank. The parameters are filled from the checkpoint,
whose files come to every rank in an order of its own. -/
theorem tensorParallel_generated {divide : ℕ → ℕ → Option ℕ} (hdivide : ChecksDivision divide)
    (hattn : MixtralAttention.init divide cfg = some attn)
    (hgroup : cfg.numKeyValueHeads ∣ cfg.numAttentionHeads)
    (hdvd : cfg.tpSize ∣ math.intermediateSize) (hmath : math.ReadsRows cfg attn.headDim)
    (hw : w.Fits math cfg) {start : ℕ → RankParams K}
    (halloc : ∀ r < cfg.tpSize, ∀ i < math.numHiddenLayers,
      attn.Allocated cfg (w.attn i) ((start r).qkvProj i) ((start r).oProj i))
    {shard : ℕ} (hvocab : VocabShares math cfg w shard fun r => (start r).lmHead)
    {files : ℕ → ℕ → List (Option ShardId × Matrix2 K)}
    (hfiles : ∀ r < cfg.tpSize, ∀ i < math.numHiddenLayers,
      (attn.qkvLayer cfg).Files (w.attn i).toQkvWeights (files r i))
    {tensors : ℕ → List MoeTensor}
    (horder : ∀ r < cfg.tpSize,
      (tensors r).Perm (moeTensors math.numHiddenLayers math.numLocalExperts)) :
    ∃ ranks : ℕ → RankParams K,
      (∀ r < cfg.tpSize,
        LoadedFrom math cfg attn w r (start r) (files r) (tensors r) (ranks r)) ∧
      ∀ (engine : EngineConfig), engine.Serves math cfg →
      ∀ moeRanks : ℕ → ℕ → (ℕ → K) → MoeRank K, ReadExperts math cfg engine ranks moeRanks →
      ∀ k prompts d, (rankModel math cfg attn ranks moeRanks).generated k prompts d =
        (wholeModel math cfg attn.headDim w).generated k prompts d := by
  have h := MixtralAttention.accepted_of_init hattn
  have hs := MixtralAttention.sized_of_init hdivide hattn
  have hload := fun r (hr : r < cfg.tpSize) =>
    exists_loadedFrom h hs hr (halloc r hr) (hfiles r hr) (horder r hr)
  choose params hloaded hshares using hload
  let ranks : ℕ → RankParams K := fun r => if hr : r < cfg.tpSize then params r hr else start r
  have hranks : ∀ r (hr : r < cfg.tpSize), ranks r = params r hr := fun r hr => dif_pos hr
  have hheads : VocabShares math cfg w shard fun r => (ranks r).lmHead := by
    have hhead : ∀ r < cfg.tpSize, (ranks r).lmHead = (start r).lmHead :=
      fun r hr => by rw [hranks r hr, (hloaded r hr).lmHead]
    refine ⟨hvocab.covers, fun r hr => ?_, fun r hr => ?_, fun r hr => ?_⟩ <;> rw [hhead r hr]
    · exact hvocab.rows r hr
    · exact hvocab.cols r hr
    · exact hvocab.entry r hr
  have hown : ∀ r < cfg.tpSize, RankShares math cfg attn w r (ranks r) := by
    intro r hr
    rw [hranks r hr]
    exact hshares r hr
  refine ⟨ranks, fun r hr => ?_, fun engine hengine moeRanks hread => ?_⟩
  · rw [hranks r hr]
    exact hloaded r hr
  · exact (rankModel_simulates hown hheads h hs hgroup hmath hw hdvd hengine hread).generated_eq

end Shares

section Example

/-- Two layers of two experts on rows of two entries, with three tokens. -/
noncomputable def smallMath : ModelMath ℝ where
  attention := plainMath
  inputLayernorm _ x d := x d / Real.sqrt (∑ e ∈ Finset.range 2, x e * x e + 1)
  postAttentionLayernorm _ x d := x d / Real.sqrt (∑ e ∈ Finset.range 2, x e * x e + 1)
  norm x d := x d / Real.sqrt (∑ e ∈ Finset.range 2, x e * x e + 1)
  embedTokens id d := (id + d : ℕ)
  topkSoftmax logits :=
    let best := if logits 0 < logits 1 then 1 else 0
    (fun _ => Real.exp (logits best) / (Real.exp (logits 0) + Real.exp (logits 1)), fun _ => best)
  topK := 1
  act x := x / (1 + Real.exp (-x))
  numHiddenLayers := 2
  numLocalExperts := 2
  intermediateSize := 2
  vocabSize := 3
  sample _ _ logits := logits.map fun row => if row.getD 0 0 < row.getD 2 0 then 2 else 0

noncomputable def smallModel : ModelWeights ℝ where
  attn _ := smallWeights
  moe :=
    { w1 _ e i d := (e + i + d : ℕ)
      w3 _ e i d := (e + i * d : ℕ)
      w2 _ _ i d := (i + d : ℕ) }
  gates _ := ⟨2, 2, fun e d => (e * d : ℕ)⟩
  lmHead t d := (t + d : ℕ)

/-- A rank on an expert cache, with a single slot in the first block of its expert. -/
noncomputable def oneSlotRank (engine : EngineConfig) (s : ExpertShape) (x : MoeInput ℝ) (i : ℕ)
    (cache : ℕ → ℕ → ℝ) : MoeRank ℝ :=
  let rank : MoeRank ℝ :=
    { w1 := flatCache s cache
      pageSize := s.pageSize
      indicies := fun e => (initExpertsMapping engine i e).toNat
      align := ⟨id, fun _ => x.topkIds 0, 16⟩
      order₁ := []
      order₃ := []
      cache₁ := fun _ => 0
      cache₃ := fun _ => 0 }
  { rank with
    order₁ := List.range (rank.firstCall x).grid
    order₃ := List.range (rank.secondCall x).grid }

theorem oneSlotRank_readsCache {engine : EngineConfig} {s : ExpertShape} {x : MoeInput ℝ} {i : ℕ}
    {cache : ℕ → ℕ → ℝ} (hnumel : x.numel = 1) (hexperts : x.numExperts = 2) :
    (oneSlotRank engine s x i cache).ReadsCache engine s x i cache := by
  have hle : 16 ≤ 1 + 2 * (16 - 1) := by decide
  have hone : 1 ≤ 16 := by decide
  have halign : (oneSlotRank engine s x i cache).align.Valid x.topkIds x.numel x.numExperts
      (moeConfig x.numel x.numExperts).blockSizeM := by
    rw [hnumel, hexperts]
    refine ⟨hle, dvd_rfl, fun o ho => ⟨o, ho.trans_le hone, rfl⟩, fun p _ hp => ?_⟩
    obtain rfl : p = 0 := Nat.lt_one_iff.mp hp
    rfl
  exact ⟨rfl, rfl, rfl, halign, List.Perm.refl _, List.Perm.refl _⟩

/-- What `init_gpu_experts` leaves on a rank. -/
noncomputable def smallCache (params : RankParams ℝ) : ℕ → ℕ → ℝ :=
  initGpuExperts .persistent (hostRows ⟨2, 2, 2⟩ params.moe.ws) fun _ _ => 0

/-- The ranks read the experts of a row from the cache that `init_gpu_experts` leaves. -/
noncomputable def smallMoeRanks (ranks : ℕ → RankParams ℝ) (r i : ℕ) (x : ℕ → ℝ) : MoeRank ℝ :=
  oneSlotRank .persistent ⟨2, 2, 2⟩ (smallMath.moeInput 2 ((ranks r).moe.gates i) x) i
    (smallCache (ranks r))

/-- Two ranks: each has two of four rows of the vocabulary, the last of which is padding. -/
theorem tensorParallel_generated_padded : ∃ (attn : MixtralAttention) (ranks : ℕ → RankParams ℝ),
    MixtralAttention.init exactDivide ⟨2, 2, 1, 2⟩ = some attn ∧
    ∀ k prompts d,
      (rankModel smallMath ⟨2, 2, 1, 2⟩ attn ranks (smallMoeRanks ranks)).generated k prompts d =
        (wholeModel smallMath ⟨2, 2, 1, 2⟩ attn.headDim smallModel).generated k prompts d := by
  have hattn : MixtralAttention.init exactDivide ⟨2, 2, 1, 2⟩ =
      some ⟨1, 1, 1, 1, 1, ⟨1, 1, 2, 3⟩⟩ := rfl
  have hmath : smallMath.ReadsRows ⟨2, 2, 1, 2⟩ 1 := by
    have hnorm : ∀ {x y : ℕ → ℝ}, AgreeBelow 2 x y → AgreeBelow 2
        (fun d => x d / Real.sqrt (∑ e ∈ Finset.range 2, x e * x e + 1))
        (fun d => y d / Real.sqrt (∑ e ∈ Finset.range 2, y e * y e + 1)) := by
      intro x y hxy d hd
      have hsum : ∑ e ∈ Finset.range 2, x e * x e = ∑ e ∈ Finset.range 2, y e * y e :=
        Finset.sum_congr rfl fun e he => by rw [hxy e (Finset.mem_range.mp he)]
      simp only [hsum, hxy d hd]
    refine ⟨fun _ => hnorm, fun _ => hnorm, hnorm, fun _ _ _ h => h, fun logits j _ => ?_⟩
    simp only [smallMath]
    split_ifs <;> decide
  have hfiles : (MixtralAttention.qkvLayer ⟨2, 2, 1, 2⟩ ⟨1, 1, 1, 1, 1, ⟨1, 1, 2, 3⟩⟩).Files
      smallWeights.toQkvWeights ([.v, .q, .k].map fun id =>
        (some id, QkvLayer.part ⟨1, 2, 1, ⟨1, 1, 2, 3⟩⟩ smallWeights.toQkvWeights id)) := by
    refine ⟨fun file hfile => ?_, fun id => Or.inr ?_⟩
    · obtain ⟨id, -, rfl⟩ := List.mem_map.mp hfile
      exact Or.inr ⟨id, rfl⟩
    · exact List.mem_map.mpr ⟨id, by cases id <;> decide, rfl⟩
  let start : ℕ → RankParams ℝ := fun r =>
    ⟨fun _ => ⟨3, 2, fun _ _ => 0⟩, fun _ => ⟨2, 1, fun _ _ => 0⟩,
      ⟨fun _ _ _ => 0, fun _ => ⟨2, 2, fun _ _ => 0⟩⟩, ⟨2, 2, fun t d => (r * 2 + t + d : ℕ)⟩⟩
  have hvocab : VocabShares smallMath ⟨2, 2, 1, 2⟩ smallModel 2 fun r => (start r).lmHead :=
    ⟨by decide, fun _ _ => rfl, fun _ _ => rfl, fun _ _ _ _ _ _ _ => rfl⟩
  obtain ⟨ranks, -, hgenerated⟩ := tensorParallel_generated (fun _ _ _ => rfl) hattn ⟨2, rfl⟩
    ⟨1, rfl⟩ hmath (w := smallModel) ⟨fun _ _ => rfl, fun _ _ => rfl⟩
    (fun _ _ _ _ => ⟨rfl, rfl, rfl, rfl⟩) hvocab (fun _ _ _ _ => hfiles)
    fun _ _ => (moeTensors 2 2).reverse_perm
  have hread : ReadExperts smallMath ⟨2, 2, 1, 2⟩ .persistent ranks (smallMoeRanks ranks) :=
    fun r _ i hi x => ⟨smallCache (ranks r), oneSlotRank_readsCache rfl rfl,
      (initGpuExperts_persistent _).layerResident EngineConfig.persistent_numExpertsGpu hi⟩
  exact ⟨_, ranks, hattn, hgenerated .persistent ⟨rfl, rfl⟩ _ hread⟩

end Example

end HarvestMoE
