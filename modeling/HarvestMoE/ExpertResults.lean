import HarvestMoE.CheckpointLoad
import HarvestMoE.FusedMoe
import HarvestMoE.Residency

/-!
# From the checkpoint to the results of the experts

The three stages of a weight follow each other: `load_weights` puts the share of a rank
into the host memory, the engine copies rows of it to the expert cache, and the kernel
reads pages of the cache where the mapping says. Every stage has its own units: pages of
an expert, rows of the intermediate size, and entries. The persistent experts are right
from the start, so a token that only they serve gets its result in every batch, whatever
the cold cache holds; the other tokens do when the blocks match.

## Main definitions

* `hostRows` — the memory of the layers, in the rows the engine copies.
* `flatCache` — the expert cache as the kernel sees it.
* `cachePages` — its pages under the mapping of the layers.
* `MoeRank.ReadsCache` — a rank computes a layer on the cache of the engine.
* `HasExperts` — the experts of a token are where the mapping says.
-/

namespace HarvestMoE

open Lib

section Layout

variable {R : Type*}

/-- `ws[layer_id].view(-1, intermediate_size)` -/
def hostRows (s : ExpertShape) (ws : ParamData R) (layerId row : ℕ) : ℕ → R := fun col =>
  ws layerId (row / (3 * s.hiddenSize)) (row % (3 * s.hiddenSize) * s.intermediateSize + col)

/-- `experts_cache.view(-1)` -/
def flatCache (s : ExpertShape) (cache : ℕ → ℕ → R) (p : ℕ) : R :=
  cache (p / s.intermediateSize) (p % s.intermediateSize)

variable {s : ExpertShape} {ws : ParamData R} {cache : ℕ → ℕ → R}

/-- The rows of an expert are its page. -/
theorem flatCache_page {layerId e slot : ℕ}
    (hrows : ∀ r, r < 3 * s.hiddenSize →
      cache (slot * (3 * s.hiddenSize) + r) = hostRows s ws layerId (e * (3 * s.hiddenSize) + r))
    {q : ℕ} (hq : q < s.pageSize) : flatCache s cache (slot * s.pageSize + q) = ws layerId e q := by
  have hpage : s.pageSize = 3 * s.hiddenSize * s.intermediateSize := by
    rw [ExpertShape.pageSize]
    ring
  have hI : 0 < s.intermediateSize := Nat.pos_of_ne_zero fun h0 => by simp [hpage, h0] at hq
  have hcol : q % s.intermediateSize < s.intermediateSize := Nat.mod_lt _ hI
  have hrow : q / s.intermediateSize < 3 * s.hiddenSize :=
    (Nat.div_lt_iff_lt_mul hI).mpr (hq.trans_eq hpage)
  have hsplit : slot * s.pageSize + q =
      (slot * (3 * s.hiddenSize) + q / s.intermediateSize) * s.intermediateSize +
        q % s.intermediateSize := by
    rw [Nat.add_mul, Nat.add_assoc, Nat.div_add_mod', hpage]
    ring
  rw [flatCache, hsplit, (mul_add_div_mod hcol).1, (mul_add_div_mod hcol).2, hrows _ hrow, hostRows,
    (mul_add_div_mod hrow).1, (mul_add_div_mod hrow).2, Nat.div_add_mod']

end Layout

section Resident

variable {α : Type*} {cfg : EngineConfig} {mem : ℕ → ℕ → α} {numMb turn : ℕ}

/-- A persistent expert is in the rows it is mapped to. -/
theorem Persistent.expert {cache : ℕ → α} (h : Persistent cfg mem cache) {i e : ℕ}
    (hi : i < cfg.numHiddenLayers) (he : e < cfg.numExpertsGpu) {r : ℕ} (hr : r < cfg.expertRows) :
    cache ((initExpertsMapping cfg i e).toNat * cfg.expertRows + r) =
      mem i (e * cfg.expertRows + r) := by
  have hq : e * cfg.expertRows + r < cfg.numExpertsGpu * cfg.expertRows := by
    have := Nat.mul_le_mul_right cfg.expertRows he
    rw [Nat.succ_mul] at this
    omega
  rw [initExpertsMapping_gpu he, Int.toNat_natCast, Nat.add_mul, Nat.add_assoc]
  exact h i hi _ hq

/-- A call that computes the experts of a layer. -/
def Call.computes (layerId : ℕ) : Call → Prop
  | .layer i _ _ => i = layerId
  | .postAttention i _ _ => i = layerId
  | _ => False

/-- Where the blocks match, what the page of a layer holds is what the layer needs. -/
theorem BlocksMatch.layerResident {s : WeightState α} (hmatch : BlocksMatch cfg numMb mem s)
    {u : WeightState α} {c : Call} (hc : c ∈ batchForwardStep cfg numMb)
    (hpage : PageContents cfg numMb mem s.expertsCacheCold s.weightsPrefetchPageGpu
      (fun q => s.expertsCache (cfg.pageBase 0 + q)) u c)
    {i : ℕ} (hcomputes : c.computes i) : LayerResident cfg mem u.expertsCache i := by
  cases c with
  | layer i' j k =>
      obtain rfl : i' = i := hcomputes
      obtain ⟨hi, hpers, hholds⟩ := hpage
      exact (layerResident_iff hpers hi).mpr (hholds.congr fun q hq => (hmatch _ hi q hq).1)
  | postAttention i' j k =>
      obtain rfl : i' = i := hcomputes
      obtain ⟨hi, hpers, hmixed, -⟩ := hpage
      have hsteps := numDecodeSteps_pos_of_mem hc
      have htwo := cfg.two_le_layers
      refine (layerResident_iff hpers hi).mpr fun q hq => ?_
      -- The second layer needs both blocks, so a mixed page is no different from either.
      have hone := hmatch 1 (by omega) q hq
      have heq : prefillBlock cfg s.expertsCacheCold q = decodeBlock cfg s.expertsCacheCold q := by
        rw [hone.2 hsteps, ← hone.1]
        simp [prefillSees]
      rcases hmixed q hq with h | h
      · rw [h, heq]
        exact (hmatch _ hi q hq).2 hsteps
      · rw [h]
        exact (hmatch _ hi q hq).2 hsteps
  | _ => exact hcomputes.elim

/-- A batch reaches each of its calls. When one computes a layer, the persistent experts
of the layer are in place, and all experts are if the blocks match. -/
theorem BetweenBatches.reaches {cold : ℕ → α} {s : WeightState α}
    (hs : BetweenBatches cfg mem cold s) (hn : 0 < numMb) {done rest : List Call} {c : Call}
    (hcalls : batchForwardStep cfg numMb = done ++ c :: rest) {i : ℕ} (hc : c.computes i) :
    ∃ u, exec (weightStep cfg numMb) s.newBatch done = some u ∧ i < cfg.numHiddenLayers ∧
      Persistent cfg mem u.expertsCache ∧
      (BlocksMatch cfg numMb mem s → LayerResident cfg mem u.expertsCache i) := by
  obtain ⟨hpers, rfl, hcpu, ht⟩ := hs.inv
  let start := fun q => s.expertsCache (cfg.pageBase 0 + q)
  have hstart : BatchStart cfg mem s.expertsCacheCold s.weightsPrefetchPageGpu start s.newBatch :=
    ⟨⟨hpers, rfl, hcpu, ht⟩, rfl, fun _ _ => rfl⟩
  obtain ⟨hpages, t, hrun, -⟩ := batch_runs ht hn _ hstart
  rw [hcalls, exec_append] at hrun
  obtain ⟨u, hu, -⟩ := Option.bind_eq_some_iff.mp hrun
  have hmem : c ∈ batchForwardStep cfg numMb := by
    rw [hcalls]
    exact List.mem_append_right _ List.mem_cons_self
  rw [hcalls] at hpages
  have hpage := hpages.at hu
  have hlayer : i < cfg.numHiddenLayers ∧ Persistent cfg mem u.expertsCache := by
    cases c with
    | layer i' j k =>
        obtain rfl : i' = i := hc
        exact ⟨hpage.1, hpage.2.1⟩
    | postAttention i' j k =>
        obtain rfl : i' = i := hc
        exact ⟨hpage.1, hpage.2.1⟩
    | _ => exact hc.elim
  exact ⟨u, hu, hlayer.1, hlayer.2, fun hmatch => hmatch.layerResident hmem hpage hc⟩

end Resident

section Pages

variable {R : Type*} {cfg : EngineConfig} {s : ExpertShape} {i : ℕ} {w : MoeWeights R}

/-- What the rows of the cache are as pages, under the mapping of the layers. -/
def cachePages (cfg : EngineConfig) (s : ExpertShape) (cache : ℕ → ℕ → R) : ParamData R :=
  fun i e q => flatCache s cache ((initExpertsMapping cfg i e).toNat * s.pageSize + q)

/-- A share that is in the host memory and resident is in the pages of the cache. -/
theorem Loaded.inCache {tpRank e : ℕ} {part : ExpertPart} {ws : ParamData R} {cache : ℕ → ℕ → R}
    (h : Loaded w s tpRank (part, i, e) ws) (hcfg : cfg.hiddenSize = s.hiddenSize)
    (hresident : ∀ r, r < cfg.expertRows →
      cache ((initExpertsMapping cfg i e).toNat * cfg.expertRows + r) =
        hostRows s ws i (e * cfg.expertRows + r)) :
    Loaded w s tpRank (part, i, e) (cachePages cfg s cache) := by
  intro p hp
  have hpage := s.pageSize_eq
  have htwo := s.partStart_w2
  have hq : s.partStart part + p < s.pageSize := by
    cases part <;> simp only [ExpertShape.partStart] at htwo ⊢ <;> omega
  rw [EngineConfig.expertRows, hcfg] at hresident
  exact (flatCache_page hresident hq).trans (h p hp)

/-- The tensors of the model, in any order, bring the gates and every share of the rank. -/
theorem loadWeights_loaded {L E tpRank : ℕ} (w : MoeWeights R) (gate₀ : ℕ → Matrix2 R)
    (hrank : tpRank < s.tpSize) (params : MoeParams R) {tensors : List MoeTensor}
    (horder : tensors.Perm (moeTensors L E)) :
    ∃ params', loadWeights L E s tpRank params
        (tensors.map fun t => (t.name, t.matrix w gate₀ s)) = some params' ∧
      (∀ l < L, params'.gates l = gate₀ l) ∧
      ∀ l < L, ∀ e < E, ∀ part, Loaded w s tpRank (part, l, e) params'.ws := by
  have hmem : ∀ {t}, t ∈ tensors ↔ t.InModel L E := horder.mem_iff.trans mem_moeTensors
  have hwrites := writes_perm s horder
  obtain ⟨params', hrun, harrived, -⟩ := loadWeights_arrived w gate₀ hrank params
    (fun t ht => hmem.mp ht)
    fun t ht entry hentry => hwrites.mem_iff.mp (List.mem_flatMap.mpr ⟨t, ht, hentry⟩)
  exact ⟨params', hrun, fun l hl => harrived (.gate l) (hmem.mpr hl),
    fun l hl e he part => harrived (.expert part l e) (hmem.mpr ⟨hl, he⟩)⟩

end Pages

section Results

variable {R : Type*} [Field R]

/-- A rank computes layer `i` on the cache of its engine: `ws.gpu_cache` is the cache, and
the indices are the mapping of the layer. -/
structure MoeRank.ReadsCache (cfg : EngineConfig) (s : ExpertShape) (x : MoeInput R) (i : ℕ)
    (cache : ℕ → ℕ → R) (rank : MoeRank R) : Prop where
  w1 : rank.w1 = flatCache s cache
  pageSize : rank.pageSize = s.pageSize
  indicies : rank.indicies = fun e => (initExpertsMapping cfg i e).toNat
  align : rank.align.Valid x.topkIds x.numel x.numExperts
    (moeConfig x.numel x.numExperts).blockSizeM
  order₁ : rank.order₁.Perm (List.range (rank.firstCall x).grid)
  order₃ : rank.order₃.Perm (List.range (rank.secondCall x).grid)

/-- Only persistent experts serve the token, or the blocks of every rank match. -/
def HasExperts (cfg : EngineConfig) (numMb tpSize : ℕ) (x : MoeInput R)
    (mem : ℕ → ℕ → ℕ → ℕ → R) (states : ℕ → WeightState (ℕ → R)) (t : ℕ) : Prop :=
  (∀ j < x.topk, x.topkIds (t * x.topk + j) < cfg.numExpertsGpu) ∨
    ∀ r < tpSize, BlocksMatch cfg numMb (mem r) (states r)

variable {cfg : EngineConfig} {s : ExpertShape} {x : MoeInput R} {i : ℕ}

omit [Field R] in
theorem MoeInput.slot_lt {t j : ℕ} (ht : t < x.numTokens) (hj : j < x.topk) :
    t * x.topk + j < x.numel := by
  calc t * x.topk + j < (t + 1) * x.topk := by rw [Nat.succ_mul]; omega
    _ ≤ x.numTokens * x.topk := Nat.mul_le_mul_right _ ht

theorem MoeRank.ReadsCache.ready {cache : ℕ → ℕ → R} {rank : MoeRank R}
    (h : rank.ReadsCache cfg s x i cache) : rank.Ready x s (cachePages cfg s cache) i where
  pageSize := h.pageSize
  page := fun o _ q _ => by rw [h.w1, h.indicies, cachePages]
  align := h.align
  order₁ := h.order₁
  order₃ := h.order₃

/-- On caches with the shares of the experts of a token, the results of the ranks for the
token add up. -/
theorem sum_stackFusedMoe_inCache {w : MoeWeights R} (hdvd : s.tpSize ∣ s.fullIntermediate)
    (hH : 0 < s.hiddenSize) (hx : x.hiddenSize = s.hiddenSize) {ranks : ℕ → MoeRank R}
    {cache : ℕ → ℕ → ℕ → R} (hranks : ∀ r < s.tpSize, (ranks r).ReadsCache cfg s x i (cache r))
    {t : ℕ} (ht : t < x.numTokens)
    (hpages : ∀ r < s.tpSize, ∀ j < x.topk, ∀ part,
      Loaded w s r (part, i, x.topkIds (t * x.topk + j)) (cachePages cfg s (cache r)))
    {h : ℕ} (hh : h < s.hiddenSize) :
    ∑ r ∈ Finset.range s.tpSize, stackFusedMoe x (ranks r) t h =
      ∑ j ∈ Finset.range x.topk,
        w.expertOutput s x.act i (x.topkIds (t * x.topk + j)) (x.row t) h *
          x.weight (t * x.topk + j) := by
  simp only [stackFusedMoe, hx]
  rw [Finset.sum_comm]
  refine Finset.sum_congr rfl fun j hj => ?_
  have hj := Finset.mem_range.mp hj
  rw [sum_intermediateCache3 hdvd hH hx (MoeInput.slot_lt ht hj) (fun r hr => hpages r hr j hj)
    (fun r hr => (hranks r hr).ready) hh, (mul_add_div_mod hj).1]

/-- **The experts of a batch compute with the weights of the checkpoint.** The tensors come
in any order, on every rank in its own, and the host memory they leave is what the engine
copies from. From every state that batches leave, every call of a batch that computes the
experts of a layer is reached, and there the results of the ranks for a token add up to
the experts without ranks, if the token has its experts. -/
theorem expertResults_exact (hH : 0 < s.hiddenSize) (hcfg : cfg.hiddenSize = s.hiddenSize)
    (hdvd : s.tpSize ∣ s.fullIntermediate) (w : MoeWeights R) (gate₀ : ℕ → Matrix2 R)
    (empty : ℕ → MoeParams R) {tensors : ℕ → List MoeTensor}
    (horder : ∀ r < s.tpSize,
      (tensors r).Perm (moeTensors cfg.numHiddenLayers cfg.numLocalExperts)) :
    ∃ params : ℕ → MoeParams R,
      (∀ r < s.tpSize, loadWeights cfg.numHiddenLayers cfg.numLocalExperts s r (empty r)
        ((tensors r).map fun t => (t.name, t.matrix w gate₀ s)) = some (params r)) ∧
      ∀ (cold : ℕ → ℕ → ℕ → R) (states : ℕ → WeightState (ℕ → R)) (numMb : ℕ), 0 < numMb →
      (∀ r < s.tpSize, BetweenBatches cfg (hostRows s (params r).ws) (cold r) (states r)) →
      ∀ (done rest : List Call) (c : Call), batchForwardStep cfg numMb = done ++ c :: rest →
      ∀ i, c.computes i →
      ∃ now : ℕ → WeightState (ℕ → R),
        (∀ r < s.tpSize, exec (weightStep cfg numMb) (states r).newBatch done = some (now r)) ∧
        ∀ x : MoeInput R, x.hiddenSize = s.hiddenSize →
        (∀ o < x.numel, x.topkIds o < cfg.numLocalExperts) →
        ∀ ranks : ℕ → MoeRank R,
        (∀ r < s.tpSize, (ranks r).ReadsCache cfg s x i (now r).expertsCache) →
        ∀ t < x.numTokens,
        HasExperts cfg numMb s.tpSize x (fun r => hostRows s (params r).ws) states t →
        ∀ h < s.hiddenSize,
          ∑ r ∈ Finset.range s.tpSize, stackFusedMoe x (ranks r) t h =
            ∑ j ∈ Finset.range x.topk,
              w.expertOutput s x.act i (x.topkIds (t * x.topk + j)) (x.row t) h *
                x.weight (t * x.topk + j) := by
  have hload : ∀ r, ∃ p : MoeParams R, r < s.tpSize →
      loadWeights cfg.numHiddenLayers cfg.numLocalExperts s r (empty r)
        ((tensors r).map fun t => (t.name, t.matrix w gate₀ s)) = some p ∧
      ∀ l < cfg.numHiddenLayers, ∀ e < cfg.numLocalExperts, ∀ part,
        Loaded w s r (part, l, e) p.ws := by
    intro r
    by_cases hr : r < s.tpSize
    · obtain ⟨p, hrun, -, hloaded⟩ := loadWeights_loaded w gate₀ hr (empty r) (horder r hr)
      exact ⟨p, fun _ => ⟨hrun, hloaded⟩⟩
    · exact ⟨empty r, fun h => absurd h hr⟩
  choose params hparams using hload
  refine ⟨params, fun r hr => (hparams r hr).1, ?_⟩
  intro cold states numMb hn hstates done rest c hcalls i hc
  -- Every rank reaches the call, with its persistent experts in place.
  have hreach : ∀ r, ∃ u : WeightState (ℕ → R), r < s.tpSize →
      exec (weightStep cfg numMb) (states r).newBatch done = some u ∧ i < cfg.numHiddenLayers ∧
      Persistent cfg (hostRows s (params r).ws) u.expertsCache ∧
      (BlocksMatch cfg numMb (hostRows s (params r).ws) (states r) →
        LayerResident cfg (hostRows s (params r).ws) u.expertsCache i) := by
    intro r
    by_cases hr : r < s.tpSize
    · obtain ⟨u, hu⟩ := (hstates r hr).reaches hn hcalls hc
      exact ⟨u, fun _ => hu⟩
    · exact ⟨states r, fun h => absurd h hr⟩
  choose now hnow using hreach
  refine ⟨now, fun r hr => (hnow r hr).1, ?_⟩
  intro x hx hids ranks hranks t ht hexperts h hh
  refine sum_stackFusedMoe_inCache hdvd hH hx hranks ht (fun r hr j hj part => ?_) hh
  obtain ⟨-, hi, hpers, hmatch⟩ := hnow r hr
  have he := hids _ (MoeInput.slot_lt ht hj)
  refine ((hparams r hr).2 i hi _ he part).inCache hcfg fun row hrow => ?_
  rcases hexperts with hgpu | hblocks
  · exact hpers.expert hi (hgpu j hj) hrow
  · exact hmatch (hblocks r hr) _ he _ hrow

/-- One token of the persistent expert, with two experts in the layer. -/
noncomputable def persistentToken : MoeInput ℝ := { oneToken with numExperts := 2 }

/-- A rank on the cache of its engine, in the second layer. -/
noncomputable def secondLayerRank (cache : ℕ → ℕ → ℝ) : MoeRank ℝ :=
  { twoRanks 0 with
    w1 := flatCache ⟨1, 2, 2⟩ cache
    indicies := fun e => (initExpertsMapping (EngineConfig.small 2 Nat.two_pos) 1 e).toNat
    order₁ := [0, 1]
    order₃ := [1, 0] }

/-- The last call of a first batch, on two ranks and an empty cold cache. -/
theorem expertResults_exact_lastCall :
    ∃ (params : ℕ → MoeParams ℝ) (now : ℕ → WeightState (ℕ → ℝ)),
      (∀ r < 2, exec (weightStep (EngineConfig.small 2 Nat.two_pos) 2)
        ⟨initGpuExperts (EngineConfig.small 2 Nat.two_pos) (hostRows ⟨1, 2, 2⟩ (params r).ws)
          fun _ _ => 0, fun _ _ => 0, fun _ _ => 0, 0, 0, fun _ => none⟩
        (batchForwardStep (EngineConfig.small 2 Nat.two_pos) 2).dropLast = some (now r)) ∧
      ∑ r ∈ Finset.range 2,
          stackFusedMoe persistentToken (secondLayerRank (now r).expertsCache) 0 0 =
        ∑ j ∈ Finset.range 1,
          twoColumns.expertOutput ⟨1, 2, 2⟩ persistentToken.act 1 0 (persistentToken.row 0) 0 *
            persistentToken.weight j := by
  let cfg := EngineConfig.small 2 Nat.two_pos
  have hG : cfg.numExpertsGpu = 1 := EngineConfig.small_numExpertsGpu _
  have hcfg : cfg.hiddenSize = (ExpertShape.mk 1 2 2).hiddenSize := rfl
  obtain ⟨params, -, hbatch⟩ := expertResults_exact Nat.one_pos hcfg ⟨1, rfl⟩ twoColumns
    (fun _ => ⟨2, 1, fun _ _ => 0⟩) (fun _ => ⟨fun _ _ _ => 0, fun _ => ⟨2, 1, fun _ _ => 0⟩⟩)
    fun _ _ => (moeTensors 2 2).reverse_perm
  have hcalls : batchForwardStep cfg 2 =
      (batchForwardStep cfg 2).dropLast ++ .postAttention 1 0 1 :: [] := by
    decide +kernel
  obtain ⟨now, hnow, hresults⟩ := hbatch (fun _ _ _ => 0)
    (fun r => ⟨initGpuExperts cfg (hostRows ⟨1, 2, 2⟩ (params r).ws) fun _ _ => 0, fun _ _ => 0,
      fun _ _ => 0, 0, 0, fun _ => none⟩) 2 Nat.two_pos (fun _ _ => .init _ _) _ _ _ hcalls 1 rfl
  have hgrid : ∀ cache, ((secondLayerRank cache).firstCall persistentToken).grid = 2 ∧
      ((secondLayerRank cache).secondCall persistentToken).grid = 2 := by
    intro cache
    simp [FusedMoeKernel.grid, FusedMoeKernel.numPidM, FusedMoeKernel.numPidN, MoeRank.firstCall,
      MoeRank.secondCall, MoeRank.n, moeConfig, MoeInput.numel, persistentToken, oneToken,
      secondLayerRank, twoRanks, Nat.ceilDiv_eq_add_pred_div]
  have hranks : ∀ cache,
      (secondLayerRank cache).ReadsCache cfg ⟨1, 2, 2⟩ persistentToken 1 cache := by
    intro cache
    have hle : 16 ≤ 1 + 2 * (16 - 1) := by decide
    have halign : (secondLayerRank cache).align.Valid persistentToken.topkIds 1 2 16 := by
      refine ⟨hle, dvd_rfl, fun o ho => ⟨0, Nat.succ_pos 15, ?_⟩, fun _ _ _ => rfl⟩
      exact (Nat.lt_one_iff.mp ho).symm
    exact ⟨rfl, rfl, rfl, halign, by rw [(hgrid cache).1]; exact List.Perm.refl _,
      by rw [(hgrid cache).2]; exact List.Perm.swap _ _ _⟩
  refine ⟨params, now, hnow, (hresults persistentToken rfl (fun _ _ => Nat.two_pos) _
    (fun _ _ => hranks _) 0 Nat.one_pos (Or.inl fun _ _ => ?_) 0 Nat.one_pos).trans ?_⟩
  · rw [hG]
    exact Nat.one_pos
  · refine Finset.sum_congr rfl fun j _ => ?_
    have hslot : 0 * persistentToken.topk + j = j := by rw [Nat.zero_mul, Nat.zero_add]
    rw [hslot]
    rfl

end Results

end HarvestMoE
