import HarvestMoE.Lib.Attention
import HarvestMoE.ParallelLinear
import Mathlib.Analysis.Complex.Exponential

/-!
# Attention on the ranks

Every rank has a part of the query heads and the keys and values these need, projects its part,
attends, and multiplies with its share of the output projection; the results are added up over
the ranks. This is attention with the whole matrices of the checkpoint
(`tensorParallel_attention`), whether the heads of the keys and values are partitioned among the
ranks or replicated.

## Main definitions

* `AttentionMath` — the functions that the model calls, and `clip_qkv`.
* `QkvHeads`, `attnOutput` — queries, keys and values by token and head, and attention to them.
* `MixtralAttention.forward` — what a rank computes.
* `AttnWeights.attention` — attention with the whole matrices.
-/

namespace HarvestMoE

open Lib

variable {K : Type*} [Field K] [LinearOrder K]

section Model

/-- The functions that the attention calls. -/
structure AttentionMath (K : Type*) where
  exp : K → K
  scaling : K
  /-- The rotary embedding of a head at a position. -/
  rotaryEmb : ℕ → (ℕ → K) → ℕ → K
  clipQkv : Option K

/-- `clamp_(-clip_qkv, clip_qkv)`, if there is one. -/
def AttentionMath.clip (a : AttentionMath K) (x : K) : K :=
  match a.clipQkv with
  | none => x
  | some c => min (max x (-c)) c

/-- The embedding of a head reads the entries of the head. -/
def AttentionMath.RotatesHeads (a : AttentionMath K) (headDim : ℕ) : Prop :=
  ∀ position x y, (∀ e < headDim, x e = y e) →
    ∀ e < headDim, a.rotaryEmb position x e = a.rotaryEmb position y e

/-- Queries, keys and values, by token, head and entry. -/
structure QkvHeads (K : Type*) where
  q : ℕ → ℕ → ℕ → K
  k : ℕ → ℕ → ℕ → K
  v : ℕ → ℕ → ℕ → K

/-- The row of the attention of a token to the tokens up to it. -/
def attnOutput (a : AttentionMath K) (numHeads numKvHeads headDim : ℕ) (x : QkvHeads K) (t : ℕ) :
    ℕ → K := fun p =>
  gqaAttention a.exp a.scaling headDim (numHeads / numKvHeads) (x.q t) (fun u => ⟨x.k u, x.v u⟩)
    (t + 1) (p / headDim) (p % headDim)

/-- The heads of the rows `lin` of the parts, with the rotary embedding. -/
def AttentionMath.heads (a : AttentionMath K) (headDim : ℕ) (positions : ℕ → ℕ)
    (lin : ShardId → ℕ → ℕ → K) : QkvHeads K where
  q t h := a.rotaryEmb (positions t) fun e => lin .q t (h * headDim + e)
  k t j := a.rotaryEmb (positions t) fun e => lin .k t (j * headDim + e)
  v t j e := lin .v t (j * headDim + e)

namespace MixtralAttention

variable (attn : MixtralAttention) (a : AttentionMath K) (qkvProj oProj : Matrix2 K)
  (positions : ℕ → ℕ) (hiddenStates : ℕ → ℕ → K)

/-- Where `split` finds a part in the row of a token. -/
def splitStart : ShardId → ℕ
  | .q => 0
  | .k => attn.qSize
  | .v => attn.qSize + attn.kvSize

/-- The projection of the tokens, clipped and split. -/
def project (id : ShardId) (t p : ℕ) : K :=
  a.clip (linear qkvProj (hiddenStates t) (attn.splitStart id + p))

/-- `forward` of a rank, before the results of the ranks are added. -/
def forward (t : ℕ) : ℕ → K :=
  linear oProj (attnOutput a attn.numHeads attn.numKvHeads attn.headDim
    (a.heads attn.headDim positions (attn.project a qkvProj hiddenStates)) t)

end MixtralAttention

/-- The matrices of the attention in the checkpoint. -/
structure AttnWeights (K : Type*) extends QkvWeights K where
  oWeight : ℕ → ℕ → K

/-- The projection with the whole matrices. -/
def AttnWeights.project (w : AttnWeights K) (a : AttentionMath K) (hiddenStates : ℕ → ℕ → K)
    (id : ShardId) (t p : ℕ) : K :=
  a.clip (∑ j ∈ Finset.range w.inputSize, hiddenStates t j * w.weight id p j)

/-- Attention with the whole matrices. -/
def AttnWeights.attention (w : AttnWeights K) (a : AttentionMath K) (cfg : HeadConfig)
    (headDim : ℕ) (positions : ℕ → ℕ) (hiddenStates : ℕ → ℕ → K) (t i : ℕ) : K :=
  ∑ p ∈ Finset.range (cfg.numAttentionHeads * headDim),
    attnOutput a cfg.numAttentionHeads cfg.numKeyValueHeads headDim
      (a.heads headDim positions (w.project a hiddenStates)) t p * w.oWeight i p

end Model

section Heads

variable {cfg : HeadConfig}

/-- How many ranks have the same keys and values. -/
def HeadConfig.kvReplicas (cfg : HeadConfig) : ℕ :=
  if cfg.tpSize ≥ cfg.numKeyValueHeads then cfg.tpSize / cfg.numKeyValueHeads else 1

/-- The keys and values are replicated, or partitioned. -/
theorem HeadConfig.Accepted.replicated_or_partitioned (h : cfg.Accepted) :
    (cfg.kvHeads = 1 ∧ cfg.tpSize = cfg.numKeyValueHeads * cfg.kvReplicas) ∨
      (cfg.kvReplicas = 1 ∧ cfg.numKeyValueHeads = cfg.tpSize * cfg.kvHeads) := by
  have hkv := h.kvHeads
  split_ifs at hkv with hle
  · have hheads : cfg.numKeyValueHeads = cfg.tpSize * cfg.kvHeads := by
      rw [h.kvHeads_of_partitioned hle, Nat.mul_div_cancel' hkv]
    refine Or.inr ⟨?_, hheads⟩
    rw [HeadConfig.kvReplicas]
    split_ifs with hge
    · rw [le_antisymm hge hle, Nat.div_self (Nat.pos_of_ne_zero h.tpSize)]
    · rfl
  · refine Or.inl ⟨cfg.kvHeads_of_replicated hle, ?_⟩
    rw [HeadConfig.kvReplicas, if_pos (by omega), Nat.mul_div_cancel' hkv.2]

/-- The query heads of a rank read the heads of the keys and values that the rank has. -/
theorem HeadConfig.Accepted.kvHead_eq (h : cfg.Accepted)
    (hgroup : cfg.numKeyValueHeads ∣ cfg.numAttentionHeads) (r : ℕ) {j : ℕ}
    (hj : j < cfg.numAttentionHeads / cfg.tpSize) :
    j / (cfg.numAttentionHeads / cfg.tpSize / cfg.kvHeads) < cfg.kvHeads ∧
      (r * (cfg.numAttentionHeads / cfg.tpSize) + j) /
          (cfg.numAttentionHeads / cfg.numKeyValueHeads) =
        r / cfg.kvReplicas * cfg.kvHeads +
          j / (cfg.numAttentionHeads / cfg.tpSize / cfg.kvHeads) := by
  have htp := Nat.pos_of_ne_zero h.tpSize
  obtain ⟨n, hn⟩ := h.heads
  have hheads : cfg.numAttentionHeads / cfg.tpSize = n := by
    rw [hn, Nat.mul_div_cancel_left _ htp]
  have hnpos : 0 < n := Nat.pos_of_ne_zero fun h0 => h.heads_ne (by rw [hn, h0, Nat.mul_zero])
  rw [hheads] at hj ⊢
  rcases h.replicated_or_partitioned with ⟨hone, hreplicas⟩ | ⟨hone, hkv⟩
  · -- One head for every rank: all query heads of the rank read it.
    have hkvpos : 0 < cfg.numKeyValueHeads := Nat.pos_of_ne_zero fun h0 => by
      rw [h0, Nat.zero_mul] at hreplicas
      omega
    have hfull : cfg.numAttentionHeads / cfg.numKeyValueHeads = n * cfg.kvReplicas := by
      rw [hn, hreplicas, Nat.mul_assoc, Nat.mul_div_cancel_left _ hkvpos, Nat.mul_comm]
    rw [hone, hfull, Nat.div_one, Nat.div_eq_of_lt hj, ← Nat.div_div_eq_div_mul, Nat.mul_comm r n,
      Nat.mul_add_div hnpos, Nat.div_eq_of_lt hj]
    exact ⟨Nat.one_pos, by rw [Nat.add_zero, Nat.mul_one, Nat.add_zero]⟩
  · -- The heads are partitioned, and so are the groups.
    obtain ⟨g, hg⟩ := hgroup
    have hngm : n = cfg.kvHeads * g := by
      refine Nat.eq_of_mul_eq_mul_left htp ?_
      rw [← hn, hg, hkv, Nat.mul_assoc]
    have hmpos : 0 < cfg.kvHeads := Nat.pos_of_ne_zero fun h0 => by simp [hngm, h0] at hnpos
    have hgpos : 0 < g := Nat.pos_of_ne_zero fun h0 => by simp [hngm, h0] at hnpos
    have hlocal : n / cfg.kvHeads = g := by rw [hngm, Nat.mul_div_cancel_left _ hmpos]
    have hfull : cfg.numAttentionHeads / cfg.numKeyValueHeads = g := by
      rw [hg, Nat.mul_div_cancel_left _ (hkv ▸ Nat.mul_pos htp hmpos)]
    rw [hone, hlocal, hfull, Nat.div_one]
    refine ⟨(Nat.div_lt_iff_lt_mul hgpos).mpr (hngm ▸ hj), ?_⟩
    rw [hngm, ← Nat.mul_assoc, Nat.mul_comm (r * cfg.kvHeads) g, Nat.mul_add_div hgpos]

/-- The heads of the keys and values of a rank are heads of the model. -/
theorem HeadConfig.Accepted.kvHeads_le (h : cfg.Accepted) {r : ℕ} (hr : r < cfg.tpSize) :
    (r / cfg.kvReplicas + 1) * cfg.kvHeads ≤ cfg.numKeyValueHeads := by
  rcases h.replicated_or_partitioned with ⟨hone, hreplicas⟩ | ⟨hone, hkv⟩
  · rw [hone, Nat.mul_one]
    exact Nat.div_lt_of_lt_mul (by rwa [Nat.mul_comm, ← hreplicas])
  · rw [hone, Nat.div_one]
    exact (Nat.mul_le_mul_right _ hr).trans_eq hkv.symm

end Heads

section Ranks

variable {cfg : HeadConfig} {a : AttentionMath K} {headDim t i : ℕ} {positions : ℕ → ℕ}
  {full : ShardId → ℕ → ℕ → K}

/-- The first head of a part that a rank has. -/
def HeadConfig.firstHead (cfg : HeadConfig) (r : ℕ) : ShardId → ℕ
  | .q => r * (cfg.numAttentionHeads / cfg.tpSize)
  | _ => r / cfg.kvReplicas * cfg.kvHeads

/-- The heads of a part that a rank has. -/
def HeadConfig.headsOf (cfg : HeadConfig) : ShardId → ℕ
  | .q => cfg.numAttentionHeads / cfg.tpSize
  | _ => cfg.kvHeads

/-- The rows of a rank are a share of those of the whole projection. -/
def IsShare (cfg : HeadConfig) (headDim r : ℕ) (full share : ShardId → ℕ → ℕ → K) : Prop :=
  ∀ id t, ∀ p < cfg.headsOf id * headDim,
    share id t p = full id t (cfg.firstHead r id * headDim + p)

omit [Field K] [LinearOrder K] in
/-- The heads of a rank are heads of the whole projection. -/
theorem IsShare.entry {r : ℕ} {share : ShardId → ℕ → ℕ → K}
    (hshare : IsShare cfg headDim r full share) (id : ShardId) (t : ℕ) {j e : ℕ}
    (hj : j < cfg.headsOf id) (he : e < headDim) :
    share id t (j * headDim + e) = full id t ((cfg.firstHead r id + j) * headDim + e) := by
  have hlt : j * headDim + e < cfg.headsOf id * headDim := by
    have := Nat.mul_le_mul_right headDim hj
    rw [Nat.succ_mul] at this
    omega
  rw [hshare id t _ hlt, Nat.add_mul, Nat.add_assoc]

omit [LinearOrder K] in
/-- With its share of the heads, a rank computes its part of the row of attention. -/
theorem HeadConfig.Accepted.gqaAttention_eq (h : cfg.Accepted)
    (hgroup : cfg.numKeyValueHeads ∣ cfg.numAttentionHeads) {r len : ℕ} {q q' : ℕ → ℕ → K}
    {kv kv' : ℕ → KvRow K}
    (hq : ∀ j < cfg.headsOf .q, ∀ e < headDim, q j e = q' (cfg.firstHead r .q + j) e)
    (hkey : ∀ u < len, ∀ j < cfg.headsOf .k, ∀ e < headDim,
      (kv u).key j e = (kv' u).key (cfg.firstHead r .k + j) e)
    (hvalue : ∀ u < len, ∀ j < cfg.headsOf .v, ∀ e < headDim,
      (kv u).value j e = (kv' u).value (cfg.firstHead r .v + j) e) {p : ℕ}
    (hp : p < cfg.numAttentionHeads / cfg.tpSize * headDim) :
    gqaAttention a.exp a.scaling headDim (cfg.numAttentionHeads / cfg.tpSize / cfg.kvHeads) q kv len
        (p / headDim) (p % headDim) =
      gqaAttention a.exp a.scaling headDim (cfg.numAttentionHeads / cfg.numKeyValueHeads) q' kv' len
        ((r * (cfg.numAttentionHeads / cfg.tpSize * headDim) + p) / headDim)
        ((r * (cfg.numAttentionHeads / cfg.tpSize * headDim) + p) % headDim) := by
  have hdim : 0 < headDim := Nat.pos_of_ne_zero fun h0 => by simp [h0] at hp
  have hj : p / headDim < cfg.numAttentionHeads / cfg.tpSize := (Nat.div_lt_iff_lt_mul hdim).mpr hp
  have he : p % headDim < headDim := Nat.mod_lt p hdim
  obtain ⟨hkv, hhead⟩ := h.kvHead_eq hgroup r hj
  have hplace : r * (cfg.numAttentionHeads / cfg.tpSize * headDim) + p =
      headDim * (r * (cfg.numAttentionHeads / cfg.tpSize)) + p := by ring
  rw [hplace, Nat.mul_add_div hdim, Nat.mul_add_mod]
  refine gqaAttention_congr (fun e he => hq _ hj e he) (fun u hu e he => ?_) fun u hu => ?_
  · rw [hhead]
    exact hkey u hu _ hkv e he
  · rw [hhead]
    exact hvalue u hu _ hkv _ he

omit [LinearOrder K] in
/-- A rank computes the rows of attention of its own query heads. -/
theorem IsShare.attnOutput_eq (h : cfg.Accepted) (hrope : a.RotatesHeads headDim)
    (hgroup : cfg.numKeyValueHeads ∣ cfg.numAttentionHeads) {r : ℕ}
    {share : ShardId → ℕ → ℕ → K} (hshare : IsShare cfg headDim r full share) {p : ℕ}
    (hp : p < cfg.numAttentionHeads / cfg.tpSize * headDim) :
    attnOutput a (cfg.numAttentionHeads / cfg.tpSize) cfg.kvHeads headDim
        (a.heads headDim positions share) t p =
      attnOutput a cfg.numAttentionHeads cfg.numKeyValueHeads headDim
        (a.heads headDim positions full) t
        (r * (cfg.numAttentionHeads / cfg.tpSize * headDim) + p) := by
  refine h.gqaAttention_eq hgroup (fun j hj => ?_) (fun u _ j hj => ?_) (fun u _ j hj e he => ?_) hp
  · exact hrope _ _ _ fun e he => hshare.entry .q t hj he
  · exact hrope _ _ _ fun e he => hshare.entry .k u hj he
  · exact hshare.entry .v u hj he

omit [LinearOrder K] in
/-- The shares of the output projection, each on its part of a row, add up to the whole. -/
theorem HeadConfig.Accepted.sum_oProj (h : cfg.Accepted) {o : ℕ → Matrix2 K}
    {oWeight : ℕ → ℕ → K}
    (hcols : ∀ r < cfg.tpSize, (o r).cols = cfg.numAttentionHeads / cfg.tpSize * headDim)
    (ho : ∀ r < cfg.tpSize, ∀ p < (o r).cols, (o r).entry i p = oWeight i (r * (o r).cols + p))
    {y : ℕ → ℕ → K} {y' : ℕ → K}
    (hy : ∀ r < cfg.tpSize, ∀ p < cfg.numAttentionHeads / cfg.tpSize * headDim,
      y r p = y' (r * (cfg.numAttentionHeads / cfg.tpSize * headDim) + p)) :
    ∑ r ∈ Finset.range cfg.tpSize, linear (o r) (y r) i =
      ∑ p ∈ Finset.range (cfg.numAttentionHeads * headDim), y' p * oWeight i p := by
  have hheads : cfg.numAttentionHeads * headDim =
      cfg.tpSize * (cfg.numAttentionHeads / cfg.tpSize * headDim) := by
    rw [← Nat.mul_assoc, Nat.mul_div_cancel' h.heads]
  rw [hheads, sum_range_mul]
  refine Finset.sum_congr rfl fun r hr => ?_
  have hr := Finset.mem_range.mp hr
  rw [linear, hcols r hr]
  refine Finset.sum_congr rfl fun p hp => ?_
  have hp := Finset.mem_range.mp hp
  rw [ho r hr p (hcols r hr ▸ hp), hcols r hr, hy r hr p hp]

end Ranks

section Loaded

variable {divide : ℕ → ℕ → Option ℕ} {cfg : HeadConfig} {attn : MixtralAttention}
  {a : AttentionMath K} {w : AttnWeights K}

theorem QkvParallelLinear.replicas_of_init (hdivide : ChecksDivision divide) (h : cfg.Accepted)
    {headSize : ℕ} {proj : QkvParallelLinear} (hproj : QkvParallelLinear.init divide headSize
      cfg.numAttentionHeads cfg.numKeyValueHeads cfg.tpSize = some proj) :
    proj.numKvHeadReplicas = cfg.kvReplicas := by
  have hkv := h.kvHeads
  simp only [QkvParallelLinear.init, Option.bind_eq_bind, Option.bind_eq_some_iff] at hproj
  obtain ⟨_, _, hproj⟩ := hproj
  rw [HeadConfig.kvReplicas]
  split_ifs at hproj ⊢ with hge
  · obtain ⟨pair, hpair, hproj⟩ := Option.bind_eq_some_iff.mp hproj
    obtain ⟨_, _, hproj⟩ := Option.bind_eq_some_iff.mp hproj
    obtain rfl := Option.some.inj hproj
    obtain ⟨m, hm, rfl⟩ := Option.map_eq_some_iff.mp hpair
    have hne : cfg.numKeyValueHeads ≠ 0 := by
      have := h.tpSize
      split_ifs at hkv with hle
      · omega
      · exact hkv.1
    rw [hdivide _ _ hne] at hm
    split_ifs at hm
    exact (Option.some.inj hm).symm
  · obtain ⟨pair, hpair, hproj⟩ := Option.bind_eq_some_iff.mp hproj
    obtain ⟨_, _, hproj⟩ := Option.bind_eq_some_iff.mp hproj
    obtain rfl := Option.some.inj hproj
    obtain ⟨n, -, rfl⟩ := Option.map_eq_some_iff.mp hpair
    rfl

/-- The sizes of the layer that is built. -/
structure MixtralAttention.Sized (cfg : HeadConfig) (attn : MixtralAttention) : Prop where
  numHeads : attn.numHeads = cfg.numAttentionHeads / cfg.tpSize
  numKvHeads : attn.numKvHeads = cfg.kvHeads
  qSize : attn.qSize = cfg.numAttentionHeads / cfg.tpSize * attn.headDim
  kvSize : attn.kvSize = cfg.kvHeads * attn.headDim
  projHeads : attn.qkvProj.numHeads = cfg.numAttentionHeads / cfg.tpSize
  projKvHeads : attn.qkvProj.numKvHeads = cfg.kvHeads
  replicas : attn.qkvProj.numKvHeadReplicas = cfg.kvReplicas
  width : attn.qkvProj.outputSizePerPartition =
    (cfg.numAttentionHeads / cfg.tpSize + 2 * cfg.kvHeads) * attn.headDim

theorem MixtralAttention.sized_of_init (hdivide : ChecksDivision divide)
    (hattn : MixtralAttention.init divide cfg = some attn) : attn.Sized cfg := by
  have h := MixtralAttention.accepted_of_init hattn
  simp only [MixtralAttention.init, Option.bind_eq_bind, Option.bind_eq_some_iff] at hattn
  obtain ⟨_, _, _, _, headDim, _, proj, hproj, hattn⟩ := hattn
  obtain rfl := Option.some.inj hattn
  obtain ⟨replicas, hinit⟩ := QkvParallelLinear.init_eq hdivide h headDim
  have hreplicas := QkvParallelLinear.replicas_of_init hdivide h hproj
  obtain rfl := Option.some.inj (hinit.symm.trans hproj)
  exact ⟨rfl, rfl, rfl, rfl, rfl, rfl, hreplicas, rfl⟩

/-- The projection of the layer. -/
def MixtralAttention.qkvLayer (cfg : HeadConfig) (attn : MixtralAttention) : QkvLayer :=
  ⟨attn.headDim, cfg.numAttentionHeads, cfg.numKeyValueHeads, attn.qkvProj⟩

/-- The output projection in the checkpoint. -/
def AttnWeights.oPart (w : AttnWeights K) (cfg : HeadConfig) (headDim : ℕ) : Matrix2 K :=
  ⟨cfg.hiddenSize, cfg.numAttentionHeads * headDim, w.oWeight⟩

/-- The parameters of a rank have the shapes with which they are allocated. -/
structure MixtralAttention.Allocated (cfg : HeadConfig) (attn : MixtralAttention)
    (w : AttnWeights K) (qkv o : Matrix2 K) : Prop where
  qkvRows : qkv.rows = attn.qkvProj.outputSizePerPartition
  qkvCols : qkv.cols = w.inputSize
  oRows : o.rows = cfg.hiddenSize
  oCols : o.cols = cfg.numAttentionHeads * attn.headDim / cfg.tpSize

namespace MixtralAttention.Sized

variable (hs : attn.Sized cfg)

include hs

theorem shardPlace_eq (id : ShardId) : (attn.qkvLayer cfg).shardPlace id =
    (attn.splitStart id, cfg.headsOf id * attn.headDim) := by
  cases id <;>
    simp only [QkvLayer.shardPlace, MixtralAttention.qkvLayer, MixtralAttention.splitStart,
      HeadConfig.headsOf, hs.qSize, hs.kvSize, hs.projHeads, hs.projKvHeads, Nat.add_mul]

theorem shardIndex_eq (r : ℕ) (id : ShardId) :
    (attn.qkvLayer cfg).shardIndex r id * (cfg.headsOf id * attn.headDim) =
      cfg.firstHead r id * attn.headDim := by
  cases id <;>
    simp only [QkvLayer.shardIndex, MixtralAttention.qkvLayer, HeadConfig.headsOf,
      HeadConfig.firstHead, hs.replicas, Nat.mul_assoc]

/-- The shares of the ranks are inside the checkpoint. -/
theorem inRange (h : cfg.Accepted) {r : ℕ} (hr : r < cfg.tpSize) :
    (attn.qkvLayer cfg).InRange r := by
  have hq : (r + 1) * (cfg.numAttentionHeads / cfg.tpSize) ≤ cfg.numAttentionHeads :=
    calc (r + 1) * (cfg.numAttentionHeads / cfg.tpSize)
        ≤ cfg.tpSize * (cfg.numAttentionHeads / cfg.tpSize) := Nat.mul_le_mul_right _ hr
      _ = cfg.numAttentionHeads := Nat.mul_div_cancel' h.heads
  have hkv := h.kvHeads_le hr
  intro id
  rw [hs.shardPlace_eq, Nat.succ_mul, hs.shardIndex_eq, ← Nat.add_mul]
  cases id with
  | q =>
      rw [Nat.succ_mul] at hq
      exact Nat.mul_le_mul_right attn.headDim hq
  | k | v =>
      rw [Nat.succ_mul] at hkv
      exact Nat.mul_le_mul_right attn.headDim hkv

/-- What a rank projects is its share. -/
theorem isShare {r : ℕ} {qkv : Matrix2 K} (hcols : qkv.cols = w.inputSize)
    (hholds : ∀ id, (attn.qkvLayer cfg).HoldsShard w.toQkvWeights r qkv id)
    (hiddenStates : ℕ → ℕ → K) :
    IsShare cfg attn.headDim r (w.project a hiddenStates) (attn.project a qkv hiddenStates) := by
  intro id t p hp
  have hrow := hholds id p (by rwa [hs.shardPlace_eq])
  rw [hs.shardPlace_eq, hs.shardIndex_eq] at hrow
  rw [MixtralAttention.project, AttnWeights.project, linear, hcols]
  congr 1
  exact Finset.sum_congr rfl fun j _ => by rw [hrow]

omit [Field K] [LinearOrder K] in
/-- The loaders fill the parameters of a rank. -/
theorem exists_loaded (h : cfg.Accepted) {r : ℕ} (hr : r < cfg.tpSize) {qkv₀ o₀ : Matrix2 K}
    (halloc : attn.Allocated cfg w qkv₀ o₀) {files : List (Option ShardId × Matrix2 K)}
    (hfiles : (attn.qkvLayer cfg).Files w.toQkvWeights files) :
    ∃ qkv o, (attn.qkvLayer cfg).load r qkv₀ files = some qkv ∧
      rowWeightLoader r o₀ (w.oPart cfg attn.headDim) = some o ∧ qkv.cols = w.inputSize ∧
      (∀ id, (attn.qkvLayer cfg).HoldsShard w.toQkvWeights r qkv id) ∧
      o.cols = cfg.numAttentionHeads / cfg.tpSize * attn.headDim ∧
      ∀ i < cfg.hiddenSize, ∀ p, o.entry i p = w.oWeight i (r * o.cols + p) := by
  have hwidth : cfg.numAttentionHeads * attn.headDim / cfg.tpSize =
      cfg.numAttentionHeads / cfg.tpSize * attn.headDim := by
    rw [Nat.mul_comm, Nat.mul_div_assoc _ h.heads, Nat.mul_comm]
  have hshaped : (attn.qkvLayer cfg).Shaped w.toQkvWeights qkv₀ := by
    refine ⟨?_, halloc.qkvCols⟩
    rw [halloc.qkvRows, hs.width, MixtralAttention.qkvLayer, hs.projHeads, hs.projKvHeads]
  obtain ⟨qkv, hqkv, hshaped', hholds⟩ := QkvLayer.load_holds hshaped (hs.inRange h hr) hfiles
  have hcols : (r + 1) * o₀.cols ≤ (w.oPart cfg attn.headDim).cols := by
    rw [halloc.oCols]
    exact (Nat.mul_le_mul_right _ hr).trans (Nat.mul_div_le _ _)
  obtain ⟨o, ho, -, hocols, hentry⟩ := rowWeightLoader_holds
    (show (w.oPart cfg attn.headDim).rows = o₀.rows from halloc.oRows.symm) hcols
  refine ⟨qkv, o, hqkv, ho, hshaped'.2, hholds, ?_, fun i hi p => ?_⟩
  · rw [hocols, halloc.oCols, hwidth]
  · rw [hocols]
    exact hentry i (halloc.oRows ▸ hi) p

end MixtralAttention.Sized

/-- Attention on the ranks. The parameters are filled from the checkpoint, whose files come to
every rank in an order of its own, in parts or packed; then the results of the ranks add up to
attention with the whole matrices. -/
theorem tensorParallel_attention (hdivide : ChecksDivision divide)
    (hattn : MixtralAttention.init divide cfg = some attn)
    (hgroup : cfg.numKeyValueHeads ∣ cfg.numAttentionHeads)
    (hrope : a.RotatesHeads attn.headDim) (w : AttnWeights K) {qkv₀ o₀ : ℕ → Matrix2 K}
    (halloc : ∀ r < cfg.tpSize, attn.Allocated cfg w (qkv₀ r) (o₀ r))
    {files : ℕ → List (Option ShardId × Matrix2 K)}
    (hfiles : ∀ r < cfg.tpSize, (attn.qkvLayer cfg).Files w.toQkvWeights (files r)) :
    ∃ qkv o : ℕ → Matrix2 K,
      (∀ r < cfg.tpSize, (attn.qkvLayer cfg).load r (qkv₀ r) (files r) = some (qkv r) ∧
        rowWeightLoader r (o₀ r) (w.oPart cfg attn.headDim) = some (o r)) ∧
      ∀ positions hiddenStates t, ∀ i < cfg.hiddenSize,
        ∑ r ∈ Finset.range cfg.tpSize,
            attn.forward a (qkv r) (o r) positions hiddenStates t i =
          w.attention a cfg attn.headDim positions hiddenStates t i := by
  have h := MixtralAttention.accepted_of_init hattn
  have hs := MixtralAttention.sized_of_init hdivide hattn
  have hload := fun r (hr : r < cfg.tpSize) => hs.exists_loaded h hr (halloc r hr) (hfiles r hr)
  refine ⟨fun r => ((attn.qkvLayer cfg).load r (qkv₀ r) (files r)).getD (qkv₀ r),
    fun r => (rowWeightLoader r (o₀ r) (w.oPart cfg attn.headDim)).getD (o₀ r), fun r hr => ?_,
    fun positions hiddenStates t i hi => ?_⟩
  · obtain ⟨qkv, o, hqkv, ho, -⟩ := hload r hr
    simp only [hqkv, ho, Option.getD_some, and_self]
  · simp only [MixtralAttention.forward, hs.numHeads, hs.numKvHeads]
    refine h.sum_oProj (fun r hr => ?_) (fun r hr p _ => ?_) fun r hr p hp => ?_
    all_goals
      obtain ⟨qkv, o, hqkv, ho, hcols, hholds, hocols, hentry⟩ := hload r hr
    · rw [ho, Option.getD_some, hocols]
    · rw [ho, Option.getD_some]
      exact hentry i hi p
    · rw [hqkv, Option.getD_some]
      exact (hs.isShare hcols hholds hiddenStates).attnOutput_eq h hrope hgroup hp

end Loaded

section Example

/-- Attention without a rotary embedding. -/
noncomputable def plainMath : AttentionMath ℝ where
  exp := Real.exp
  scaling := 1
  rotaryEmb _ x := x
  clipQkv := none

/-- Two query heads and one head of keys and values, of one entry each. -/
noncomputable def smallWeights : AttnWeights ℝ where
  inputSize := 2
  weight id i j := match id with
    | .q => (i + j : ℕ)
    | .k => (i + 2 * j : ℕ)
    | .v => (3 * i + j : ℕ)
  oWeight i p := (2 * i + p : ℕ)

/-- Two ranks with one query head each and the same keys and values. The first gets the parts one
by one, the second gets them packed. -/
theorem tensorParallel_attention_replicated : ∃ attn : MixtralAttention, ∃ qkv o : ℕ → Matrix2 ℝ,
    MixtralAttention.init exactDivide ⟨2, 2, 1, 2⟩ = some attn ∧
    ∀ positions hiddenStates t, ∀ i < 2,
      ∑ r ∈ Finset.range 2, attn.forward plainMath (qkv r) (o r) positions hiddenStates t i =
        smallWeights.attention plainMath ⟨2, 2, 1, 2⟩ attn.headDim positions hiddenStates t i := by
  have hattn : MixtralAttention.init exactDivide ⟨2, 2, 1, 2⟩ =
      some ⟨1, 1, 1, 1, 1, ⟨1, 1, 2, 3⟩⟩ := rfl
  have hfiles : ∀ r < 2, (MixtralAttention.qkvLayer ⟨2, 2, 1, 2⟩
      ⟨1, 1, 1, 1, 1, ⟨1, 1, 2, 3⟩⟩).Files smallWeights.toQkvWeights (if r = 0 then
        [.v, .q, .k].map fun id => (some id, QkvLayer.part ⟨1, 2, 1, ⟨1, 1, 2, 3⟩⟩
          smallWeights.toQkvWeights id)
      else [(none, QkvLayer.packed ⟨1, 2, 1, ⟨1, 1, 2, 3⟩⟩ smallWeights.toQkvWeights)]) := by
    intro r hr
    split_ifs
    · refine ⟨fun file hfile => ?_, fun id => Or.inr ?_⟩
      · obtain ⟨id, -, rfl⟩ := List.mem_map.mp hfile
        exact Or.inr ⟨id, rfl⟩
      · exact List.mem_map.mpr ⟨id, by cases id <;> decide, rfl⟩
    · exact ⟨fun file hfile => Or.inl (List.mem_singleton.mp hfile),
        fun id => Or.inl (List.mem_singleton.mpr rfl)⟩
  have halloc : ∀ r < 2, MixtralAttention.Allocated ⟨2, 2, 1, 2⟩ ⟨1, 1, 1, 1, 1, ⟨1, 1, 2, 3⟩⟩
      smallWeights ⟨3, 2, fun _ _ => 0⟩ ⟨2, 1, fun _ _ => 0⟩ := fun _ _ => ⟨rfl, rfl, rfl, rfl⟩
  obtain ⟨qkv, o, -, hsum⟩ := tensorParallel_attention (a := plainMath) (fun _ _ _ => rfl) hattn
    ⟨2, rfl⟩ (fun _ _ _ h => h) smallWeights halloc hfiles
  exact ⟨_, qkv, o, hattn, hsum⟩

end Example

end HarvestMoE
