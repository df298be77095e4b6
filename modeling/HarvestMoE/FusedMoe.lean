import HarvestMoE.ExpertPage
import HarvestMoE.Lib.BlockSums
import HarvestMoE.Lib.Tiles
import Mathlib.Algebra.BigOperators.Field
import Mathlib.Algebra.BigOperators.Group.Finset.Sigma
import Mathlib.Analysis.Complex.Exponential

/-!
# The fused kernel on expert pages

Two launches of one kernel read the page of an expert: as rows of the hidden size, and
from row `2 * H` on as rows of the intermediate size. A program of a launch computes a
block of the result for the tokens of one expert; programs run in any order. Every rank
has its share of each expert, and the results of the ranks are added.

## Main definitions

* `BlockConfig`, `Alignment` — how the tokens of the experts are put into blocks.
* `FusedMoeKernel` — the arguments of the kernel; `program`, `launch` — what it stores.
* `MoeInput`, `MoeRank` — what all ranks share, and what a rank has of its own.
* `stackFusedMoe` — the two launches.
* `MoeWeights.expertOutput` — an expert without ranks.
-/

namespace HarvestMoE

open Lib

structure BlockConfig where
  blockSizeM : ℕ
  blockSizeN : ℕ
  blockSizeK : ℕ
  groupSizeM : ℕ

/-- The block sizes of `stack_fused_moe`. -/
def moeConfig (numel numExperts : ℕ) : BlockConfig :=
  if numel ≤ numExperts then ⟨16, 32, 64, 1⟩ else ⟨64, 64, 32, 8⟩

/-- What `moe_align_block_size` returns. -/
structure Alignment where
  sortedTokenIds : ℕ → ℕ
  expertIds : ℕ → ℕ
  numTokensPostPadded : ℕ

/-- Every token slot is in a block of its expert, the others are padding, and the number
of places is a multiple of the block size. -/
structure Alignment.Valid (al : Alignment) (topkIds : ℕ → ℕ) (numel numExperts blockSize : ℕ) :
    Prop where
  le : al.numTokensPostPadded ≤ numel + numExperts * (blockSize - 1)
  dvd : blockSize ∣ al.numTokensPostPadded
  all : ∀ o < numel, ∃ p < al.numTokensPostPadded, al.sortedTokenIds p = o
  expert : ∀ p < al.numTokensPostPadded, al.sortedTokenIds p < numel →
    al.expertIds (p / blockSize) = topkIds (al.sortedTokenIds p)

/-- The arguments of `fused_moe_kernel`. -/
structure FusedMoeKernel (R : Type*) where
  aPtr : ℕ → R
  bPtr : ℕ → R
  bIndPtr : ℕ → ℕ
  w2Off : ℕ
  topkWeightsPtr : ℕ → R
  align : Alignment
  n : ℕ
  k : ℕ
  em : ℕ
  numValidTokens : ℕ
  strideAm : ℕ
  strideAk : ℕ
  strideBe : ℕ
  strideBk : ℕ
  strideBn : ℕ
  strideCm : ℕ
  strideCn : ℕ
  mulRoutedWeight : Bool
  topK : ℕ
  config : BlockConfig

namespace FusedMoeKernel

variable {R : Type*} [CommSemiring R] (g : FusedMoeKernel R)

def numPidM : ℕ := g.em ⌈/⌉ g.config.blockSizeM
def numPidN : ℕ := g.n ⌈/⌉ g.config.blockSizeN

/-- The block of a program, in the grouped order. -/
def pidMN (pid : ℕ) : ℕ × ℕ :=
  let numPidInGroup := g.config.groupSizeM * g.numPidN
  let groupId := pid / numPidInGroup
  let firstPidM := groupId * g.config.groupSizeM
  let groupSizeM := min (g.numPidM - firstPidM) g.config.groupSizeM
  (firstPidM + pid % numPidInGroup % groupSizeM, pid % numPidInGroup / groupSizeM)

/-- The token slot of a row of a block. -/
def offsToken (pidM r : ℕ) : ℕ := g.align.sortedTokenIds (pidM * g.config.blockSizeM + r)

/-- Where an expert has the entry of a row and a column. -/
def bAddress (expert row col : ℕ) : ℕ :=
  g.bIndPtr expert * g.strideBe + g.w2Off * g.strideBn + (col * g.strideBk + row * g.strideBn)

/-- Entry `kk` of block `k` of the row of a token; outside of the masks it is zero. -/
def loadA (pidM r k kk : ℕ) : R :=
  if g.offsToken pidM r < g.numValidTokens ∧ kk < g.k - k * g.config.blockSizeK then
    g.aPtr (g.offsToken pidM r / g.topK * g.strideAm + kk * g.strideAk +
      k * (g.config.blockSizeK * g.strideAk))
  else 0

def loadB (pidM pidN c k kk : ℕ) : R :=
  let offsBn := (pidN * g.config.blockSizeN + c) % g.n
  if kk < g.k - k * g.config.blockSizeK then
    g.bPtr (g.bAddress (g.align.expertIds pidM) offsBn kk +
      k * (g.config.blockSizeK * g.strideBk))
  else 0

/-- The accumulator at the end of the loop, at row `r` and column `c` of a block. -/
def accumulator (pidM pidN r c : ℕ) : R :=
  ∑ k ∈ Finset.range (g.k ⌈/⌉ g.config.blockSizeK),
    ∑ kk ∈ Finset.range g.config.blockSizeK, g.loadA pidM r k kk * g.loadB pidM pidN c k kk

/-- What a program stores. -/
def program (pid : ℕ) : List (ℕ × R) :=
  let (pidM, pidN) := g.pidMN pid
  if pidM * g.config.blockSizeM ≥ g.align.numTokensPostPadded then []
  else
    (List.range g.config.blockSizeM).flatMap fun r =>
      (List.range g.config.blockSizeN).filterMap fun c =>
        let offsToken := g.offsToken pidM r
        let offsCn := pidN * g.config.blockSizeN + c
        let accumulator := g.accumulator pidM pidN r c
        if offsToken < g.numValidTokens ∧ offsCn < g.n then
          some (g.strideCm * offsToken + g.strideCn * offsCn,
            if g.mulRoutedWeight then accumulator * g.topkWeightsPtr offsToken else accumulator)
        else none

def grid : ℕ := g.numPidM * g.numPidN

/-- The memory of the result after the programs ran in the given order. -/
def launch (order : List ℕ) (c : ℕ → R) : ℕ → R := applyStores c (order.flatMap g.program)

end FusedMoeKernel

/-- What all ranks compute a layer on. The weights and the experts of the token slots are
those of `topk_softmax`. -/
structure MoeInput (R : Type*) where
  numTokens : ℕ
  hiddenSize : ℕ
  numExperts : ℕ
  topk : ℕ
  hiddenStates : ℕ → R
  topkWeights : ℕ → R
  topkIds : ℕ → ℕ
  renormalize : Bool
  act : R → R

/-- What a rank has: its pages, where they are, its alignment, the orders in which its
programs run, and memory for the results. -/
structure MoeRank (R : Type*) where
  w1 : ℕ → R
  pageSize : ℕ
  indicies : ℕ → ℕ
  align : Alignment
  order₁ : List ℕ
  order₃ : List ℕ
  cache₁ : ℕ → R
  cache₃ : ℕ → R

/-- `ops.silu_and_mul` on rows of `n` entries. -/
def siluAndMul {R : Type*} [Mul R] (act : R → R) (n : ℕ) (x : ℕ → R) : ℕ → R := fun p =>
  let row := p / (n / 2)
  let col := p % (n / 2)
  act (x (row * n + col)) * x (row * n + n / 2 + col)

section Layer

variable {R : Type*} [Field R] (x : MoeInput R) (rank : MoeRank R)

/-- `topk_ids.numel()` -/
def MoeInput.numel : ℕ := x.numTokens * x.topk

/-- The weight of a token slot. -/
def MoeInput.weight (o : ℕ) : R :=
  if x.renormalize then
    x.topkWeights o / ∑ j ∈ Finset.range x.topk, x.topkWeights (o / x.topk * x.topk + j)
  else x.topkWeights o

/-- The hidden state of a token. -/
def MoeInput.row (t : ℕ) : ℕ → R := fun d => x.hiddenStates (t * x.hiddenSize + d)

namespace MoeRank

/-- `2 * page_size // 3 // H` -/
def n : ℕ := 2 * rank.pageSize / 3 / x.hiddenSize

/-- The launch on `w1.view(w1.shape[0], -1, H)`. -/
def firstCall : FusedMoeKernel R :=
  let config := moeConfig x.numel x.numExperts
  { aPtr := x.hiddenStates
    bPtr := rank.w1
    bIndPtr := rank.indicies
    w2Off := 0
    topkWeightsPtr := x.weight
    align := rank.align
    n := rank.n x
    k := x.hiddenSize
    em := x.numel + x.numExperts * (config.blockSizeM - 1)
    numValidTokens := x.numel
    strideAm := x.hiddenSize
    strideAk := 1
    strideBe := rank.pageSize
    strideBk := 1
    strideBn := x.hiddenSize
    strideCm := rank.n x
    strideCn := 1
    mulRoutedWeight := false
    topK := x.topk
    config := config }

def intermediateCache1 : ℕ → R := (rank.firstCall x).launch rank.order₁ rank.cache₁

def intermediateCache2 : ℕ → R := siluAndMul x.act (rank.n x) (rank.intermediateCache1 x)

/-- The launch on `w1.view(w1.shape[0], -1, N//2)`. -/
def secondCall : FusedMoeKernel R :=
  let config := moeConfig x.numel x.numExperts
  { aPtr := rank.intermediateCache2 x
    bPtr := rank.w1
    bIndPtr := rank.indicies
    w2Off := 2 * x.hiddenSize
    topkWeightsPtr := x.weight
    align := rank.align
    n := x.hiddenSize
    k := rank.n x / 2
    em := x.numel + x.numExperts * (config.blockSizeM - 1)
    numValidTokens := x.numel
    strideAm := rank.n x / 2
    strideAk := 1
    strideBe := rank.pageSize
    strideBk := 1
    strideBn := rank.n x / 2
    strideCm := x.hiddenSize
    strideCn := 1
    mulRoutedWeight := true
    topK := 1
    config := config }

def intermediateCache3 : ℕ → R := (rank.secondCall x).launch rank.order₃ rank.cache₃

end MoeRank

/-- The result of a rank for a token: the sum over its slots. -/
def stackFusedMoe (t h : ℕ) : R :=
  ∑ j ∈ Finset.range x.topk, rank.intermediateCache3 x ((t * x.topk + j) * x.hiddenSize + h)

end Layer

/-- `W2 (act (W1 x) * (W3 x))` -/
def MoeWeights.expertOutput {R : Type*} [CommSemiring R] (w : MoeWeights R) (s : ExpertShape)
    (act : R → R) (layerId expertId : ℕ) (x : ℕ → R) (h : ℕ) : R :=
  ∑ i ∈ Finset.range s.fullIntermediate, w.w2 layerId expertId h i *
    (act (∑ d ∈ Finset.range s.hiddenSize, w.w1 layerId expertId i d * x d) *
      ∑ d ∈ Finset.range s.hiddenSize, w.w3 layerId expertId i d * x d)

namespace FusedMoeKernel

section Programs

variable {R : Type*} {g : FusedMoeKernel R}

/-- The order of the programs is the grouped one. -/
theorem pidMN_eq (g : FusedMoeKernel R) :
    g.pidMN = groupedTile g.numPidM g.numPidN g.config.groupSizeM := rfl

/-- Every block of the result has a program. -/
theorem exists_pid (hgroup : 0 < g.config.groupSizeM) {pm pn : ℕ} (hpm : pm < g.numPidM)
    (hpn : pn < g.numPidN) : ∃ pid < g.grid, g.pidMN pid = (pm, pn) := by
  rw [pidMN_eq]
  exact exists_groupedTile hgroup hpm hpn

theorem div_lt_numPidM (hbm : 0 < g.config.blockSizeM) {p : ℕ} (hp : p < g.em) :
    p / g.config.blockSizeM < g.numPidM := by
  rw [numPidM, lt_ceilDiv_iff hbm]
  exact (Nat.mul_div_le p _).trans_lt hp

theorem div_lt_numPidN (hbn : 0 < g.config.blockSizeN) {row : ℕ} (hrow : row < g.n) :
    row / g.config.blockSizeN < g.numPidN := by
  rw [numPidN, lt_ceilDiv_iff hbn]
  exact (Nat.mul_div_le row _).trans_lt hrow

/-- A block that starts before the last place ends there at the latest. -/
theorem place_lt_of_block (hdvd : g.config.blockSizeM ∣ g.align.numTokensPostPadded) {pidM r : ℕ}
    (hr : r < g.config.blockSizeM)
    (hpost : pidM * g.config.blockSizeM < g.align.numTokensPostPadded) :
    pidM * g.config.blockSizeM + r < g.align.numTokensPostPadded := by
  have ⟨blocks, hblocks⟩ := hdvd
  rw [hblocks, Nat.mul_comm _ blocks] at hpost ⊢
  have hle : (pidM + 1) * g.config.blockSizeM ≤ blocks * g.config.blockSizeM :=
    Nat.mul_le_mul_right _ (Nat.lt_of_mul_lt_mul_right hpost)
  rw [Nat.succ_mul] at hle
  omega

/-- The expert of a block is that of its slots. -/
theorem expertIds_of_block {topkIds : ℕ → ℕ}
    (hdvd : g.config.blockSizeM ∣ g.align.numTokensPostPadded)
    (hexpert : ∀ p < g.align.numTokensPostPadded, g.align.sortedTokenIds p < g.numValidTokens →
      g.align.expertIds (p / g.config.blockSizeM) = topkIds (g.align.sortedTokenIds p))
    {pidM r : ℕ} (hr : r < g.config.blockSizeM)
    (hpost : pidM * g.config.blockSizeM < g.align.numTokensPostPadded)
    (hvalid : g.offsToken pidM r < g.numValidTokens) :
    g.align.expertIds pidM = topkIds (g.offsToken pidM r) := by
  have h := hexpert _ (place_lt_of_block hdvd hr hpost) hvalid
  rwa [(mul_add_div_mod hr).1] at h

variable [CommSemiring R]

/-- The entry of the result for a token slot and a column, from the page of an expert. -/
def value (g : FusedMoeKernel R) (o row expert : ℕ) : R :=
  let dot := ∑ x ∈ Finset.range g.k, g.aPtr (o / g.topK * g.strideAm + x * g.strideAk) *
    g.bPtr (g.bAddress expert row x)
  if g.mulRoutedWeight then dot * g.topkWeightsPtr o else dot

/-- The blocks of the loop add up to the whole product. -/
theorem accumulator_eq (hk : 0 < g.config.blockSizeK) {pidM pidN r c : ℕ}
    (hvalid : g.offsToken pidM r < g.numValidTokens)
    (hcol : pidN * g.config.blockSizeN + c < g.n) :
    g.accumulator pidM pidN r c =
      ∑ x ∈ Finset.range g.k, g.aPtr (g.offsToken pidM r / g.topK * g.strideAm + x * g.strideAk) *
        g.bPtr (g.bAddress (g.align.expertIds pidM) (pidN * g.config.blockSizeN + c) x) := by
  rw [← sum_range_blocks _ hk, accumulator]
  refine Finset.sum_congr rfl fun k _ => Finset.sum_congr rfl fun kk _ => ?_
  simp only [loadA, loadB, hvalid, true_and, Nat.mod_eq_of_lt hcol]
  split_ifs with hmask
  · simp only [bAddress]
    congr 2 <;> ring
  · rw [mul_zero]

/-- A program stores the values of the token slots of its block, for the expert of the
block. -/
theorem mem_program (hk : 0 < g.config.blockSizeK) {pid pidM pidN : ℕ}
    (hpid : g.pidMN pid = (pidM, pidN)) {st : ℕ × R} :
    st ∈ g.program pid ↔
      pidM * g.config.blockSizeM < g.align.numTokensPostPadded ∧
      ∃ r < g.config.blockSizeM, ∃ c < g.config.blockSizeN,
        g.offsToken pidM r < g.numValidTokens ∧ pidN * g.config.blockSizeN + c < g.n ∧
        st = (g.strideCm * g.offsToken pidM r + g.strideCn * (pidN * g.config.blockSizeN + c),
          g.value (g.offsToken pidM r) (pidN * g.config.blockSizeN + c)
            (g.align.expertIds pidM)) := by
  simp only [program, hpid]
  by_cases hpost : pidM * g.config.blockSizeM ≥ g.align.numTokensPostPadded
  · rw [if_pos hpost]
    simp only [List.not_mem_nil, false_iff, not_and]
    exact fun hlt => absurd hlt (not_lt.mpr hpost)
  · rw [if_neg hpost]
    simp only [List.mem_flatMap, List.mem_filterMap, List.mem_range]
    constructor
    · rintro ⟨r, hr, c, hc, hst⟩
      by_cases hmask : g.offsToken pidM r < g.numValidTokens ∧ pidN * g.config.blockSizeN + c < g.n
      · rw [if_pos hmask] at hst
        refine ⟨not_le.mp hpost, r, hr, c, hc, hmask.1, hmask.2, ?_⟩
        rw [← Option.some.inj hst, value, accumulator_eq hk hmask.1 hmask.2]
      · rw [if_neg hmask] at hst
        cases hst
    · rintro ⟨-, r, hr, c, hc, hvalid, hcol, rfl⟩
      refine ⟨r, hr, c, hc, ?_⟩
      rw [if_pos ⟨hvalid, hcol⟩, value, accumulator_eq hk hvalid hcol]

/-- **A launch leaves the value of every token slot and column, for the expert of the
slot, in whatever order its programs run.** -/
theorem launch_at {topkIds : ℕ → ℕ} {numExperts : ℕ}
    (hconfig : 0 < g.config.blockSizeM ∧ 0 < g.config.blockSizeN ∧ 0 < g.config.blockSizeK ∧
      0 < g.config.groupSizeM)
    (hem : g.em = g.numValidTokens + numExperts * (g.config.blockSizeM - 1))
    (hm : g.strideCm = g.n) (hn : g.strideCn = 1)
    (hal : g.align.Valid topkIds g.numValidTokens numExperts g.config.blockSizeM)
    {order : List ℕ} (horder : order.Perm (List.range g.grid)) (mem : ℕ → R) {o row : ℕ}
    (ho : o < g.numValidTokens) (hrow : row < g.n) :
    g.launch order mem (o * g.n + row) = g.value o row (topkIds o) := by
  rcases hconfig with ⟨hbm, hbn, hbk, hgm⟩
  refine applyStores_eq (fun st hst haddr => ?_) (Or.inr ?_)
  · rcases List.mem_flatMap.mp hst with ⟨pid, -, hst⟩
    rcases hpid : g.pidMN pid with ⟨pidM, pidN⟩
    rcases (mem_program hbk hpid).mp hst with ⟨hpost, r, hr, c, hc, hvalid, hcol, rfl⟩
    simp only [hm, hn, Nat.one_mul, Nat.mul_comm g.n] at haddr
    -- A place belongs to one slot and one column.
    have hslot := congrArg (· / g.n) haddr
    have hplace := congrArg (· % g.n) haddr
    simp only [(mul_add_div_mod hcol).1, (mul_add_div_mod hrow).1] at hslot
    simp only [(mul_add_div_mod hcol).2, (mul_add_div_mod hrow).2] at hplace
    simp only [expertIds_of_block hal.dvd hal.expert hr hpost hvalid, hslot, hplace]
  · rcases hal.all o ho with ⟨p, hp, rfl⟩
    have hdiv := Nat.div_add_mod p g.config.blockSizeM
    have hmod := Nat.mod_lt p hbm
    have hdiv' := Nat.div_add_mod row g.config.blockSizeN
    have hmod' := Nat.mod_lt row hbn
    rw [Nat.mul_comm] at hdiv hdiv'
    have hpm : p / g.config.blockSizeM < g.numPidM :=
      div_lt_numPidM hbm ((hp.trans_le hal.le).trans_eq hem.symm)
    have hpn : row / g.config.blockSizeN < g.numPidN := div_lt_numPidN hbn hrow
    rcases exists_pid hgm hpm hpn with ⟨pid, hgrid, hpid⟩
    refine ⟨_, List.mem_flatMap.mpr ⟨pid, horder.mem_iff.mpr (List.mem_range.mpr hgrid),
      (mem_program hbk hpid).mpr ⟨by omega, p % g.config.blockSizeM, hmod,
        row % g.config.blockSizeN, hmod', ?_, ?_, rfl⟩⟩, ?_⟩
    · rwa [offsToken, hdiv]
    · rwa [hdiv']
    · rw [offsToken, hdiv, hdiv', hm, hn, Nat.one_mul, Nat.mul_comm]

end Programs

end FusedMoeKernel

/-- A rank is set up for a layer: the page of every expert that is needed is in its
memory, its alignment is that of the slots, and all programs of the launches run. -/
structure MoeRank.Ready {R : Type*} [Field R] (x : MoeInput R) (s : ExpertShape)
    (param : ParamData R) (layerId : ℕ) (rank : MoeRank R) : Prop where
  pageSize : rank.pageSize = s.pageSize
  page : ∀ o < x.numel, ∀ q < s.pageSize,
    rank.w1 (rank.indicies (x.topkIds o) * s.pageSize + q) = param layerId (x.topkIds o) q
  align : rank.align.Valid x.topkIds x.numel x.numExperts (moeConfig x.numel x.numExperts).blockSizeM
  order₁ : rank.order₁.Perm (List.range (rank.firstCall x).grid)
  order₃ : rank.order₃.Perm (List.range (rank.secondCall x).grid)

theorem moeConfig_pos (numel numExperts : ℕ) :
    0 < (moeConfig numel numExperts).blockSizeM ∧ 0 < (moeConfig numel numExperts).blockSizeN ∧
      0 < (moeConfig numel numExperts).blockSizeK ∧ 0 < (moeConfig numel numExperts).groupSizeM := by
  unfold moeConfig
  split_ifs <;> decide

namespace MoeRank

section Reads

variable {R : Type*} [Field R] {x : MoeInput R} {s : ExpertShape} {param : ParamData R}
  {layerId tpRank : ℕ} {rank : MoeRank R} {w : MoeWeights R}

theorem Ready.n_eq (h : rank.Ready x s param layerId) (hH : 0 < s.hiddenSize)
    (hx : x.hiddenSize = s.hiddenSize) : rank.n x = 2 * s.intermediateSize := by
  rw [n, h.pageSize, hx, s.pageSize_eq, Nat.mul_left_comm, Nat.mul_div_cancel_left _ (by decide),
    ← Nat.mul_assoc, Nat.mul_div_cancel _ hH]

/-- **The first launch reads the shares of `w1` and `w3`.** -/
theorem Ready.firstCall_reads (h : rank.Ready x s param layerId) (hx : x.hiddenSize = s.hiddenSize)
    {o : ℕ} (ho : o < x.numel)
    (hloaded : ∀ part, Loaded w s tpRank (part, layerId, x.topkIds o) param) {row col : ℕ}
    (hrow : row < 2 * s.intermediateSize) (hcol : col < s.hiddenSize) :
    rank.w1 ((rank.firstCall x).bAddress (x.topkIds o) row col) =
      if row < s.intermediateSize then
        w.w1 layerId (x.topkIds o) (tpRank * s.intermediateSize + row) col
      else
        w.w3 layerId (x.topkIds o) (tpRank * s.intermediateSize + (row - s.intermediateSize)) col := by
  have haddr : (rank.firstCall x).bAddress (x.topkIds o) row col =
      rank.indicies (x.topkIds o) * s.pageSize + (row * s.hiddenSize + col) := by
    simp only [FusedMoeKernel.bAddress, firstCall, h.pageSize, hx]
    ring
  have hlt : ∀ i < s.intermediateSize, i * s.hiddenSize + col < s.intermediateSize * s.hiddenSize := by
    intro i hi
    calc i * s.hiddenSize + col < (i + 1) * s.hiddenSize := by rw [Nat.succ_mul]; omega
      _ ≤ _ := Nat.mul_le_mul_right _ hi
  have hpage := s.pageSize_eq
  split_ifs with hlow
  · have hq := hlt row hlow
    have h1 := hloaded .w1 _ hq
    simp only [ExpertShape.partStart, ExpertShape.partEntry, (mul_add_div_mod hcol).1,
      (mul_add_div_mod hcol).2, Nat.zero_add] at h1
    rw [haddr, h.page o ho _ (by omega), h1]
    rfl
  · obtain ⟨i, rfl⟩ := Nat.exists_eq_add_of_le (not_lt.mp hlow)
    have hq := hlt i (by omega)
    have h3 := hloaded .w3 _ hq
    simp only [ExpertShape.partStart, ExpertShape.partEntry, (mul_add_div_mod hcol).1,
      (mul_add_div_mod hcol).2] at h3
    rw [haddr, Nat.add_mul, Nat.add_assoc, h.page o ho _ (by omega), h3, Nat.add_sub_cancel_left]
    rfl

/-- **The second launch reads the share of `w2`.** -/
theorem Ready.secondCall_reads (h : rank.Ready x s param layerId) (hH : 0 < s.hiddenSize)
    (hx : x.hiddenSize = s.hiddenSize) {o : ℕ} (ho : o < x.numel)
    (hloaded : ∀ part, Loaded w s tpRank (part, layerId, x.topkIds o) param) {row col : ℕ}
    (hrow : row < s.hiddenSize) (hcol : col < s.intermediateSize) :
    rank.w1 ((rank.secondCall x).bAddress (x.topkIds o) row col) =
      w.w2 layerId (x.topkIds o) row (tpRank * s.intermediateSize + col) := by
  have hn : rank.n x / 2 = s.intermediateSize := by
    rw [h.n_eq hH hx, Nat.mul_div_cancel_left _ Nat.two_pos]
  have haddr : (rank.secondCall x).bAddress (x.topkIds o) row col =
      rank.indicies (x.topkIds o) * s.pageSize +
        (s.partStart .w2 + (row * s.intermediateSize + col)) := by
    simp only [FusedMoeKernel.bAddress, secondCall, h.pageSize, hx, hn, ExpertShape.partStart]
    ring
  have hq : row * s.intermediateSize + col < s.intermediateSize * s.hiddenSize := by
    calc row * s.intermediateSize + col < (row + 1) * s.intermediateSize := by
          rw [Nat.succ_mul]; omega
      _ ≤ s.hiddenSize * s.intermediateSize := Nat.mul_le_mul_right _ hrow
      _ = _ := Nat.mul_comm _ _
  have hpage := s.pageSize_eq
  have hstart := s.partStart_w2
  have h2 := hloaded .w2 _ hq
  rw [haddr, h.page o ho _ (by omega), h2]
  simp only [ExpertShape.partEntry, (mul_add_div_mod hcol).1, (mul_add_div_mod hcol).2]
  rfl

theorem firstCall_value (rank : MoeRank R) (o row e : ℕ) :
    (rank.firstCall x).value o row e = ∑ d ∈ Finset.range x.hiddenSize,
      x.row (o / x.topk) d * rank.w1 ((rank.firstCall x).bAddress e row d) := by
  have hmul : (rank.firstCall x).mulRoutedWeight = false := rfl
  rw [FusedMoeKernel.value, hmul, if_neg Bool.false_ne_true]
  refine Finset.sum_congr rfl fun d _ => ?_
  have hone : d * (rank.firstCall x).strideAk = d := Nat.mul_one d
  rw [hone]
  rfl

theorem secondCall_value (rank : MoeRank R) (o row e : ℕ) :
    (rank.secondCall x).value o row e = (∑ i ∈ Finset.range (rank.n x / 2),
      rank.intermediateCache2 x (o * (rank.n x / 2) + i) *
        rank.w1 ((rank.secondCall x).bAddress e row i)) * x.weight o := by
  have hmul : (rank.secondCall x).mulRoutedWeight = true := rfl
  rw [FusedMoeKernel.value, hmul, if_pos rfl]
  congr 1
  refine Finset.sum_congr rfl fun i _ => ?_
  have hone : i * (rank.secondCall x).strideAk = i := Nat.mul_one i
  have htopK : o / (rank.secondCall x).topK = o := Nat.div_one o
  rw [hone, htopK]
  rfl

/-- The intermediate values of a token slot, the shares of `w1` first. -/
theorem Ready.intermediateCache1_at (h : rank.Ready x s param layerId) (hH : 0 < s.hiddenSize)
    (hx : x.hiddenSize = s.hiddenSize) {o : ℕ} (ho : o < x.numel)
    (hloaded : ∀ part, Loaded w s tpRank (part, layerId, x.topkIds o) param) {row : ℕ}
    (hrow : row < 2 * s.intermediateSize) :
    rank.intermediateCache1 x (o * (2 * s.intermediateSize) + row) =
      ∑ d ∈ Finset.range s.hiddenSize, x.row (o / x.topk) d *
        if row < s.intermediateSize then
          w.w1 layerId (x.topkIds o) (tpRank * s.intermediateSize + row) d
        else
          w.w3 layerId (x.topkIds o) (tpRank * s.intermediateSize + (row - s.intermediateSize)) d := by
  have hgn : (rank.firstCall x).n = 2 * s.intermediateSize := h.n_eq hH hx
  have hlaunch := FusedMoeKernel.launch_at (g := rank.firstCall x) (moeConfig_pos _ _) rfl rfl rfl
    h.align h.order₁ rank.cache₁ ho (hrow.trans_eq hgn.symm)
  rw [hgn] at hlaunch
  rw [intermediateCache1, hlaunch, firstCall_value, hx]
  refine Finset.sum_congr rfl fun d hd => ?_
  rw [h.firstCall_reads hx ho hloaded hrow (Finset.mem_range.mp hd)]

/-- What the second launch gets for a token slot. -/
theorem Ready.intermediateCache2_at (h : rank.Ready x s param layerId) (hH : 0 < s.hiddenSize)
    (hx : x.hiddenSize = s.hiddenSize) {o : ℕ} (ho : o < x.numel)
    (hloaded : ∀ part, Loaded w s tpRank (part, layerId, x.topkIds o) param) {i : ℕ}
    (hi : i < s.intermediateSize) :
    rank.intermediateCache2 x (o * s.intermediateSize + i) =
      x.act (∑ d ∈ Finset.range s.hiddenSize,
          w.w1 layerId (x.topkIds o) (tpRank * s.intermediateSize + i) d * x.row (o / x.topk) d) *
        ∑ d ∈ Finset.range s.hiddenSize,
          w.w3 layerId (x.topkIds o) (tpRank * s.intermediateSize + i) d * x.row (o / x.topk) d := by
  have hn := h.n_eq hH hx
  have hhalf : rank.n x / 2 = s.intermediateSize := by
    rw [hn, Nat.mul_div_cancel_left _ Nat.two_pos]
  have hlow : i < 2 * s.intermediateSize := by omega
  have hhigh : s.intermediateSize + i < 2 * s.intermediateSize := by omega
  have hgate := h.intermediateCache1_at hH hx ho hloaded hlow
  have hup := h.intermediateCache1_at hH hx ho hloaded hhigh
  simp only [if_pos hi] at hgate
  simp only [Nat.add_sub_cancel_left, if_neg (Nat.not_lt.mpr (Nat.le_add_right _ i))] at hup
  simp only [intermediateCache2, siluAndMul, hhalf, (mul_add_div_mod hi).1, (mul_add_div_mod hi).2]
  rw [hn, Nat.add_assoc, hgate, hup]
  simp only [mul_comm (x.row _ _)]

/-- The result of a rank for a token slot. -/
theorem Ready.intermediateCache3_at (h : rank.Ready x s param layerId) (hH : 0 < s.hiddenSize)
    (hx : x.hiddenSize = s.hiddenSize) {o : ℕ} (ho : o < x.numel)
    (hloaded : ∀ part, Loaded w s tpRank (part, layerId, x.topkIds o) param) {row : ℕ}
    (hrow : row < s.hiddenSize) :
    rank.intermediateCache3 x (o * s.hiddenSize + row) =
      (∑ i ∈ Finset.range s.intermediateSize,
        w.w2 layerId (x.topkIds o) row (tpRank * s.intermediateSize + i) *
          (x.act (∑ d ∈ Finset.range s.hiddenSize,
              w.w1 layerId (x.topkIds o) (tpRank * s.intermediateSize + i) d *
                x.row (o / x.topk) d) *
            ∑ d ∈ Finset.range s.hiddenSize,
              w.w3 layerId (x.topkIds o) (tpRank * s.intermediateSize + i) d *
                x.row (o / x.topk) d)) * x.weight o := by
  have hhalf : rank.n x / 2 = s.intermediateSize := by
    rw [h.n_eq hH hx, Nat.mul_div_cancel_left _ Nat.two_pos]
  have hgn : (rank.secondCall x).n = s.hiddenSize := hx
  have hlaunch := FusedMoeKernel.launch_at (g := rank.secondCall x) (moeConfig_pos _ _) rfl rfl rfl
    h.align h.order₃ rank.cache₃ ho (hrow.trans_eq hgn.symm)
  rw [hgn] at hlaunch
  rw [intermediateCache3, hlaunch, secondCall_value, hhalf]
  congr 1
  refine Finset.sum_congr rfl fun i hi => ?_
  have hi := Finset.mem_range.mp hi
  rw [h.secondCall_reads hH hx ho hloaded hrow hi, h.intermediateCache2_at hH hx ho hloaded hi,
    mul_comm]

end Reads

end MoeRank

section Results

variable {R : Type*} [Field R] {w : MoeWeights R} {s : ExpertShape} {x : MoeInput R} {layerId : ℕ}
  {params : ℕ → ParamData R} {ranks : ℕ → MoeRank R}

/-- The results of the ranks for a token slot add up to the whole expert. -/
theorem sum_intermediateCache3 (hdvd : s.tpSize ∣ s.fullIntermediate) (hH : 0 < s.hiddenSize)
    (hx : x.hiddenSize = s.hiddenSize) {o : ℕ} (ho : o < x.numel)
    (hloaded : ∀ r < s.tpSize, ∀ part, Loaded w s r (part, layerId, x.topkIds o) (params r))
    (hready : ∀ r < s.tpSize, (ranks r).Ready x s (params r) layerId) {h : ℕ}
    (hh : h < s.hiddenSize) :
    ∑ r ∈ Finset.range s.tpSize, (ranks r).intermediateCache3 x (o * s.hiddenSize + h) =
      w.expertOutput s x.act layerId (x.topkIds o) (x.row (o / x.topk)) h * x.weight o := by
  have hfull : s.fullIntermediate = s.tpSize * s.intermediateSize := (Nat.mul_div_cancel' hdvd).symm
  rw [MoeWeights.expertOutput, hfull, sum_range_mul, Finset.sum_mul]
  refine Finset.sum_congr rfl fun r hr => ?_
  have hr := Finset.mem_range.mp hr
  exact (hready r hr).intermediateCache3_at hH hx ho (hloaded r hr) hh

/-- **The ranks read exactly their shares, and their results add up to the experts
without ranks.** -/
theorem stackFusedMoe_sum (hdvd : s.tpSize ∣ s.fullIntermediate) (hH : 0 < s.hiddenSize)
    (hx : x.hiddenSize = s.hiddenSize) (hids : ∀ o < x.numel, x.topkIds o < x.numExperts)
    (hload : ∀ r < s.tpSize, LoadedBy w s x.numExperts r layerId (params r))
    (hready : ∀ r < s.tpSize, (ranks r).Ready x s (params r) layerId) :
    (∀ r < s.tpSize, ∀ o < x.numel,
      (∀ row < 2 * s.intermediateSize, ∀ col < s.hiddenSize,
        (ranks r).w1 (((ranks r).firstCall x).bAddress (x.topkIds o) row col) =
          if row < s.intermediateSize then
            w.w1 layerId (x.topkIds o) (r * s.intermediateSize + row) col
          else
            w.w3 layerId (x.topkIds o) (r * s.intermediateSize + (row - s.intermediateSize)) col) ∧
      (∀ row < s.hiddenSize, ∀ col < s.intermediateSize,
        (ranks r).w1 (((ranks r).secondCall x).bAddress (x.topkIds o) row col) =
          w.w2 layerId (x.topkIds o) row (r * s.intermediateSize + col))) ∧
    (∀ o < x.numel, ∀ h < s.hiddenSize,
      ∑ r ∈ Finset.range s.tpSize, (ranks r).intermediateCache3 x (o * s.hiddenSize + h) =
        w.expertOutput s x.act layerId (x.topkIds o) (x.row (o / x.topk)) h * x.weight o) ∧
    ∀ t < x.numTokens, ∀ h < s.hiddenSize,
      ∑ r ∈ Finset.range s.tpSize, stackFusedMoe x (ranks r) t h =
        ∑ j ∈ Finset.range x.topk,
          w.expertOutput s x.act layerId (x.topkIds (t * x.topk + j)) (x.row t) h *
            x.weight (t * x.topk + j) := by
  have hloaded : ∀ o < x.numel, ∀ r < s.tpSize, ∀ part,
      Loaded w s r (part, layerId, x.topkIds o) (params r) :=
    fun o ho r hr part => (hload r hr).loaded hdvd hr (hids o ho) part
  refine ⟨fun r hr o ho => ⟨fun row hrow col hcol => ?_, fun row hrow col hcol => ?_⟩,
    fun o ho h hh => sum_intermediateCache3 hdvd hH hx ho (hloaded o ho) hready hh,
    fun t ht h hh => ?_⟩
  · exact (hready r hr).firstCall_reads hx ho (hloaded o ho r hr) hrow hcol
  · exact (hready r hr).secondCall_reads hH hx ho (hloaded o ho r hr) hrow hcol
  · simp only [stackFusedMoe, hx]
    rw [Finset.sum_comm]
    refine Finset.sum_congr rfl fun j hj => ?_
    have hj := Finset.mem_range.mp hj
    have ho : t * x.topk + j < x.numel := by
      calc t * x.topk + j < (t + 1) * x.topk := by rw [Nat.succ_mul]; omega
        _ ≤ x.numTokens * x.topk := Nat.mul_le_mul_right _ ht
    rw [sum_intermediateCache3 hdvd hH hx ho (hloaded _ ho) hready hh, (mul_add_div_mod hj).1]

/-- One token, one expert and two ranks with one column of it each. -/
noncomputable def oneToken : MoeInput ℝ where
  numTokens := 1
  hiddenSize := 1
  numExperts := 1
  topk := 1
  hiddenStates := fun _ => 5
  topkWeights := fun _ => 2
  topkIds := fun _ => 0
  renormalize := true
  act := fun a => a / (1 + Real.exp (-a))

def twoColumns : MoeWeights ℝ where
  w1 := fun _ _ i _ => i + 1
  w3 := fun _ _ i _ => 2 * i
  w2 := fun _ _ _ i => 3 - i

/-- The pages after the files of the expert came in. -/
def twoRanksParam (r : ℕ) : ParamData ℝ :=
  (loadMixtral twoColumns ⟨1, 2, 2⟩ r (fun _ _ _ => 0) [(.w2, 0, 0), (.w1, 0, 0), (.w3, 0, 0)]).getD
    fun _ _ _ => 0

def twoRanks (r : ℕ) : MoeRank ℝ where
  w1 := twoRanksParam r 0 0
  pageSize := 3
  indicies := fun _ => 0
  align := ⟨fun p => if p = 0 then 0 else 1, fun _ => 0, 16⟩
  order₁ := [0]
  order₃ := [0]
  cache₁ := fun _ => 0
  cache₃ := fun _ => 0

theorem stackFusedMoe_twoRanks :
    ∑ r ∈ Finset.range 2, stackFusedMoe oneToken (twoRanks r) 0 0 =
      twoColumns.expertOutput ⟨1, 2, 2⟩ oneToken.act 0 0 (oneToken.row 0) 0 * oneToken.weight 0 := by
  have hload : ∀ r < 2, LoadedBy twoColumns ⟨1, 2, 2⟩ 1 r 0 (twoRanksParam r) := by
    intro r hr
    rcases loadMixtral_loaded (w := twoColumns) (s := ⟨1, 2, 2⟩) hr (fun _ _ _ => 0)
      [(.w2, 0, 0), (.w1, 0, 0), (.w3, 0, 0)] with ⟨param, hrun, -⟩
    refine .mixtral _ _ (hrun.trans ?_) fun e he part => ?_
    · rw [twoRanksParam, hrun, Option.getD_some]
    · obtain rfl : e = 0 := Nat.lt_one_iff.mp he
      cases part <;> decide
  have hready : ∀ r < 2, (twoRanks r).Ready oneToken ⟨1, 2, 2⟩ (twoRanksParam r) 0 := by
    intro r _
    have halign : (twoRanks r).align.Valid oneToken.topkIds 1 1 16 := by
      refine ⟨le_rfl, dvd_rfl, fun o ho => ⟨0, Nat.succ_pos 15, ?_⟩, fun _ _ _ => rfl⟩
      exact (Nat.lt_one_iff.mp ho).symm
    have hgrid : ((twoRanks r).firstCall oneToken).grid = 1 ∧
        ((twoRanks r).secondCall oneToken).grid = 1 := by
      simp [FusedMoeKernel.grid, FusedMoeKernel.numPidM, FusedMoeKernel.numPidN, MoeRank.firstCall,
        MoeRank.secondCall, MoeRank.n, moeConfig, MoeInput.numel, oneToken, twoRanks,
        Nat.ceilDiv_eq_add_pred_div]
    exact ⟨rfl, fun _ _ q _ => congrArg (twoRanksParam r 0 0) (Nat.zero_add q), halign,
      by rw [hgrid.1]; exact List.Perm.refl _, by rw [hgrid.2]; exact List.Perm.refl _⟩
  have hsum := (stackFusedMoe_sum (w := twoColumns) (s := ⟨1, 2, 2⟩) ⟨1, rfl⟩ Nat.one_pos rfl
    (fun _ _ => Nat.one_pos) hload hready).2.2 0 Nat.one_pos 0 Nat.one_pos
  exact hsum.trans (Finset.sum_range_one _)

end Results

end HarvestMoE
