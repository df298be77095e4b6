import HarvestMoE.Lib.Loops
import HarvestMoE.Lib.OnlineSoftmax
import HarvestMoE.Lib.Rows
import Mathlib.Algebra.BigOperators.Intervals
import Mathlib.Analysis.Complex.Exponential
import Mathlib.Analysis.Real.Sqrt
import Mathlib.Data.List.ProdSigma

/-!
# Decode attention on the CPU

One thread takes a range of the pairs of a sequence and a KV head. For each pair it goes
over the keys of the sequence in blocks, keeps a running softmax for the query heads of
the group, and writes their rows of the output. Numbers are exact here, and the
exponential function is any one with its laws.

## Main definitions

* `Tensor`, `ThreadBuf` — the memories.
* `gemm`, `vecMaxKernel`, `expReduceSumFusionKernel` — the kernels.
* `dataIndexInit`, `dataIndexStep` — the position in the range.
* `FlashDecode` — the arguments; `kvBlock`, `decodePair`, `decodeChunk` — the loops.
* `cpuFlashDecodeGqa` — the rows written.
* `FlashDecode.attention` — the softmax average over the keys of a sequence.
-/

namespace HarvestMoE

open Lib

/-- A tensor with its sizes and strides. Its last dimension is dense. -/
structure Tensor (K : Type*) where
  size : ℕ → ℕ
  stride : ℕ → ℕ
  data : ℕ → K

/-- The buffers of a thread. Only `qkReduced` has the type of the tensors. -/
structure ThreadBuf (K : Type*) where
  qk : ℕ → K
  qkMax : ℕ → WithBot K
  qkSum : ℕ → K
  dst : ℕ → K
  qkReduced : ℕ → K

section Index

/-- The position of an offset in nested loops, and what is carried out of them. -/
def dataIndexInit (offset : ℕ) : List ℕ → ℕ × List ℕ
  | [] => (offset, [])
  | X :: rest =>
      let (offset, xs) := dataIndexInit offset rest
      (offset / X, offset % X :: xs)

/-- The next position, and whether the outermost loop starts again. -/
def dataIndexStep : List ℕ → List ℕ → Bool × List ℕ
  | x :: xs, X :: rest =>
      let (carry, xs) := dataIndexStep xs rest
      if carry then
        let x := if x + 1 = X then 0 else x + 1
        (x == 0, x :: xs)
      else (false, x :: xs)
  | _, _ => (true, [])

/-- One number on, the remainder starts again when it reaches the divisor. -/
theorem succ_div_mod {X : ℕ} (hX : 0 < X) (o : ℕ) :
    (o + 1) / X = o / X + (o % X + 1 == X).toNat ∧
      (o + 1) % X = if o % X + 1 = X then 0 else o % X + 1 := by
  have ho := Nat.div_add_mod o X
  have hlt := Nat.mod_lt o hX
  rw [Nat.div_mod_unique hX]
  split_ifs with h
  · simp only [h, beq_self_eq_true, Bool.toNat_true, Nat.mul_succ]
    omega
  · simp only [beq_eq_false_iff_ne.mpr h, Bool.toNat_false, Nat.add_zero]
    omega

/-- Stepping goes to the position of the next offset. -/
theorem dataIndexStep_init (dims : List ℕ) (hdims : ∀ X ∈ dims, 0 < X) (z : ℕ) :
    ∃ carry, dataIndexStep (dataIndexInit z dims).2 dims = (carry, (dataIndexInit (z + 1) dims).2) ∧
      (dataIndexInit (z + 1) dims).1 = (dataIndexInit z dims).1 + carry.toNat := by
  induction dims with
  | nil => exact ⟨true, rfl, rfl⟩
  | cons X rest ih =>
      rcases ih fun Y hY => hdims Y (List.mem_cons_of_mem _ hY) with ⟨carry, hstep, hinit⟩
      have hX : 0 < X := hdims X List.mem_cons_self
      simp only [dataIndexInit, dataIndexStep, hstep, hinit]
      cases carry with
      | false => exact ⟨false, rfl, rfl⟩
      | true =>
          generalize (dataIndexInit z rest).1 = o
          rcases succ_div_mod hX o with ⟨hdiv, hmod⟩
          refine ⟨o % X + 1 == X, ?_, hdiv⟩
          simp only [Bool.toNat_true, hmod, if_true]
          by_cases h : o % X + 1 = X <;> simp [h]

end Index

section Kernels

variable {K : Type*} [Field K]

/-- `C ← alpha · A · B + beta · C` on row-major matrices with the given row strides, where
`B` may be transposed. -/
def gemm (transB : Bool) (m n k : ℕ) (alpha : K) (a : ℕ → K) (lda : ℕ) (b : ℕ → K) (ldb : ℕ)
    (beta : K) (c : ℕ → K) (ldc : ℕ) : ℕ → K := fun p =>
  let row := p / ldc
  let col := p % ldc
  if row < m ∧ col < n then
    alpha * ∑ l ∈ Finset.range k,
      a (row * lda + l) * b (if transB then col * ldb + l else l * ldb + col) + beta * c p
  else c p

/-- `_vec_max_kernel` -/
def vecMaxKernel [LinearOrder K] (a : ℕ → K) (size : ℕ) : WithBot K :=
  (Finset.range size).sup fun c => (a c : WithBot K)

/-- `_exp_reduce_sum_fusion_kernel`: what is stored, and its sum. -/
def expReduceSumFusionKernel (exp : K → K) (a : ℕ → K) (size : ℕ) (val : WithBot K) :
    (ℕ → K) × K :=
  (fun c => expSub exp (a c) val, ∑ c ∈ Finset.range size, expSub exp (a c) val)

/-- The given scale, or one over the root of the head size. -/
def calculateScale (sqrt : K → K) (query : Tensor K) (scale : Option K) : K :=
  scale.getD (1 / sqrt (query.size 3 : K))

end Kernels

/-- The template parameters, the arguments and the two functions of the numbers. -/
structure FlashDecode (K : Type*) where
  exp : K → K
  sqrt : K → K
  qSplit : ℕ
  kvSplitSize : ℕ
  isReducedType : Bool
  output : Tensor K
  query : Tensor K
  key : Tensor K
  value : Tensor K
  seqLens : ℕ → ℕ
  startLoc : ℕ → ℕ
  scale : Option K

namespace ThreadBuf

variable {K : Type*}

/-- The memory of the weights, `conditional_data_ptr(qk_data, qk_reduced_data)`. -/
def weights (isReducedType : Bool) (buf : ThreadBuf K) : ℕ → K :=
  if isReducedType then buf.qkReduced else buf.qk

def setWeights (isReducedType : Bool) (buf : ThreadBuf K) (w : ℕ → K) : ThreadBuf K :=
  if isReducedType then { buf with qkReduced := w } else { buf with qk := w }

end ThreadBuf

namespace FlashDecode

variable {K : Type*} [Field K] [LinearOrder K] (c : FlashDecode K)

def batchSize : ℕ := c.query.size 0
def qSize : ℕ := c.query.size 1
def numHead : ℕ := c.query.size 2
def headSize : ℕ := c.query.size 3
def numKvHead : ℕ := c.key.size 1
def kvGroupNum : ℕ := c.numHead / c.numKvHead
def scalingFactor : K := calculateScale c.sqrt c.query c.scale

def qSlice : ℕ :=
  let qSplitSize := if c.qSplit > c.qSize then c.qSize else c.qSplit
  (c.qSize - 1) / qSplitSize + 1

/-- The body of the loop over the rows of a block. -/
def updateRow (n kvBlockSize : ℕ) (buf : ThreadBuf K) (row : ℕ) : ThreadBuf K :=
  let a := fun t => buf.qk (row * kvBlockSize + t)
  let tmpMax := vecMaxKernel a kvBlockSize
  let tmpMax := if buf.qkMax row > tmpMax then buf.qkMax row else tmpMax
  let (stored, tmpSum) := expReduceSumFusionKernel c.exp a kvBlockSize tmpMax
  let buf := buf.setWeights c.isReducedType
    (copyRows (buf.weights c.isReducedType) (row * kvBlockSize) stored 0 kvBlockSize)
  let expTmp := expSub c.exp (buf.qkMax row) tmpMax
  { buf with
    qkSum := Function.update buf.qkSum row (tmpSum + expTmp * buf.qkSum row)
    qkMax := Function.update buf.qkMax row tmpMax
    dst :=
      if n > 0 then
        copyRows buf.dst (row * c.headSize)
          (fun d => buf.dst (row * c.headSize + d) * expTmp) 0 c.headSize
      else buf.dst }

/-- The body of the loop over the blocks of keys, for sequence `i` and KV head `j`. -/
def kvBlock (i j n : ℕ) (buf : ThreadBuf K) : ThreadBuf K :=
  let m := j * c.kvGroupNum
  let startPos := c.startLoc i
  let kvBlockSize := min c.kvSplitSize (c.seqLens i - n)
  let buf := { buf with
    qk := gemm true c.kvGroupNum kvBlockSize c.headSize c.scalingFactor
      (fun p => c.query.data (i * c.query.stride 0 + m * c.query.stride 2 + p)) (c.query.stride 2)
      (fun p => c.key.data (j * c.key.stride 1 + (startPos + n) * c.key.stride 0 + p))
      (c.key.stride 0) 0 buf.qk kvBlockSize }
  let buf := (List.range c.kvGroupNum).foldl (c.updateRow n kvBlockSize) buf
  { buf with
    dst := gemm false c.kvGroupNum c.headSize kvBlockSize 1 (buf.weights c.isReducedType)
      kvBlockSize
      (fun p => c.value.data (j * c.value.stride 1 + (startPos + n) * c.value.stride 0 + p))
      (c.value.stride 0) (if n = 0 then 0 else 1) buf.dst c.headSize }

/-- The loop over the blocks of keys. It ends because a split has at least one key. -/
def kvLoop (i j n : ℕ) (buf : ThreadBuf K) : ThreadBuf K :=
  if _h : n < c.seqLens i ∧ 0 < c.kvSplitSize then
    kvLoop i j (n + c.kvSplitSize) (c.kvBlock i j n buf)
  else buf
  termination_by c.seqLens i - n

/-- One pair of a sequence and a KV head: the buffers after it, and the rows written, each
with the place where it starts. -/
def decodePair (i j : ℕ) (buf : ThreadBuf K) : ThreadBuf K × List (ℕ × List K) :=
  let m := j * c.kvGroupNum
  let buf := { buf with
    qkMax := fun row => if row < c.kvGroupNum then ⊥ else buf.qkMax row
    qkSum := fun row => if row < c.kvGroupNum then 0 else buf.qkSum row }
  let buf := c.kvLoop i j 0 buf
  (buf, (List.range c.kvGroupNum).map fun row =>
    let sumReciprocal := 1 / buf.qkSum row
    (i * c.output.stride 0 + (m + row) * c.output.stride 2,
      (List.range c.headSize).map fun d => buf.dst (row * c.headSize + d) * sumReciprocal))

/-- The sizes of the nested loops of the range. -/
def dims : List ℕ := [c.batchSize, c.numKvHead, c.qSlice]

/-- `steps` rounds of the loop of a thread from a position on. -/
def decodeRounds : ℕ → List ℕ → ThreadBuf K → List (ℕ × List K)
  | 0, _, _ => []
  | steps + 1, index, buf =>
      let (buf, rows) := c.decodePair (index.getD 0 0) (index.getD 1 0) buf
      rows ++ decodeRounds steps (dataIndexStep index c.dims).2 buf

/-- The range `[begin, end)` of a thread, whose buffers are as an earlier range left
them. -/
structure Chunk (K : Type*) where
  first : ℕ
  last : ℕ
  buf : ThreadBuf K

def decodeChunk (chunk : Chunk K) : List (ℕ × List K) :=
  c.decodeRounds (chunk.last - chunk.first) (dataIndexInit chunk.first c.dims).2 chunk.buf

/-- The chunks are disjoint and together the whole range. -/
def Chunked (total : ℕ) (chunks : List (Chunk K)) : Prop :=
  (chunks.flatMap fun chunk => List.range' chunk.first (chunk.last - chunk.first)).Perm
    (List.range total)

/-- `cpu_flash_decode_gqa`: the rows that the chunks write. -/
def cpuFlashDecodeGqa (chunks : List (Chunk K)) : Except String (List (ℕ × List K)) :=
  if c.query.size 3 = c.value.size 2 ∧ c.key.size 2 = c.value.size 2 then
    .ok (chunks.flatMap c.decodeChunk)
  else .error "token_attention_cpu: Q/K/V should have the same head size"

/-- The entry of a query head. -/
def q (i h d : ℕ) : K := c.query.data (i * c.query.stride 0 + h * c.query.stride 2 + d)

/-- The entry of a KV head in a row of the keys. -/
def k (t j d : ℕ) : K := c.key.data (t * c.key.stride 0 + j * c.key.stride 1 + d)

def v (t j d : ℕ) : K := c.value.data (t * c.value.stride 0 + j * c.value.stride 1 + d)

/-- The scaled product of a query head with key `t` of its sequence. -/
def score (i h t : ℕ) : K :=
  c.scalingFactor *
    ∑ d ∈ Finset.range c.headSize, c.q i h d * c.k (c.startLoc i + t) (h / c.kvGroupNum) d

/-- Plain attention of a query head over the keys of its sequence. -/
def attention (i h d : ℕ) : K :=
  ∑ t ∈ Finset.range (c.seqLens i),
    softmax c.exp (c.score i h) (Finset.range (c.seqLens i)) t *
      c.v (c.startLoc i + t) (h / c.kvGroupNum) d

end FlashDecode

section Rows

variable {K : Type*}

/-- Copying a row of `w` entries leaves the other rows. -/
theorem copyRows_row (dst src : ℕ → K) {r row w t : ℕ} (ht : t < w) :
    copyRows dst (r * w) src 0 w (row * w + t) = if row = r then src t else dst (row * w + t) := by
  rcases Nat.lt_trichotomy row r with h | rfl | h
  · have hmul : (row + 1) * w ≤ r * w := Nat.mul_le_mul_right w h
    rw [Nat.succ_mul] at hmul
    rw [if_neg h.ne, copyRows_below (by omega)]
  · rw [if_pos rfl, copyRows_add ht, Nat.zero_add]
  · have hmul : (r + 1) * w ≤ row * w := Nat.mul_le_mul_right w h
    rw [Nat.succ_mul] at hmul
    rw [if_neg h.ne', copyRows_above (by omega)]

/-- An entry of a product. -/
theorem gemm_at [Field K] {transB : Bool} {m n k : ℕ} {alpha : K} {a : ℕ → K} {lda : ℕ}
    {b : ℕ → K} {ldb : ℕ} {beta : K} {c : ℕ → K} {row col : ℕ} (hrow : row < m) (hcol : col < n) :
    gemm transB m n k alpha a lda b ldb beta c n (row * n + col) =
      alpha * ∑ l ∈ Finset.range k,
        a (row * lda + l) * b (if transB then col * ldb + l else l * ldb + col) +
          beta * c (row * n + col) := by
  rcases mul_add_div_mod (i := row) hcol with ⟨hdiv, hmod⟩
  simp only [gemm, hdiv, hmod]
  rw [if_pos ⟨hrow, hcol⟩]

/-- The largest of the scores of a block. -/
theorem vecMaxKernel_shift [LinearOrder K] {n w : ℕ} {a f : ℕ → K}
    (h : ∀ t < w, a t = f (n + t)) :
    vecMaxKernel a w = (Finset.Ico n (n + w)).sup fun t => (f t : WithBot K) := by
  have himage : Finset.Ico n (n + w) = (Finset.range w).image (n + ·) := by
    rw [Finset.range_eq_Ico, Finset.image_add_left_Ico, Nat.add_zero]
  rw [himage, Finset.sup_image]
  exact Finset.sup_congr rfl fun t ht => by simp [h t (Finset.mem_range.mp ht)]

end Rows

namespace ThreadBuf

variable {K : Type*}

@[simp] theorem qkMax_setWeights (red : Bool) (buf : ThreadBuf K) (w : ℕ → K) :
    (buf.setWeights red w).qkMax = buf.qkMax := by
  cases red <;> rfl

@[simp] theorem qkSum_setWeights (red : Bool) (buf : ThreadBuf K) (w : ℕ → K) :
    (buf.setWeights red w).qkSum = buf.qkSum := by
  cases red <;> rfl

@[simp] theorem dst_setWeights (red : Bool) (buf : ThreadBuf K) (w : ℕ → K) :
    (buf.setWeights red w).dst = buf.dst := by
  cases red <;> rfl

variable [LinearOrder K]

/-- The largest score of a row, with those of a block of `w` keys. -/
def rowMax (buf : ThreadBuf K) (w row : ℕ) : WithBot K :=
  buf.qkMax row ⊔ vecMaxKernel (fun t => buf.qk (row * w + t)) w

theorem rowMax_eq_ite (buf : ThreadBuf K) (w row : ℕ) :
    (if buf.qkMax row > vecMaxKernel (fun t => buf.qk (row * w + t)) w then
      buf.qkMax row else vecMaxKernel (fun t => buf.qk (row * w + t)) w) = buf.rowMax w row := by
  rw [rowMax]
  split_ifs with h
  · rw [max_eq_left h.le]
  · rw [max_eq_right (not_lt.mp h)]

end ThreadBuf

namespace FlashDecode

section Sizes

variable {K : Type*} {c : FlashDecode K}

theorem qSlice_eq_one (hq : c.qSize = 1) : c.qSlice = 1 := by
  simp only [qSlice, hq]
  split_ifs <;> simp

/-- The pairs in order are the rows of all heads of all sequences. -/
theorem pairs_eq_rows {α : Type*} (hdvd : c.numKvHead ∣ c.numHead) (row : ℕ → ℕ → α) :
    ((List.range (c.batchSize * c.numKvHead)).flatMap fun z =>
      (List.range c.kvGroupNum).map fun r =>
        row (z / c.numKvHead % c.batchSize) (z % c.numKvHead * c.kvGroupNum + r)) =
    (List.range c.batchSize ×ˢ List.range c.numHead).map fun p => row p.1 p.2 := by
  have hheads : c.numHead = c.numKvHead * c.kvGroupNum := (Nat.mul_div_cancel' hdvd).symm
  rw [flatMap_range_mul, hheads]
  simp only [SProd.sprod, List.product, List.map_flatMap, List.map_map]
  refine List.flatMap_congr fun i hi => ?_
  have hi := List.mem_range.mp hi
  refine Eq.trans ?_ (map_range_mul (row i) c.numKvHead c.kvGroupNum).symm
  refine List.flatMap_congr fun j hj => ?_
  have hj := List.mem_range.mp hj
  rcases mul_add_div_mod (i := i) hj with ⟨hdiv, hmod⟩
  rw [hdiv, hmod, Nat.mod_eq_of_lt hi]

end Sizes

variable {K : Type*} [Field K] {c : FlashDecode K}

section Products

variable {i j n w row d : ℕ}

/-- The first product of a block is the scores of its keys. -/
theorem gemm_score (hrow : row < c.kvGroupNum) {t : ℕ} (ht : t < w) {dst : ℕ → K} :
    gemm true c.kvGroupNum w c.headSize c.scalingFactor
      (fun p => c.query.data (i * c.query.stride 0 + j * c.kvGroupNum * c.query.stride 2 + p))
      (c.query.stride 2)
      (fun p => c.key.data (j * c.key.stride 1 + (c.startLoc i + n) * c.key.stride 0 + p))
      (c.key.stride 0) 0 dst w (row * w + t) = c.score i (j * c.kvGroupNum + row) (n + t) := by
  have hhead : (j * c.kvGroupNum + row) / c.kvGroupNum = j := (mul_add_div_mod hrow).1
  rw [gemm_at hrow ht, score, hhead, zero_mul, add_zero]
  congr 1
  refine Finset.sum_congr rfl fun l _ => ?_
  simp only [q, k, if_true]
  congr 2 <;> ring

theorem gemm_value (hrow : row < c.kvGroupNum) (hd : d < c.headSize) {weights dst : ℕ → K}
    {beta : K} :
    gemm false c.kvGroupNum c.headSize w 1 weights w
      (fun p => c.value.data (j * c.value.stride 1 + (c.startLoc i + n) * c.value.stride 0 + p))
      (c.value.stride 0) beta dst c.headSize (row * c.headSize + d) =
    ∑ t ∈ Finset.range w, weights (row * w + t) * c.v (c.startLoc i + (n + t)) j d +
      beta * dst (row * c.headSize + d) := by
  rw [gemm_at hrow hd, one_mul]
  congr 1
  refine Finset.sum_congr rfl fun t _ => ?_
  simp only [v, Bool.false_eq_true, if_false]
  congr 2
  ring

end Products

variable [LinearOrder K]

section UpdateRow

variable {n w row : ℕ} {buf : ThreadBuf K}

theorem updateRow_weights {row' t : ℕ} (ht : t < w) :
    (c.updateRow n w buf row).weights c.isReducedType (row' * w + t) =
      if row' = row then expSub c.exp (buf.qk (row * w + t)) (buf.rowMax w row)
      else buf.weights c.isReducedType (row' * w + t) := by
  refine Eq.trans ?_ (copyRows_row (buf.weights c.isReducedType)
    (fun t => expSub c.exp (buf.qk (row * w + t)) (buf.rowMax w row)) ht)
  simp only [updateRow, expReduceSumFusionKernel, ThreadBuf.rowMax_eq_ite, ThreadBuf.setWeights,
    ThreadBuf.weights]
  cases c.isReducedType <;> rfl

/-- The scores of the other rows stay. -/
theorem updateRow_qk {row' t : ℕ} (hne : row' ≠ row) (ht : t < w) :
    (c.updateRow n w buf row).qk (row' * w + t) = buf.qk (row' * w + t) := by
  simp only [updateRow, ThreadBuf.setWeights, ThreadBuf.weights]
  cases c.isReducedType with
  | true => rfl
  | false => exact (copyRows_row _ _ ht).trans (if_neg hne)

theorem updateRow_qkMax : (c.updateRow n w buf row).qkMax =
    Function.update buf.qkMax row (buf.rowMax w row) := by
  simp only [updateRow, ThreadBuf.rowMax_eq_ite, ThreadBuf.qkMax_setWeights]

theorem updateRow_qkSum : (c.updateRow n w buf row).qkSum =
    Function.update buf.qkSum row
      (∑ t ∈ Finset.range w, expSub c.exp (buf.qk (row * w + t)) (buf.rowMax w row) +
        expSub c.exp (buf.qkMax row) (buf.rowMax w row) * buf.qkSum row) := by
  simp only [updateRow, expReduceSumFusionKernel, ThreadBuf.rowMax_eq_ite, ThreadBuf.qkMax_setWeights,
    ThreadBuf.qkSum_setWeights]

theorem updateRow_dst {row' d : ℕ} (hd : d < c.headSize) :
    (c.updateRow n w buf row).dst (row' * c.headSize + d) =
      if row' = row ∧ n > 0 then
        buf.dst (row * c.headSize + d) * expSub c.exp (buf.qkMax row) (buf.rowMax w row)
      else buf.dst (row' * c.headSize + d) := by
  simp only [updateRow, ThreadBuf.rowMax_eq_ite, ThreadBuf.qkMax_setWeights, ThreadBuf.dst_setWeights]
  by_cases hn : n > 0
  · rw [if_pos hn, copyRows_row _ _ hd]
    simp only [hn, and_true]
  · rw [if_neg hn, if_neg fun h => hn h.2]

end UpdateRow

/-- The loop over the rows of a block is through with the first rows. -/
structure RowsDone (c : FlashDecode K) (n w : ℕ) (buf : ThreadBuf K) (done : ℕ)
    (buf' : ThreadBuf K) : Prop where
  qk : ∀ row t, done ≤ row → t < w → buf'.qk (row * w + t) = buf.qk (row * w + t)
  weights : ∀ row t, row < done → t < w → buf'.weights c.isReducedType (row * w + t) =
    expSub c.exp (buf.qk (row * w + t)) (buf.rowMax w row)
  qkMax : ∀ row, buf'.qkMax row = if row < done then buf.rowMax w row else buf.qkMax row
  qkSum : ∀ row, buf'.qkSum row =
    if row < done then
      ∑ t ∈ Finset.range w, expSub c.exp (buf.qk (row * w + t)) (buf.rowMax w row) +
        expSub c.exp (buf.qkMax row) (buf.rowMax w row) * buf.qkSum row
    else buf.qkSum row
  dst : ∀ row d, d < c.headSize → buf'.dst (row * c.headSize + d) =
    if row < done ∧ n > 0 then
      buf.dst (row * c.headSize + d) * expSub c.exp (buf.qkMax row) (buf.rowMax w row)
    else buf.dst (row * c.headSize + d)

section RowsDone

variable {n w done : ℕ} {buf buf' : ThreadBuf K}

/-- The next row is as it was before the loop. -/
theorem RowsDone.rowMax_eq (h : RowsDone c n w buf done buf') :
    buf'.rowMax w done = buf.rowMax w done := by
  rw [ThreadBuf.rowMax, ThreadBuf.rowMax, h.qkMax, if_neg (lt_irrefl done)]
  congr 1
  refine Finset.sup_congr rfl fun t ht => ?_
  simp only [h.qk done t le_rfl (Finset.mem_range.mp ht)]

theorem RowsDone.step (h : RowsDone c n w buf done buf') :
    RowsDone c n w buf (done + 1) (c.updateRow n w buf' done) := by
  have hmax : buf'.qkMax done = buf.qkMax done := by rw [h.qkMax, if_neg (lt_irrefl done)]
  have hsum : buf'.qkSum done = buf.qkSum done := by rw [h.qkSum, if_neg (lt_irrefl done)]
  constructor
  case qk =>
    intro row t hrow ht
    rw [updateRow_qk (by omega) ht, h.qk row t (by omega) ht]
  case weights =>
    intro row t hrow ht
    rw [updateRow_weights ht, h.rowMax_eq, h.qk done t le_rfl ht]
    split_ifs with heq
    · rw [heq]
    · exact h.weights row t (by omega) ht
  case qkMax =>
    intro row
    rw [updateRow_qkMax, h.rowMax_eq, Function.update_apply, h.qkMax]
    split_ifs with heq
    all_goals first | omega | rw [heq] | rfl
  case qkSum =>
    intro row
    have hblock : ∑ t ∈ Finset.range w, expSub c.exp (buf'.qk (done * w + t)) (buf.rowMax w done) =
        ∑ t ∈ Finset.range w, expSub c.exp (buf.qk (done * w + t)) (buf.rowMax w done) :=
      Finset.sum_congr rfl fun t ht => by rw [h.qk done t le_rfl (Finset.mem_range.mp ht)]
    rw [updateRow_qkSum, h.rowMax_eq, hblock, hmax, hsum, Function.update_apply, h.qkSum]
    split_ifs with heq
    all_goals first | omega | rw [heq] | rfl
  case dst =>
    intro row d hd
    have hdst : buf'.dst (done * c.headSize + d) = buf.dst (done * c.headSize + d) := by
      rw [h.dst done d hd, if_neg fun hlt => lt_irrefl done hlt.1]
    rw [updateRow_dst hd, h.rowMax_eq, hmax, hdst, h.dst row d hd]
    split_ifs with heq
    all_goals first | omega | rw [heq.1] | rfl

theorem rowsDone_foldl (c : FlashDecode K) (n w : ℕ) (buf : ThreadBuf K) (rows : ℕ) :
    RowsDone c n w buf rows ((List.range rows).foldl (c.updateRow n w) buf) := by
  induction rows with
  | zero => constructor <;> simp
  | succ rows ih =>
      rw [List.range_succ, List.foldl_append]
      exact ih.step

end RowsDone

/-- What is kept for a row and an entry of its head. -/
def rowState (c : FlashDecode K) (buf : ThreadBuf K) (row d : ℕ) : Running K K :=
  ⟨buf.qkMax row, buf.qkSum row, buf.dst (row * c.headSize + d)⟩

section Blocks

variable {i j n w row d : ℕ} {buf : ThreadBuf K}

/-- **A block is absorbed into the state of every row.** In the first block there is
nothing to rescale, and the product does not add to what was there. -/
theorem kvBlock_absorb (hrow : row < c.kvGroupNum) (hd : d < c.headSize)
    (hfirst : n = 0 → buf.qkMax row = ⊥) :
    c.rowState (c.kvBlock i j n buf) row d =
      (c.rowState buf row d).absorb c.exp (c.score i (j * c.kvGroupNum + row))
        (fun t => c.v (c.startLoc i + t) j d)
        (Finset.Ico n (n + min c.kvSplitSize (c.seqLens i - n))) := by
  simp only [kvBlock]
  generalize min c.kvSplitSize (c.seqLens i - n) = w
  -- The buffers after the first product and after the loop over the rows.
  generalize hb : ({ buf with qk := gemm true _ _ _ _ _ _ _ _ _ _ _ } : ThreadBuf K) = b
  have hdone := rowsDone_foldl c n w b c.kvGroupNum
  generalize (List.range c.kvGroupNum).foldl (c.updateRow n w) b = b' at hdone ⊢
  have hscore : ∀ t < w, b.qk (row * w + t) = c.score i (j * c.kvGroupNum + row) (n + t) := by
    intro t ht
    rw [← hb]
    exact gemm_score hrow ht
  have hmax : b.rowMax w row = buf.qkMax row ⊔
      (Finset.Ico n (n + w)).sup fun t => (c.score i (j * c.kvGroupNum + row) t : WithBot K) := by
    rw [ThreadBuf.rowMax, vecMaxKernel_shift hscore, ← hb]
  have hdst : b.dst = buf.dst := by rw [← hb]
  have hbmax : b.qkMax = buf.qkMax := by rw [← hb]
  have hbsum : b.qkSum = buf.qkSum := by rw [← hb]
  simp only [rowState, Running.absorb, Running.mk.injEq]
  refine ⟨?_, ?_, ?_⟩
  · rw [hdone.qkMax, if_pos hrow, hmax]
  · rw [hdone.qkSum, if_pos hrow, hbmax, hbsum, ← hmax, Finset.sum_Ico_eq_sum_range,
      Nat.add_sub_cancel_left]
    congr 1
    exact Finset.sum_congr rfl fun t ht => by rw [hscore t (Finset.mem_range.mp ht)]
  · rw [gemm_value hrow hd, ← hmax, Finset.sum_Ico_eq_sum_range, Nat.add_sub_cancel_left]
    congr 1
    · refine Finset.sum_congr rfl fun t ht => ?_
      have ht := Finset.mem_range.mp ht
      rw [hdone.weights row t hrow ht, hscore t ht, smul_eq_mul]
    · rw [hdone.dst row d hd, hdst, hbmax, smul_eq_mul]
      by_cases hn : n = 0
      · rw [if_pos hn, hfirst hn, expSub_bot, zero_mul, zero_mul]
      · rw [if_neg hn, if_pos ⟨hrow, Nat.pos_of_ne_zero hn⟩, one_mul, mul_comm]

/-- **After the loop every row has absorbed all keys of the sequence.** -/
theorem kvLoop_absorbed (laws : ExpLaws c.exp) (hsplit : 0 < c.kvSplitSize)
    (hrow : row < c.kvGroupNum) (hd : d < c.headSize)
    (h : Absorbed c.exp (c.score i (j * c.kvGroupNum + row)) (fun t => c.v (c.startLoc i + t) j d)
      (Finset.range (min n (c.seqLens i))) (c.rowState buf row d)) :
    Absorbed c.exp (c.score i (j * c.kvGroupNum + row)) (fun t => c.v (c.startLoc i + t) j d)
      (Finset.range (c.seqLens i)) (c.rowState (c.kvLoop i j n buf) row d) := by
  fun_induction kvLoop c i j n buf with
  | case1 n buf hn ih =>
      refine ih ?_
      rw [Nat.min_eq_left hn.1.le] at h
      have hfirst : n = 0 → buf.qkMax row = ⊥ := by
        rintro rfl
        exact h.max
      have hnext : min (n + c.kvSplitSize) (c.seqLens i) =
          n + min c.kvSplitSize (c.seqLens i - n) := by omega
      have hdisj : Disjoint (Finset.range n)
          (Finset.Ico n (n + min c.kvSplitSize (c.seqLens i - n))) := by
        rw [Finset.range_eq_Ico]
        exact Finset.Ico_disjoint_Ico_consecutive 0 n _
      have hkeys : Finset.range n ∪ Finset.Ico n (n + min c.kvSplitSize (c.seqLens i - n)) =
          Finset.range (min (n + c.kvSplitSize) (c.seqLens i)) := by
        rw [hnext, Finset.range_eq_Ico, Finset.range_eq_Ico,
          Finset.Ico_union_Ico_eq_Ico (Nat.zero_le n) (Nat.le_add_right n _)]
      rw [← hkeys, kvBlock_absorb hrow hd hfirst]
      exact h.absorb laws hdisj
  | case2 n buf hn =>
      have hlen : c.seqLens i ≤ n := not_lt.mp fun hlt => hn ⟨hlt, hsplit⟩
      rwa [Nat.min_eq_right hlen] at h

end Blocks

section Pairs

variable {i j : ℕ}

/-- The row of the output for a query head, and where it starts. -/
def outputRow (c : FlashDecode K) (i h : ℕ) : ℕ × List K :=
  (i * c.output.stride 0 + h * c.output.stride 2, (List.range c.headSize).map (c.attention i h))

/-- A pair writes the rows of the query heads of its group. -/
theorem decodePair_rows (laws : ExpLaws c.exp) (hsplit : 0 < c.kvSplitSize)
    (hlen : 1 ≤ c.seqLens i) (buf : ThreadBuf K) :
    (c.decodePair i j buf).2 =
      (List.range c.kvGroupNum).map fun row => c.outputRow i (j * c.kvGroupNum + row) := by
  simp only [decodePair, outputRow]
  refine List.map_congr_left fun row hrow => Prod.ext rfl ?_
  have hrow := List.mem_range.mp hrow
  refine List.map_congr_left fun d hd => ?_
  have hd := List.mem_range.mp hd
  let start : ThreadBuf K := { buf with
    qkMax := fun row => if row < c.kvGroupNum then ⊥ else buf.qkMax row
    qkSum := fun row => if row < c.kvGroupNum then 0 else buf.qkSum row }
  have hnothing : Absorbed c.exp (c.score i (j * c.kvGroupNum + row))
      (fun t => c.v (c.startLoc i + t) j d) (Finset.range (min 0 (c.seqLens i)))
      (c.rowState start row d) :=
    ⟨by simp [rowState, start, hrow], by simp [rowState, start, hrow], fun hne => by simp at hne⟩
  have habs := kvLoop_absorbed laws hsplit hrow hd hnothing
  have hhead : (j * c.kvGroupNum + row) / c.kvGroupNum = j := (mul_add_div_mod hrow).1
  have haverage := habs.average laws (Finset.nonempty_range_iff.mpr (by omega))
  simp only [rowState, smul_eq_mul] at haverage
  rw [mul_comm, haverage, attention, hhead]

end Pairs

section Rounds

/-- A thread writes the rows of its pairs, in order. -/
theorem decodeRounds_eq (laws : ExpLaws c.exp) (hsplit : 0 < c.kvSplitSize)
    (hslice : c.qSlice = 1) (hbatch : 0 < c.batchSize) (hkv : 0 < c.numKvHead)
    (hlens : ∀ i < c.batchSize, 1 ≤ c.seqLens i) (steps z : ℕ) (buf : ThreadBuf K) :
    c.decodeRounds steps (dataIndexInit z c.dims).2 buf =
      (List.range' z steps).flatMap fun z =>
        (List.range c.kvGroupNum).map fun row =>
          c.outputRow (z / c.numKvHead % c.batchSize) (z % c.numKvHead * c.kvGroupNum + row) := by
  induction steps generalizing z buf with
  | zero => rfl
  | succ steps ih =>
      have hdims : ∀ X ∈ c.dims, 0 < X := by
        simp [dims, hslice, hbatch, hkv]
      have hindex : (dataIndexInit z c.dims).2 =
          [z / c.numKvHead % c.batchSize, z % c.numKvHead, 0] := by
        simp [dims, dataIndexInit, hslice, Nat.mod_one]
      rcases dataIndexStep_init c.dims hdims z with ⟨carry, hstep, -⟩
      simp only [decodeRounds, hstep, ih]
      rw [List.range'_succ, List.flatMap_cons, hindex]
      congr 1
      exact decodePair_rows laws hsplit (hlens _ (Nat.mod_lt _ hbatch)) buf

end Rounds

section Results

/-- **Blocked decode attention is plain attention.** However the pairs are split among
the threads, the row of every head of every sequence is written once, and it is the
softmax average over the keys of the sequence. -/
theorem cpuFlashDecodeGqa_rows (laws : ExpLaws c.exp)
    (hsize : c.query.size 3 = c.value.size 2 ∧ c.key.size 2 = c.value.size 2)
    (hq : c.qSize = 1) (hsplit : 0 < c.kvSplitSize) (hdvd : c.numKvHead ∣ c.numHead)
    (hlens : ∀ i < c.batchSize, 1 ≤ c.seqLens i) {chunks : List (Chunk K)}
    (hchunks : Chunked (c.batchSize * c.numKvHead) chunks) :
    ∃ rows, c.cpuFlashDecodeGqa chunks = .ok rows ∧
      rows.Perm ((List.range c.batchSize ×ˢ List.range c.numHead).map fun p =>
        c.outputRow p.1 p.2) := by
  refine ⟨_, if_pos hsize, ?_⟩
  have hslice := qSlice_eq_one hq
  rw [← pairs_eq_rows hdvd c.outputRow]
  refine List.Perm.trans ?_ (hchunks.flatMap_right _)
  rw [List.flatMap_assoc]
  refine List.Perm.of_eq (List.flatMap_congr fun chunk hchunk => ?_)
  rcases Nat.eq_zero_or_pos (chunk.last - chunk.first) with hempty | hpos
  · simp [decodeChunk, decodeRounds, hempty]
  · -- A chunk that is not empty is inside the range, so there is something in it.
    have hmem : chunk.first ∈ List.range (c.batchSize * c.numKvHead) :=
      hchunks.subset (List.mem_flatMap.mpr ⟨chunk, hchunk, by simp [hpos]⟩)
    have htotal : 0 < c.batchSize * c.numKvHead := Nat.zero_lt_of_lt (List.mem_range.mp hmem)
    exact decodeRounds_eq laws hsplit hslice (Nat.pos_of_mul_pos_right htotal)
      (Nat.pos_of_mul_pos_left htotal) hlens _ _ _

/-- Two query heads over one KV head, and three keys in blocks of two. -/
noncomputable def threeKeys : FlashDecode ℝ where
  exp := Real.exp
  sqrt := Real.sqrt
  qSplit := 32
  kvSplitSize := 2
  isReducedType := false
  output := ⟨fun d => [1, 1, 2, 1].getD d 0, fun d => [2, 2, 1, 1].getD d 0, fun _ => 0⟩
  query := ⟨fun d => [1, 1, 2, 1].getD d 0, fun d => [2, 2, 1, 1].getD d 0, fun p => p + 1⟩
  key := ⟨fun d => [4, 1, 1].getD d 0, fun _ => 1, fun p => p⟩
  value := ⟨fun d => [4, 1, 1].getD d 0, fun _ => 1, fun p => 10 * p⟩
  seqLens := fun _ => 3
  startLoc := fun _ => 1
  scale := none

theorem cpuFlashDecodeGqa_threeKeys :
    ∃ rows, threeKeys.cpuFlashDecodeGqa
        [⟨0, 1, ⟨fun _ => 0, fun _ => ⊥, fun _ => 0, fun _ => 0, fun _ => 0⟩⟩] = .ok rows ∧
      rows.Perm ((List.range threeKeys.batchSize ×ˢ List.range threeKeys.numHead).map fun p =>
        threeKeys.outputRow p.1 p.2) :=
  cpuFlashDecodeGqa_rows ⟨Real.exp_pos, Real.exp_add⟩ ⟨rfl, rfl⟩ rfl (Nat.two_pos) ⟨2, rfl⟩
    (fun _ _ => Nat.le_of_ble_eq_true rfl) (List.Perm.of_eq rfl)

end Results

end FlashDecode

end HarvestMoE
