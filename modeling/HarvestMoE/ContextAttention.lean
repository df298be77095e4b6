import HarvestMoE.FlashDecode
import HarvestMoE.Lib.Attention
import HarvestMoE.Lib.BlockSums
import Mathlib.Algebra.Order.BigOperators.Group.Finset

/-!
# Prefill attention on the GPU

A program of `_fwd_kernel` takes a block of rows of one sequence and one head. It goes over
the keys in blocks up to its own rows, masks what is behind each row, and keeps the average of
the values divided by the sum of their weights. The first launch compiles the kernel for its
sizes, and the later ones go through the compiled kernel, whatever their sizes are. Numbers are
exact here.

## Main definitions

* `FwdConsts`, `FwdKernel` — the constants and the arguments of the kernel.
* `FwdKernel.block`, `FwdKernel.program` — a block of keys, and the rows a program stores.
* `contextAttentionFwd` — a launch, with the kernel that is kept for the next one.
* `contextAttentionRun` — the launches of a process.
-/

namespace HarvestMoE

open Lib

/-- What the kernel is compiled for. -/
structure FwdConsts where
  kvGroupNum : ℕ
  blockM : ℕ
  blockDmodel : ℕ
  blockN : ℕ
  deriving DecidableEq, Repr

/-- The arguments of `_fwd_kernel`. -/
structure FwdKernel (K : Type*) extends FwdConsts where
  exp : K → K
  q : ℕ → K
  k : ℕ → K
  v : ℕ → K
  smScale : K
  bStartLoc : ℕ → ℕ
  bSeqlen : ℕ → ℕ
  strideQbs : ℕ
  strideQh : ℕ
  strideKbs : ℕ
  strideKh : ℕ
  strideVbs : ℕ
  strideVh : ℕ
  strideObs : ℕ
  strideOh : ℕ

/-- `m_i`, `l_i` and `acc` of the rows of a block. -/
structure FwdState (K : Type*) where
  mI : ℕ → WithBot K
  lI : ℕ → K
  acc : ℕ → ℕ → K

namespace FwdKernel

variable {K : Type*} [Field K] [LinearOrder K] (g : FwdKernel K) (curBatch curHead startM : ℕ)

def curKvHead : ℕ := curHead / g.kvGroupNum

/-- The position of a row of the block. -/
def offsM (r : ℕ) : ℕ := startM * g.blockM + r

def loadQ (r d : ℕ) : K :=
  if g.offsM startM r < g.bSeqlen curBatch then
    g.q ((g.bStartLoc curBatch + g.offsM startM r) * g.strideQbs + curHead * g.strideQh + d)
  else 0

def loadK (startN c d : ℕ) : K :=
  if startN + c < g.bSeqlen curBatch then
    g.k (c * g.strideKbs + g.curKvHead curHead * g.strideKh + d +
      (g.bStartLoc curBatch + startN) * g.strideKbs)
  else 0

def loadV (startN c d : ℕ) : K :=
  if startN + c < g.bSeqlen curBatch then
    g.v (c * g.strideVbs + g.curKvHead curHead * g.strideVh + d +
      (g.bStartLoc curBatch + startN) * g.strideVbs)
  else 0

/-- The scaled products, `-∞` behind the position of the row. -/
def qk (startN r c : ℕ) : WithBot K :=
  if g.offsM startM r ≥ startN + c then
    (((∑ d ∈ Finset.range g.blockDmodel,
      g.loadQ curBatch curHead startM r d * g.loadK curBatch curHead startN c d) * g.smScale : K) :
      WithBot K)
  else ⊥

/-- The largest score of a row in a block of keys. -/
def mIj (startN r : ℕ) : WithBot K :=
  (Finset.range g.blockN).sup (g.qk curBatch curHead startM startN r)

/-- The body of the loop over the blocks of keys. -/
def block (s : FwdState K) (startN : ℕ) : FwdState K :=
  let qk := g.qk curBatch curHead startM startN
  let mIj := g.mIj curBatch curHead startM startN
  let p := fun r c => expSub g.exp (qk r c) (mIj r)
  let lIj := fun r => ∑ c ∈ Finset.range g.blockN, p r c
  let mINew := fun r => s.mI r ⊔ mIj r
  let alpha := fun r => expSub g.exp (s.mI r) (mINew r)
  let beta := fun r => expSub g.exp (mIj r) (mINew r)
  let lINew := fun r => alpha r * s.lI r + beta r * lIj r
  let pScale := fun r => beta r / lINew r
  let accScale := fun r => s.lI r / lINew r * alpha r
  { mI := mINew
    lI := lINew
    acc := fun r d => s.acc r d * accScale r +
      ∑ c ∈ Finset.range g.blockN, p r c * pScale r * g.loadV curBatch curHead startN c d }

/-- The blocks of keys that a program goes over, none when it starts behind the sequence. -/
def keyBlocks : List ℕ :=
  let blockMask := if g.blockM * startM < g.bSeqlen curBatch then 1 else 0
  (List.range ((blockMask * (startM + 1) * g.blockM) ⌈/⌉ g.blockN)).map (· * g.blockN)

/-- What a program stores: the rows of its block that are in the sequence, each with the place
where it starts. -/
def program : List (ℕ × List K) :=
  let s := (g.keyBlocks curBatch startM).foldl (g.block curBatch curHead startM)
    ⟨fun _ => ⊥, fun _ => 0, fun _ _ => 0⟩
  (List.range g.blockM).filterMap fun r =>
    if g.offsM startM r < g.bSeqlen curBatch then
      some ((g.bStartLoc curBatch + g.offsM startM r) * g.strideObs + curHead * g.strideOh,
        (List.range g.blockDmodel).map (s.acc r))
    else none

end FwdKernel

/-- The arguments of `context_attention_fwd`, and the functions of the numbers. -/
structure ContextAttention (K : Type*) where
  exp : K → K
  sqrt : K → K
  q : Tensor K
  k : Tensor K
  v : Tensor K
  o : Tensor K
  bStartLoc : ℕ → ℕ
  bSeqLen : ℕ → ℕ
  batch : ℕ
  maxInputLen : ℕ

namespace ContextAttention

variable {K : Type*} [Field K] (c : ContextAttention K)

/-- The number of rows of a block, by `CUDA_CAPABILITY`. -/
def blockSize (capability : ℕ) : ℕ := if capability ≥ 8 then 128 else 64

/-- What a launch compiles the kernel for. -/
def consts (capability : ℕ) : FwdConsts where
  kvGroupNum := c.q.size 1 / c.k.size 1
  blockM := blockSize capability
  blockDmodel := c.k.size 2
  blockN := blockSize capability

/-- The sizes that the assertions let pass. -/
def SizesOk : Prop :=
  (c.q.size 2 = c.k.size 2 ∧ c.k.size 2 = c.v.size 2) ∧ c.k.size 2 ∈ [16, 32, 64, 128]

instance : Decidable c.SizesOk := inferInstanceAs (Decidable (_ ∧ _))

/-- The programs of a launch. -/
def grid (capability : ℕ) : List (ℕ × ℕ × ℕ) :=
  List.range c.batch ×ˢ List.range (c.q.size 1) ×ˢ
    List.range (c.maxInputLen ⌈/⌉ blockSize capability)

/-- The kernel on the arguments of a launch. -/
def kernel (consts : FwdConsts) : FwdKernel K where
  toFwdConsts := consts
  exp := c.exp
  q := c.q.data
  k := c.k.data
  v := c.v.data
  smScale := 1 / c.sqrt (c.q.size 2 : K)
  bStartLoc := c.bStartLoc
  bSeqlen := c.bSeqLen
  strideQbs := c.q.stride 0
  strideQh := c.q.stride 1
  strideKbs := c.k.stride 0
  strideKh := c.k.stride 1
  strideVbs := c.v.stride 0
  strideVh := c.v.stride 1
  strideObs := c.o.stride 0
  strideOh := c.o.stride 1

/-- The query of row `p`. -/
def qRow (p h d : ℕ) : K := c.q.data (p * c.q.stride 0 + h * c.q.stride 1 + d)

/-- The key and the value of row `p`. -/
def kvRow (p : ℕ) : KvRow K where
  key h d := c.k.data (p * c.k.stride 0 + h * c.k.stride 1 + d)
  value h d := c.v.data (p * c.v.stride 0 + h * c.v.stride 1 + d)

/-- The row of the output for a head at position `m` of sequence `b`: attention to the
positions up to it. -/
def outputRow (b h m : ℕ) : ℕ × List K :=
  ((c.bStartLoc b + m) * c.o.stride 0 + h * c.o.stride 1,
    (List.range (c.k.size 2)).map (gqaAttention c.exp (1 / c.sqrt (c.q.size 2 : K)) (c.k.size 2)
      (c.q.size 1 / c.k.size 1) (c.qRow (c.bStartLoc b + m))
      (fun t => c.kvRow (c.bStartLoc b + t)) (m + 1) h))

/-- The rows of all positions and heads of all sequences. -/
def outputRows : List (ℕ × List K) :=
  (List.range c.batch ×ˢ List.range (c.q.size 1)).flatMap fun p =>
    (List.range (c.bSeqLen p.1)).map (c.outputRow p.1 p.2)

/-- A launch: what its programs store in the given order, and the kernel that is kept. -/
def contextAttentionFwd [LinearOrder K] (capability : ℕ) (cachedKernel : Option FwdConsts)
    (order : List (ℕ × ℕ × ℕ)) : Option (List (ℕ × List K) × Option FwdConsts) :=
  if c.SizesOk then
    let consts := cachedKernel.getD (c.consts capability)
    some (order.flatMap fun p => (c.kernel consts).program p.1 p.2.1 p.2.2, some consts)
  else none

end ContextAttention

/-- The launches of a process, each with the order of its programs. -/
def contextAttentionRun {K : Type*} [Field K] [LinearOrder K] (capability : ℕ) :
    Option FwdConsts → List (ContextAttention K × List (ℕ × ℕ × ℕ)) →
      Option (List (List (ℕ × List K)))
  | _, [] => some []
  | cachedKernel, (c, order) :: launches =>
      (c.contextAttentionFwd capability cachedKernel order).bind fun (rows, cachedKernel) =>
        (contextAttentionRun capability cachedKernel launches).map (rows :: ·)

section Masked

variable {K M : Type*} [AddCommMonoid M]

/-- The keys of a block that are not behind a row. -/
def keysUpTo (m startN w : ℕ) : Finset ℕ := (Finset.Ico startN (startN + w)).filter (· ≤ m)

theorem keysUpTo_image (m startN w : ℕ) :
    keysUpTo m startN w = ((Finset.range w).filter (startN + · ≤ m)).image (startN + ·) := by
  have himage : Finset.Ico startN (startN + w) = (Finset.range w).image (startN + ·) := by
    rw [Finset.range_eq_Ico, Finset.image_add_left_Ico, Nat.add_zero]
  rw [keysUpTo, himage, Finset.filter_image]

/-- The largest of the scores that are not masked. -/
theorem sup_masked [LinearOrder K] (score : ℕ → K) (m startN w : ℕ) :
    ((Finset.range w).sup fun c =>
      if m ≥ startN + c then (score (startN + c) : WithBot K) else ⊥) =
      (keysUpTo m startN w).sup fun t => (score t : WithBot K) := by
  rw [Finset.sup_ite, Finset.sup_bot, sup_bot_eq, keysUpTo_image, Finset.sup_image]
  rfl

/-- What is masked adds nothing. -/
theorem sum_masked (score : ℕ → K) (f : WithBot K → ℕ → M) (hf : ∀ t, f ⊥ t = 0)
    (m startN w : ℕ) :
    ∑ c ∈ Finset.range w,
        f (if m ≥ startN + c then (score (startN + c) : WithBot K) else ⊥) (startN + c) =
      ∑ t ∈ keysUpTo m startN w, f (score t) t := by
  rw [keysUpTo_image, Finset.sum_image fun a _ b _ h => Nat.add_left_cancel h, Finset.sum_filter]
  refine Finset.sum_congr rfl fun c _ => ?_
  by_cases h : startN + c ≤ m
  · rw [if_pos h, if_pos h]
  · rw [if_neg h, if_neg h, hf]

end Masked

namespace FwdKernel

variable {K : Type*} {g : FwdKernel K} {b h startM : ℕ}

/-- When rows and keys have blocks of one size, no block of keys starts behind a row. -/
theorem keyBlocks_le (hsize : g.blockM = g.blockN) (hN : 0 < g.blockN) {startN r : ℕ}
    (hstart : startN ∈ g.keyBlocks b startM) : startN ≤ g.offsM startM r := by
  rcases List.mem_map.mp hstart with ⟨j, hj, rfl⟩
  have hj := (lt_ceilDiv_iff hN).mp (List.mem_range.mp hj)
  have hle : j ≤ startM := by
    split_ifs at hj with hmask
    · rw [Nat.one_mul, Nat.mul_comm (startM + 1), hsize] at hj
      exact Nat.lt_succ_iff.mp (Nat.lt_of_mul_lt_mul_left hj)
    · simp at hj
  rw [offsM, hsize]
  exact (Nat.mul_le_mul_right _ hle).trans (Nat.le_add_right _ _)

variable [Field K]

/-- The query of a position. -/
def qRow (g : FwdKernel K) (b m h d : ℕ) : K :=
  g.q ((g.bStartLoc b + m) * g.strideQbs + h * g.strideQh + d)

/-- The key and the value of a position. -/
def kvRow (g : FwdKernel K) (b t : ℕ) : KvRow K where
  key h d := g.k ((g.bStartLoc b + t) * g.strideKbs + h * g.strideKh + d)
  value h d := g.v ((g.bStartLoc b + t) * g.strideVbs + h * g.strideVh + d)

/-- The score of a key for a position. -/
def score (g : FwdKernel K) (b m h : ℕ) : ℕ → K :=
  gqaScore g.smScale g.blockDmodel g.kvGroupNum (g.qRow b m) (g.kvRow b) h

/-- A row inside the sequence sees the scores of the positions up to it. -/
theorem qk_eq {r startN c : ℕ} (hr : g.offsM startM r < g.bSeqlen b) :
    g.qk b h startM startN r c =
      if g.offsM startM r ≥ startN + c then
        (g.score b (g.offsM startM r) h (startN + c) : WithBot K) else ⊥ := by
  rw [qk]
  split_ifs with hc
  · have hkey : startN + c < g.bSeqlen b := by omega
    rw [score, gqaScore, mul_comm]
    congr 2
    refine Finset.sum_congr rfl fun d _ => ?_
    rw [loadQ, loadK, if_pos hr, if_pos hkey]
    simp only [qRow, kvRow, curKvHead]
    congr 2
    ring
  · rfl

theorem loadV_eq {startN c d : ℕ} (hc : startN + c < g.bSeqlen b) :
    g.loadV b h startN c d = (g.kvRow b (startN + c)).value (h / g.kvGroupNum) d := by
  rw [loadV, if_pos hc]
  simp only [kvRow, curKvHead]
  congr 1
  ring

/-- The state of a row, for one entry. -/
def rowState (s : FwdState K) (r d : ℕ) : Running K K := ⟨s.mI r, s.lI r, s.acc r d⟩

variable [LinearOrder K]

theorem mIj_eq {r startN : ℕ} (hr : g.offsM startM r < g.bSeqlen b) :
    g.mIj b h startM startN r =
      (keysUpTo (g.offsM startM r) startN g.blockN).sup fun t =>
        (g.score b (g.offsM startM r) h t : WithBot K) := by
  rw [mIj, ← sup_masked]
  exact Finset.sup_congr rfl fun c _ => qk_eq hr

/-- Every row of a block has a key in every block of keys it comes to. So its largest score is
a number, also for the rows behind the sequence. -/
theorem mIj_ne_bot (hN : 0 < g.blockN) {r startN : ℕ} (hstart : startN ≤ g.offsM startM r) :
    g.mIj b h startM startN r ≠ ⊥ := by
  have hfirst : g.qk b h startM startN r 0 ≤ g.mIj b h startM startN r :=
    Finset.le_sup (Finset.mem_range.mpr hN)
  rw [qk, if_pos (by omega)] at hfirst
  exact fun hbot => WithBot.not_coe_le_bot _ (hbot ▸ hfirst)

/-- **A block of keys is added to the average of every row.** -/
theorem block_average {s : FwdState K} {r d startN : ℕ} (hr : g.offsM startM r < g.bSeqlen b) :
    rowState (g.block b h startM s startN) r d =
      (rowState s r d).average g.exp (g.score b (g.offsM startM r) h)
        (fun t => (g.kvRow b t).value (h / g.kvGroupNum) d)
        (keysUpTo (g.offsM startM r) startN g.blockN) := by
  have hweights : ∑ c ∈ Finset.range g.blockN,
        expSub g.exp (g.qk b h startM startN r c) (g.mIj b h startM startN r) =
      ∑ t ∈ keysUpTo (g.offsM startM r) startN g.blockN,
        expSub g.exp (g.score b (g.offsM startM r) h t) (g.mIj b h startM startN r) := by
    rw [← sum_masked (g.score b (g.offsM startM r) h)
      (fun a _ => expSub g.exp a (g.mIj b h startM startN r)) fun _ => rfl]
    exact Finset.sum_congr rfl fun c _ => by rw [qk_eq hr]
  have hvalues : ∀ x : K, ∑ c ∈ Finset.range g.blockN,
        expSub g.exp (g.qk b h startM startN r c) (g.mIj b h startM startN r) * x *
          g.loadV b h startN c d =
      ∑ t ∈ keysUpTo (g.offsM startM r) startN g.blockN,
        expSub g.exp (g.score b (g.offsM startM r) h t) (g.mIj b h startM startN r) * x *
          (g.kvRow b t).value (h / g.kvGroupNum) d := by
    intro x
    rw [← sum_masked (g.score b (g.offsM startM r) h)
      (fun a t => expSub g.exp a (g.mIj b h startM startN r) * x *
        (g.kvRow b t).value (h / g.kvGroupNum) d) fun _ => by simp]
    refine Finset.sum_congr rfl fun c _ => ?_
    rw [qk_eq hr]
    by_cases hc : startN + c ≤ g.offsM startM r
    · rw [loadV_eq (by omega)]
    · rw [if_neg (by omega), expSub_bot, zero_mul, zero_mul, zero_mul]
  simp only [rowState, block, hweights, hvalues]
  simp only [Running.average, ← mIj_eq hr, smul_eq_mul]
  rw [mul_comm (s.acc r d)]

variable [IsStrictOrderedRing K]

/-- The keys of the blocks before a place. -/
theorem keysUpTo_succ (m j w : ℕ) :
    keysUpTo m 0 (j * w) ∪ keysUpTo m (j * w) w = keysUpTo m 0 ((j + 1) * w) ∧
      Disjoint (keysUpTo m 0 (j * w)) (keysUpTo m (j * w) w) := by
  rw [keysUpTo, keysUpTo, keysUpTo, Nat.zero_add, Nat.zero_add, ← Finset.filter_union,
    Nat.succ_mul]
  constructor
  · rw [Finset.Ico_union_Ico_eq_Ico (Nat.zero_le _) (Nat.le_add_right _ _)]
  · exact Finset.disjoint_filter_filter (Finset.Ico_disjoint_Ico_consecutive 0 _ _)

/-- After some blocks a row has the average over their keys. -/
theorem blocks_averaged (laws : ExpLaws g.exp) {r d : ℕ} (hr : g.offsM startM r < g.bSeqlen b)
    (n : ℕ) :
    Averaged g.exp (g.score b (g.offsM startM r) h)
      (fun t => (g.kvRow b t).value (h / g.kvGroupNum) d)
      (keysUpTo (g.offsM startM r) 0 (n * g.blockN))
      (rowState (((List.range n).map (· * g.blockN)).foldl (g.block b h startM)
        ⟨fun _ => ⊥, fun _ => 0, fun _ _ => 0⟩) r d) := by
  induction n with
  | zero => exact ⟨by simp [rowState, keysUpTo], by simp [rowState, keysUpTo], by simp [keysUpTo]⟩
  | succ n ih =>
      rw [List.range_succ, List.map_append, List.foldl_append]
      simp only [List.map_cons, List.map_nil, List.foldl_cons, List.foldl_nil]
      rw [block_average hr, ← (keysUpTo_succ _ n g.blockN).1]
      exact ih.average laws (keysUpTo_succ _ n g.blockN).2

/-- **A program stores attention to the positions up to each of its rows.** -/
theorem program_rows (laws : ExpLaws g.exp) (hN : 0 < g.blockN) :
    g.program b h startM = (List.range g.blockM).filterMap fun r =>
      if g.offsM startM r < g.bSeqlen b then
        some ((g.bStartLoc b + g.offsM startM r) * g.strideObs + h * g.strideOh,
          (List.range g.blockDmodel).map (gqaAttention g.exp g.smScale g.blockDmodel g.kvGroupNum
            (g.qRow b (g.offsM startM r)) (g.kvRow b) (g.offsM startM r + 1) h))
      else none := by
  rw [program]
  refine List.filterMap_congr fun r hrow => ?_
  have hrow := List.mem_range.mp hrow
  split_ifs with hr
  · have hmask : g.blockM * startM < g.bSeqlen b := by
      rw [offsM, Nat.mul_comm] at hr
      omega
    have hkeys : keysUpTo (g.offsM startM r) 0
          (((startM + 1) * g.blockM) ⌈/⌉ g.blockN * g.blockN) =
        Finset.range (g.offsM startM r + 1) := by
      have hcover : (startM + 1) * g.blockM ≤
          ((startM + 1) * g.blockM) ⌈/⌉ g.blockN * g.blockN := by
        rw [Nat.mul_comm (((startM + 1) * g.blockM) ⌈/⌉ g.blockN)]
        exact le_smul_ceilDiv hN
      have hlast : g.offsM startM r < (startM + 1) * g.blockM := by
        rw [offsM, Nat.succ_mul]
        omega
      ext t
      simp only [keysUpTo, Finset.mem_filter, Finset.mem_Ico, Finset.mem_range]
      omega
    refine congrArg some (Prod.ext rfl (List.map_congr_left fun d _ => ?_))
    have haverage := (blocks_averaged (h := h) (d := d) laws hr
      (((startM + 1) * g.blockM) ⌈/⌉ g.blockN)).acc
    rw [hkeys] at haverage
    rw [keyBlocks, if_pos hmask, Nat.one_mul]
    simpa [rowState, gqaAttention, score] using haverage
  · rfl

end FwdKernel

/-- Blocks of rows, of which those outside of a sequence are left out, are its rows. -/
theorem filterMap_blocks {α : Type*} (f : ℕ → α) {n w len : ℕ} (h : len ≤ n * w) :
    ((List.range n).flatMap fun i => (List.range w).filterMap fun r =>
      if i * w + r < len then some (f (i * w + r)) else none) = (List.range len).map f := by
  have hblocks : ((List.range n).flatMap fun i => (List.range w).filterMap fun r =>
      if i * w + r < len then some (f (i * w + r)) else none) =
      (List.range (n * w)).filterMap fun m => if m < len then some (f m) else none := by
    rw [List.filterMap_eq_flatMap_toList, flatMap_range_mul]
    exact List.flatMap_congr fun i _ => List.filterMap_eq_flatMap_toList ..
  obtain ⟨k, hk⟩ := Nat.exists_eq_add_of_le h
  have hinside : ((List.range len).filterMap fun m => if m < len then some (f m) else none) =
      (List.range len).map f := by
    rw [← List.filterMap_eq_map]
    exact List.filterMap_congr fun m hm => if_pos (List.mem_range.mp hm)
  have houtside : (((List.range k).map (len + ·)).filterMap fun m =>
      if m < len then some (f m) else none) = [] := by
    simp
  rw [hblocks, hk, List.range_add, List.filterMap_append, hinside, houtside, List.append_nil]

namespace ContextAttention

variable {K : Type*} [Field K] [LinearOrder K] [IsStrictOrderedRing K] {c : ContextAttention K}
  {capability : ℕ}

theorem blockSize_pos (capability : ℕ) : 0 < blockSize capability := by
  rw [blockSize]
  split_ifs <;> decide

/-- A program stores its rows of the output. -/
theorem program_outputRows (laws : ExpLaws c.exp) (b h startM : ℕ) :
    (c.kernel (c.consts capability)).program b h startM =
      (List.range (blockSize capability)).filterMap fun r =>
        if startM * blockSize capability + r < c.bSeqLen b then
          some (c.outputRow b h (startM * blockSize capability + r))
        else none :=
  FwdKernel.program_rows laws (blockSize_pos capability)

/-- The programs of the grid store the rows of all sequences. -/
theorem grid_outputRows (laws : ExpLaws c.exp) (capability : ℕ)
    (hlens : ∀ b < c.batch, c.bSeqLen b ≤ c.maxInputLen) :
    ((c.grid capability).flatMap fun p =>
      (c.kernel (c.consts capability)).program p.1 p.2.1 p.2.2) = c.outputRows := by
  simp only [grid, outputRows, SProd.sprod, List.product, List.flatMap_assoc, List.flatMap_map]
  refine List.flatMap_congr fun b hb => List.flatMap_congr fun h _ => ?_
  simp only [program_outputRows laws]
  refine filterMap_blocks (c.outputRow b h) ((hlens b (List.mem_range.mp hb)).trans ?_)
  rw [Nat.mul_comm]
  exact le_smul_ceilDiv (blockSize_pos capability)

end ContextAttention

section Results

variable {K : Type*} [Field K] [LinearOrder K] [IsStrictOrderedRing K] {capability : ℕ}

/-- What the layers of a model promise: sizes that pass, the kernel of the first launch for all
of them, lengths up to the maximum, and every program once. -/
structure LaunchOk (capability : ℕ) (consts : FwdConsts)
    (launch : ContextAttention K × List (ℕ × ℕ × ℕ)) : Prop where
  laws : ExpLaws launch.1.exp
  sizes : launch.1.SizesOk
  consts_eq : launch.1.consts capability = consts
  lens_le : ∀ b < launch.1.batch, launch.1.bSeqLen b ≤ launch.1.maxInputLen
  programs : launch.2.Perm (launch.1.grid capability)

/-- A launch through the kernel of earlier ones stores what it should, and keeps the kernel. -/
theorem contextAttentionFwd_rows {consts : FwdConsts} {c : ContextAttention K}
    {order : List (ℕ × ℕ × ℕ)} (h : LaunchOk capability consts (c, order))
    {cachedKernel : Option FwdConsts} (hcached : cachedKernel = none ∨ cachedKernel = some consts) :
    ∃ rows, c.contextAttentionFwd capability cachedKernel order = some (rows, some consts) ∧
      rows.Perm c.outputRows := by
  have hconsts : cachedKernel.getD (c.consts capability) = consts := by
    rcases hcached with rfl | rfl
    · exact h.consts_eq
    · rfl
  refine ⟨_, by rw [ContextAttention.contextAttentionFwd, if_pos h.sizes, hconsts], ?_⟩
  rw [← ContextAttention.grid_outputRows h.laws capability h.lens_le, h.consts_eq]
  exact h.programs.flatMap_right _

/-- **Prefill attention is causal attention.** In every launch of a process each row of each
head of each sequence is stored once, in whatever order the programs run, and it is the softmax
average over the keys up to its position. No maximum that a program takes is one of masked
scores alone. -/
theorem contextAttentionRun_rows {consts : FwdConsts}
    {launches : List (ContextAttention K × List (ℕ × ℕ × ℕ))}
    (h : ∀ launch ∈ launches, LaunchOk capability consts launch) :
    (∃ rows, contextAttentionRun capability none launches = some rows ∧
      List.Forall₂ (fun launch stored => stored.Perm launch.1.outputRows) launches rows) ∧
    ∀ launch ∈ launches, ∀ b hd startM,
      ∀ startN ∈ (launch.1.kernel consts).keyBlocks b startM, ∀ r,
        (launch.1.kernel consts).mIj b hd startM startN r ≠ ⊥ := by
  constructor
  · suffices hrun : ∀ cachedKernel, cachedKernel = none ∨ cachedKernel = some consts →
        ∃ rows, contextAttentionRun capability cachedKernel launches = some rows ∧
          List.Forall₂ (fun launch stored => stored.Perm launch.1.outputRows) launches rows from
      hrun none (Or.inl rfl)
    induction launches with
    | nil => exact fun _ _ => ⟨[], rfl, .nil⟩
    | cons launch launches ih =>
        intro cachedKernel hcached
        rcases contextAttentionFwd_rows (h launch List.mem_cons_self) hcached with
          ⟨rows, hrows, hperm⟩
        rcases ih (fun l hl => h l (List.mem_cons_of_mem _ hl)) (some consts) (Or.inr rfl) with
          ⟨rest, hrest, hperms⟩
        refine ⟨rows :: rest, ?_, .cons hperm hperms⟩
        simp only [contextAttentionRun, hrows, Option.bind_some, hrest, Option.map_some]
  · intro launch hlaunch b hd startM startN hstart r
    obtain rfl := (h launch hlaunch).consts_eq
    have hpos := ContextAttention.blockSize_pos capability
    exact FwdKernel.mIj_ne_bot hpos (FwdKernel.keyBlocks_le rfl hpos hstart)

/-- Two prompts behind each other, of two tokens and of one, with two query heads over one KV
head. -/
noncomputable def twoPrompts : ContextAttention ℝ where
  exp := Real.exp
  sqrt := Real.sqrt
  q := ⟨fun d => [3, 2, 16].getD d 0, fun d => [32, 16, 1].getD d 0, fun p => p⟩
  k := ⟨fun d => [3, 1, 16].getD d 0, fun d => [16, 16, 1].getD d 0, fun p => p + 1⟩
  v := ⟨fun d => [3, 1, 16].getD d 0, fun d => [16, 16, 1].getD d 0, fun p => (10 * p : ℕ)⟩
  o := ⟨fun d => [3, 2, 16].getD d 0, fun d => [32, 16, 1].getD d 0, fun _ => 0⟩
  bStartLoc := fun b => [0, 2].getD b 0
  bSeqLen := fun b => [2, 1].getD b 0
  batch := 2
  maxInputLen := 2

theorem twoPrompts_launchOk :
    LaunchOk 8 (twoPrompts.consts 8) (twoPrompts, twoPrompts.grid 8) where
  laws := ⟨Real.exp_pos, Real.exp_add⟩
  sizes := ⟨⟨rfl, rfl⟩, List.mem_cons_self⟩
  consts_eq := rfl
  lens_le := by
    show ∀ b < 2, [2, 1].getD b 0 ≤ 2
    decide
  programs := List.Perm.refl _

/-- Two layers of these. -/
theorem contextAttentionRun_twoPrompts :
    (∃ rows, contextAttentionRun 8 none
        [(twoPrompts, twoPrompts.grid 8), (twoPrompts, twoPrompts.grid 8)] = some rows ∧
      List.Forall₂ (fun launch stored => stored.Perm launch.1.outputRows)
        [(twoPrompts, twoPrompts.grid 8), (twoPrompts, twoPrompts.grid 8)] rows) ∧
    ∀ launch ∈ [(twoPrompts, twoPrompts.grid 8), (twoPrompts, twoPrompts.grid 8)],
      ∀ b hd startM, ∀ startN ∈ (launch.1.kernel (twoPrompts.consts 8)).keyBlocks b startM, ∀ r,
        (launch.1.kernel (twoPrompts.consts 8)).mIj b hd startM startN r ≠ ⊥ :=
  contextAttentionRun_rows fun launch hlaunch => by
    rcases List.mem_pair.mp hlaunch with rfl | rfl <;> exact twoPrompts_launchOk

end Results

end HarvestMoE
