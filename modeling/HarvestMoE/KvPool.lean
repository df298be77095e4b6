import Mathlib.Data.List.ProdSigma
import Mathlib.Data.List.Range
import HarvestMoE.Lib.Rows
import HarvestMoE.Schedule

/-!
# The continuous KV pool

`TokenToKVPool` keeps the keys and values of a micro-batch in a line of consecutive
rows: one line on the CPU per micro-batch and layer, and two lines on the GPU that
the micro-batches share by parity. A row stands for the key and the value of one
token. `prepare_for_prefill` lays the sequences of a micro-batch out in its line,
each followed by room for the tokens to come.

## Main definitions

* `TokenToKVPool` — the pool, with its cursors and memories.
* `SeqKv`, `KvBatch` — the index tensors of a micro-batch.
* `KvBatch.layout`, `KvBatch.prepareForPrefill`, `KvBatch.prepareForDecode` — how they
  are set and moved.
* `kvStep` — the effect of a host call on keys and values.
* `tokenAttentionCpu` — the rows CPU attention reads.
-/

namespace HarvestMoE

open Lib

variable {κ : Type*}

/-- `TokenToKVPool`. -/
structure TokenToKVPool (κ : Type*) where
  curStartLoc : ℕ
  curCl : ℕ
  cacheLine : ℕ
  cpuSize : ℕ
  kvData : ℕ → κ
  kvDataCpu : ℕ → ℕ → κ

namespace TokenToKVPool

/-- The pool as `__init__` leaves it; the tensors are uninitialised. -/
def new (gpuSize cpuSize : ℕ) (kvData : ℕ → κ) (kvDataCpu : ℕ → ℕ → κ) : TokenToKVPool κ where
  curStartLoc := 0
  curCl := 0
  cacheLine := gpuSize / 2
  cpuSize := cpuSize / (gpuSize / 2) * (gpuSize / 2)
  kvData := kvData
  kvDataCpu := kvDataCpu

variable (pool : TokenToKVPool κ)

/-- `alloc_cpu`: the CPU start, the GPU start and the number of the GPU line. -/
def allocCpu : (ℕ × ℕ × ℕ) × TokenToKVPool κ :=
  ((pool.curStartLoc, pool.curCl * pool.cacheLine, pool.curCl),
    { pool with
      curStartLoc := pool.curStartLoc + pool.cacheLine
      curCl := (pool.curCl + 1) % 2 })

/-- `clear`. -/
def clear : TokenToKVPool κ := { pool with curStartLoc := 0, curCl := 0 }

/-- `store`: copy `size` rows of the GPU to the memory of a layer. -/
def store (dstStart size layerId : ℕ) : Option (TokenToKVPool κ) :=
  let srcStart := dstStart % (2 * pool.cacheLine)
  (copySlice 1 (pool.kvDataCpu layerId) pool.cpuSize ⟨dstStart, some (dstStart + size)⟩
    pool.kvData (2 * pool.cacheLine) ⟨srcStart, some (srcStart + size)⟩).map fun mem =>
    { pool with kvDataCpu := Function.update pool.kvDataCpu layerId mem }

end TokenToKVPool

/-- An index into a dimension of `size`; a negative one counts from the end. -/
def wrapIndex (size : ℕ) (i : ℤ) : Option ℕ :=
  if 0 ≤ i ∧ i < size then some i.toNat
  else if i < 0 ∧ -(size : ℤ) ≤ i then some (i + size).toNat
  else none

theorem wrapIndex_natCast {size i : ℕ} (h : i < size) : wrapIndex size i = some i := by
  simp [wrapIndex, h]

theorem mapM_eq_some {β γ : Type*} {f : β → Option γ} {g : β → γ} {xs : List β}
    (h : ∀ x ∈ xs, f x = some (g x)) : xs.mapM f = some (xs.map g) := by
  induction xs with
  | nil => rfl
  | cons x xs ih =>
      have hx := h x (by simp)
      have hxs := ih fun y hy => h y (List.mem_cons_of_mem _ hy)
      simp [List.mapM_cons, hx, hxs]

/-- `dst[indices] = values`, which raises on an index out of range or on lengths that
differ. -/
def indexPut (size : ℕ) (mem : ℕ → κ) (indices : List ℤ) (values : List κ) :
    Option (ℕ → κ) :=
  (indices.mapM (wrapIndex size)).bind fun is =>
    if is.length = values.length then some (scatter mem is values) else none

/-- A sequence of a micro-batch: its entries of the index tensors. -/
structure SeqKv where
  /-- `len(req.input_ids)`. -/
  inputLen : ℕ
  startLoc : ℕ
  seqLen : ℕ
  /-- Set by the first decode step. -/
  seqLenCpu : Option ℕ
  decodeOutCacheLoc : ℤ
  deriving DecidableEq, Repr

/-- The KV side of a micro-batch. -/
structure KvBatch where
  seqs : List SeqKv
  cpuKvPoolStartLoc : ℕ
  cacheLineIdx : ℕ
  outCacheLoc : List ℕ
  kvPt : ℤ
  deriving DecidableEq, Repr

/-- The loop of `prepare_for_prefill` over the requests: `pt` runs over the line, and
every sequence is followed by `maxOutputLen` rows. -/
def layoutSeqs (maxOutputLen cpuStart : ℕ) : ℕ → List ℕ → List SeqKv
  | _, [] => []
  | pt, seqLen :: lens =>
      { inputLen := seqLen
        startLoc := cpuStart + pt
        seqLen := seqLen
        seqLenCpu := none
        decodeOutCacheLoc := (cpuStart + pt + seqLen : ℕ) - 1 } ::
        layoutSeqs maxOutputLen cpuStart (pt + (seqLen + maxOutputLen)) lens

/-- `out_cache_loc`, filled by the same loop. -/
def layoutOutCacheLoc (maxOutputLen gpuStart : ℕ) : ℕ → List ℕ → List ℕ
  | _, [] => []
  | pt, seqLen :: lens =>
      (List.range seqLen).map (fun t => gpuStart + pt + t) ++
        layoutOutCacheLoc maxOutputLen gpuStart (pt + (seqLen + maxOutputLen)) lens

/-- The index tensors that `Batch.prepare_for_prefill` builds in the line it has been
given, for prompts of the given lengths. The last entry of `decode_out_cache_loc` is
read, so a micro-batch without requests raises. -/
def KvBatch.layout (maxOutputLen : ℕ) : ℕ × ℕ × ℕ → List ℕ → Option KvBatch
  | (cpuStart, gpuStart, lineIdx), lens =>
      let seqs := layoutSeqs maxOutputLen cpuStart 0 lens
      seqs.getLast?.map fun last =>
        { seqs := seqs
          cpuKvPoolStartLoc := cpuStart
          cacheLineIdx := lineIdx
          outCacheLoc := layoutOutCacheLoc maxOutputLen gpuStart 0 lens
          kvPt := last.decodeOutCacheLoc + 1 }

/-- `Batch.prepare_for_prefill`. -/
def KvBatch.prepareForPrefill (maxOutputLen : ℕ) (pool : TokenToKVPool κ) (lens : List ℕ) :
    Option (KvBatch × TokenToKVPool κ) :=
  (KvBatch.layout maxOutputLen pool.allocCpu.1 lens).map fun b => (b, pool.allocCpu.2)

/-- `seq_lens.add_(1)` and `decode_out_cache_loc.add_(1)`, and the copy of `seq_lens`. -/
def SeqKv.advance (q : SeqKv) : SeqKv :=
  { q with
    seqLen := q.seqLen + 1
    seqLenCpu := some (q.seqLen + 1)
    decodeOutCacheLoc := q.decodeOutCacheLoc + 1 }

/-- `Batch.prepare_for_decode`. -/
def KvBatch.prepareForDecode (b : KvBatch) : KvBatch := { b with seqs := b.seqs.map SeqKv.advance }

/-- The KV side of the engine. -/
structure KvState (κ : Type*) where
  pool : TokenToKVPool κ
  microBatches : List KvBatch
  /-- Decode steps started. -/
  decodeStep : ℕ

/-- `ExecutionEngine.prepare_for_prefill`: every micro-batch takes the next line. -/
def prepareForPrefill (maxOutputLen : ℕ) :
    TokenToKVPool κ → List (List ℕ) → Option (List KvBatch × TokenToKVPool κ)
  | pool, [] => some ([], pool)
  | pool, lens :: rest =>
      (KvBatch.prepareForPrefill maxOutputLen pool lens).bind fun (b, pool) =>
        (prepareForPrefill maxOutputLen pool rest).map fun (bs, pool) => (b :: bs, pool)

/-- The keys and values that the network computes: of the prompt tokens, by layer,
micro-batch, sequence and position, and of the token that a decode step feeds, by the
number of the step. -/
structure KvRows (κ : Type*) where
  prefill : ℕ → ℕ → ℕ → ℕ → κ
  decode : ℕ → ℕ → ℕ → ℕ → κ

/-- The flat rows that `layer` computes for a micro-batch. -/
def KvRows.prompt (rows : KvRows κ) (layerId k : ℕ) (b : KvBatch) : List κ :=
  b.seqs.zipIdx.flatMap fun q => (List.range q.1.inputLen).map (rows.prefill layerId k q.2)

/-- The rows that `pre_attention` computes for a decode step. -/
def KvRows.step (rows : KvRows κ) (step layerId k : ℕ) (b : KvBatch) : List κ :=
  b.seqs.zipIdx.map fun q => rows.decode step layerId k q.2

/-- `store_kv_cache`, in prefill. -/
def storeKvCache (pool : TokenToKVPool κ) (b : KvBatch) (cache : List κ) :
    Option (TokenToKVPool κ) :=
  (indexPut (2 * pool.cacheLine) pool.kvData (b.outCacheLoc.map Nat.cast) cache).map fun mem =>
    { pool with kvData := mem }

/-- `Batch.offload_kv_cache`. -/
def offloadKvCache (pool : TokenToKVPool κ) (b : KvBatch) (layerId : ℕ) :
    Option (TokenToKVPool κ) :=
  pool.store b.cpuKvPoolStartLoc (b.kvPt - b.cpuKvPoolStartLoc).toNat layerId

/-- `store_kv_cache_cpu`, in decode. -/
def storeKvCacheCpu (pool : TokenToKVPool κ) (b : KvBatch) (layerId : ℕ) (cache : List κ) :
    Option (TokenToKVPool κ) :=
  (indexPut pool.cpuSize (pool.kvDataCpu layerId) (b.seqs.map SeqKv.decodeOutCacheLoc) cache).map
    fun mem => { pool with kvDataCpu := Function.update pool.kvDataCpu layerId mem }

/-- The rows `token_attention_cpu` reads, sequence by sequence. -/
def tokenAttentionCpu (pool : TokenToKVPool κ) (b : KvBatch) (layerId : ℕ) :
    Option (List (List κ)) :=
  b.seqs.mapM fun q => q.seqLenCpu.map (gather (pool.kvDataCpu layerId) q.startLoc)

/-- The effect of a host call on keys and values. -/
def kvStep (rows : KvRows κ) (s : KvState κ) : Call → Option (KvState κ)
  | .layer layerId _ k =>
      s.microBatches[k]?.bind fun b =>
        (storeKvCache s.pool b (rows.prompt layerId k b)).map fun pool => { s with pool := pool }
  | .offloadKvCache layerId k =>
      s.microBatches[k]?.bind fun b =>
        (offloadKvCache s.pool b layerId).map fun pool => { s with pool := pool }
  | .prepareForDecode =>
      some { s with
        microBatches := s.microBatches.map KvBatch.prepareForDecode
        decodeStep := s.decodeStep + 1 }
  | .cpuAttention layerId k =>
      s.microBatches[k]?.bind fun b =>
        (storeKvCacheCpu s.pool b layerId (rows.step s.decodeStep layerId k b)).map fun pool =>
          { s with pool := pool }
  | _ => some s

end HarvestMoE
