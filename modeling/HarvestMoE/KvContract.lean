import HarvestMoE.KvPool
import HarvestMoE.Lib.Regions
import HarvestMoE.Lib.Run
import Mathlib.Data.Set.Lattice
import Mathlib.Order.CompletePartialOrder
import Mathlib.Order.Interval.Set.Defs
import Mathlib.Tactic.Ring

/-!
# The contract of the KV pool

The layout of a micro-batch is a function of its prompt lengths, its number and the
decode steps done (`batchAt`). In that layout the sequences take pairwise disjoint
regions of the pool, and a run of the host program keeps the rows of every sequence
in token order: prefill writes the prompt through the GPU line, and each attention
call adds one row (`kvCache_contract`).

## Main definitions

* `seqAt`, `batchAt` — the layout after `d` decode steps.
* `KvLayout` — what the layout promises.
* `AttentionReads` — CPU attention reads the tokens of its sequences, in order.
* `Holds` — the rows of a micro-batch are in the memory of a layer.
-/

namespace HarvestMoE

open Lib

variable {κ : Type*}

namespace EngineConfig

variable (cfg : EngineConfig)

/-- Rows of a line of the pool. -/
def cacheLine : ℕ := cfg.ubs * (cfg.avgPromptTokens + cfg.genLen)

/-- Rows a sequence takes of its line: its prompt and room for the output. -/
def seqCaps (lens : List ℕ) : List ℕ := lens.map fun n => n + cfg.genLen

theorem cacheLine_pos : 0 < cfg.cacheLine :=
  Nat.mul_pos cfg.ubs_pos (Nat.add_pos_right _ cfg.genLen_pos)

theorem gpuTokenBufferSize_half : cfg.gpuTokenBufferSize / 2 = cfg.cacheLine := by
  simp [gpuTokenBufferSize, cacheLine]

theorem cpuTokenPoolSize_eq : cfg.cpuTokenPoolSize = cfg.nUb * cfg.cacheLine := by
  simp [cpuTokenPoolSize, cacheLine, Nat.mul_assoc]

theorem seqCaps_sum (lens : List ℕ) :
    (cfg.seqCaps lens).sum = lens.sum + lens.length * cfg.genLen := by
  induction lens with
  | nil => simp [seqCaps]
  | cons n lens ih =>
      simp only [seqCaps, List.map_cons, List.sum_cons, List.length_cons, Nat.add_mul] at ih ⊢
      omega

theorem seqCaps_getElem? {lens : List ℕ} {i n : ℕ} (h : lens[i]? = some n) :
    (cfg.seqCaps lens)[i]? = some (n + cfg.genLen) := by
  simp [seqCaps, h]

end EngineConfig

section Layout

variable (cfg : EngineConfig)

/-- Sequence `i` of micro-batch `k`, of `n` prompt tokens, after `d` decode steps. -/
def seqAt (k : ℕ) (lens : List ℕ) (d i n : ℕ) : SeqKv where
  inputLen := n
  startLoc := k * cfg.cacheLine + offset (cfg.seqCaps lens) i
  seqLen := n + d
  seqLenCpu := if d = 0 then none else some (n + d)
  decodeOutCacheLoc := (k * cfg.cacheLine + offset (cfg.seqCaps lens) i + (n + d) : ℕ) - 1

/-- Rows of the line up to the last prompt token. -/
def promptEnd (lens : List ℕ) : ℕ :=
  offset (cfg.seqCaps lens) (lens.length - 1) + lens.getLast?.getD 0

/-- Micro-batch `k` after `d` decode steps. -/
def batchAt (d k : ℕ) (lens : List ℕ) : KvBatch where
  seqs := lens.mapIdx (seqAt cfg k lens d)
  cpuKvPoolStartLoc := k * cfg.cacheLine
  cacheLineIdx := k % 2
  outCacheLoc := layoutOutCacheLoc cfg.genLen (k % 2 * cfg.cacheLine) 0 lens
  kvPt := (k * cfg.cacheLine + promptEnd cfg lens : ℕ)

variable {cfg}

/-- The loop of `prepare_for_prefill` lays sequence `i` out after the regions of those
before it. -/
theorem layoutSeqs_getElem? (base pt : ℕ) (lens : List ℕ) (i : ℕ) :
    (layoutSeqs cfg.genLen base pt lens)[i]? = lens[i]?.map fun n =>
      { inputLen := n
        startLoc := base + pt + offset (cfg.seqCaps lens) i
        seqLen := n
        seqLenCpu := none
        decodeOutCacheLoc := (base + pt + offset (cfg.seqCaps lens) i + n : ℕ) - 1 } := by
  induction lens generalizing pt i with
  | nil => simp [layoutSeqs]
  | cons n lens ih =>
      cases i with
      | zero => simp [layoutSeqs, Nat.add_assoc]
      | succ i =>
          have hoff : offset (cfg.seqCaps (n :: lens)) (i + 1) =
              n + cfg.genLen + offset (cfg.seqCaps lens) i := by
            simp [EngineConfig.seqCaps]
          simp only [layoutSeqs, List.getElem?_cons_succ, ih, hoff, Nat.add_assoc]

theorem layoutSeqs_eq (k : ℕ) (lens : List ℕ) :
    layoutSeqs cfg.genLen (k * cfg.cacheLine) 0 lens = lens.mapIdx (seqAt cfg k lens 0) := by
  apply List.ext_getElem?
  intro i
  rw [layoutSeqs_getElem?, List.getElem?_mapIdx]
  rfl

/-- `prepare_for_prefill` gives a micro-batch that is not empty the layout of its
line. -/
theorem prepareForPrefill_batch {pool : TokenToKVPool κ} {k : ℕ} {lens : List ℕ}
    (hline : pool.cacheLine = cfg.cacheLine) (hstart : pool.curStartLoc = k * cfg.cacheLine)
    (hcl : pool.curCl = k % 2) (hne : lens ≠ []) :
    KvBatch.prepareForPrefill cfg.genLen pool lens =
      some (batchAt cfg 0 k lens, pool.allocCpu.2) := by
  have hlast : (lens.mapIdx (seqAt cfg k lens 0)).getLast? =
      some (seqAt cfg k lens 0 (lens.length - 1) (lens.getLast?.getD 0)) := by
    rw [List.getLast?_eq_getElem?, List.getElem?_mapIdx, List.length_mapIdx,
      ← List.getLast?_eq_getElem?, List.getLast?_eq_some_getLast hne]
    rfl
  simp only [KvBatch.prepareForPrefill, KvBatch.layout, TokenToKVPool.allocCpu, hline, hstart, hcl,
    layoutSeqs_eq, hlast, Option.map_some]
  simp [batchAt, seqAt, promptEnd, Nat.add_assoc]

/-- A decode step moves the whole layout by one. -/
theorem prepareForDecode_batch (d k : ℕ) (lens : List ℕ) :
    (batchAt cfg d k lens).prepareForDecode = batchAt cfg (d + 1) k lens := by
  have hseq : ∀ i n, (seqAt cfg k lens d i n).advance = seqAt cfg k lens (d + 1) i n := by
    intro i n
    simp only [SeqKv.advance, seqAt, SeqKv.mk.injEq]
    simp only [Nat.add_assoc, true_and, Nat.add_eq_zero_iff, one_ne_zero, and_false, if_false]
    omega
  have hseqs : (lens.mapIdx (seqAt cfg k lens d)).map SeqKv.advance =
      lens.mapIdx (seqAt cfg k lens (d + 1)) := by
    apply List.ext_getElem?
    intro i
    simp [Function.comp_def, hseq]
  rw [KvBatch.prepareForDecode, batchAt, hseqs, batchAt]

/-- From a cleared pool, `prepare_for_prefill` gives micro-batch `k` line `k`. -/
theorem prepareForPrefill_eq {pool : TokenToKVPool κ} {k : ℕ} {lens : List (List ℕ)}
    (hline : pool.cacheLine = cfg.cacheLine) (hstart : pool.curStartLoc = k * cfg.cacheLine)
    (hcl : pool.curCl = k % 2) (hne : ∀ l ∈ lens, l ≠ []) :
    prepareForPrefill cfg.genLen pool lens =
      some (lens.mapIdx fun j => batchAt cfg 0 (k + j),
        { pool with
          curStartLoc := (k + lens.length) * cfg.cacheLine
          curCl := (k + lens.length) % 2 }) := by
  induction lens generalizing pool k with
  | nil =>
      obtain ⟨start, cl, line, size, gpu, cpu⟩ := pool
      subst hline hstart hcl
      rfl
  | cons l lens ih =>
      have hrest := @ih pool.allocCpu.2 (k + 1) hline
        (by simp [TokenToKVPool.allocCpu, hline, hstart, Nat.add_mul])
        (by simp only [TokenToKVPool.allocCpu, hcl]; omega)
        fun l' hl' => hne l' (List.mem_cons_of_mem _ hl')
      rw [prepareForPrefill, prepareForPrefill_batch hline hstart hcl (hne l (by simp))]
      simp only [Option.bind_some, hrest, Option.map_some]
      simp [TokenToKVPool.allocCpu, List.mapIdx_cons, Nat.add_comm, Nat.add_left_comm]

/-- `prepare_for_prefill` on the pool of a started engine. -/
theorem prepareForPrefill_new {lens : List (List ℕ)} (hne : ∀ l ∈ lens, l ≠ []) (gpu : ℕ → κ)
    (cpu : ℕ → ℕ → κ) :
    prepareForPrefill cfg.genLen
        (TokenToKVPool.new cfg.gpuTokenBufferSize cfg.cpuTokenPoolSize gpu cpu).clear lens =
      some (lens.mapIdx (batchAt cfg 0),
        { curStartLoc := lens.length * cfg.cacheLine
          curCl := lens.length % 2
          cacheLine := cfg.cacheLine
          cpuSize := cfg.nUb * cfg.cacheLine
          kvData := gpu
          kvDataCpu := cpu }) := by
  have hhalf := cfg.gpuTokenBufferSize_half
  have hsize : cfg.cpuTokenPoolSize / cfg.cacheLine * cfg.cacheLine = cfg.nUb * cfg.cacheLine := by
    rw [cfg.cpuTokenPoolSize_eq, Nat.mul_div_cancel _ cfg.cacheLine_pos]
  let pool := (TokenToKVPool.new cfg.gpuTokenBufferSize cfg.cpuTokenPoolSize gpu cpu).clear
  have hstart : pool.curStartLoc = 0 * cfg.cacheLine := by simp [pool, TokenToKVPool.clear]
  have hline : pool.cacheLine = cfg.cacheLine := hhalf
  have hprepare := prepareForPrefill_eq hline hstart rfl hne
  simpa [pool, TokenToKVPool.clear, TokenToKVPool.new, hhalf, hsize] using hprepare

/-- The rows of the GPU line that a micro-batch writes, with the values written, run
over the prompt tokens of its sequences. -/
theorem mem_zip_outCacheLoc {base pt j : ℕ} {lens : List ℕ} {f : ℕ → ℕ → κ} {e : ℕ × κ} :
    e ∈ (layoutOutCacheLoc cfg.genLen base pt lens).zip
        ((lens.zipIdx j).flatMap fun p => (List.range p.1).map (f p.2)) ↔
      ∃ i n t, lens[i]? = some n ∧ t < n ∧
        e = (base + pt + offset (cfg.seqCaps lens) i + t, f (j + i) t) := by
  induction lens generalizing pt j with
  | nil => simp [layoutOutCacheLoc]
  | cons n lens ih =>
      have hoff : ∀ i, offset (cfg.seqCaps (n :: lens)) (i + 1) =
          n + cfg.genLen + offset (cfg.seqCaps lens) i := by
        intro i
        simp [EngineConfig.seqCaps]
      have hhead : e ∈ ((List.range n).map fun t => base + pt + t).zip ((List.range n).map (f j)) ↔
          ∃ t, t < n ∧ e = (base + pt + t, f j t) := by
        rw [List.zip_map', List.mem_map]
        constructor
        · rintro ⟨t, ht, rfl⟩
          exact ⟨t, List.mem_range.mp ht, rfl⟩
        · rintro ⟨t, ht, rfl⟩
          exact ⟨t, List.mem_range.mpr ht, rfl⟩
      simp only [layoutOutCacheLoc, List.zipIdx_cons, List.flatMap_cons]
      rw [List.zip_append (by simp), List.mem_append, hhead, ih]
      constructor
      · rintro (⟨t, ht, rfl⟩ | ⟨i, m, t, hi, ht, rfl⟩)
        · exact ⟨0, n, t, rfl, ht, by simp⟩
        · refine ⟨i + 1, m, t, by simpa using hi, ht, ?_⟩
          rw [hoff]
          congr 1
          · omega
          · congr 1
            omega
      · rintro ⟨i, m, t, hi, ht, rfl⟩
        cases i with
        | zero =>
            obtain rfl : n = m := by simpa using hi
            exact Or.inl ⟨t, ht, by simp⟩
        | succ i =>
            refine Or.inr ⟨i, m, t, by simpa using hi, ht, ?_⟩
            rw [hoff]
            congr 1
            · omega
            · congr 1
              omega

theorem length_outCacheLoc (base pt : ℕ) (lens : List ℕ) :
    (layoutOutCacheLoc cfg.genLen base pt lens).length = lens.sum := by
  induction lens generalizing pt with
  | nil => rfl
  | cons n lens ih => simp [layoutOutCacheLoc, ih]

theorem length_promptRows (j : ℕ) (lens : List ℕ) (f : ℕ → ℕ → κ) :
    ((lens.zipIdx j).flatMap fun p => (List.range p.1).map (f p.2)).length = lens.sum := by
  induction lens generalizing j with
  | nil => rfl
  | cons n lens ih => simp [ih]

theorem mem_outCacheLoc {base r : ℕ} {lens : List ℕ} :
    r ∈ layoutOutCacheLoc cfg.genLen base 0 lens ↔
      ∃ i n t, lens[i]? = some n ∧ t < n ∧ r = base + offset (cfg.seqCaps lens) i + t := by
  let f : ℕ → ℕ → Unit := fun _ _ => ()
  have hlen : (layoutOutCacheLoc cfg.genLen base 0 lens).length ≤
      ((lens.zipIdx 0).flatMap fun p => (List.range p.1).map (f p.2)).length := by
    rw [length_outCacheLoc, length_promptRows]
  rw [← List.map_fst_zip hlen, List.mem_map]
  constructor
  · rintro ⟨e, he, rfl⟩
    obtain ⟨i, n, t, hi, ht, rfl⟩ := mem_zip_outCacheLoc.mp he
    exact ⟨i, n, t, hi, ht, rfl⟩
  · rintro ⟨i, n, t, hi, ht, rfl⟩
    exact ⟨_, mem_zip_outCacheLoc.mpr ⟨i, n, t, hi, ht, rfl⟩, rfl⟩

/-- The micro-batches that the engine admits: no more than `n_ub`, none empty, each
within its line together with room for its output. -/
structure Admitted (cfg : EngineConfig) (lens : List (List ℕ)) : Prop where
  count : lens.length ≤ cfg.nUb
  nonempty : ∀ l ∈ lens, l ≠ []
  fits : ∀ l ∈ lens, l.sum + l.length * cfg.genLen ≤ cfg.cacheLine

/-- The region of a sequence ends inside its line. -/
theorem Admitted.offset_le {lens : List (List ℕ)} (h : Admitted cfg lens) {k i n : ℕ}
    {l : List ℕ} (hl : lens[k]? = some l) (hi : l[i]? = some n) :
    offset (cfg.seqCaps l) i + (n + cfg.genLen) ≤ cfg.cacheLine := by
  have hcap := offset_add_le_sum (cfg.seqCaps_getElem? hi)
  rw [cfg.seqCaps_sum] at hcap
  exact hcap.trans (h.fits l (List.mem_of_getElem? hl))

/-- A line ends inside the pool. -/
theorem Admitted.line_le {lens : List (List ℕ)} (h : Admitted cfg lens) {k : ℕ} {l : List ℕ}
    (hl : lens[k]? = some l) :
    k * cfg.cacheLine + cfg.cacheLine ≤ cfg.nUb * cfg.cacheLine := by
  have hk : k < lens.length := (List.getElem?_eq_some_iff.mp hl).1
  rw [← Nat.succ_mul]
  exact Nat.mul_le_mul_right _ (hk.trans_le h.count)

/-- A row of the pool determines the micro-batch, the sequence and the token. -/
theorem Admitted.row_unique {lens : List (List ℕ)} (h : Admitted cfg lens) {k k' i i' n n' t u : ℕ}
    {l l' : List ℕ} (hl : lens[k]? = some l) (hl' : lens[k']? = some l') (hi : l[i]? = some n)
    (hi' : l'[i']? = some n') (ht : t < n + cfg.genLen) (hu : u < n' + cfg.genLen)
    (heq : k * cfg.cacheLine + offset (cfg.seqCaps l) i + t =
      k' * cfg.cacheLine + offset (cfg.seqCaps l') i' + u) :
    k = k' ∧ i = i' ∧ t = u := by
  have hin := h.offset_le hl hi
  have hin' := h.offset_le hl' hi'
  rw [Nat.add_assoc, Nat.add_assoc] at heq
  obtain ⟨rfl, hrow⟩ := line_unique (by omega) (by omega) heq
  obtain rfl : l = l' := Option.some.inj (hl.symm.trans hl')
  obtain ⟨rfl, rfl⟩ := offset_unique (cfg.seqCaps_getElem? hi) (cfg.seqCaps_getElem? hi') ht hu hrow
  exact ⟨rfl, rfl, rfl⟩

theorem le_promptEnd {lens : List ℕ} {i n : ℕ} (hi : lens[i]? = some n) :
    offset (cfg.seqCaps lens) i + n ≤ promptEnd cfg lens := by
  have hlt : i < lens.length := (List.getElem?_eq_some_iff.mp hi).1
  rcases Nat.lt_or_ge i (lens.length - 1) with h | h
  · have := offset_add_le (cfg.seqCaps_getElem? hi) h
    rw [promptEnd]
    omega
  · obtain rfl : i = lens.length - 1 := by omega
    rw [promptEnd, List.getLast?_eq_getElem?, hi, Option.getD_some]

theorem Admitted.promptEnd_le {lens : List (List ℕ)} (h : Admitted cfg lens) {k : ℕ} {l : List ℕ}
    (hl : lens[k]? = some l) : promptEnd cfg l ≤ cfg.cacheLine := by
  have hne := h.nonempty l (List.mem_of_getElem? hl)
  have hlast : l[l.length - 1]? = some (l.getLast hne) := by
    rw [← List.getLast?_eq_getElem?, List.getLast?_eq_some_getLast hne]
  have := h.offset_le hl hlast
  rw [promptEnd, List.getLast?_eq_some_getLast hne, Option.getD_some]
  omega

end Layout

section Memory

/-- The row of token `p` of a sequence of `n` prompt tokens. -/
def KvRows.own (rows : KvRows κ) (layerId k i n p : ℕ) : κ :=
  if p < n then rows.prefill layerId k i p else rows.decode (p - n + 1) layerId k i

/-- The memory of a layer holds the tokens of micro-batch `k` up to decode step `d`. -/
def Holds (cfg : EngineConfig) (rows : KvRows κ) (lens : List (List ℕ)) (layerId k d : ℕ)
    (s : KvState κ) : Prop :=
  ∀ l, lens[k]? = some l → ∀ i n, l[i]? = some n → ∀ p, p < n + d →
    s.pool.kvDataCpu layerId (k * cfg.cacheLine + offset (cfg.seqCaps l) i + p) =
      rows.own layerId k i n p

/-- The engine after `d` decode steps, whatever its memories hold. -/
structure KvAt (cfg : EngineConfig) (lens : List (List ℕ)) (d : ℕ) (s : KvState κ) : Prop where
  line_eq : s.pool.cacheLine = cfg.cacheLine
  size_eq : s.pool.cpuSize = cfg.nUb * cfg.cacheLine
  batches_eq : s.microBatches = lens.mapIdx (batchAt cfg d)
  step_eq : s.decodeStep = d

variable {cfg : EngineConfig} {rows : KvRows κ} {lens : List (List ℕ)} {d : ℕ} {s : KvState κ}

theorem KvAt.getElem? (hs : KvAt cfg lens d s) {k : ℕ} {l : List ℕ} (hl : lens[k]? = some l) :
    s.microBatches[k]? = some (batchAt cfg d k l) := by
  rw [hs.batches_eq, List.getElem?_mapIdx, hl]
  rfl

/-- Every micro-batch of the state is a `batchAt`. -/
theorem KvAt.batch_eq (hs : KvAt cfg lens d s) {k : ℕ} {b : KvBatch}
    (hb : s.microBatches[k]? = some b) : ∃ l, lens[k]? = some l ∧ b = batchAt cfg d k l := by
  rw [hs.batches_eq, List.getElem?_mapIdx] at hb
  cases hl : lens[k]? with
  | none => simp [hl] at hb
  | some l => exact ⟨l, rfl, by simpa [hl, eq_comm] using hb⟩

/-- Every sequence of a `batchAt` is a `seqAt`. -/
theorem batchAt_seq_eq {k i : ℕ} {l : List ℕ} {q : SeqKv}
    (hq : (batchAt cfg d k l).seqs[i]? = some q) :
    ∃ n, l[i]? = some n ∧ q = seqAt cfg k l d i n := by
  simp only [batchAt, List.getElem?_mapIdx] at hq
  cases hn : l[i]? with
  | none => simp [hn] at hq
  | some n => exact ⟨n, rfl, by simpa [hn, eq_comm] using hq⟩

theorem KvAt.batch_of_mem (hs : KvAt cfg lens d s) {b : KvBatch} (hb : b ∈ s.microBatches) :
    ∃ k l, lens[k]? = some l ∧ b = batchAt cfg d k l ∧
      ∀ q ∈ b.seqs, ∃ i n, l[i]? = some n ∧ q = seqAt cfg k l d i n := by
  obtain ⟨k, hk⟩ := List.getElem?_of_mem hb
  obtain ⟨l, hl, rfl⟩ := hs.batch_eq hk
  refine ⟨k, l, hl, rfl, fun q hq => ?_⟩
  obtain ⟨i, hi⟩ := List.getElem?_of_mem hq
  exact ⟨i, batchAt_seq_eq hi⟩

/-- An indexed write with indices in range. -/
theorem indexPut_eq {size : ℕ} {mem : ℕ → κ} {indices : List ℕ} {values : List κ}
    (hlt : ∀ i ∈ indices, i < size) (hlen : indices.length = values.length) :
    indexPut size mem (indices.map Nat.cast) values = some (scatter mem indices values) := by
  have hwrap : (indices.map (Nat.cast : ℕ → ℤ)).mapM (wrapIndex size) = some indices := by
    have hcast : ∀ x ∈ indices.map (Nat.cast : ℕ → ℤ), wrapIndex size x = some x.toNat := by
      intro x hx
      obtain ⟨i, hi, rfl⟩ := List.mem_map.mp hx
      rw [wrapIndex_natCast (hlt i hi), Int.toNat_natCast]
    rw [mapM_eq_some hcast, List.map_map]
    simp [Function.comp_def]
  simp [indexPut, hwrap, hlen]

/-- `layer` writes the keys and values of the prompt to the GPU line. -/
theorem layer_spec (rows : KvRows κ) (hadm : Admitted cfg lens) (hs : KvAt cfg lens d s)
    (layerId j : ℕ) {k : ℕ} {l : List ℕ} (hl : lens[k]? = some l) :
    ∃ mem, kvStep rows s (.layer layerId j k) = some { s with pool := { s.pool with kvData := mem } } ∧
      ∀ i n, l[i]? = some n → ∀ t, t < n →
        mem (k % 2 * cfg.cacheLine + offset (cfg.seqCaps l) i + t) = rows.prefill layerId k i t := by
  have hline : k % 2 * cfg.cacheLine + cfg.cacheLine ≤ 2 * cfg.cacheLine := by
    rw [← Nat.succ_mul]
    exact Nat.mul_le_mul_right _ (by omega)
  have hprompt : rows.prompt layerId k (batchAt cfg d k l) =
      (l.zipIdx 0).flatMap fun p => (List.range p.1).map (rows.prefill layerId k p.2) := by
    have hzip : (batchAt cfg d k l).seqs.zipIdx =
        l.zipIdx.map fun p => (seqAt cfg k l d p.2 p.1, p.2) := by
      apply List.ext_getElem?
      intro i
      cases hi : l[i]? <;> simp [batchAt, hi]
    rw [KvRows.prompt, hzip, List.flatMap_map]
    rfl
  have hlt : ∀ r ∈ (batchAt cfg d k l).outCacheLoc, r < 2 * s.pool.cacheLine := by
    intro r hr
    obtain ⟨i, n, t, hi, ht, rfl⟩ := mem_outCacheLoc.mp hr
    have := hadm.offset_le hl hi
    rw [hs.line_eq]
    omega
  have hput : indexPut (2 * s.pool.cacheLine) s.pool.kvData
      ((batchAt cfg d k l).outCacheLoc.map Nat.cast) (rows.prompt layerId k (batchAt cfg d k l)) =
      some (scatter s.pool.kvData (batchAt cfg d k l).outCacheLoc
        (rows.prompt layerId k (batchAt cfg d k l))) := by
    apply indexPut_eq hlt
    rw [hprompt, length_promptRows]
    exact length_outCacheLoc _ _ l
  refine ⟨scatter s.pool.kvData (batchAt cfg d k l).outCacheLoc
    (rows.prompt layerId k (batchAt cfg d k l)), ?_, ?_⟩
  · simp only [kvStep, hs.getElem? hl, storeKvCache, hput, Option.bind_some, Option.map_some]
  · intro i n hi t ht
    rw [hprompt]
    apply scatter_eq
    · exact ⟨_, mem_zip_outCacheLoc.mpr ⟨i, n, t, hi, ht, rfl⟩, by simp⟩
    · rintro e he hr
      obtain ⟨i', n', t', hi', ht', rfl⟩ := mem_zip_outCacheLoc.mp he
      simp only [Nat.add_zero] at hr
      obtain ⟨rfl, rfl⟩ := offset_unique (cfg.seqCaps_getElem? hi') (cfg.seqCaps_getElem? hi)
        (show t' < _ by omega) (show t < _ by omega) (by omega)
      simp

/-- `offload_kv_cache` copies the line of a micro-batch to its own line of the pool. -/
theorem offloadKvCache_spec (rows : KvRows κ) (hadm : Admitted cfg lens) (hs : KvAt cfg lens d s)
    (layerId : ℕ) {k : ℕ} {l : List ℕ} (hl : lens[k]? = some l) :
    kvStep rows s (.offloadKvCache layerId k) =
      some { s with pool := { s.pool with
        kvDataCpu := Function.update s.pool.kvDataCpu layerId
          (copyRows (s.pool.kvDataCpu layerId) (k * cfg.cacheLine) s.pool.kvData
            (k % 2 * cfg.cacheLine) (promptEnd cfg l)) } } := by
  have hend := hadm.promptEnd_le hl
  have hline : k % 2 * cfg.cacheLine + cfg.cacheLine ≤ 2 * cfg.cacheLine := by
    rw [← Nat.succ_mul]
    exact Nat.mul_le_mul_right _ (by omega)
  have hsrc : k * cfg.cacheLine % (2 * cfg.cacheLine) = k % 2 * cfg.cacheLine :=
    Nat.mul_mod_mul_right _ _ _
  have hsize : ((batchAt cfg d k l).kvPt - ((k * cfg.cacheLine : ℕ) : ℤ)).toNat =
      promptEnd cfg l := by
    simp only [batchAt]
    omega
  have hcpu : (batchAt cfg d k l).cpuKvPoolStartLoc = k * cfg.cacheLine := rfl
  simp only [kvStep, hs.getElem? hl, offloadKvCache, TokenToKVPool.store, Option.bind_some, hsize,
    hcpu, hs.line_eq, hs.size_eq, hsrc]
  rw [copySlice_eq (Slice.length_of_le ((Nat.add_le_add_left hend _).trans (hadm.line_le hl)))
    (Slice.length_of_le ((Nat.add_le_add_left hend _).trans hline))]
  simp

theorem mem_zip_mapIdx {β γ δ : Type*} {f : ℕ → β → γ} {g : ℕ → β → δ} {xs : List β} {e : γ × δ} :
    e ∈ (xs.mapIdx f).zip (xs.mapIdx g) ↔ ∃ i x, xs[i]? = some x ∧ e = (f i x, g i x) := by
  rw [List.mem_iff_getElem?]
  constructor
  · rintro ⟨i, hi⟩
    rw [List.getElem?_zip_eq_some, List.getElem?_mapIdx, List.getElem?_mapIdx] at hi
    cases hx : xs[i]? with
    | none => simp [hx] at hi
    | some x =>
        simp only [hx, Option.map_some, Option.some.injEq] at hi
        exact ⟨i, x, hx, Prod.ext hi.1.symm hi.2.symm⟩
  · rintro ⟨i, x, hx, rfl⟩
    refine ⟨i, ?_⟩
    rw [List.getElem?_zip_eq_some, List.getElem?_mapIdx, List.getElem?_mapIdx, hx]
    exact ⟨rfl, rfl⟩

/-- The rows that decode step `d` writes for micro-batch `k`. -/
def stepRows (cfg : EngineConfig) (d k : ℕ) (l : List ℕ) : List ℕ :=
  l.mapIdx fun i n => k * cfg.cacheLine + offset (cfg.seqCaps l) i + (n + d - 1)

theorem mem_stepRows {k r : ℕ} {l : List ℕ} : r ∈ stepRows cfg d k l ↔
    ∃ i n, l[i]? = some n ∧ r = k * cfg.cacheLine + offset (cfg.seqCaps l) i + (n + d - 1) := by
  rw [stepRows, List.mem_mapIdx]
  constructor
  · rintro ⟨i, hi, rfl⟩
    exact ⟨i, _, List.getElem?_eq_getElem hi, rfl⟩
  · rintro ⟨i, n, hn, rfl⟩
    obtain ⟨hi, rfl⟩ := List.getElem?_eq_some_iff.mp hn
    exact ⟨i, hi, rfl⟩

/-- They are rows of its line. -/
theorem Admitted.stepRows_line (hadm : Admitted cfg lens) (hd : 0 < d) (hgen : d ≤ cfg.genLen)
    {k r : ℕ} {l : List ℕ} (hl : lens[k]? = some l) (hr : r ∈ stepRows cfg d k l) :
    k * cfg.cacheLine ≤ r ∧ r < k * cfg.cacheLine + cfg.cacheLine := by
  obtain ⟨i, n, hi, rfl⟩ := mem_stepRows.mp hr
  have := hadm.offset_le hl hi
  omega

/-- `store_kv_cache_cpu` in the layout of a micro-batch. -/
theorem storeKvCacheCpu_eq (hadm : Admitted cfg lens) {pool : TokenToKVPool κ}
    (hsize : pool.cpuSize = cfg.nUb * cfg.cacheLine) (hd : 0 < d) (hgen : d ≤ cfg.genLen)
    (layerId : ℕ) {k : ℕ} {l : List ℕ} (hl : lens[k]? = some l) {cache : List κ}
    (hcache : cache.length = l.length) :
    storeKvCacheCpu pool (batchAt cfg d k l) layerId cache =
      some { pool with
        kvDataCpu := Function.update pool.kvDataCpu layerId
          (scatter (pool.kvDataCpu layerId) (stepRows cfg d k l) cache) } := by
  have hindices : (batchAt cfg d k l).seqs.map SeqKv.decodeOutCacheLoc =
      (stepRows cfg d k l).map Nat.cast := by
    apply List.ext_getElem?
    intro i
    cases hi : l[i]? with
    | none => simp [batchAt, stepRows, hi]
    | some n =>
        simp only [batchAt, stepRows, List.getElem?_map, List.getElem?_mapIdx, hi,
          Option.map_some, seqAt]
        congr 1
        omega
  have hlt : ∀ r ∈ stepRows cfg d k l, r < pool.cpuSize := by
    intro r hr
    have hrow := hadm.stepRows_line hd hgen hl hr
    have hline := hadm.line_le hl
    omega
  have hput := @indexPut_eq _ _ (pool.kvDataCpu layerId) _ cache hlt
    (by simp [stepRows, hcache])
  simp only [storeKvCacheCpu, hindices, hput, Option.map_some]

/-- `token_attention_cpu` reads the first `n + d` rows of each sequence. -/
theorem tokenAttentionCpu_eq (pool : TokenToKVPool κ) (hd : 0 < d) (layerId k : ℕ) (l : List ℕ) :
    tokenAttentionCpu pool (batchAt cfg d k l) layerId =
      some (l.mapIdx fun i n => gather (pool.kvDataCpu layerId)
        (k * cfg.cacheLine + offset (cfg.seqCaps l) i) (n + d)) := by
  have hread : ∀ q ∈ (batchAt cfg d k l).seqs,
      q.seqLenCpu.map (gather (pool.kvDataCpu layerId) q.startLoc) =
        some (gather (pool.kvDataCpu layerId) q.startLoc q.seqLen) := by
    intro q hq
    obtain ⟨i, hi, rfl⟩ := List.mem_mapIdx.mp hq
    simp [seqAt, Nat.pos_iff_ne_zero.mp hd]
  rw [tokenAttentionCpu, mapM_eq_some hread]
  congr 1
  apply List.ext_getElem?
  intro i
  cases hi : l[i]? <;> simp [batchAt, seqAt, hi]

/-- An attention call writes one row of its layer for each sequence: the row of the
token that the step feeds. -/
theorem cpuAttention_spec (rows : KvRows κ) (hadm : Admitted cfg lens) (hs : KvAt cfg lens d s)
    (hd : 0 < d) (hgen : d ≤ cfg.genLen) (layerId : ℕ) {k : ℕ} {l : List ℕ} (hl : lens[k]? = some l) :
    ∃ mem, kvStep rows s (.cpuAttention layerId k) =
        some { s with pool := { s.pool with
          kvDataCpu := Function.update s.pool.kvDataCpu layerId mem } } ∧
      (∀ i n, l[i]? = some n →
        mem (k * cfg.cacheLine + offset (cfg.seqCaps l) i + (n + d - 1)) =
          rows.decode d layerId k i) ∧
      ∀ r, r ∉ stepRows cfg d k l → mem r = s.pool.kvDataCpu layerId r := by
  let values := l.mapIdx fun i _ => rows.decode d layerId k i
  have hvalues : rows.step d layerId k (batchAt cfg d k l) = values := by
    apply List.ext_getElem?
    intro i
    cases hi : l[i]? <;> simp [KvRows.step, batchAt, values, hi]
  have hstore := storeKvCacheCpu_eq hadm hs.size_eq hd hgen layerId hl
    (show values.length = l.length by simp [values])
  refine ⟨scatter (s.pool.kvDataCpu layerId) (stepRows cfg d k l) values, ?_, ?_, ?_⟩
  · simp only [kvStep, hs.getElem? hl, hs.step_eq, hvalues, hstore, Option.bind_some,
      Option.map_some]
  · intro i n hi
    apply scatter_eq
    · exact ⟨_, mem_zip_mapIdx.mpr ⟨i, n, hi, rfl⟩, rfl⟩
    · rintro e he hr
      obtain ⟨i', n', hi', rfl⟩ := mem_zip_mapIdx.mp he
      obtain ⟨-, rfl, -⟩ := hadm.row_unique hl hl hi' hi (show n' + d - 1 < _ by omega)
        (show n + d - 1 < _ by omega) hr
      rfl
  · exact fun r hr => scatter_of_notMem hr

/-- Prefill of a micro-batch at a layer brings its prompt rows to the memory of the
layer, and keeps what the other micro-batches have there. -/
theorem prefillBatch_holds (rows : KvRows κ) (hadm : Admitted cfg lens) (hs : KvAt cfg lens 0 s)
    (layerId j : ℕ) {k : ℕ} {l : List ℕ} (hl : lens[k]? = some l) :
    ∃ t u, kvStep rows s (.layer layerId j k) = some t ∧
      kvStep rows t (.offloadKvCache layerId k) = some u ∧ KvAt cfg lens 0 t ∧ KvAt cfg lens 0 u ∧
      Holds cfg rows lens layerId k 0 u ∧
      ∀ layerId' k', Holds cfg rows lens layerId' k' 0 s → Holds cfg rows lens layerId' k' 0 u := by
  obtain ⟨mem, hlayer, hmem⟩ := layer_spec rows hadm hs layerId j hl
  have ht : KvAt cfg lens 0 { s with pool := { s.pool with kvData := mem } } :=
    ⟨hs.line_eq, hs.size_eq, hs.batches_eq, hs.step_eq⟩
  have hend := hadm.promptEnd_le hl
  have hnew : Holds cfg rows lens layerId k 0 { s with pool := { s.pool with
      kvData := mem
      kvDataCpu := Function.update s.pool.kvDataCpu layerId
        (copyRows (s.pool.kvDataCpu layerId) (k * cfg.cacheLine) mem (k % 2 * cfg.cacheLine)
          (promptEnd cfg l)) } } := by
    intro l' hl' i n hi p hp
    obtain rfl : l' = l := Option.some.inj (hl'.symm.trans hl)
    have hle : offset (cfg.seqCaps l') i + n ≤ promptEnd cfg l' := le_promptEnd hi
    simp only [Function.update_self]
    rw [copyRows_inside (by omega) (by omega), KvRows.own, if_pos (by omega),
      ← hmem i n hi p (by omega)]
    congr 1
    omega
  refine ⟨_, _, hlayer, offloadKvCache_spec rows hadm ht layerId hl, ht,
    ⟨hs.line_eq, hs.size_eq, hs.batches_eq, hs.step_eq⟩, hnew, ?_⟩
  intro layerId' k' h
  by_cases hsame : layerId' = layerId ∧ k' = k
  · obtain ⟨rfl, rfl⟩ := hsame
    exact hnew
  · intro l' hl' i n hi p hp
    by_cases hlayer : layerId' = layerId
    · subst hlayer
      simp only [Function.update_self]
      -- The copy stays in line `k`.
      have hout : ¬ (k * cfg.cacheLine ≤ k' * cfg.cacheLine + offset (cfg.seqCaps l') i + p ∧
          k' * cfg.cacheLine + offset (cfg.seqCaps l') i + p <
            k * cfg.cacheLine + promptEnd cfg l) := by
        rintro ⟨h1, h2⟩
        have hin := hadm.offset_le hl' hi
        obtain ⟨x, hx⟩ := Nat.exists_eq_add_of_le h1
        exact hsame ⟨rfl, (line_unique (show offset (cfg.seqCaps l') i + p < cfg.cacheLine by omega)
          (show x < cfg.cacheLine by omega) ((Nat.add_assoc _ _ _).symm.trans hx)).1⟩
      rw [copyRows, if_neg hout]
      exact h l' hl' i n hi p hp
    · simp only [Function.update_of_ne hlayer]
      exact h l' hl' i n hi p hp

/-- In decode step `d` an attention call brings the row of the step, keeps the rows
that are there, and reads the tokens of its sequences. -/
theorem cpuAttention_holds (rows : KvRows κ) (hadm : Admitted cfg lens) (hs : KvAt cfg lens d s)
    (hd : 0 < d) (hgen : d ≤ cfg.genLen) (layerId : ℕ) {k : ℕ} {l : List ℕ} (hl : lens[k]? = some l) :
    ∃ t, kvStep rows s (.cpuAttention layerId k) = some t ∧ KvAt cfg lens d t ∧
      (Holds cfg rows lens layerId k (d - 1) s → Holds cfg rows lens layerId k d t) ∧
      ∀ layerId' k' d', d' ≤ cfg.genLen → Holds cfg rows lens layerId' k' d' s →
        Holds cfg rows lens layerId' k' d' t := by
  obtain ⟨mem, hstep, hnew, hold⟩ := cpuAttention_spec rows hadm hs hd hgen layerId hl
  -- Whatever row of a sequence is looked at, the call leaves it or writes its own value.
  have hrow : ∀ k' l', lens[k']? = some l' → ∀ i n, l'[i]? = some n → ∀ p, p < n + cfg.genLen →
      mem (k' * cfg.cacheLine + offset (cfg.seqCaps l') i + p) = rows.own layerId k' i n p ∨
      mem (k' * cfg.cacheLine + offset (cfg.seqCaps l') i + p) =
        s.pool.kvDataCpu layerId (k' * cfg.cacheLine + offset (cfg.seqCaps l') i + p) := by
    intro k' l' hl' i n hi p hp
    by_cases hwritten : k' * cfg.cacheLine + offset (cfg.seqCaps l') i + p ∈ stepRows cfg d k l
    · left
      obtain ⟨i', n', hi', heq⟩ := mem_stepRows.mp hwritten
      obtain ⟨rfl, rfl, rfl⟩ := hadm.row_unique hl' hl hi hi' hp (by omega) heq
      obtain rfl : l' = l := Option.some.inj (hl'.symm.trans hl)
      obtain rfl : n = n' := Option.some.inj (hi.symm.trans hi')
      rw [hnew i n hi, KvRows.own, if_neg (by omega)]
      congr 1
      omega
    · right
      exact hold _ hwritten
  have hkeep : ∀ layerId' k' d', d' ≤ cfg.genLen → Holds cfg rows lens layerId' k' d' s →
      Holds cfg rows lens layerId' k' d' { s with pool := { s.pool with
        kvDataCpu := Function.update s.pool.kvDataCpu layerId mem } } := by
    intro layerId' k' d' hd' h l' hl' i n hi p hp
    by_cases hlayer : layerId' = layerId
    · subst hlayer
      simp only [Function.update_self]
      rcases hrow k' l' hl' i n hi p (by omega) with hval | hval
      · exact hval
      · rw [hval]
        exact h l' hl' i n hi p hp
    · simp only [Function.update_of_ne hlayer]
      exact h l' hl' i n hi p hp
  refine ⟨_, hstep, ⟨hs.line_eq, hs.size_eq, hs.batches_eq, hs.step_eq⟩, ?_, hkeep⟩
  intro h l' hl' i n hi p hp
  obtain rfl : l' = l := Option.some.inj (hl'.symm.trans hl)
  by_cases hlast : p = n + d - 1
  · subst hlast
    simp only [Function.update_self]
    rw [hnew i n hi, KvRows.own, if_neg (by omega)]
    congr 1
    omega
  · exact hkeep layerId k (d - 1) (by omega) h l' hl' i n hi p (by omega)

end Memory

/-- The region of the pool that a sequence may come to fill. -/
def SeqKv.region (cfg : EngineConfig) (q : SeqKv) : Set ℕ :=
  Set.Ico q.startLoc (q.startLoc + (q.inputLen + cfg.genLen))

/-- What the layout promises of the micro-batches of a state. -/
structure KvLayout (cfg : EngineConfig) (s : KvState κ) : Prop where
  /-- The regions of two sequences are disjoint. -/
  disjoint : ∀ (k k' : ℕ) (b b' : KvBatch), s.microBatches[k]? = some b →
    s.microBatches[k']? = some b' → ∀ (i i' : ℕ) (q q' : SeqKv), b.seqs[i]? = some q →
      b'.seqs[i']? = some q' → (k, i) ≠ (k', i') → Disjoint (q.region cfg) (q'.region cfg)
  /-- They lie inside the pool. -/
  inside : ∀ b ∈ s.microBatches, ∀ q ∈ b.seqs, q.region cfg ⊆ Set.Ico 0 s.pool.cpuSize
  /-- A sequence has a token for its prompt and for each decode step, in its region. -/
  seqLen : ∀ b ∈ s.microBatches, ∀ q ∈ b.seqs, q.seqLen = q.inputLen + s.decodeStep ∧
    q.seqLen ≤ q.inputLen + cfg.genLen
  decodeOut : ∀ b ∈ s.microBatches, ∀ q ∈ b.seqs,
    q.decodeOutCacheLoc = (q.startLoc : ℤ) + q.seqLen - 1
  /-- The GPU rows of a micro-batch are in its line. -/
  gpu : ∀ b ∈ s.microBatches, b.cacheLineIdx < 2 ∧
    ∀ r ∈ b.outCacheLoc, b.cacheLineIdx * s.pool.cacheLine ≤ r ∧
      r < b.cacheLineIdx * s.pool.cacheLine + s.pool.cacheLine

/-- Attention reads, for each sequence, the keys and values of its own tokens, from
the first to the last. -/
def AttentionReads (rows : KvRows κ) (s : KvState κ) : Call → Prop
  | .cpuAttention layerId k => ∃ t b, kvStep rows s (.cpuAttention layerId k) = some t ∧
      t.microBatches[k]? = some b ∧
      tokenAttentionCpu t.pool b layerId =
        some (b.seqs.mapIdx fun i q => (List.range q.seqLen).map (rows.own layerId k i q.inputLen))
  | _ => True

section Contract

variable {cfg : EngineConfig} {rows : KvRows κ} {lens : List (List ℕ)} {d : ℕ} {s : KvState κ}

theorem KvAt.layout (hadm : Admitted cfg lens) (hs : KvAt cfg lens d s) (hd : d ≤ cfg.genLen) :
    KvLayout cfg s := by
  constructor
  · intro k k' b b' hb hb' i i' q q' hq hq' hne
    obtain ⟨l, hl, rfl⟩ := hs.batch_eq hb
    obtain ⟨l', hl', rfl⟩ := hs.batch_eq hb'
    obtain ⟨n, hi, rfl⟩ := batchAt_seq_eq hq
    obtain ⟨n', hi', rfl⟩ := batchAt_seq_eq hq'
    rw [Set.disjoint_left]
    rintro r ⟨h1, h2⟩ ⟨h1', h2'⟩
    simp only [seqAt] at h1 h2 h1' h2'
    obtain ⟨t, ht⟩ := Nat.exists_eq_add_of_le h1
    obtain ⟨u, hu⟩ := Nat.exists_eq_add_of_le h1'
    obtain ⟨rfl, rfl, -⟩ := hadm.row_unique hl hl' hi hi' (show t < n + cfg.genLen by omega)
      (show u < n' + cfg.genLen by omega) (ht.symm.trans hu)
    exact hne rfl
  · intro b hb q hq r hr
    obtain ⟨k, l, hl, rfl, hqs⟩ := hs.batch_of_mem hb
    obtain ⟨i, n, hi, rfl⟩ := hqs q hq
    have hin := hadm.offset_le hl hi
    have hline := hadm.line_le hl
    have hlt := hr.2
    simp only [seqAt] at hlt
    rw [hs.size_eq]
    exact ⟨Nat.zero_le r, by omega⟩
  · intro b hb q hq
    obtain ⟨k, l, hl, rfl, hqs⟩ := hs.batch_of_mem hb
    obtain ⟨i, n, hi, rfl⟩ := hqs q hq
    rw [hs.step_eq]
    exact ⟨rfl, Nat.add_le_add_left hd n⟩
  · intro b hb q hq
    obtain ⟨k, l, hl, rfl, hqs⟩ := hs.batch_of_mem hb
    obtain ⟨i, n, hi, rfl⟩ := hqs q hq
    simp only [seqAt]
    push_cast
    ring
  · intro b hb
    obtain ⟨k, l, hl, rfl, -⟩ := hs.batch_of_mem hb
    refine ⟨Nat.mod_lt _ (by omega), fun r hr => ?_⟩
    obtain ⟨i, n, t, hi, ht, rfl⟩ := mem_outCacheLoc.mp hr
    have hin := hadm.offset_le hl hi
    simp only [batchAt, hs.line_eq]
    omega

/-- With its rows in memory, a micro-batch reads its own tokens. -/
theorem Holds.reads (hd : 0 < d) {layerId k : ℕ} {l : List ℕ}
    (hl : lens[k]? = some l) (h : Holds cfg rows lens layerId k d s) :
    tokenAttentionCpu s.pool (batchAt cfg d k l) layerId =
      some ((batchAt cfg d k l).seqs.mapIdx fun i q =>
        (List.range q.seqLen).map (rows.own layerId k i q.inputLen)) := by
  rw [tokenAttentionCpu_eq _ hd]
  congr 1
  apply List.ext_getElem?
  intro i
  cases hi : l[i]? with
  | none => simp [batchAt, hi]
  | some n =>
      simp only [batchAt, List.getElem?_mapIdx, hi, Option.map_some, seqAt]
      congr 1
      exact gather_congr fun p hp => h l hl i n hi p hp

/-- The two promises at every call of a run. -/
def KvContract (cfg : EngineConfig) (rows : KvRows κ) (s : KvState κ) (c : Call) : Prop :=
  KvLayout cfg s ∧ AttentionReads rows s c

/-- Prefill, with the prompt rows of the pairs in `done` in memory. -/
def KvPrefillAt (cfg : EngineConfig) (rows : KvRows κ) (lens : List (List ℕ)) (done : Set (ℕ × ℕ))
    (s : KvState κ) : Prop :=
  KvAt cfg lens 0 s ∧ ∀ p ∈ done, Holds cfg rows lens p.1 p.2 0 s

theorem kvPrefillBatch_runs (rows : KvRows κ) (hadm : Admitted cfg lens) (i : ℕ) {k : ℕ}
    (hk : k < lens.length)
    (done : Set (ℕ × ℕ)) :
    Runs (kvStep rows) (KvContract cfg rows) (KvPrefillAt cfg rows lens done)
      (prefillBatchCalls lens.length i 0 k) (KvPrefillAt cfg rows lens (done ∪ {(i, k)})) := by
  have hbring : Runs (kvStep rows) (KvContract cfg rows) (KvPrefillAt cfg rows lens done)
      [.layer i 0 k, .offloadKvCache i k] (KvPrefillAt cfg rows lens (done ∪ {(i, k)})) := by
    rintro s ⟨hs, hdone⟩
    obtain ⟨t, u, ht, hu, hts, hus, hnew, hkeep⟩ :=
      prefillBatch_holds rows hadm hs i 0 (List.getElem?_eq_getElem hk)
    refine ⟨?_, u, by simp [ht, hu], hus, ?_⟩
    · refine ⟨⟨hs.layout hadm (Nat.zero_le _), trivial⟩, fun t' ht' => ⟨?_, fun _ _ => trivial⟩⟩
      obtain rfl : t = t' := Option.some.inj (ht.symm.trans ht')
      exact ⟨hts.layout hadm (Nat.zero_le _), trivial⟩
    · rintro p (hp | rfl)
      · exact hkeep _ _ (hdone p hp)
      · exact hnew
  rw [prefillBatchCalls, if_pos rfl]
  refine Runs.append hbring (Runs.skip ?_)
  intro c hc s hs
  have hlayout := hs.1.layout hadm (Nat.zero_le _)
  split_ifs at hc
  · simp only [List.mem_cons, List.not_mem_nil, or_false] at hc
    rcases hc with rfl | rfl <;> exact ⟨⟨hlayout, trivial⟩, rfl⟩
  · simp at hc

theorem kvPrefill_runs (hadm : Admitted cfg lens) :
    Runs (kvStep rows) (KvContract cfg rows) (KvAt cfg lens 0)
      (prefillCalls cfg.numHiddenLayers 1 lens.length)
      (KvPrefillAt cfg rows lens {p | p.1 < cfg.numHiddenLayers ∧ p.2 < lens.length}) := by
  have hprefetch : ∀ done layerId, Runs (kvStep rows) (KvContract cfg rows)
      (KvPrefillAt cfg rows lens done) [.prefetchExperts layerId 0 0 .prefill]
      (KvPrefillAt cfg rows lens done) := fun done layerId =>
    Runs.single fun s hs => ⟨⟨hs.1.layout hadm (Nat.zero_le _), trivial⟩, s, rfl, hs⟩
  have hlayer : ∀ i ∈ List.range cfg.numHiddenLayers, ∀ done,
      Runs (kvStep rows) (KvContract cfg rows) (KvPrefillAt cfg rows lens done)
        (prefillLayerCalls cfg.numHiddenLayers 1 lens.length i)
        (KvPrefillAt cfg rows lens (done ∪ {p | p.1 = i ∧ p.2 < lens.length})) := by
    intro i _ done
    rw [prefillLayerCalls_one]
    have hbatches := Runs.collect (List.range lens.length)
      (fun k hk done => kvPrefillBatch_runs rows hadm i (List.mem_range.mp hk) done) done
    refine Runs.append (hbatches.conseq (fun s hs => hs) fun s hs => ⟨hs.1, ?_⟩) (hprefetch _ _)
    rintro ⟨j, k⟩ (hp | ⟨rfl, hk⟩)
    · exact hs.2 _ (Or.inl hp)
    · exact hs.2 _ (Or.inr ⟨k, List.mem_range.mpr hk, rfl⟩)
  have hlayers := Runs.collect _ hlayer ∅
  refine (Runs.cons (hprefetch ∅ 0) hlayers).conseq (fun s hs => ⟨hs, by simp⟩) ?_
  rintro s ⟨hs, hdone⟩
  exact ⟨hs, fun p hp => hdone p (Or.inr ⟨p.1, List.mem_range.mpr hp.1, rfl, hp.2⟩)⟩

/-- The pairs that a decode step sends to attention. -/
def Attended (cfg : EngineConfig) (numMb : ℕ) : Set (ℕ × ℕ) :=
  {p | Call.cpuAttention p.1 p.2 ∈ decodeBodyCalls cfg.numHiddenLayers 1 numMb}

/-- Decode step `d`, with the row of the step in memory for the pairs in `done` and
those of the steps before it for every pair. -/
def KvDecodeAt (cfg : EngineConfig) (rows : KvRows κ) (lens : List (List ℕ)) (d : ℕ)
    (done : Set (ℕ × ℕ)) (s : KvState κ) : Prop :=
  KvAt cfg lens d s ∧ (∀ p ∈ Attended cfg lens.length, Holds cfg rows lens p.1 p.2 (d - 1) s) ∧
    ∀ p ∈ done, Holds cfg rows lens p.1 p.2 d s

theorem kvStep_keepsKv {c : Call} (h : c.keepsKv) : kvStep rows s c = some s := by
  cases c <;> first | rfl | simp [Call.keepsKv] at h

theorem kvDecodeCall_runs (rows : KvRows κ) (hadm : Admitted cfg lens) (hd : 0 < d)
    (hgen : d ≤ cfg.genLen) {c : Call}
    (hc : c ∈ decodeBodyCalls cfg.numHiddenLayers 1 lens.length) (done : Set (ℕ × ℕ)) :
    Runs (kvStep rows) (KvContract cfg rows) (KvDecodeAt cfg rows lens d done) [c]
      (KvDecodeAt cfg rows lens d (done ∪ {p | c = .cpuAttention p.1 p.2})) := by
  refine Runs.single fun s hs => ?_
  obtain ⟨hat, hbefore, hdone⟩ := hs
  have hlayout := hat.layout hadm hgen
  rcases mem_decodeBodyCalls cfg.layers_pos hc with ⟨i, k, hi, hk, rfl⟩ | hkeeps
  · have hl := List.getElem?_eq_getElem hk
    obtain ⟨t, ht, hts, hnew, hkeep⟩ := cpuAttention_holds rows hadm hat hd hgen i hl
    have hheld := hnew (hbefore (i, k) hc)
    refine ⟨⟨hlayout, t, _, ht, hts.getElem? hl, hheld.reads hd hl⟩, t, ht, hts, ?_, ?_⟩
    · exact fun p hp => hkeep _ _ _ (by omega) (hbefore p hp)
    · rintro ⟨j, k'⟩ (hp | hp)
      · exact hkeep _ _ _ hgen (hdone _ hp)
      · obtain ⟨rfl, rfl⟩ : i = j ∧ k = k' := by simpa using hp
        exact hheld
  · refine ⟨⟨hlayout, ?_⟩, s, kvStep_keepsKv hkeeps, hat, hbefore, ?_⟩
    · cases c with
      | cpuAttention i k => simp [Call.keepsKv] at hkeeps
      | _ => trivial
    · rintro p (hp | hp)
      · exact hdone p hp
      · obtain rfl := hp
        simp [Call.keepsKv] at hkeeps

/-- After `d` decode steps: the rows of every attended pair are in memory. -/
def KvStepAt (cfg : EngineConfig) (rows : KvRows κ) (lens : List (List ℕ)) (d : ℕ)
    (s : KvState κ) : Prop :=
  KvAt cfg lens d s ∧ ∀ p ∈ Attended cfg lens.length, Holds cfg rows lens p.1 p.2 d s

/-- A decode step adds the row of its token wherever it attends. -/
theorem kvDecodeStep_runs (rows : KvRows κ) (hadm : Admitted cfg lens) (hgen : d + 1 ≤ cfg.genLen) :
    Runs (kvStep rows) (KvContract cfg rows) (KvStepAt cfg rows lens d)
      (decodeStepCalls cfg.numHiddenLayers 1 lens.length) (KvStepAt cfg rows lens (d + 1)) := by
  have hprepare : Runs (kvStep rows) (KvContract cfg rows) (KvStepAt cfg rows lens d)
      [.prepareForDecode] (KvDecodeAt cfg rows lens (d + 1) ∅) := by
    refine Runs.single fun s hs => ?_
    obtain ⟨hat, hheld⟩ := hs
    refine ⟨⟨hat.layout hadm (by omega), trivial⟩, _, rfl,
      ⟨hat.line_eq, hat.size_eq, ?_, by simp [hat.step_eq]⟩, hheld, by simp⟩
    apply List.ext_getElem?
    intro k
    cases hl : lens[k]? <;> simp [hat.batches_eq, hl, prepareForDecode_batch]
  have hbody := Runs.collect (decodeBodyCalls cfg.numHiddenLayers 1 lens.length)
    (fun c hc done => kvDecodeCall_runs rows hadm (Nat.succ_pos d) hgen hc done) ∅
  rw [List.flatMap_singleton'] at hbody
  refine (Runs.cons hprepare hbody).conseq (fun s hs => hs) ?_
  rintro s ⟨hat, -, hdone⟩
  exact ⟨hat, fun p hp => hdone p (Or.inr ⟨_, hp, rfl⟩)⟩

theorem numDecodeSteps_le (cfg : EngineConfig) (numMb : ℕ) :
    cfg.numDecodeSteps numMb ≤ cfg.genLen := by
  have := cfg.genLen_pos
  rw [EngineConfig.numDecodeSteps]
  split_ifs <;> omega

/-- The contract of the pool: admitted micro-batches get a layout, the whole run
executes in it, and every attention call that it makes reads the tokens of its sequences. -/
theorem kvCache_contract (cfg : EngineConfig) (rows : KvRows κ) {lens : List (List ℕ)}
    (hadm : Admitted cfg lens) (gpu : ℕ → κ) (cpu : ℕ → ℕ → κ) :
    ∃ batches pool, prepareForPrefill cfg.genLen
        (TokenToKVPool.new cfg.gpuTokenBufferSize cfg.cpuTokenPoolSize gpu cpu).clear lens =
          some (batches, pool) ∧
      Along (kvStep rows) (KvContract cfg rows) ⟨pool, batches, 0⟩
        (batchForwardStep cfg lens.length) ∧
      ∃ t, exec (kvStep rows) ⟨pool, batches, 0⟩ (batchForwardStep cfg lens.length) = some t ∧
        KvLayout cfg t := by
  have hdecode : Runs (kvStep rows) (KvContract cfg rows) (KvStepAt cfg rows lens 0)
      ((List.range (cfg.numDecodeSteps lens.length)).flatMap fun _ =>
        decodeStepCalls cfg.numHiddenLayers 1 lens.length)
      (KvStepAt cfg rows lens (cfg.numDecodeSteps lens.length)) := by
    refine Runs.loop _ fun d hd => kvDecodeStep_runs rows hadm ?_
    have := numDecodeSteps_le cfg lens.length
    omega
  have hrun : Runs (kvStep rows) (KvContract cfg rows) (KvAt cfg lens 0)
      (batchForwardStep cfg lens.length) (KvStepAt cfg rows lens (cfg.numDecodeSteps lens.length)) := by
    rw [batchForwardStep, cfg.weightsPrefetchNumPagesCpu_eq, forwardCalls]
    refine Runs.append ((kvPrefill_runs hadm).conseq (fun s hs => hs) ?_) hdecode
    rintro s ⟨hat, hheld⟩
    refine ⟨hat, fun p hp => hheld p ?_⟩
    rcases mem_decodeBodyCalls cfg.layers_pos hp with ⟨i, k, hi, hk, heq⟩ | hkeeps
    · obtain ⟨h1, h2⟩ : p.1 = i ∧ p.2 = k := by simpa using heq
      exact ⟨h1 ▸ hi, h2 ▸ hk⟩
    · simp [Call.keepsKv] at hkeeps
  have hbatch : ∀ pool : TokenToKVPool κ, pool.cacheLine = cfg.cacheLine →
      pool.cpuSize = cfg.nUb * cfg.cacheLine →
      Along (kvStep rows) (KvContract cfg rows) ⟨pool, lens.mapIdx (batchAt cfg 0), 0⟩
        (batchForwardStep cfg lens.length) ∧
      ∃ t, exec (kvStep rows) ⟨pool, lens.mapIdx (batchAt cfg 0), 0⟩
          (batchForwardStep cfg lens.length) = some t ∧ KvLayout cfg t := by
    intro pool hline hsize
    obtain ⟨halong, t, ht, hend⟩ := hrun ⟨pool, _, 0⟩ ⟨hline, hsize, rfl, rfl⟩
    exact ⟨halong, t, ht, hend.1.layout hadm (numDecodeSteps_le cfg lens.length)⟩
  exact ⟨_, _, prepareForPrefill_new hadm.nonempty gpu cpu, hbatch _ rfl rfl⟩

end Contract

end HarvestMoE
