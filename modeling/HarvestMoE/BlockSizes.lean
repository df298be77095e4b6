import HarvestMoE.Lib.IntBits
import HarvestMoE.KvCacheConfig

/-!
# Block sizes that are accepted

`PagedKVCache` takes a block size when `block_size & (block_size - 1)` is 0, and from then on
divides by it: for the blocks that a sequence needs, and for the place of a token in
`write_kv` and `read_kv`. Negative sizes and sizes that are no power of two fail the test. It
passes 0, by which nothing can be divided; the other sizes that pass are the powers of two
(`usableBlockSize_iff`). The endpoint for updates of the configuration checks for 0 before it
makes the same test.

## Main definitions

* `TwoDeviceCache`, `TwoDeviceCache.new` — the cache with the tables of both devices.
* `checkedWriteKv`, `checkedReadKv` — reads and writes that may raise.
* `CacheCall`, `cacheStep`, `CallDivides` — a run of calls, and those that divide.
* `UsableBlockSize` — the test says which sizes can be divided by.
-/

namespace HarvestMoE

open Lib

namespace PagedKvCache

variable {κ ρ : Type*}

/-- `token_idx // self.block_size` and `token_idx % self.block_size`, or none where they raise a
`ZeroDivisionError`. -/
def checkedPlace (blockSize : ℕ) (blockIndices : List ℕ) (tokenIdx : ℕ) : Option (Option (ℕ × ℕ)) :=
  if blockSize = 0 then none else some (place blockSize blockIndices tokenIdx)

/-- The loop of `write_kv`. -/
def checkedWriteRows (blockSize : ℕ) (blockIndices : List ℕ) :
    (ℕ → ℕ → ρ × ρ) → ℕ → List (ρ × ρ) → Option (ℕ → ℕ → ρ × ρ)
  | gpuCache, _, [] => some gpuCache
  | gpuCache, tokenIdx, row :: rows =>
      match checkedPlace blockSize blockIndices tokenIdx with
      | none => none
      | some none => checkedWriteRows blockSize blockIndices gpuCache (tokenIdx + 1) rows
      | some (some (p, offset)) =>
          checkedWriteRows blockSize blockIndices (put gpuCache p offset row) (tokenIdx + 1) rows

def checkedWriteKv (c : PagedKvCache κ ρ) (rows : List (ρ × ρ)) (blockIndices : List ℕ)
    (_layerId startTokenIdx : ℕ) : Option (PagedKvCache κ ρ) :=
  (checkedWriteRows c.blockSize blockIndices c.gpuCache startTokenIdx rows).map
    fun gpuCache => { c with gpuCache := gpuCache }

def checkedReadKv [Zero ρ] (c : PagedKvCache κ ρ) (blockIndices : List ℕ) (numTokens : ℕ) :
    Option (List (ρ × ρ)) :=
  (List.range numTokens).mapM fun tokenIdx =>
    (checkedPlace c.blockSize blockIndices tokenIdx).map fun
      | some (p, offset) => c.gpuCache p offset
      | none => (0, 0)

variable {c : PagedKvCache κ ρ}

/-- With a size that is not 0 a write goes through. -/
theorem checkedWriteKv_eq (hsize : c.blockSize ≠ 0) (rows : List (ρ × ρ)) (blockIndices : List ℕ)
    (layerId startTokenIdx : ℕ) :
    c.checkedWriteKv rows blockIndices layerId startTokenIdx =
      some (c.writeKv rows blockIndices layerId startTokenIdx) := by
  have hloop : ∀ (rows : List (ρ × ρ)) (gpuCache : ℕ → ℕ → ρ × ρ) (tokenIdx : ℕ),
      checkedWriteRows c.blockSize blockIndices gpuCache tokenIdx rows =
        some (writeRows c.blockSize blockIndices gpuCache tokenIdx rows) := by
    intro rows
    induction rows with
    | nil => exact fun _ _ => rfl
    | cons row rows ih =>
        intro gpuCache tokenIdx
        rw [checkedWriteRows, checkedPlace, if_neg hsize, writeRows, writeRow]
        cases place c.blockSize blockIndices tokenIdx with
        | none => exact ih _ _
        | some p => exact ih _ _
  rw [checkedWriteKv, hloop, Option.map_some, writeKv]

/-- With a size that is not 0 a read goes through. -/
theorem checkedReadKv_eq [Zero ρ] (hsize : c.blockSize ≠ 0) (blockIndices : List ℕ)
    (numTokens : ℕ) :
    c.checkedReadKv blockIndices numTokens = some (c.readKv blockIndices numTokens) := by
  simp only [checkedReadKv, checkedPlace, if_neg hsize, Option.map_some]
  exact List.mapM_pure

end PagedKvCache

/-- `PagedKVCache` with the tables of both devices. -/
structure TwoDeviceCache (κ ρ : Type*) extends PagedKvCache κ ρ where
  cpuBlockTables : List (BlockTable κ)

/-- `block_size & (block_size - 1) == 0` -/
def PassesBitTest (blockSize : ℤ) : Prop := Int.land blockSize (blockSize - 1) = 0

instance (blockSize : ℤ) : Decidable (PassesBitTest blockSize) := Int.instDecidableEq _ _

namespace TwoDeviceCache

variable {κ ρ : Type*}

/-- `PagedKVCache.__init__`, or the text of its `ValueError`. A size that passes the test is not
negative (`passesBitTest_iff`), so it is kept as a natural number. -/
def new [Zero ρ] (numGpuBlocks numCpuBlocks : ℕ) (blockSize : ℤ) (numLayers : ℕ) :
    Except String (TwoDeviceCache κ ρ) :=
  if ¬ PassesBitTest blockSize then
    .error ("Block size must be power of 2, got " ++ toString blockSize)
  else
    .ok
      { blockSize := blockSize.toNat
        gpuCache := fun _ _ => (0, 0)
        gpuBlockTables := List.replicate numLayers (.new numGpuBlocks blockSize.toNat)
        cpuBlockTables := List.replicate numLayers (.new numCpuBlocks blockSize.toNat) }

def tables (c : TwoDeviceCache κ ρ) : Device → List (BlockTable κ)
  | .gpu => c.gpuBlockTables
  | .cpu => c.cpuBlockTables

end TwoDeviceCache

/-- The cache and its tables have one block size. -/
structure HasBlockSize {κ ρ : Type*} (size : ℕ) (c : TwoDeviceCache κ ρ) : Prop where
  cache : c.blockSize = size
  tables : ∀ device, ∀ t ∈ c.tables device, t.blockSize = size

/-- A call on the cache, with any arguments. -/
inductive CacheCall (κ ρ : Type*)
  | table (op : MemoryOp κ)
  | write (rows : List (ρ × ρ)) (blockIndices : List ℕ) (layerId startTokenIdx : ℕ)
  | read (blockIndices : List ℕ) (numTokens : ℕ)

section Run

variable {κ ρ : Type*} [DecidableEq κ]

/-- The cache after a call, whether it raises or not. A write that raises does so at its first
row. -/
def cacheStep (c : TwoDeviceCache κ ρ) : CacheCall κ ρ → TwoDeviceCache κ ρ
  | .table ⟨.gpu, layerId, call⟩ =>
      { c with gpuBlockTables := tablesStep c.gpuBlockTables layerId call }
  | .table ⟨.cpu, layerId, call⟩ =>
      { c with cpuBlockTables := tablesStep c.cpuBlockTables layerId call }
  | .write rows blockIndices layerId startTokenIdx =>
      { c with
        toPagedKvCache := (c.checkedWriteKv rows blockIndices layerId startTokenIdx).getD
          c.toPagedKvCache }
  | .read _ _ => c

/-- What a call on a table divides does not raise. -/
def TableDivides (t : BlockTable κ) : BlockOp κ → Prop
  | .allocate seqId numTokens => (t.allocateBlocks seqId numTokens).1 ≠ .error .zeroDivision
  | .free _ => True

/-- No division or remainder by the block size raises. -/
def CallDivides [Zero ρ] (c : TwoDeviceCache κ ρ) : CacheCall κ ρ → Prop
  | .table op => ∀ t, (c.tables op.device)[op.layerId]? = some t → TableDivides t op.call
  | .write rows blockIndices layerId startTokenIdx =>
      (c.checkedWriteKv rows blockIndices layerId startTokenIdx).isSome
  | .read blockIndices numTokens => (c.checkedReadKv blockIndices numTokens).isSome

end Run

/-- A cache is constructed for the positive powers of two, and every run of calls on one that
was constructed divides by its block size. -/
structure UsableBlockSize (κ ρ : Type*) [DecidableEq κ] [Zero ρ] (blockSize : ℤ) : Prop where
  constructed_iff : ∀ numGpuBlocks numCpuBlocks numLayers,
    (∃ c : TwoDeviceCache κ ρ,
      TwoDeviceCache.new numGpuBlocks numCpuBlocks blockSize numLayers = .ok c) ↔
        ∃ k : ℕ, blockSize = 2 ^ k
  divides : ∀ numGpuBlocks numCpuBlocks numLayers (c : TwoDeviceCache κ ρ),
    TwoDeviceCache.new numGpuBlocks numCpuBlocks blockSize numLayers = .ok c →
      ∀ calls, EachStep cacheStep CallDivides c calls

section Sizes

variable {blockSize : ℤ}

theorem passesBitTest_iff : PassesBitTest blockSize ↔ blockSize = 0 ∨ ∃ k : ℕ, blockSize = 2 ^ k :=
  land_sub_one_eq_zero_iff blockSize

theorem passesBitTest_natCast (n : ℕ) : PassesBitTest n ↔ n &&& (n - 1) = 0 := by
  rw [PassesBitTest, land_sub_one_natCast, Int.natCast_eq_zero]

theorem two_pow_ne_zero (h : ∃ k : ℕ, blockSize = 2 ^ k) : blockSize ≠ 0 := by
  have ⟨k, hpow⟩ := h
  rw [hpow]
  exact pow_ne_zero k (by decide)

theorem nonneg_of_passesBitTest (h : PassesBitTest blockSize) : 0 ≤ blockSize := by
  rcases passesBitTest_iff.mp h with rfl | ⟨k, rfl⟩
  · exact le_rfl
  · positivity

end Sizes

theorem HasBlockSize.of_tables {κ ρ : Type*} {c : TwoDeviceCache κ ρ} {size : ℕ}
    (hcache : c.blockSize = size) (hgpu : ∀ t ∈ c.gpuBlockTables, t.blockSize = size)
    (hcpu : ∀ t ∈ c.cpuBlockTables, t.blockSize = size) : HasBlockSize size c := by
  refine ⟨hcache, fun device => ?_⟩
  cases device with
  | gpu => exact hgpu
  | cpu => exact hcpu

namespace TwoDeviceCache

variable {κ ρ : Type*} [Zero ρ] {blockSize : ℤ} {numGpuBlocks numCpuBlocks numLayers : ℕ}
  {c : TwoDeviceCache κ ρ}

theorem exists_new_iff :
    (∃ c : TwoDeviceCache κ ρ, new numGpuBlocks numCpuBlocks blockSize numLayers = .ok c) ↔
      PassesBitTest blockSize := by
  by_cases h : PassesBitTest blockSize
  · exact iff_of_true ⟨_, if_neg (not_not.mpr h)⟩ h
  · refine iff_of_false ?_ h
    rintro ⟨c, hc⟩
    rw [new, if_pos h] at hc
    cases hc

/-- What is constructed has the block size everywhere. -/
theorem new_sizes (hc : new numGpuBlocks numCpuBlocks blockSize numLayers = .ok c) :
    (c.blockSize : ℤ) = blockSize ∧ HasBlockSize c.blockSize c := by
  have hpasses : PassesBitTest blockSize := exists_new_iff.mp ⟨c, hc⟩
  have htables : ∀ numBlocks size, ∀ t ∈ List.replicate numLayers
      (BlockTable.new numBlocks size : BlockTable κ), t.blockSize = size := by
    intro numBlocks size t ht
    rw [List.eq_of_mem_replicate ht, BlockTable.new]
  rw [new, if_neg (not_not.mpr hpasses)] at hc
  obtain rfl := Except.ok.inj hc
  exact ⟨Int.toNat_of_nonneg (nonneg_of_passesBitTest hpasses),
    .of_tables rfl (htables _ _) (htables _ _)⟩

/-- On natural numbers it is the constructor of the cache on the GPU. -/
theorem new_natCast (numGpuBlocks numCpuBlocks blockSize numLayers : ℕ) :
    (new numGpuBlocks numCpuBlocks blockSize numLayers : Except String (TwoDeviceCache κ ρ)).map
        toPagedKvCache = PagedKvCache.new numGpuBlocks blockSize numLayers := by
  have htest := passesBitTest_natCast blockSize
  by_cases h : blockSize &&& (blockSize - 1) = 0
  · rw [new, if_neg (not_not.mpr (htest.mpr h)), PagedKvCache.new, if_neg (not_not.mpr h)]
    rfl
  · rw [new, if_pos (mt htest.mp h), PagedKvCache.new, if_pos h]
    rfl

end TwoDeviceCache

section Calls

variable {κ ρ : Type*} [DecidableEq κ] {c : TwoDeviceCache κ ρ} {t : BlockTable κ} {size : ℕ}

theorem blockSize_tablesStep {tables : List (BlockTable κ)} (h : ∀ t ∈ tables, t.blockSize = size)
    (layerId : ℕ) (call : BlockOp κ) :
    ∀ t ∈ tablesStep tables layerId call, t.blockSize = size := by
  unfold tablesStep
  cases ht : tables[layerId]? with
  | none => exact h
  | some t =>
      intro t' ht'
      rcases List.mem_or_eq_of_mem_set ht' with hold | rfl
      · exact h t' hold
      · rw [blockStep_blockSize]
        exact h t (List.mem_of_getElem? ht)

omit [DecidableEq κ] in
/-- A write leaves the block size and the tables as they are. -/
theorem checkedWriteKv_frame {k k' : PagedKvCache κ ρ} {rows : List (ρ × ρ)}
    {blockIndices : List ℕ} {layerId startTokenIdx : ℕ}
    (h : k.checkedWriteKv rows blockIndices layerId startTokenIdx = some k') :
    k' = { k with gpuCache := k'.gpuCache } := by
  have ⟨_, _, hk⟩ := Option.map_eq_some_iff.mp h
  rw [← hk]

theorem HasBlockSize.step (h : HasBlockSize size c) (call : CacheCall κ ρ) :
    HasBlockSize size (cacheStep c call) := by
  cases call with
  | read blockIndices numTokens => exact h
  | write rows blockIndices layerId startTokenIdx =>
      simp only [cacheStep]
      cases hwrite : c.checkedWriteKv rows blockIndices layerId startTokenIdx with
      | none => exact h
      | some k =>
          rw [Option.getD_some, checkedWriteKv_frame hwrite]
          exact .of_tables h.cache (h.tables .gpu) (h.tables .cpu)
  | table op =>
      rcases op with ⟨device, layerId, call⟩
      cases device with
      | gpu =>
          have hgpu := blockSize_tablesStep (h.tables .gpu) layerId call
          exact .of_tables h.cache hgpu (h.tables .cpu)
      | cpu =>
          have hcpu := blockSize_tablesStep (h.tables .cpu) layerId call
          exact .of_tables h.cache (h.tables .gpu) hcpu

/-- A table divides by zero when its block size is 0, and only then. -/
theorem allocateBlocks_zeroDivision_iff (t : BlockTable κ) (seqId : κ) (numTokens : ℕ) :
    (t.allocateBlocks seqId numTokens).1 = .error .zeroDivision ↔ t.blockSize = 0 := by
  unfold BlockTable.allocateBlocks BlockTable.numBlocksNeeded
  by_cases hsize : t.blockSize = 0
  · simp only [hsize, if_true]
  · simp only [hsize, if_false, iff_false]
    cases ceilTrueDiv numTokens t.blockSize with
    | none => simp
    | some need =>
        simp only
        split_ifs <;> simp

/-- A block size that is not 0 divides. -/
theorem HasBlockSize.callDivides [Zero ρ] (h : HasBlockSize size c) (hsize : size ≠ 0)
    (call : CacheCall κ ρ) : CallDivides c call := by
  have hcache : c.blockSize ≠ 0 := h.cache.trans_ne hsize
  cases call with
  | write rows blockIndices layerId startTokenIdx =>
      rw [CallDivides, PagedKvCache.checkedWriteKv_eq hcache, Option.isSome_some]
  | read blockIndices numTokens =>
      rw [CallDivides, PagedKvCache.checkedReadKv_eq hcache, Option.isSome_some]
  | table op =>
      intro t ht
      have htable : t.blockSize ≠ 0 := (h.tables _ t (List.mem_of_getElem? ht)).trans_ne hsize
      cases hcall : op.call with
      | free seqId => trivial
      | allocate seqId numTokens =>
          exact mt (allocateBlocks_zeroDivision_iff t seqId numTokens).mp htable

/-- The invariant along a run. -/
theorem HasBlockSize.eachStep [Zero ρ] (h : HasBlockSize size c) (hsize : size ≠ 0)
    (calls : List (CacheCall κ ρ)) : EachStep cacheStep CallDivides c calls := by
  refine eachStep_iff_split.mpr fun before call _ _ => ?_
  have hrun : HasBlockSize size (before.foldl cacheStep c) :=
    foldl_preserves (fun _ call _ h => HasBlockSize.step h call) h
  exact hrun.callDivides hsize call

end Calls

section Results

variable {κ ρ : Type*} [DecidableEq κ] [Zero ρ] {blockSize : ℤ}

/-- With a block size of 0 nothing divides: every allocation for a layer raises, and every read
and write of a token. -/
theorem newZero_raises {numGpuBlocks numCpuBlocks numLayers : ℕ} {c : TwoDeviceCache κ ρ}
    (hc : TwoDeviceCache.new numGpuBlocks numCpuBlocks 0 numLayers = .ok c) :
    (∀ device, ∀ t ∈ c.tables device, ∀ seqId numTokens,
        (t.allocateBlocks seqId numTokens).1 = .error .zeroDivision) ∧
      (∀ row rows blockIndices layerId startTokenIdx,
        c.checkedWriteKv (row :: rows) blockIndices layerId startTokenIdx = none) ∧
      ∀ blockIndices numTokens, c.checkedReadKv blockIndices (numTokens + 1) = none := by
  have ⟨hcast, hsizes⟩ := TwoDeviceCache.new_sizes hc
  have hzero : c.blockSize = 0 := Int.natCast_eq_zero.mp hcast
  refine ⟨fun device t ht seqId numTokens => ?_, fun row rows blockIndices layerId start => ?_,
    fun blockIndices numTokens => ?_⟩
  · have htable : t.blockSize = 0 := (hsizes.tables device t ht).trans hzero
    exact (allocateBlocks_zeroDivision_iff t seqId numTokens).mpr htable
  · simp only [PagedKvCache.checkedWriteKv, PagedKvCache.checkedWriteRows,
      PagedKvCache.checkedPlace, hzero, if_true, Option.map_none]
  · simp only [PagedKvCache.checkedReadKv, PagedKvCache.checkedPlace, hzero, if_true,
      Option.map_none, List.range_succ_eq_map, List.mapM_cons]
    rfl

/-- Zero passes the test and is no power of two. -/
theorem not_usableBlockSize_zero : ¬ UsableBlockSize κ ρ 0 := by
  intro h
  have hpasses : PassesBitTest 0 := passesBitTest_iff.mpr (.inl rfl)
  have hpow := (h.constructed_iff 0 0 0).mp (TwoDeviceCache.exists_new_iff.mpr hpasses)
  exact two_pow_ne_zero hpow rfl

theorem usableBlockSize_of_ne_zero (hsize : blockSize ≠ 0) : UsableBlockSize κ ρ blockSize := by
  constructor
  case constructed_iff =>
    intro numGpuBlocks numCpuBlocks numLayers
    rw [TwoDeviceCache.exists_new_iff, passesBitTest_iff]
    exact or_iff_right hsize
  case divides =>
    intro numGpuBlocks numCpuBlocks numLayers c hc calls
    have ⟨hcast, hsizes⟩ := TwoDeviceCache.new_sizes hc
    have hnonzero : c.blockSize ≠ 0 := by
      rw [← hcast] at hsize
      exact Int.natCast_ne_zero.mp hsize
    exact hsizes.eachStep hnonzero calls

/-- **The sizes that pass the test can be divided by, but for 0.** -/
theorem usableBlockSize_iff (κ ρ : Type*) [DecidableEq κ] [Zero ρ] (blockSize : ℤ) :
    UsableBlockSize κ ρ blockSize ↔ blockSize ≠ 0 := by
  constructor
  · rintro h rfl
    exact not_usableBlockSize_zero h
  · exact usableBlockSize_of_ne_zero

/-- A block size of 0 is accepted. -/
theorem blockSize_zero_accepted : ¬ ∀ blockSize : ℤ, UsableBlockSize ℕ ℕ blockSize :=
  fun h => not_usableBlockSize_zero (h 0)

/-- The endpoint that updates the configuration accepts the powers of two and nothing else. -/
theorem checkBlockSize_eq_none_iff :
    checkBlockSize blockSize = none ↔ ∃ k : ℕ, blockSize = 2 ^ k := by
  unfold checkBlockSize
  by_cases hsize : blockSize ≤ 0
  · rw [if_pos hsize]
    refine iff_of_false (Option.some_ne_none _) ?_
    rintro ⟨k, rfl⟩
    exact absurd hsize (not_le.mpr (by positivity))
  · obtain ⟨n, rfl⟩ := Int.eq_ofNat_of_zero_le (not_le.mp hsize).le
    have hne : (n : ℤ) ≠ 0 := (not_le.mp hsize).ne'
    have hpow : PassesBitTest n ↔ ∃ k : ℕ, (n : ℤ) = 2 ^ k :=
      passesBitTest_iff.trans (or_iff_right hne)
    rw [if_neg hsize, Int.toNat_natCast, ← hpow, passesBitTest_natCast]
    by_cases h : n &&& (n - 1) = 0
    · rw [if_neg (not_not.mpr h)]
      exact iff_of_true rfl h
    · rw [if_pos h]
      exact iff_of_false (Option.some_ne_none _) h

end Results

end HarvestMoE
