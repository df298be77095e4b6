import HarvestMoE.PagedKvCache
import Mathlib.Algebra.BigOperators.Group.List.Basic
import Mathlib.Algebra.Order.Floor.Ring
import Mathlib.Data.Rat.Floor
import Mathlib.Tactic.FieldSimp
import Mathlib.Tactic.LinearCombination
import Mathlib.Tactic.Positivity

/-!
# The memory of the paged cache

The tensor on the GPU is one for all layers, and on the CPU every layer has one of its own.
`get_memory_usage` counts free blocks by the free lists, but used blocks by the sequences,
whatever they hold: its figures add up when the live sequences hold one block each on average.
`build_context` splits a budget between the two devices and does not divide the CPU's part by
the number of layers.

## Main definitions

* `PagedMemory`, `memoryStep` — the tensors and the tables of both devices, and the calls.
* `PagedMemory.getMemoryUsage`, `MemoryUsage.AddsUp` — the figures.
* `OneBlockEach` — as many blocks as sequences.
* `calculateCacheBlocks`, `buildPagedCache` — the split of the budget.
-/

namespace HarvestMoE

open Lib

/-- What a block is made of. -/
structure BlockShape where
  blockSize : ℕ
  numHeads : ℕ
  headDim : ℕ
  elementSize : ℕ

/-- `block_size_bytes`: a block holds keys and values. -/
def BlockShape.blockBytes (b : BlockShape) : ℕ :=
  b.blockSize * 2 * b.numHeads * b.headDim * b.elementSize

/-- `PagedKVCache`, as far as memory goes: the blocks of the tensor on the GPU and of the tensors
on the CPU, and the block tables. -/
structure PagedMemory (κ : Type*) where
  shape : BlockShape
  numLayers : ℕ
  gpuCache : ℕ
  cpuCache : List ℕ
  gpuBlockTables : List (BlockTable κ)
  cpuBlockTables : List (BlockTable κ)

section Counts

variable {κ : Type*} (tables : List (BlockTable κ))

/-- The live sequences, the free blocks and the blocks of sequences, over all layers. -/
def numSequences : ℕ := (tables.map fun t => t.seqToBlocks.entries.length).sum

def numFree : ℕ := (tables.map fun t => t.freeBlocks.length).sum

def numOwned : ℕ := (tables.map fun t => t.ownedBlocks.length).sum

/-- The live sequences hold as many blocks as there are sequences. -/
def OneBlockEach : Prop := numOwned tables = numSequences tables

end Counts

inductive Device
  | gpu
  | cpu
  deriving DecidableEq, Repr

/-- A call on the block table of a layer. -/
structure MemoryOp (κ : Type*) where
  device : Device
  layerId : ℕ
  call : BlockOp κ

/-- What `get_memory_usage` returns. -/
structure MemoryUsage where
  gpuCacheGb : ℚ
  gpuCacheUsedGb : ℚ
  cpuCacheGb : ℚ
  cpuCacheUsedGb : ℚ
  blockSize : ℕ
  gpuBlocksFree : ℚ
  cpuBlocksFree : ℚ

/-- Used and free make the whole, on the GPU and for a layer on the CPU. -/
structure MemoryUsage.AddsUp (u : MemoryUsage) (blockBytes : ℕ) : Prop where
  gpu : u.gpuCacheUsedGb + u.gpuBlocksFree * blockBytes / 1024 ^ 3 = u.gpuCacheGb
  cpu : u.cpuCacheUsedGb + u.cpuBlocksFree * blockBytes / 1024 ^ 3 = u.cpuCacheGb

namespace PagedMemory

variable {κ : Type*}

/-- `PagedKVCache.__init__`. Pinned or not, a tensor on the CPU has the same size. -/
def new (numGpuBlocks numCpuBlocks : ℕ) (shape : BlockShape) (numLayers : ℕ) :
    Except String (PagedMemory κ) :=
  if shape.blockSize &&& (shape.blockSize - 1) ≠ 0 then
    .error ("Block size must be power of 2, got " ++ toString shape.blockSize)
  else
    .ok
      { shape := shape
        numLayers := numLayers
        gpuCache := numGpuBlocks
        cpuCache := List.replicate numLayers numCpuBlocks
        gpuBlockTables := List.replicate numLayers (.new numGpuBlocks shape.blockSize)
        cpuBlockTables := List.replicate numLayers (.new numCpuBlocks shape.blockSize) }

/-- The tables of a device. -/
def tables (c : PagedMemory κ) : Device → List (BlockTable κ)
  | .gpu => c.gpuBlockTables
  | .cpu => c.cpuBlockTables

/-- The bytes of all tensors. -/
def totalBytes (c : PagedMemory κ) : ℕ := (c.gpuCache + c.cpuCache.sum) * c.shape.blockBytes

/-- `sum(len(table.seq_to_blocks) for table in tables) / num_layers` -/
def blocksUsed (c : PagedMemory κ) (tables : List (BlockTable κ)) : ℚ :=
  numSequences tables / c.numLayers

/-- `sum(len(t.free_blocks) for t in tables) / num_layers` -/
def blocksFree (c : PagedMemory κ) (tables : List (BlockTable κ)) : ℚ :=
  numFree tables / c.numLayers

/-- `get_memory_usage`, which raises without layers. -/
def getMemoryUsage (c : PagedMemory κ) : Option MemoryUsage :=
  if c.numLayers = 0 then none
  else
    c.cpuCache.head?.map fun cpuBlocksTotal : ℕ =>
      { gpuCacheGb := c.gpuCache * c.shape.blockBytes / 1024 ^ 3
        gpuCacheUsedGb := c.blocksUsed c.gpuBlockTables * c.shape.blockBytes / 1024 ^ 3
        cpuCacheGb := cpuBlocksTotal * c.shape.blockBytes / 1024 ^ 3
        cpuCacheUsedGb := c.blocksUsed c.cpuBlockTables * c.shape.blockBytes / 1024 ^ 3
        blockSize := c.shape.blockSize
        gpuBlocksFree := c.blocksFree c.gpuBlockTables
        cpuBlocksFree := c.blocksFree c.cpuBlockTables }

end PagedMemory

section Run

variable {κ : Type*} [DecidableEq κ]

/-- A call on the table of a layer; there is none behind the last layer. -/
def tablesStep (tables : List (BlockTable κ)) (layerId : ℕ) (call : BlockOp κ) :
    List (BlockTable κ) :=
  match tables[layerId]? with
  | none => tables
  | some t => tables.set layerId (blockStep t call)

/-- `allocate_gpu_blocks`, `allocate_cpu_blocks` and `free_sequence_blocks`, without what they
return. -/
def memoryStep (c : PagedMemory κ) (op : MemoryOp κ) : PagedMemory κ :=
  match op.device with
  | .gpu => { c with gpuBlockTables := tablesStep c.gpuBlockTables op.layerId op.call }
  | .cpu => { c with cpuBlockTables := tablesStep c.cpuBlockTables op.layerId op.call }

/-- The call is not for a sequence that has blocks in its table. -/
def FreshCall (t : BlockTable κ) : BlockOp κ → Prop
  | .allocate seqId _ => seqId ∉ t.seqToBlocks
  | .free _ => True

/-- Blocks are allocated for fresh sequences. -/
def AllocatesFresh (c : PagedMemory κ) (op : MemoryOp κ) : Prop :=
  ∀ t, (c.tables op.device)[op.layerId]? = some t → FreshCall t op.call

/-- The tokens of an allocation need one block. -/
def TakesOneCall (t : BlockTable κ) : BlockOp κ → Prop
  | .allocate _ numTokens => ∀ need, t.numBlocksNeeded numTokens = .ok need → need = 1
  | .free _ => True

def TakesOne (c : PagedMemory κ) (op : MemoryOp κ) : Prop :=
  ∀ t, (c.tables op.device)[op.layerId]? = some t → TakesOneCall t op.call

/-- The calls on the GPU are those of the cache. -/
theorem memoryStep_allocateGpu {ρ : Type*} (c : PagedMemory κ) (k : PagedKvCache κ ρ)
    (h : k.gpuBlockTables = c.gpuBlockTables) (seqId : κ) (numTokens layerId : ℕ) :
    (memoryStep c ⟨.gpu, layerId, .allocate seqId numTokens⟩).gpuBlockTables =
      (k.allocateGpuBlocks seqId numTokens layerId).2.gpuBlockTables := by
  simp only [memoryStep, tablesStep, PagedKvCache.allocateGpuBlocks, h]
  cases c.gpuBlockTables[layerId]? with
  | none => exact h.symm
  | some t => rfl

end Run

section Tables

variable {κ : Type*} [DecidableEq κ] {t : BlockTable κ} {tables : List (BlockTable κ)}
  {n layers : ℕ}

/-- The blocks of a table are in their places. -/
structure TableSound (n : ℕ) (t : BlockTable κ) : Prop where
  owned : OwnedOnce t
  kept : NoneLost t
  numBlocks_eq : t.numBlocks = n

theorem TableSound.new (n blockSize : ℕ) :
    TableSound n (BlockTable.new n blockSize : BlockTable κ) :=
  ⟨OwnedOnce.new n blockSize, noneLost_new n blockSize, rfl⟩

theorem TableSound.step (h : TableSound n t) {call : BlockOp κ} (hfresh : FreshCall t call) :
    TableSound n (blockStep t call) := by
  have hkeeps : ¬ Regrows t call := by
    cases call with
    | free seqId => exact id
    | allocate seqId numTokens =>
        intro hgrows
        have hnone : t.getBlocks seqId = [] := by
          rw [BlockTable.getBlocks, AList.lookup_eq_none.mpr hfresh, Option.getD_none]
        exact hgrows.1 hnone
  exact ⟨h.owned.step call, (noneLost_step_iff h.owned h.kept call).mpr hkeeps,
    (blockStep_numBlocks t call).trans h.numBlocks_eq⟩

theorem TableSound.length_add (h : TableSound n t) :
    t.freeBlocks.length + t.ownedBlocks.length = n := by
  have hperm := (noneLost_iff h.owned).mp h.kept
  rw [← List.length_append, ← h.numBlocks_eq]
  exact hperm.length_eq.trans List.length_range

/-- The tables of a device: one for each layer. -/
structure TablesSound (n layers : ℕ) (tables : List (BlockTable κ)) : Prop where
  length_eq : tables.length = layers
  sound : ∀ t ∈ tables, TableSound n t

theorem TablesSound.step (h : TablesSound n layers tables) {layerId : ℕ} {call : BlockOp κ}
    (hfresh : ∀ t, tables[layerId]? = some t → FreshCall t call) :
    TablesSound n layers (tablesStep tables layerId call) := by
  unfold tablesStep
  cases ht : tables[layerId]? with
  | none => exact h
  | some t =>
      constructor
      case length_eq => exact List.length_set.trans h.length_eq
      case sound =>
        intro t' ht'
        have hmem := List.mem_of_getElem? ht
        rcases List.mem_or_eq_of_mem_set ht' with hold | rfl
        · exact h.sound t' hold
        · exact (h.sound t hmem).step (hfresh t ht)

/-- Free and owned blocks make the stock of every layer. -/
theorem TablesSound.sum_add (h : TablesSound n layers tables) :
    numFree tables + numOwned tables = layers * n := by
  have hlayer : ∀ t ∈ tables, _ = n := fun t ht => (h.sound t ht).length_add
  rw [numFree, numOwned, ← List.sum_map_add, List.map_congr_left hlayer, List.map_const',
    List.sum_replicate, h.length_eq, smul_eq_mul]

/-- No sequence holds more or less than one block. -/
def HoldsOne (t : BlockTable κ) : Prop := ∀ e ∈ t.seqToBlocks.entries, e.2.length = 1

theorem HoldsOne.step (h : HoldsOne t) {call : BlockOp κ} (hone : TakesOneCall t call) :
    HoldsOne (blockStep t call) := by
  have herase : ∀ seqId : κ, ∀ e ∈ t.seqToBlocks.entries.kerase seqId, e.2.length = 1 :=
    fun seqId e he => h e ((List.kerase_sublist seqId _).subset he)
  cases call with
  | free seqId =>
      simp only [blockStep, BlockTable.freeSequenceBlocks_eq]
      exact herase seqId
  | allocate seqId numTokens =>
      rcases t.allocateBlocks_cases seqId numTokens with ⟨_, hsame, -⟩ | ⟨need, hneed, hle, hok⟩
      · simp only [blockStep, hsame]
        exact h
      · have hlength : (t.freeBlocks.take need).length = 1 := by
          rw [List.length_take, min_eq_left hle]
          exact hone need hneed
        simp only [blockStep, hok, HoldsOne, AList.entries_insert]
        exact List.forall_mem_cons.mpr ⟨hlength, herase seqId⟩

omit [DecidableEq κ] in
theorem HoldsOne.length_eq (h : HoldsOne t) :
    t.ownedBlocks.length = t.seqToBlocks.entries.length := by
  rw [BlockTable.ownedBlocks, List.length_flatMap, List.map_congr_left h, List.map_const',
    List.sum_replicate, smul_eq_mul, Nat.mul_one]

omit [DecidableEq κ] in
theorem oneBlockEach_of_holdsOne (h : ∀ t ∈ tables, HoldsOne t) : OneBlockEach tables := by
  rw [OneBlockEach, numOwned, numSequences, List.map_congr_left fun t ht => (h t ht).length_eq]

theorem holdsOne_tablesStep (h : ∀ t ∈ tables, HoldsOne t) {layerId : ℕ} {call : BlockOp κ}
    (hone : ∀ t, tables[layerId]? = some t → TakesOneCall t call) :
    ∀ t ∈ tablesStep tables layerId call, HoldsOne t := by
  unfold tablesStep
  cases ht : tables[layerId]? with
  | none => exact h
  | some t =>
      intro t' ht'
      rcases List.mem_or_eq_of_mem_set ht' with hold | rfl
      · exact h t' hold
      · exact (h t (List.mem_of_getElem? ht)).step (hone t ht)

end Tables

section Usage

variable {κ : Type*} [DecidableEq κ] {c : PagedMemory κ} {numCpuBlocks : ℕ}

/-- The blocks of both devices are in their places. -/
structure MemorySound (numCpuBlocks : ℕ) (c : PagedMemory κ) : Prop where
  cpuCache_eq : c.cpuCache = List.replicate c.numLayers numCpuBlocks
  gpu : TablesSound c.gpuCache c.numLayers c.gpuBlockTables
  cpu : TablesSound numCpuBlocks c.numLayers c.cpuBlockTables

theorem MemorySound.new {numGpuBlocks numLayers : ℕ} {shape : BlockShape}
    (hc : PagedMemory.new numGpuBlocks numCpuBlocks shape numLayers = .ok c) :
    MemorySound numCpuBlocks c ∧ c.shape = shape := by
  unfold PagedMemory.new at hc
  split_ifs at hc
  obtain rfl := (Except.ok.inj hc).symm
  have htables : ∀ n, TablesSound n numLayers
      (List.replicate numLayers (BlockTable.new n shape.blockSize : BlockTable κ)) := by
    intro n
    refine ⟨List.length_replicate, fun t ht => ?_⟩
    rw [List.eq_of_mem_replicate ht]
    exact TableSound.new n shape.blockSize
  exact ⟨⟨rfl, htables numGpuBlocks, htables numCpuBlocks⟩, rfl⟩

theorem memoryStep_frame (c : PagedMemory κ) (op : MemoryOp κ) :
    memoryStep c op = { c with
      gpuBlockTables := (memoryStep c op).gpuBlockTables
      cpuBlockTables := (memoryStep c op).cpuBlockTables } := by
  unfold memoryStep
  cases op.device <;> rfl

theorem MemorySound.step (h : MemorySound numCpuBlocks c) {op : MemoryOp κ}
    (hfresh : AllocatesFresh c op) : MemorySound numCpuBlocks (memoryStep c op) := by
  rcases op with ⟨device, layerId, call⟩
  cases device with
  | gpu => exact ⟨h.cpuCache_eq, h.gpu.step hfresh, h.cpu⟩
  | cpu => exact ⟨h.cpuCache_eq, h.gpu, h.cpu.step hfresh⟩

/-- The figures of a device add up when sequences have one block each. -/
theorem used_add_free_iff {tables : List (BlockTable κ)} {n : ℕ}
    (h : TablesSound n c.numLayers tables) (hlayers : c.numLayers ≠ 0) (b : ℕ) :
    c.blocksUsed tables * b / 1024 ^ 3 + c.blocksFree tables * b / 1024 ^ 3 =
      (n : ℚ) * b / 1024 ^ 3 ↔ b = 0 ∨ OneBlockEach tables := by
  have hL : (c.numLayers : ℚ) ≠ 0 := Nat.cast_ne_zero.mpr hlayers
  have hsum : (numFree tables : ℚ) + numOwned tables = c.numLayers * n := by
    exact_mod_cast h.sum_add
  have hdiff : c.blocksUsed tables * b / 1024 ^ 3 + c.blocksFree tables * b / 1024 ^ 3 -
      (n : ℚ) * b / 1024 ^ 3 =
        b * ((numSequences tables : ℚ) - numOwned tables) / (c.numLayers * 1024 ^ 3) := by
    rw [PagedMemory.blocksUsed, PagedMemory.blocksFree]
    field_simp
    linear_combination (b : ℚ) * hsum
  have hden : ¬ (c.numLayers : ℚ) * 1024 ^ 3 = 0 := by positivity
  rw [← sub_eq_zero, hdiff, div_eq_zero_iff, or_iff_left hden, mul_eq_zero, Nat.cast_eq_zero,
    sub_eq_zero, Nat.cast_inj, OneBlockEach, eq_comm (a := numOwned tables)]

/-- A sound memory has figures unless it has no layers. -/
theorem MemorySound.addsUp_iff (h : MemorySound numCpuBlocks c) {u : MemoryUsage}
    (hu : c.getMemoryUsage = some u) : u.AddsUp c.shape.blockBytes ↔ c.shape.blockBytes = 0 ∨
      OneBlockEach c.gpuBlockTables ∧ OneBlockEach c.cpuBlockTables := by
  unfold PagedMemory.getMemoryUsage at hu
  split_ifs at hu with hlayers
  rcases Option.map_eq_some_iff.mp hu with ⟨total, htotal, rfl⟩
  have htotal : total = numCpuBlocks := by
    rw [h.cpuCache_eq] at htotal
    exact List.eq_of_mem_replicate (List.mem_of_mem_head? htotal)
  have hgpu := used_add_free_iff h.gpu hlayers c.shape.blockBytes
  have hcpu := used_add_free_iff h.cpu hlayers c.shape.blockBytes
  constructor
  · intro hadds
    have hcpuAdds := hadds.cpu
    rw [htotal] at hcpuAdds
    have hgpuEach := hgpu.mp hadds.gpu
    have hcpuEach := hcpu.mp hcpuAdds
    tauto
  · intro hone
    constructor
    case gpu =>
      apply hgpu.mpr
      tauto
    case cpu =>
      rw [htotal]
      apply hcpu.mpr
      tauto

/-- What a run of allocations for fresh sequences keeps. -/
theorem MemorySound.run (h : MemorySound numCpuBlocks c) {ops : List (MemoryOp κ)}
    (hfresh : EachStep memoryStep AllocatesFresh c ops) :
    MemorySound numCpuBlocks (ops.foldl memoryStep c) :=
  (hfresh.always h (fun _ _ hs hop => hs.step hop) fun _ hs => hs).last

theorem memoryRun_shape (c : PagedMemory κ) (ops : List (MemoryOp κ)) :
    (ops.foldl memoryStep c).shape = c.shape :=
  foldl_preserves (I := fun s : PagedMemory κ => s.shape = c.shape)
    (fun s op _ h => by rw [memoryStep_frame, h]) rfl

/-- No sequence of either device holds more or less than one block. -/
def AllHoldOne (c : PagedMemory κ) : Prop := ∀ device, ∀ t ∈ c.tables device, HoldsOne t

theorem AllHoldOne.step (h : AllHoldOne c) {op : MemoryOp κ} (hone : TakesOne c op) :
    AllHoldOne (memoryStep c op) := by
  rcases op with ⟨device, layerId, call⟩
  have hstep := holdsOne_tablesStep (h device) hone
  intro device'
  cases device <;> cases device'
  case gpu.gpu => exact hstep
  case gpu.cpu => exact h .cpu
  case cpu.gpu => exact h .gpu
  case cpu.cpu => exact hstep

end Usage

section Results

variable {κ : Type*} [DecidableEq κ]

/-- The figures of `get_memory_usage`, if it returns any, add up. -/
def FiguresAddUp (c : PagedMemory κ) : Prop :=
  ∀ u, c.getMemoryUsage = some u → u.AddsUp c.shape.blockBytes

theorem figuresAddUp_iff {c : PagedMemory κ} {numCpuBlocks : ℕ} (h : MemorySound numCpuBlocks c) :
    FiguresAddUp c ↔ c.shape.blockBytes = 0 ∨
      OneBlockEach c.gpuBlockTables ∧ OneBlockEach c.cpuBlockTables := by
  cases hu : c.getMemoryUsage with
  | some u =>
      constructor
      · intro hadds
        exact (h.addsUp_iff hu).mp (hadds u hu)
      · intro hone u' hu'
        exact (h.addsUp_iff hu').mpr hone
  | none =>
      -- There are no layers, so no tables.
      have hlayers : c.numLayers = 0 := by
        unfold PagedMemory.getMemoryUsage at hu
        split_ifs at hu with hlayers
        · exact hlayers
        · rw [Option.map_eq_none_iff, List.head?_eq_none_iff, h.cpuCache_eq,
            List.replicate_eq_nil_iff] at hu
          exact hu
      have hnil : ∀ {n} {tables : List (BlockTable κ)}, TablesSound n c.numLayers tables →
          OneBlockEach tables := by
        intro n tables htables
        rw [List.length_eq_zero_iff.mp (htables.length_eq.trans hlayers)]
        rfl
      refine iff_of_true (fun u hu' => ?_) (Or.inr ⟨hnil h.gpu, hnil h.cpu⟩)
      rw [hu] at hu'
      cases hu'

/-- **Used and free make the whole exactly when the live sequences hold as many blocks as there
are sequences**, on each device and over all layers, or blocks have no bytes. So they do
throughout a run in which every allocation needs one block. -/
theorem memoryUsage_addsUp_iff {numGpuBlocks numCpuBlocks numLayers : ℕ} {shape : BlockShape}
    {c : PagedMemory κ} (hc : PagedMemory.new numGpuBlocks numCpuBlocks shape numLayers = .ok c)
    (ops : List (MemoryOp κ)) (hfresh : EachStep memoryStep AllocatesFresh c ops) :
    (FiguresAddUp (ops.foldl memoryStep c) ↔ shape.blockBytes = 0 ∨
      OneBlockEach (ops.foldl memoryStep c).gpuBlockTables ∧
        OneBlockEach (ops.foldl memoryStep c).cpuBlockTables) ∧
    (EachStep memoryStep TakesOne c ops → Always memoryStep FiguresAddUp c ops) := by
  rcases MemorySound.new hc with ⟨hsound, hshape⟩
  constructor
  · have hrun := figuresAddUp_iff (hsound.run hfresh)
    rwa [memoryRun_shape, hshape] at hrun
  · intro hone
    have hstart : AllHoldOne c := by
      intro device t ht
      have hnew : ∃ n, t = BlockTable.new n shape.blockSize := by
        unfold PagedMemory.new at hc
        split_ifs at hc
        obtain rfl := (Except.ok.inj hc).symm
        cases device with
        | gpu => exact ⟨_, List.eq_of_mem_replicate ht⟩
        | cpu => exact ⟨_, List.eq_of_mem_replicate ht⟩
      rcases hnew with ⟨n, rfl⟩
      exact fun e he => absurd he List.not_mem_nil
    refine (hfresh.and hone).always (J := fun s => MemorySound numCpuBlocks s ∧ AllHoldOne s)
      ⟨hsound, hstart⟩ (fun s op hs hop => ⟨hs.1.step hop.1, hs.2.step hop.2⟩) fun s hs => ?_
    exact (figuresAddUp_iff hs.1).mpr
      (Or.inr ⟨oneBlockEach_of_holdsOne (hs.2 .gpu), oneBlockEach_of_holdsOne (hs.2 .cpu)⟩)

/-- One layer, with two blocks of one token on each device. -/
def twoBlocks : PagedMemory ℕ := ⟨⟨1, 1, 1, 2⟩, 1, 2, [2], [.new 2 1], [.new 2 1]⟩

/-- A sequence of one token on each device. -/
theorem memoryUsage_addsUp_two : Always memoryStep FiguresAddUp twoBlocks
    [⟨.gpu, 0, .allocate 0 1⟩, ⟨.cpu, 0, .allocate 0 1⟩] := by
  have hnew : PagedMemory.new 2 2 ⟨1, 1, 1, 2⟩ 1 = .ok twoBlocks := rfl
  have hfresh : EachStep memoryStep AllocatesFresh twoBlocks
      [⟨.gpu, 0, .allocate 0 1⟩, ⟨.cpu, 0, .allocate 0 1⟩] := by
    refine ⟨fun t ht => ?_, fun t ht => ?_, trivial⟩
    all_goals
      obtain rfl := Option.some.inj ht
      exact AList.notMem_empty 0
  have hone : EachStep memoryStep TakesOne twoBlocks
      [⟨.gpu, 0, .allocate 0 1⟩, ⟨.cpu, 0, .allocate 0 1⟩] := by
    refine ⟨fun t ht need hneed => ?_, fun t ht need hneed => ?_, trivial⟩
    all_goals
      obtain rfl := Option.some.inj ht
      exact (Except.ok.inj hneed).symm
  exact (memoryUsage_addsUp_iff hnew _ hfresh).2 hone

/-- A sequence of two tokens is counted as one block. -/
theorem memoryUsage_short :
    ¬ ∀ (numGpuBlocks numCpuBlocks numLayers : ℕ) (shape : BlockShape) (c : PagedMemory ℕ),
      PagedMemory.new numGpuBlocks numCpuBlocks shape numLayers = .ok c →
      ∀ ops, EachStep memoryStep AllocatesFresh c ops →
        Always memoryStep FiguresAddUp c ops := by
  intro hall
  have hfresh : EachStep memoryStep AllocatesFresh twoBlocks [⟨.gpu, 0, .allocate 0 2⟩] := by
    refine ⟨fun t ht => ?_, trivial⟩
    obtain rfl := Option.some.inj ht
    exact AList.notMem_empty 0
  have hadds := (hall 2 2 1 ⟨1, 1, 1, 2⟩ twoBlocks rfl _ hfresh).2 _ rfl
  have hgpu : ((1 : ℕ) / (1 : ℕ) * (4 : ℕ) / 1024 ^ 3 +
      (0 : ℕ) / (1 : ℕ) * (4 : ℕ) / 1024 ^ 3 : ℚ) = (2 : ℕ) * (4 : ℕ) / 1024 ^ 3 := hadds.gpu
  norm_num at hgpu

end Results

section Budget

/-- `int(q)`, which drops what is behind the point. -/
def truncToInt (q : ℚ) : ℤ := if 0 ≤ q then ⌊q⌋ else ⌈q⌉

/-- `calculate_cache_blocks`, which raises for blocks without bytes. -/
def calculateCacheBlocks (cacheSizeGb : ℚ) (shape : BlockShape) : Option ℤ :=
  if shape.blockBytes = 0 then none
  else some (truncToInt (cacheSizeGb * 1024 ^ 3 / shape.blockBytes))

/-- The cache that `build_context` makes of the configuration, or none where it raises. The
number of blocks on the CPU is that of every layer. -/
def buildPagedCache {κ : Type*} (kvCacheSizeGb gpuFraction : ℚ) (shape : BlockShape)
    (numLayers : ℕ) : Option (PagedMemory κ) :=
  let cpuFraction := 1 - gpuFraction
  (calculateCacheBlocks (kvCacheSizeGb * gpuFraction) shape).bind fun gpu =>
    (calculateCacheBlocks (kvCacheSizeGb * cpuFraction) shape).bind fun cpu =>
      (PagedMemory.new (max 1 gpu).toNat (max 1 cpu).toNat shape numLayers).toOption

/-- Rounding down gains less than two, so only few layers can use it up. -/
theorem floor_add_mul_floor_le_iff {x y : ℚ} (hy : 1 ≤ y) (n : ℕ) :
    (⌊x⌋ : ℚ) + n * ⌊y⌋ ≤ x + y ↔
      n ≤ 1 ∨ n = 2 ∧ y < 2 ∧ 1 ≤ Int.fract x + Int.fract y := by
  have hx := Int.floor_add_fract x
  have hy' := Int.floor_add_fract y
  have hx0 := Int.fract_nonneg x
  have hx1 := Int.fract_lt_one x
  have hy0 := Int.fract_nonneg y
  have hy1 := Int.fract_lt_one y
  have hfloor : (1 : ℚ) ≤ ⌊y⌋ := by exact_mod_cast Int.le_floor.mpr (by simpa using hy)
  constructor
  · intro h
    by_cases hn : n ≤ 1
    · exact Or.inl hn
    · have hn2 : n ≤ 2 := by
        by_contra hn3
        have hcast : (3 : ℚ) ≤ n := by exact_mod_cast (by omega : 3 ≤ n)
        nlinarith
      obtain rfl : n = 2 := by omega
      push_cast at h
      have hlt : (⌊y⌋ : ℚ) < 2 := by linarith
      have hone : ⌊y⌋ ≤ 1 := by
        have : ⌊y⌋ < 2 := by exact_mod_cast hlt
        omega
      have hone' : (⌊y⌋ : ℚ) ≤ 1 := by exact_mod_cast hone
      exact Or.inr ⟨rfl, by linarith, by linarith⟩
  · rintro (hn | ⟨rfl, hlt, hfract⟩)
    · have hcast : (n : ℚ) ≤ 1 := by exact_mod_cast hn
      nlinarith
    · have hone : ⌊y⌋ < 2 := Int.floor_lt.mpr (by exact_mod_cast hlt)
      have hone' : (⌊y⌋ : ℚ) ≤ 1 := by exact_mod_cast (by omega : ⌊y⌋ ≤ 1)
      push_cast
      linarith

/-- A part of the budget that holds a block is cut into whole blocks. -/
theorem calculateCacheBlocks_eq {cacheSizeGb : ℚ} {shape : BlockShape}
    (hpos : 0 < shape.blockBytes) (h : (shape.blockBytes : ℚ) ≤ cacheSizeGb * 1024 ^ 3) :
    1 ≤ cacheSizeGb * 1024 ^ 3 / shape.blockBytes ∧
      ∃ n : ℕ, calculateCacheBlocks cacheSizeGb shape = some (n : ℤ) ∧ 1 ≤ n ∧
        (n : ℤ) = ⌊cacheSizeGb * 1024 ^ 3 / shape.blockBytes⌋ := by
  have hB : (0 : ℚ) < shape.blockBytes := Nat.cast_pos.mpr hpos
  have hone : 1 ≤ cacheSizeGb * 1024 ^ 3 / shape.blockBytes := (one_le_div hB).mpr h
  have hfloor : 1 ≤ ⌊cacheSizeGb * 1024 ^ 3 / shape.blockBytes⌋ :=
    Int.le_floor.mpr (by simpa using hone)
  refine ⟨hone, ⌊cacheSizeGb * 1024 ^ 3 / shape.blockBytes⌋.toNat, ?_, by omega, by omega⟩
  rw [calculateCacheBlocks, if_neg hpos.ne', truncToInt, if_pos (zero_le_one.trans hone)]
  congr 1
  omega

/-- What `build_context` allocates when both parts hold a block. -/
theorem totalBytes_of_buildPagedCache {κ : Type*} {kvCacheSizeGb gpuFraction : ℚ}
    {shape : BlockShape} {numLayers : ℕ} {c : PagedMemory κ}
    (hc : buildPagedCache kvCacheSizeGb gpuFraction shape numLayers = some c) {gpu cpu : ℕ}
    (hgpu : calculateCacheBlocks (kvCacheSizeGb * gpuFraction) shape = some (gpu : ℤ))
    (hcpu : calculateCacheBlocks (kvCacheSizeGb * (1 - gpuFraction)) shape = some (cpu : ℤ))
    (hgpu1 : 1 ≤ gpu) (hcpu1 : 1 ≤ cpu) :
    c.totalBytes = (gpu + numLayers * cpu) * shape.blockBytes := by
  have hmaxGpu : (max 1 (gpu : ℤ)).toNat = gpu := by omega
  have hmaxCpu : (max 1 (cpu : ℤ)).toNat = cpu := by omega
  simp only [buildPagedCache, hgpu, hcpu, Option.bind_some, hmaxGpu, hmaxCpu,
    PagedMemory.new] at hc
  split_ifs at hc
  · cases hc
  · obtain rfl := Option.some.inj hc
    rw [PagedMemory.totalBytes, List.sum_replicate, smul_eq_mul]

/-- **The caches stay in the budget exactly when the CPU has one to allocate**, or, with two
layers, when the second tensor of one block fits into what the rounding has left. -/
theorem buildPagedCache_budget_iff {κ : Type*} (kvCacheSizeGb gpuFraction : ℚ)
    (shape : BlockShape) (numLayers : ℕ) {c : PagedMemory κ}
    (hc : buildPagedCache kvCacheSizeGb gpuFraction shape numLayers = some c)
    (hgpu : (shape.blockBytes : ℚ) ≤ kvCacheSizeGb * gpuFraction * 1024 ^ 3)
    (hcpu : (shape.blockBytes : ℚ) ≤ kvCacheSizeGb * (1 - gpuFraction) * 1024 ^ 3) :
    (c.totalBytes : ℚ) ≤ kvCacheSizeGb * 1024 ^ 3 ↔
      numLayers ≤ 1 ∨ numLayers = 2 ∧
        kvCacheSizeGb * (1 - gpuFraction) * 1024 ^ 3 < 2 * shape.blockBytes ∧
        1 ≤ Int.fract (kvCacheSizeGb * gpuFraction * 1024 ^ 3 / shape.blockBytes) +
          Int.fract (kvCacheSizeGb * (1 - gpuFraction) * 1024 ^ 3 / shape.blockBytes) := by
  have hpos : 0 < shape.blockBytes := by
    by_contra hzero
    simp [buildPagedCache, calculateCacheBlocks, Nat.eq_zero_of_not_pos hzero] at hc
  have hB : (0 : ℚ) < shape.blockBytes := Nat.cast_pos.mpr hpos
  rcases calculateCacheBlocks_eq hpos hgpu with ⟨-, gpu, hgpuBlocks, hgpu1, hgpuFloor⟩
  rcases calculateCacheBlocks_eq hpos hcpu with ⟨hy, cpu, hcpuBlocks, hcpu1, hcpuFloor⟩
  rw [totalBytes_of_buildPagedCache hc hgpuBlocks hcpuBlocks hgpu1 hcpu1,
    ← div_lt_iff₀ hB, ← floor_add_mul_floor_le_iff hy, ← hgpuFloor, ← hcpuFloor]
  have hsplit : kvCacheSizeGb * gpuFraction * 1024 ^ 3 / shape.blockBytes +
      kvCacheSizeGb * (1 - gpuFraction) * 1024 ^ 3 / shape.blockBytes =
        kvCacheSizeGb * 1024 ^ 3 / shape.blockBytes := by
    field_simp
    ring
  rw [hsplit, le_div_iff₀ hB]
  push_cast
  rfl

/-- One layer, a block on each device. -/
theorem buildPagedCache_budget_one : ∃ c : PagedMemory ℕ,
    buildPagedCache (4 / 1024 ^ 3) (1 / 2) ⟨1, 1, 1, 1⟩ 1 = some c ∧
      (c.totalBytes : ℚ) ≤ 4 / 1024 ^ 3 * 1024 ^ 3 := by
  have hblocks : calculateCacheBlocks (4 / 1024 ^ 3 * (1 / 2)) ⟨1, 1, 1, 1⟩ = some 1 := by
    norm_num [calculateCacheBlocks, truncToInt, BlockShape.blockBytes]
  have hc : buildPagedCache (4 / 1024 ^ 3) (1 / 2) ⟨1, 1, 1, 1⟩ 1 =
      some (⟨⟨1, 1, 1, 1⟩, 1, 1, [1], [.new 1 1], [.new 1 1]⟩ : PagedMemory ℕ) := by
    have hhalf : (1 : ℚ) - 1 / 2 = 1 / 2 := by norm_num
    simp only [buildPagedCache, hhalf, hblocks, Option.bind_some]
    rfl
  refine ⟨_, hc, (buildPagedCache_budget_iff _ _ _ _ hc ?_ ?_).mpr (Or.inl le_rfl)⟩
  · norm_num [BlockShape.blockBytes]
  · norm_num [BlockShape.blockBytes]

/-- Two layers, a budget of eight bytes: two blocks of two bytes on the GPU, and on the CPU two
for each layer. -/
theorem buildPagedCache_exceeds :
    ¬ ∀ (kvCacheSizeGb gpuFraction : ℚ) (shape : BlockShape) (numLayers : ℕ) (c : PagedMemory ℕ),
      0 ≤ gpuFraction → gpuFraction ≤ 1 →
      buildPagedCache kvCacheSizeGb gpuFraction shape numLayers = some c →
      (shape.blockBytes : ℚ) ≤ kvCacheSizeGb * gpuFraction * 1024 ^ 3 →
      (shape.blockBytes : ℚ) ≤ kvCacheSizeGb * (1 - gpuFraction) * 1024 ^ 3 →
      (c.totalBytes : ℚ) ≤ kvCacheSizeGb * 1024 ^ 3 := by
  intro hall
  have hblocks : calculateCacheBlocks (8 / 1024 ^ 3 * (1 / 2)) ⟨1, 1, 1, 1⟩ = some 2 := by
    norm_num [calculateCacheBlocks, truncToInt, BlockShape.blockBytes]
  have hc : buildPagedCache (8 / 1024 ^ 3) (1 / 2) ⟨1, 1, 1, 1⟩ 2 =
      some (⟨⟨1, 1, 1, 1⟩, 2, 2, [2, 2], [.new 2 1, .new 2 1], [.new 2 1, .new 2 1]⟩ :
        PagedMemory ℕ) := by
    have hhalf : (1 : ℚ) - 1 / 2 = 1 / 2 := by norm_num
    simp only [buildPagedCache, hhalf, hblocks, Option.bind_some]
    rfl
  have hle := hall _ _ _ _ _ (by norm_num) (by norm_num) hc (by norm_num [BlockShape.blockBytes])
    (by norm_num [BlockShape.blockBytes])
  norm_num [PagedMemory.totalBytes, BlockShape.blockBytes] at hle

end Budget

end HarvestMoE
