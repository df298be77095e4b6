import HarvestMoE.ExpertPage
import HarvestMoE.KvHeads
import HarvestMoE.Lib.BlockSums

/-!
# Linear layers on the ranks

A layer is shared among the ranks by its outputs or by its inputs; the loaders cut the share of
a rank out of the tensor of the checkpoint: of the queries every rank has its own, and a group
of ranks may have the same keys and values. The files come in any order, in parts or packed,
and afterwards the parameter holds the share of every part (`QkvLayer.load_holds`).

## Main definitions

* `Matrix2.narrowRows`, `Matrix2.copyRows` — `narrow`, and `copy_` into a narrowed parameter.
* `rowWeightLoader` — the loader that shares the inputs.
* `QkvLayer.weightLoader` — the loader of queries, keys and values, which shares the outputs.
* `QkvLayer.HoldsShard` — the parameter holds the share of a rank.
-/

namespace HarvestMoE

open Lib

namespace Matrix2

variable {R : Type*} (m : Matrix2 R)

/-- `m.narrow(0, start, length)`, which raises outside of the tensor. -/
def narrowRows (start length : ℕ) : Option (Matrix2 R) :=
  if start + length ≤ m.rows then some ⟨length, m.cols, fun i => m.entry (start + i)⟩ else none

/-- `m.narrow(1, start, length)` -/
def narrowCols (start length : ℕ) : Option (Matrix2 R) :=
  if start + length ≤ m.cols then some ⟨m.rows, length, fun i j => m.entry i (start + j)⟩ else none

/-- `m.narrow(0, start, length).copy_(src)`, where other shapes raise. -/
def copyRows (start length : ℕ) (src : Matrix2 R) : Option (Matrix2 R) :=
  if start + length ≤ m.rows ∧ src.rows = length ∧ src.cols = m.cols then
    some { m with
      entry := fun i j =>
        if start ≤ i ∧ i < start + length then src.entry (i - start) j else m.entry i j }
  else none

end Matrix2

section Matrix

variable {R : Type*} {m : Matrix2 R} {start length : ℕ}

theorem narrowRows_eq (h : start + length ≤ m.rows) :
    m.narrowRows start length = some ⟨length, m.cols, fun i => m.entry (start + i)⟩ := if_pos h

theorem narrowCols_eq (h : start + length ≤ m.cols) :
    m.narrowCols start length = some ⟨m.rows, length, fun i j => m.entry i (start + j)⟩ := if_pos h

/-- A copy brings its rows, and leaves the others. -/
theorem exists_copyRows (src : Matrix2 R) (hle : start + length ≤ m.rows)
    (hrows : src.rows = length) (hcols : src.cols = m.cols) :
    ∃ m', m.copyRows start length src = some m' ∧ m'.rows = m.rows ∧ m'.cols = m.cols ∧
      (∀ i < length, m'.entry (start + i) = src.entry i) ∧
      ∀ i, ¬(start ≤ i ∧ i < start + length) → m'.entry i = m.entry i := by
  refine ⟨_, if_pos ⟨hle, hrows, hcols⟩, rfl, rfl, fun i hi => ?_, fun i hi => ?_⟩
  · have hin : start ≤ start + i ∧ start + i < start + length := by omega
    simp only [if_pos hin, Nat.add_sub_cancel_left]
  · simp only [if_neg hi]

end Matrix

/-- `F.linear` on a row. -/
def linear {R : Type*} [Semiring R] (weight : Matrix2 R) (x : ℕ → R) : ℕ → R := fun i =>
  ∑ j ∈ Finset.range weight.cols, x j * weight.entry i j

section Loaders

variable {R : Type*}

/-- `RowParallelLinear.weight_loader` -/
def rowWeightLoader (tpRank : ℕ) (param loadedWeight : Matrix2 R) : Option (Matrix2 R) :=
  let shardSize := param.cols
  (loadedWeight.narrowCols (tpRank * shardSize) shardSize).bind (param.copyRows 0 param.rows)

/-- The parts of the projection. -/
inductive ShardId
  | q
  | k
  | v
  deriving DecidableEq, Repr

/-- What `QKVParallelLinear` keeps of its arguments, and the sizes that it computes. -/
structure QkvLayer where
  headSize : ℕ
  totalNumHeads : ℕ
  totalNumKvHeads : ℕ
  proj : QkvParallelLinear

namespace QkvLayer

variable (layer : QkvLayer)

/-- Where a part starts in the parameter, and its rows. -/
def shardPlace : ShardId → ℕ × ℕ
  | .q => (0, layer.proj.numHeads * layer.headSize)
  | .k => (layer.proj.numHeads * layer.headSize, layer.proj.numKvHeads * layer.headSize)
  | .v => ((layer.proj.numHeads + layer.proj.numKvHeads) * layer.headSize,
      layer.proj.numKvHeads * layer.headSize)

/-- The share of a rank: replicas have the same keys and values. -/
def shardIndex (tpRank : ℕ) : ShardId → ℕ
  | .q => tpRank
  | _ => tpRank / layer.proj.numKvHeadReplicas

/-- `QKVParallelLinear.weight_loader` of one part. -/
def loadShard (tpRank : ℕ) (param loadedWeight : Matrix2 R) (id : ShardId) : Option (Matrix2 R) :=
  let (shardOffset, shardSize) := layer.shardPlace id
  (loadedWeight.narrowRows (layer.shardIndex tpRank id * shardSize) shardSize).bind
    (param.copyRows shardOffset shardSize)

/-- Where the parts are in a packed tensor, and their rows. -/
def shardOffsets : List (ShardId × ℕ × ℕ) :=
  [(.q, 0, layer.totalNumHeads * layer.headSize),
    (.k, layer.totalNumHeads * layer.headSize, layer.totalNumKvHeads * layer.headSize),
    (.v, (layer.totalNumHeads + layer.totalNumKvHeads) * layer.headSize,
      layer.totalNumKvHeads * layer.headSize)]

/-- `QKVParallelLinear.weight_loader`; without a part the tensor is packed. -/
def weightLoader (tpRank : ℕ) (param loadedWeight : Matrix2 R) :
    Option ShardId → Option (Matrix2 R)
  | some id => layer.loadShard tpRank param loadedWeight id
  | none => layer.shardOffsets.foldlM (fun param shard =>
      (loadedWeight.narrowRows shard.2.1 shard.2.2).bind fun loadedWeightShard =>
        layer.loadShard tpRank param loadedWeightShard shard.1) param

/-- The files of a checkpoint, one after the other. -/
def load (tpRank : ℕ) (param : Matrix2 R) (files : List (Option ShardId × Matrix2 R)) :
    Option (Matrix2 R) :=
  files.foldlM (fun param file => layer.weightLoader tpRank param file.2 file.1) param

end QkvLayer

end Loaders

section Shares

variable {R : Type*} {layer : QkvLayer} {tpRank : ℕ} {param : Matrix2 R}

/-- The rows of the parts of a checkpoint. -/
structure QkvWeights (R : Type*) where
  inputSize : ℕ
  weight : ShardId → ℕ → ℕ → R

namespace QkvLayer

/-- The rows of a part in the checkpoint. -/
def totalRows (layer : QkvLayer) : ShardId → ℕ
  | .q => layer.totalNumHeads * layer.headSize
  | _ => layer.totalNumKvHeads * layer.headSize

/-- A part as a tensor of its own. -/
def part (layer : QkvLayer) (w : QkvWeights R) (id : ShardId) : Matrix2 R :=
  ⟨layer.totalRows id, w.inputSize, w.weight id⟩

/-- All parts in one tensor. -/
def packed (layer : QkvLayer) (w : QkvWeights R) : Matrix2 R where
  rows := (layer.totalNumHeads + 2 * layer.totalNumKvHeads) * layer.headSize
  cols := w.inputSize
  entry i :=
    if i < layer.totalNumHeads * layer.headSize then w.weight .q i
    else if i < (layer.totalNumHeads + layer.totalNumKvHeads) * layer.headSize then
      w.weight .k (i - layer.totalNumHeads * layer.headSize)
    else w.weight .v (i - (layer.totalNumHeads + layer.totalNumKvHeads) * layer.headSize)

/-- The files are of the checkpoint, and bring all parts. -/
structure Files (layer : QkvLayer) (w : QkvWeights R) (files : List (Option ShardId × Matrix2 R)) :
    Prop where
  of_mem : ∀ file ∈ files, file = (none, layer.packed w) ∨
    ∃ id, file = (some id, layer.part w id)
  all : ∀ id, (none, layer.packed w) ∈ files ∨ (some id, layer.part w id) ∈ files

/-- The share of a rank is inside the checkpoint. -/
def InRange (layer : QkvLayer) (tpRank : ℕ) : Prop :=
  ∀ id, (layer.shardIndex tpRank id + 1) * (layer.shardPlace id).2 ≤ layer.totalRows id

/-- The parameter has room for the shares. -/
def Shaped (layer : QkvLayer) (w : QkvWeights R) (param : Matrix2 R) : Prop :=
  param.rows = (layer.proj.numHeads + 2 * layer.proj.numKvHeads) * layer.headSize ∧
    param.cols = w.inputSize

/-- The share of a part is in its place. -/
def HoldsShard (layer : QkvLayer) (w : QkvWeights R) (tpRank : ℕ) (param : Matrix2 R)
    (id : ShardId) : Prop :=
  ∀ i < (layer.shardPlace id).2, param.entry ((layer.shardPlace id).1 + i) =
    w.weight id (layer.shardIndex tpRank id * (layer.shardPlace id).2 + i)

variable {w : QkvWeights R}

theorem Shaped.place_le (h : layer.Shaped w param) (id : ShardId) :
    (layer.shardPlace id).1 + (layer.shardPlace id).2 ≤ param.rows := by
  rw [h.1]
  cases id <;> simp only [shardPlace, Nat.add_mul, Nat.two_mul] <;> omega

/-- Two parts are in different places. -/
theorem place_of_ne {id id' : ShardId} (hne : id' ≠ id) {i : ℕ}
    (hi : i < (layer.shardPlace id').2) :
    ¬((layer.shardPlace id).1 ≤ (layer.shardPlace id').1 + i ∧
      (layer.shardPlace id').1 + i < (layer.shardPlace id).1 + (layer.shardPlace id).2) := by
  cases id <;> cases id' <;> simp only [shardPlace, Nat.add_mul] at hi ⊢ <;>
    first
    | exact absurd rfl hne
    | omega

/-- A part brings its share, and leaves the others. -/
theorem loadShard_holds (hparam : layer.Shaped w param) (hrange : layer.InRange tpRank)
    (loaded : Matrix2 R) (id : ShardId) (hrows : loaded.rows = layer.totalRows id)
    (hcols : loaded.cols = w.inputSize)
    (hentry : ∀ i < layer.totalRows id, loaded.entry i = w.weight id i) :
    ∃ param', layer.loadShard tpRank param loaded id = some param' ∧ layer.Shaped w param' ∧
      layer.HoldsShard w tpRank param' id ∧
      ∀ id' ≠ id, layer.HoldsShard w tpRank param id' → layer.HoldsShard w tpRank param' id' := by
  have hle := hrange id
  rw [Nat.succ_mul] at hle
  have hnarrow := narrowRows_eq
    (show layer.shardIndex tpRank id * (layer.shardPlace id).2 + (layer.shardPlace id).2 ≤
      loaded.rows by omega)
  obtain ⟨param', hcopy, hrows', hcols', hin, hout⟩ := exists_copyRows
    ⟨(layer.shardPlace id).2, loaded.cols, fun i =>
      loaded.entry (layer.shardIndex tpRank id * (layer.shardPlace id).2 + i)⟩
    (hparam.place_le id) rfl (hcols.trans hparam.2.symm)
  refine ⟨param', ?_, ⟨hrows'.trans hparam.1, hcols'.trans hparam.2⟩, fun i hi => ?_,
    fun id' hne hold i hi => ?_⟩
  · simp only [loadShard, hnarrow, Option.bind_some, hcopy]
  · rw [hin i hi]
    exact hentry _ (by omega)
  · rw [hout _ (place_of_ne hne hi)]
    exact hold i hi

/-- The parts of a packed tensor. -/
theorem exists_packedShard (w : QkvWeights R) {shard : ShardId × ℕ × ℕ}
    (hshard : shard ∈ layer.shardOffsets) :
    ∃ part, (layer.packed w).narrowRows shard.2.1 shard.2.2 = some part ∧
      part.rows = layer.totalRows shard.1 ∧ part.cols = w.inputSize ∧
      ∀ i < layer.totalRows shard.1, part.entry i = w.weight shard.1 i := by
  simp only [shardOffsets, List.mem_cons, List.not_mem_nil, or_false] at hshard
  rcases hshard with rfl | rfl | rfl
  · refine ⟨_, narrowRows_eq ?_, rfl, rfl, fun i hi => ?_⟩
    · simp only [packed, Nat.add_mul, Nat.two_mul]
      omega
    · change i < layer.totalNumHeads * layer.headSize at hi
      simp only [packed, Nat.zero_add, if_pos hi]
  · refine ⟨_, narrowRows_eq ?_, rfl, rfl, fun i hi => ?_⟩
    · simp only [packed, Nat.add_mul, Nat.two_mul]
      omega
    · change i < layer.totalNumKvHeads * layer.headSize at hi
      simp only [packed, Nat.add_mul]
      rw [if_neg (by omega), if_pos (by omega), Nat.add_sub_cancel_left]
  · refine ⟨_, narrowRows_eq ?_, rfl, rfl, fun i hi => ?_⟩
    · simp only [packed, Nat.add_mul, Nat.two_mul]
      omega
    · change i < layer.totalNumKvHeads * layer.headSize at hi
      simp only [packed, Nat.add_mul]
      rw [if_neg (by omega), if_neg (by omega), Nat.add_sub_cancel_left]

/-- A file brings the shares of its parts, and leaves the others. -/
theorem weightLoader_holds (hparam : layer.Shaped w param) (hrange : layer.InRange tpRank)
    {file : Option ShardId × Matrix2 R} (hfile : file = (none, layer.packed w) ∨
      ∃ id, file = (some id, layer.part w id)) :
    ∃ param', layer.weightLoader tpRank param file.2 file.1 = some param' ∧
      layer.Shaped w param' ∧
      ∀ id, (file.1 = none ∨ file.1 = some id ∨ layer.HoldsShard w tpRank param id) →
        layer.HoldsShard w tpRank param' id := by
  rcases hfile with rfl | ⟨id, rfl⟩
  · obtain ⟨q, hq, hqrows, hqcols, hqentry⟩ := exists_packedShard w (.head _)
    obtain ⟨k, hk, hkrows, hkcols, hkentry⟩ := exists_packedShard w (.tail _ (.head _))
    obtain ⟨v, hv, hvrows, hvcols, hventry⟩ := exists_packedShard w (.tail _ (.tail _ (.head _)))
    obtain ⟨param₁, hload₁, hshaped₁, hnew₁, -⟩ :=
      loadShard_holds hparam hrange q .q hqrows hqcols hqentry
    obtain ⟨param₂, hload₂, hshaped₂, hnew₂, hold₂⟩ :=
      loadShard_holds hshaped₁ hrange k .k hkrows hkcols hkentry
    obtain ⟨param₃, hload₃, hshaped₃, hnew₃, hold₃⟩ :=
      loadShard_holds hshaped₂ hrange v .v hvrows hvcols hventry
    refine ⟨param₃, ?_, hshaped₃, fun id _ => ?_⟩
    · simp only [weightLoader, shardOffsets, List.foldlM_cons, List.foldlM_nil, hq, hk, hv,
        hload₁, hload₂, hload₃, Option.bind_some, Option.bind_eq_bind, Option.pure_def]
    · cases id with
      | q => exact hold₃ .q (by decide) (hold₂ .q (by decide) hnew₁)
      | k => exact hold₃ .k (by decide) hnew₂
      | v => exact hnew₃
  · obtain ⟨param', hload, hshaped, hnew, hold⟩ := loadShard_holds hparam hrange
      (layer.part w id) id rfl rfl fun _ _ => rfl
    refine ⟨param', hload, hshaped, fun id' hid' => ?_⟩
    by_cases heq : id' = id
    · exact heq ▸ hnew
    · refine hold id' heq ?_
      rcases hid' with hid' | hid' | hid'
      · simp at hid'
      · exact absurd (Option.some.inj hid').symm heq
      · exact hid'

/-- In whatever order the files come, every part has its share. -/
theorem load_holds (hparam : layer.Shaped w param) (hrange : layer.InRange tpRank)
    {files : List (Option ShardId × Matrix2 R)} (hfiles : layer.Files w files) :
    ∃ param', layer.load tpRank param files = some param' ∧ layer.Shaped w param' ∧
      ∀ id, layer.HoldsShard w tpRank param' id := by
  have hload : ∃ param', layer.load tpRank param files = some param' ∧ layer.Shaped w param' ∧
      ∀ id, ((none, layer.packed w) ∈ files ∨ (some id, layer.part w id) ∈ files ∨
        layer.HoldsShard w tpRank param id) → layer.HoldsShard w tpRank param' id := by
    have hmem := hfiles.of_mem
    clear hfiles
    induction files generalizing param with
    | nil => exact ⟨param, rfl, hparam, fun id h => by simpa using h⟩
    | cons file files ih =>
        obtain ⟨param₁, hfirst, hshaped₁, hholds₁⟩ :=
          weightLoader_holds hparam hrange (hmem file List.mem_cons_self)
        obtain ⟨param', hrest, hshaped', hholds'⟩ :=
          ih hshaped₁ fun f hf => hmem f (List.mem_cons_of_mem _ hf)
        refine ⟨param', ?_, hshaped', fun id hid => hholds' id ?_⟩
        · rw [load, List.foldlM_cons, hfirst]
          exact hrest
        · rcases hid with hid | hid | hid
          · rcases List.mem_cons.mp hid with rfl | hid
            · exact Or.inr (Or.inr (hholds₁ id (Or.inl rfl)))
            · exact Or.inl hid
          · rcases List.mem_cons.mp hid with rfl | hid
            · exact Or.inr (Or.inr (hholds₁ id (Or.inr (Or.inl rfl))))
            · exact Or.inr (Or.inl hid)
          · exact Or.inr (Or.inr (hholds₁ id (Or.inr (Or.inr hid))))
  obtain ⟨param', hrun, hshaped, hholds⟩ := hload
  exact ⟨param', hrun, hshaped, fun id => hholds id ((hfiles.all id).imp_right Or.inl)⟩

end QkvLayer

end Shares

section Simple

variable {R : Type*} {tpRank : ℕ} {param loaded : Matrix2 R}

/-- The loader that shares the inputs. -/
theorem rowWeightLoader_holds (hrows : loaded.rows = param.rows)
    (hcols : (tpRank + 1) * param.cols ≤ loaded.cols) :
    ∃ param', rowWeightLoader tpRank param loaded = some param' ∧ param'.rows = param.rows ∧
      param'.cols = param.cols ∧
      ∀ i < param.rows, ∀ j, param'.entry i j = loaded.entry i (tpRank * param.cols + j) := by
  rw [Nat.succ_mul] at hcols
  obtain ⟨param', hcopy, hrows', hcols', hin, -⟩ := exists_copyRows
    ⟨loaded.rows, param.cols, fun i j => loaded.entry i (tpRank * param.cols + j)⟩
    (Nat.zero_add param.rows).le hrows rfl
  refine ⟨param', ?_, hrows', hcols', fun i hi j => ?_⟩
  · simp only [rowWeightLoader, narrowCols_eq hcols, Option.bind_some, hcopy]
  · rw [← Nat.zero_add i, hin i hi, Nat.zero_add]

end Simple

end HarvestMoE
