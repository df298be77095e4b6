import HarvestMoE.Lib.Cuts
import HarvestMoE.Lib.Run
import HarvestMoE.Weights

/-!
# The decode slots of a page

In decode a page is brought in slots, one for each micro-batch. Three formulas say where a slot
is: in the cache, in the pinned memory, and the number of rows that the last slot takes. For any
sizes, and for more slots than rows, the slots of one page make up the page, each lies in the
page where its rows are in the pinned memory, and the page pointer moves behind the last one
(`decodeSlots_tile`). So the copies of all slots are one copy of the pinned page
(`exec_slotCopies`).

## Main definitions

* `PrefetchMeta` — the sizes, of which a configuration of the engine is a case.
* `PrefetchMeta.getPrefetchGpuSlice`, `PrefetchMeta.fromPinSlice` — the slices of a slot.
* `PrefetchMeta.pointerBefore`, `PrefetchMeta.decodeSlice` — the slots of a page in order.
-/

namespace HarvestMoE

open Lib

/-- What `init_weights_prefetch_meta` works with. There is a micro-batch, and the cache has two
pages at least. -/
structure PrefetchMeta where
  hiddenSize : ℕ
  pageSize : ℕ
  ecacheSize : ℕ
  numWeightsSlotsDecode : ℕ
  /-- An attribute that is read with the default 0. -/
  pinnedPagesPerLayer : ℕ
  two_pages : weightsPrefetchNumPagesGpu * pageSize ≤ ecacheSize
  slots_pos : 0 < numWeightsSlotsDecode

namespace PrefetchMeta

variable (m : PrefetchMeta)

def fgPageSize : ℕ := m.pageSize * 3 * m.hiddenSize

def decodeSlotSize : ℕ := m.fgPageSize / m.numWeightsSlotsDecode

def decodeSlotRows : ℕ := m.decodeSlotSize

/-- Rows of `experts_cache.view(-1, intermediate_size)`. -/
def cacheRows : ℕ := m.ecacheSize * (3 * m.hiddenSize)

/-- Rows of `experts_pin.view(-1, intermediate_size)`. -/
def pinRows : ℕ := m.pageSize * (3 * m.hiddenSize)

/-- The page of a pointer. -/
def pageId (pageGpu : ℕ) : ℕ := (pageGpu + m.pinnedPagesPerLayer) % weightsPrefetchNumPagesGpu

/-- `_get_prefetch_gpu_slice(slot_id, 'decode')`: the slice, and the page pointer behind it. The
cache has the pages and the slots fit in one, so no difference is cut off at 0. -/
def getPrefetchGpuSlice (pageGpu slotId : ℕ) : Slice × ℕ :=
  let gpuStartPos := m.ecacheSize * 3 * m.hiddenSize - weightsPrefetchNumPagesGpu * m.fgPageSize +
    m.pageId pageGpu * m.fgPageSize + slotId * m.decodeSlotSize
  if slotId = m.numWeightsSlotsDecode - 1 then
    let remain := m.fgPageSize - slotId * m.decodeSlotSize
    (⟨gpuStartPos, some (gpuStartPos + remain)⟩, (pageGpu + 1) % weightsPrefetchNumPagesGpu)
  else (⟨gpuStartPos, some (gpuStartPos + m.decodeSlotSize)⟩, pageGpu)

/-- `from_pin_slice` of `prefetch_experts`. -/
def fromPinSlice (slotId : ℕ) : Slice :=
  if slotId ≠ m.numWeightsSlotsDecode - 1 then
    ⟨slotId * m.decodeSlotRows, some ((slotId + 1) * m.decodeSlotRows)⟩
  else ⟨slotId * m.decodeSlotRows, none⟩

/-- The page pointer when slot `k` is asked for, and behind the last slot. The slots are asked
for in order. -/
def pointerBefore (pageGpu : ℕ) : ℕ → ℕ
  | 0 => pageGpu
  | k + 1 => (m.getPrefetchGpuSlice (pointerBefore pageGpu k) k).2

/-- The slice that the cache gets slot `k` in. -/
def decodeSlice (pageGpu k : ℕ) : Slice :=
  (m.getPrefetchGpuSlice (m.pointerBefore pageGpu k) k).1

/-- The first row of a page: the pages are the last experts of the cache. -/
def pageFirst (page : ℕ) : ℕ :=
  (m.ecacheSize - weightsPrefetchNumPagesGpu * m.pageSize + page * m.pageSize) * (3 * m.hiddenSize)

/-- A slot has the length and the place in the page that its rows have in the pinned memory. -/
structure MatchesPin (pageGpu k : ℕ) : Prop where
  length_eq : (m.decodeSlice pageGpu k).length m.cacheRows = (m.fromPinSlice k).length m.pinRows
  offset_eq : (m.decodeSlice pageGpu k).start =
    m.pageFirst (m.pageId pageGpu) + (m.fromPinSlice k).start

/-- The pointer stays for all slots, and behind the last one is at the other page. -/
structure TogglesOnce (pageGpu : ℕ) : Prop where
  stays : ∀ k < m.numWeightsSlotsDecode, m.pointerBefore pageGpu k = pageGpu
  moves : m.pointerBefore pageGpu m.numWeightsSlotsDecode =
    (pageGpu + 1) % weightsPrefetchNumPagesGpu
  other : m.pageId (m.pointerBefore pageGpu m.numWeightsSlotsDecode) ≠ m.pageId pageGpu

/-- `prefetch_experts` in decode, once the pinned rows of the slot are there. -/
def slotCopy {α : Type*} (pin : ℕ → α) (s : (ℕ → α) × ℕ) (slotId : ℕ) :
    Option ((ℕ → α) × ℕ) :=
  let gpu := m.getPrefetchGpuSlice s.2 slotId
  (copySlice 1 s.1 m.cacheRows gpu.1 pin m.pinRows (m.fromPinSlice slotId)).map
    fun cache => (cache, gpu.2)

end PrefetchMeta

section Slots

variable {m : PrefetchMeta} {pageGpu k : ℕ}

namespace PrefetchMeta

theorem fgPageSize_eq (m : PrefetchMeta) : m.fgPageSize = m.pinRows := Nat.mul_assoc _ _ _

/-- The pages, and what is before them, make the cache. -/
theorem cacheRows_eq (m : PrefetchMeta) :
    m.cacheRows = m.pageFirst 0 + weightsPrefetchNumPagesGpu * m.fgPageSize := by
  rw [m.fgPageSize_eq, pinRows, ← Nat.mul_assoc, pageFirst, ← Nat.add_mul, Nat.zero_mul,
    Nat.add_zero, Nat.sub_add_cancel m.two_pages, cacheRows]

theorem pageFirst_eq (m : PrefetchMeta) (page : ℕ) :
    m.pageFirst page = m.pageFirst 0 + page * m.fgPageSize := by
  rw [m.fgPageSize_eq, pinRows, ← Nat.mul_assoc, pageFirst, pageFirst, Nat.add_mul, Nat.zero_mul,
    Nat.add_zero]

theorem pageId_lt (m : PrefetchMeta) (pageGpu : ℕ) :
    m.pageId pageGpu < weightsPrefetchNumPagesGpu :=
  Nat.mod_lt _ (by decide)

/-- The page of a pointer is inside the cache. -/
theorem pageFirst_add_le (m : PrefetchMeta) (pageGpu : ℕ) :
    m.pageFirst (m.pageId pageGpu) + m.fgPageSize ≤ m.cacheRows := by
  rw [m.pageFirst_eq, m.cacheRows_eq, Nat.add_assoc, ← Nat.succ_mul]
  exact Nat.add_le_add_left (Nat.mul_le_mul_right _ (m.pageId_lt pageGpu)) _

/-- A slot begins at its cut of the page and ends at the next one. -/
theorem getPrefetchGpuSlice_eq (pageGpu : ℕ) (hk : k < m.numWeightsSlotsDecode) :
    m.getPrefetchGpuSlice pageGpu k =
      (⟨m.pageFirst (m.pageId pageGpu) + cut m.fgPageSize m.numWeightsSlotsDecode k,
        some (m.pageFirst (m.pageId pageGpu) + cut m.fgPageSize m.numWeightsSlotsDecode (k + 1))⟩,
        if k = m.numWeightsSlotsDecode - 1 then (pageGpu + 1) % weightsPrefetchNumPagesGpu
        else pageGpu) := by
  have hrows : m.ecacheSize * 3 * m.hiddenSize - weightsPrefetchNumPagesGpu * m.fgPageSize =
      m.pageFirst 0 := by
    rw [Nat.mul_assoc, ← cacheRows, m.cacheRows_eq, Nat.add_sub_cancel]
  simp only [getPrefetchGpuSlice, hrows, ← m.pageFirst_eq, cut_of_lt hk, cut_succ hk,
    decodeSlotSize]
  split_ifs
  · rw [Nat.add_assoc]
  · rw [Nat.add_assoc]

/-- The pinned rows of a slot are between the same cuts. -/
theorem fromPinSlice_eq (hk : k < m.numWeightsSlotsDecode) :
    (m.fromPinSlice k).start = cut m.fgPageSize m.numWeightsSlotsDecode k ∧
      (m.fromPinSlice k).length m.pinRows =
        cut m.fgPageSize m.numWeightsSlotsDecode (k + 1) -
          cut m.fgPageSize m.numWeightsSlotsDecode k := by
  have hle : k * (m.fgPageSize / m.numWeightsSlotsDecode) ≤ m.fgPageSize := mul_div_le_total hk.le
  have hnext : (k + 1) * (m.fgPageSize / m.numWeightsSlotsDecode) ≤ m.fgPageSize :=
    mul_div_le_total hk
  rw [cut_succ hk, cut_of_lt hk, ← m.fgPageSize_eq]
  unfold fromPinSlice
  by_cases hlast : k = m.numWeightsSlotsDecode - 1
  · rw [if_neg (not_not.mpr hlast), if_pos hlast]
    refine ⟨rfl, ?_⟩
    rw [decodeSlotRows, decodeSlotSize, Slice.length_of_none hle]
    omega
  · rw [if_pos hlast, if_neg hlast]
    refine ⟨rfl, ?_⟩
    rw [decodeSlotRows, decodeSlotSize, Nat.succ_mul] at *
    rw [Slice.length_of_le hnext, Nat.add_sub_cancel_left]

/-- The pointer moves behind the last slot. -/
theorem pointerBefore_eq (m : PrefetchMeta) (pageGpu : ℕ) :
    ∀ {k : ℕ}, k ≤ m.numWeightsSlotsDecode → m.pointerBefore pageGpu k =
      if k < m.numWeightsSlotsDecode then pageGpu
      else (pageGpu + 1) % weightsPrefetchNumPagesGpu := by
  intro k
  induction k with
  | zero => exact fun _ => (if_pos m.slots_pos).symm
  | succ k ih =>
      intro hnext
      have hk : k < m.numWeightsSlotsDecode := hnext
      rw [pointerBefore, ih hk.le, if_pos hk, getPrefetchGpuSlice_eq pageGpu hk]
      simp only
      split_ifs
      · omega
      · rfl
      · rfl
      · omega

theorem decodeSlice_eq (pageGpu : ℕ) (hk : k < m.numWeightsSlotsDecode) :
    m.decodeSlice pageGpu k =
      ⟨m.pageFirst (m.pageId pageGpu) + cut m.fgPageSize m.numWeightsSlotsDecode k,
        some (m.pageFirst (m.pageId pageGpu) +
          cut m.fgPageSize m.numWeightsSlotsDecode (k + 1))⟩ := by
  rw [decodeSlice, m.pointerBefore_eq pageGpu hk.le, if_pos hk, getPrefetchGpuSlice_eq pageGpu hk]

/-- The slots of a page are a tiling of the page. -/
theorem tiles_decodeSlice (m : PrefetchMeta) (pageGpu : ℕ) :
    Slice.Tiles (m.decodeSlice pageGpu) m.numWeightsSlotsDecode m.cacheRows
      (m.pageFirst (m.pageId pageGpu)) m.fgPageSize :=
  Slice.tiles_of_marks (cut_mono _ _) (cut_zero m.slots_pos) (cut_self _ _)
    (m.pageFirst_add_le pageGpu) fun _ hk => decodeSlice_eq pageGpu hk

/-- The length of a slot is the distance of two cuts. -/
theorem length_decodeSlice (pageGpu : ℕ) (hk : k < m.numWeightsSlotsDecode) :
    (m.decodeSlice pageGpu k).length m.cacheRows =
      cut m.fgPageSize m.numWeightsSlotsDecode (k + 1) -
        cut m.fgPageSize m.numWeightsSlotsDecode k := by
  have hstep := cut_mono m.fgPageSize m.numWeightsSlotsDecode (Nat.le_succ k)
  have hend := cut_mono m.fgPageSize m.numWeightsSlotsDecode (show k + 1 ≤ _ from hk)
  have hinside := m.pageFirst_add_le pageGpu
  rw [cut_self] at hend
  rw [decodeSlice_eq pageGpu hk]
  simp only [Slice.length, Option.getD_some]
  omega

theorem matchesPin (pageGpu : ℕ) (hk : k < m.numWeightsSlotsDecode) : m.MatchesPin pageGpu k := by
  have ⟨hstart, hlength⟩ := fromPinSlice_eq hk
  constructor
  case length_eq => rw [length_decodeSlice pageGpu hk, hlength]
  case offset_eq => rw [decodeSlice_eq pageGpu hk, hstart]

theorem togglesOnce (m : PrefetchMeta) (pageGpu : ℕ) : m.TogglesOnce pageGpu := by
  have hlast : m.pointerBefore pageGpu m.numWeightsSlotsDecode =
      (pageGpu + 1) % weightsPrefetchNumPagesGpu := by
    rw [m.pointerBefore_eq pageGpu le_rfl, if_neg (Nat.lt_irrefl _)]
  constructor
  case stays =>
    intro k hk
    rw [m.pointerBefore_eq pageGpu hk.le, if_pos hk]
  case moves => exact hlast
  case other =>
    rw [hlast, pageId, pageId, weightsPrefetchNumPagesGpu]
    omega

end PrefetchMeta

end Slots

section Copies

variable {m : PrefetchMeta} {α : Type*} {pageGpu k : ℕ}

namespace PrefetchMeta

/-- The copy of a slot goes through: it moves the pinned rows to their place in the page. -/
theorem slotCopy_eq (cache pin : ℕ → α) (hk : k < m.numWeightsSlotsDecode) :
    m.slotCopy pin (cache, m.pointerBefore pageGpu k) k =
      some (copyRows cache
          (m.pageFirst (m.pageId pageGpu) + cut m.fgPageSize m.numWeightsSlotsDecode k) pin
          (0 + cut m.fgPageSize m.numWeightsSlotsDecode k)
          (cut m.fgPageSize m.numWeightsSlotsDecode (k + 1) -
            cut m.fgPageSize m.numWeightsSlotsDecode k),
        m.pointerBefore pageGpu (k + 1)) := by
  have ⟨hstart, hpin⟩ := fromPinSlice_eq hk
  have hgpu : m.getPrefetchGpuSlice (m.pointerBefore pageGpu k) k =
      (m.decodeSlice pageGpu k, m.pointerBefore pageGpu (k + 1)) := rfl
  simp only [slotCopy, hgpu]
  rw [copySlice_eq (length_decodeSlice pageGpu hk) hpin, hstart, decodeSlice_eq pageGpu hk]
  simp only [Nat.mul_one, Nat.zero_add, Option.map_some]

/-- The copies of the first slots are one copy up to the next cut. -/
theorem exec_slotCopy (m : PrefetchMeta) (pageGpu : ℕ) (cache pin : ℕ → α) :
    ∀ {k : ℕ}, k ≤ m.numWeightsSlotsDecode →
      exec (m.slotCopy pin) (cache, pageGpu) (List.range k) =
        some (copyRows cache (m.pageFirst (m.pageId pageGpu)) pin 0
          (cut m.fgPageSize m.numWeightsSlotsDecode k), m.pointerBefore pageGpu k) := by
  intro k
  induction k with
  | zero =>
      intro _
      rw [cut_zero m.slots_pos, copyRows_zero]
      rfl
  | succ k ih =>
      intro hnext
      have hk : k < m.numWeightsSlotsDecode := hnext
      have hstep := cut_mono m.fgPageSize m.numWeightsSlotsDecode (Nat.le_succ k)
      rw [List.range_succ, exec_append, ih hk.le, Option.bind_some, exec_cons, slotCopy_eq _ _ hk,
        Option.bind_some, exec_nil, copyRows_append, Nat.add_sub_cancel' hstep]

end PrefetchMeta

/-- **The copies of all slots are one copy of the pinned page** to the page of the pointer. -/
theorem exec_slotCopies (m : PrefetchMeta) (pageGpu : ℕ) (cache pin : ℕ → α) :
    exec (m.slotCopy pin) (cache, pageGpu) (List.range m.numWeightsSlotsDecode) =
      some (copyRows cache (m.pageFirst (m.pageId pageGpu)) pin 0 m.fgPageSize,
        (pageGpu + 1) % weightsPrefetchNumPagesGpu) := by
  rw [m.exec_slotCopy pageGpu cache pin le_rfl, cut_self, (m.togglesOnce pageGpu).moves]

end Copies

section Engine

variable {cfg : EngineConfig} {numMb : ℕ}

/-- The sizes of a configuration. -/
def EngineConfig.prefetchMeta (cfg : EngineConfig) (numMb : ℕ) (hn : 0 < numMb) : PrefetchMeta where
  hiddenSize := cfg.hiddenSize
  pageSize := cfg.pageSize
  ecacheSize := cfg.expertsPoolSize
  numWeightsSlotsDecode := numMb
  pinnedPagesPerLayer := 0
  two_pages := Nat.le_add_left _ _
  slots_pos := hn

/-- The slices of the engine are those of its sizes. -/
theorem getPrefetchGpuSlice_prefetchMeta (hn : 0 < numMb) (pageGpu slotId : ℕ) :
    getPrefetchGpuSlice cfg numMb pageGpu slotId .decode =
      (cfg.prefetchMeta numMb hn).getPrefetchGpuSlice pageGpu slotId := rfl

theorem fromPinSlice_prefetchMeta (hn : 0 < numMb) (slotId : ℕ) :
    fromPinSlice cfg numMb slotId = (cfg.prefetchMeta numMb hn).fromPinSlice slotId := by
  have hslots : (cfg.prefetchMeta numMb hn).numWeightsSlotsDecode = numMb := rfl
  rw [fromPinSlice, PrefetchMeta.fromPinSlice, hslots]
  split_ifs <;> rfl

/-- In decode a prefetch of the engine is the copy of a slot. -/
theorem prefetchExperts_eq_slotCopy {α : Type*} {s : WeightState α} (hn : 0 < numMb)
    (layerId pageId : ℕ) {slotId : ℕ} (hslot : slotId < numMb)
    (hfuture : (s.copyFutures slotId).isSome) :
    prefetchExperts cfg numMb s layerId pageId slotId .decode =
      ((cfg.prefetchMeta numMb hn).slotCopy s.expertsPin
        (s.expertsCache, s.weightsPrefetchPageGpu) slotId).map fun next =>
          { s with expertsCache := next.1, weightsPrefetchPageGpu := next.2 } := by
  have hpin : fromPinSlice cfg numMb slotId = _ := fromPinSlice_prefetchMeta hn slotId
  simp only [prefetchExperts, hfuture, hslot, and_self, if_true, hpin,
    getPrefetchGpuSlice_prefetchMeta hn, PrefetchMeta.slotCopy, Option.map_map]
  rfl

end Engine

/-- **The slots of a page are the page.** Asked for in order, they follow each other, have no row
in common and make up the page of the pointer, whatever the sizes are. Each is as long as its
pinned rows and has their place in the page, and the pointer is moved once, behind the last
slot. -/
theorem decodeSlots_tile (m : PrefetchMeta) (pageGpu : ℕ) :
    Slice.Tiles (m.decodeSlice pageGpu) m.numWeightsSlotsDecode m.cacheRows
        (m.pageFirst (m.pageId pageGpu)) m.fgPageSize ∧
      (∀ k < m.numWeightsSlotsDecode, m.MatchesPin pageGpu k) ∧ m.TogglesOnce pageGpu :=
  ⟨m.tiles_decodeSlice pageGpu, fun _ hk => PrefetchMeta.matchesPin pageGpu hk,
    m.togglesOnce pageGpu⟩

/-- Five slots for a page of three rows: the last slot takes them all. -/
example :
    (PrefetchMeta.mk 1 1 2 5 0 (by decide) (by decide)).decodeSlice 1 3 = ⟨3, some 3⟩ ∧
      (PrefetchMeta.mk 1 1 2 5 0 (by decide) (by decide)).decodeSlice 1 4 = ⟨3, some 6⟩ := by
  decide

end HarvestMoE
