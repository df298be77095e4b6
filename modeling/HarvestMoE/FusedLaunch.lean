import HarvestMoE.FusedMoe
import Mathlib.Data.List.ProdSigma

/-!
# One launch of the fused kernel

`invoke_fused_moe_kernel` starts the kernel on tensors of any sizes and strides, in blocks
of any size. Whatever does not fit, the last group of the program order, the wrapped
columns, the ends of the blocks and the padding, cancels out: the stores of all programs
are the entries of the grouped product, each of them once.

## Main definitions

* `Strided` — a tensor in memory.
* `FusedMoeCall`, `invokeFusedMoeKernel` — the call and the kernel it starts.
* `FusedMoeCall.Aligned` — what `moe_align_block_size` delivers.
* `FusedMoeCall.groupedProduct` — what the launch is for.
-/

namespace HarvestMoE

open Lib

/-- A tensor in memory, with the distance of neighbours in each dimension. -/
structure Strided (α : Type*) where
  ptr : ℕ → α
  stride : ℕ → ℕ

namespace Strided

variable {α : Type*}

def at₂ (m : Strided α) (i j : ℕ) : α := m.ptr (i * m.stride 0 + j * m.stride 1)

def at₃ (m : Strided α) (i j k : ℕ) : α :=
  m.ptr (i * m.stride 0 + j * m.stride 1 + k * m.stride 2)

end Strided

/-- The arguments of `invoke_fused_moe_kernel`. The experts and the weights of the token
slots stand one after the other; `numSorted` is the length of `sorted_token_ids`. -/
structure FusedMoeCall (R : Type*) where
  a : Strided R
  b : Strided R
  bInd : ℕ → ℕ
  c : Strided R
  topkWeights : Strided R
  topkIds : ℕ → ℕ
  numel : ℕ
  sortedTokenIds : Strided ℕ
  numSorted : ℕ
  expertIds : ℕ → ℕ
  numTokensPostPadded : ℕ
  mulRoutedWeight : Bool
  topK : ℕ
  config : BlockConfig
  n : ℕ
  k : ℕ
  w2Off : ℕ

/-- The kernel that the grid runs, when the two assertions hold. -/
def invokeFusedMoeKernel {R : Type*} (call : FusedMoeCall R) : Option (FusedMoeKernel R) :=
  if call.topkWeights.stride 1 = 1 ∧ call.sortedTokenIds.stride 0 = 1 then
    some
      { aPtr := call.a.ptr
        bPtr := call.b.ptr
        bIndPtr := call.bInd
        w2Off := call.w2Off
        topkWeightsPtr := call.topkWeights.ptr
        align := ⟨call.sortedTokenIds.ptr, call.expertIds, call.numTokensPostPadded⟩
        n := call.n
        k := call.k
        em := call.numSorted
        numValidTokens := call.numel
        strideAm := call.a.stride 0
        strideAk := call.a.stride 1
        strideBe := call.b.stride 0
        strideBk := call.b.stride 2
        strideBn := call.b.stride 1
        strideCm := call.c.stride 1
        strideCn := call.c.stride 2
        mulRoutedWeight := call.mulRoutedWeight
        topK := call.topK
        config := call.config }
  else none

namespace FusedMoeKernel

variable {R : Type*} (g : FusedMoeKernel R)

/-- The places of `sorted_token_ids` that a program loads. -/
def sortedLoads (pid : ℕ) : List ℕ :=
  let (pidM, _) := g.pidMN pid
  if pidM * g.config.blockSizeM ≥ g.align.numTokensPostPadded then []
  else (List.range g.config.blockSizeM).map fun r => pidM * g.config.blockSizeM + r

/-- The token slots and columns whose entries a program stores. -/
def storedCells (pid : ℕ) : List (ℕ × ℕ) :=
  let (pidM, pidN) := g.pidMN pid
  if pidM * g.config.blockSizeM ≥ g.align.numTokensPostPadded then []
  else
    (List.range g.config.blockSizeM).flatMap fun r =>
      (List.range g.config.blockSizeN).filterMap fun c =>
        if g.offsToken pidM r < g.numValidTokens ∧ pidN * g.config.blockSizeN + c < g.n then
          some (g.offsToken pidM r, pidN * g.config.blockSizeN + c)
        else none

/-- Every token slot has one place, in a block of its expert, and the places are loaded. -/
structure Aligned (topkIds : ℕ → ℕ) : Prop where
  le : g.align.numTokensPostPadded ≤ g.em
  dvd : g.config.blockSizeM ∣ g.align.numTokensPostPadded
  once : ∀ t < g.numValidTokens, ∃! p, p < g.align.numTokensPostPadded ∧
    g.align.sortedTokenIds p = t
  expert : ∀ p < g.align.numTokensPostPadded, g.align.sortedTokenIds p < g.numValidTokens →
    g.align.expertIds (p / g.config.blockSizeM) = topkIds (g.align.sortedTokenIds p)

end FusedMoeKernel

namespace FusedMoeCall

variable {R : Type*} (call : FusedMoeCall R)

/-- Every token slot has one place, in a block of its expert. The other places of the
blocks have no slot. -/
structure Aligned : Prop where
  le : call.numTokensPostPadded ≤ call.numSorted
  dvd : call.config.blockSizeM ∣ call.numTokensPostPadded
  once : ∀ t < call.numel, ∃! p, p < call.numTokensPostPadded ∧ call.sortedTokenIds.ptr p = t
  expert : ∀ p < call.numTokensPostPadded, call.sortedTokenIds.ptr p < call.numel →
    call.expertIds (p / call.config.blockSizeM) = call.topkIds (call.sortedTokenIds.ptr p)

/-- The token slots and columns of the result. -/
def cells : List (ℕ × ℕ) := List.range call.numel ×ˢ List.range call.n

/-- Where `C[t][n]` is. -/
def address (t n : ℕ) : ℕ := call.c.stride 1 * t + call.c.stride 2 * n

/-- The row of a token times a row of the expert of the slot. -/
def groupedProduct [CommSemiring R] (t n : ℕ) : R :=
  let dot := ∑ k ∈ Finset.range call.k, call.a.at₂ (t / call.topK) k *
    call.b.at₃ (call.bInd (call.topkIds t)) (call.w2Off + n) k
  if call.mulRoutedWeight then dot * call.topkWeights.ptr t else dot

end FusedMoeCall

namespace FusedMoeKernel

variable {R : Type*} {g : FusedMoeKernel R} {topkIds : ℕ → ℕ}

/-- Only full blocks before the last place are loaded. -/
theorem Aligned.sortedLoads_lt (hal : g.Aligned topkIds) {pid p : ℕ}
    (hp : p ∈ g.sortedLoads pid) : p < g.em := by
  simp only [sortedLoads] at hp
  split_ifs at hp with hpost
  · cases hp
  · have ⟨r, hr, heq⟩ := List.mem_map.mp hp
    have hlt := place_lt_of_block hal.dvd (List.mem_range.mp hr) (not_le.mp hpost)
    rw [← heq]
    exact hlt.trans_le hal.le

theorem mem_storedCells {pid : ℕ} {cell : ℕ × ℕ} :
    cell ∈ g.storedCells pid ↔
      (g.pidMN pid).1 * g.config.blockSizeM < g.align.numTokensPostPadded ∧
      ∃ r < g.config.blockSizeM, ∃ c < g.config.blockSizeN,
        (g.offsToken (g.pidMN pid).1 r < g.numValidTokens ∧
          (g.pidMN pid).2 * g.config.blockSizeN + c < g.n) ∧
        (g.offsToken (g.pidMN pid).1 r, (g.pidMN pid).2 * g.config.blockSizeN + c) = cell := by
  simp only [storedCells]
  split_ifs with hpost
  · simp [hpost]
  · simp only [List.mem_flatMap, List.mem_filterMap, List.mem_range, Option.ite_none_right_eq_some,
      Option.some.injEq, not_le.mp hpost, true_and]

/-- A program stores the values of its cells, for the experts of the slots. -/
theorem Aligned.program_eq [CommSemiring R] (hal : g.Aligned topkIds)
    (hk : 0 < g.config.blockSizeK) (pid : ℕ) :
    g.program pid = (g.storedCells pid).map fun cell =>
      (g.strideCm * cell.1 + g.strideCn * cell.2, g.value cell.1 cell.2 (topkIds cell.1)) := by
  simp only [program, storedCells]
  by_cases hpost : (g.pidMN pid).1 * g.config.blockSizeM ≥ g.align.numTokensPostPadded
  · rw [if_pos hpost, if_pos hpost, List.map_nil]
  · rw [if_neg hpost, if_neg hpost, List.map_flatMap]
    refine List.flatMap_congr fun r hr => ?_
    rw [List.map_filterMap]
    refine List.filterMap_congr fun c _ => ?_
    by_cases hmask : g.offsToken (g.pidMN pid).1 r < g.numValidTokens ∧
        (g.pidMN pid).2 * g.config.blockSizeN + c < g.n
    · have hid := expertIds_of_block hal.dvd hal.expert (List.mem_range.mp hr) (not_le.mp hpost)
        hmask.1
      rw [if_pos hmask, if_pos hmask, Option.map_some, value, accumulator_eq hk hmask.1 hmask.2, hid]
    · rw [if_neg hmask, if_neg hmask, Option.map_none]

/-- The slots of a block are different, and so are its columns. -/
theorem Aligned.storedCells_nodup (hal : g.Aligned topkIds) (pid : ℕ) :
    (g.storedCells pid).Nodup := by
  simp only [storedCells]
  split_ifs with hpost
  · exact List.nodup_nil
  · have hrow : ∀ r c cell, (if g.offsToken (g.pidMN pid).1 r < g.numValidTokens ∧
          (g.pidMN pid).2 * g.config.blockSizeN + c < g.n then
          some (g.offsToken (g.pidMN pid).1 r, (g.pidMN pid).2 * g.config.blockSizeN + c)
        else none) = some cell → g.offsToken (g.pidMN pid).1 r = cell.1 ∧ cell.1 < g.numValidTokens ∧
          (g.pidMN pid).2 * g.config.blockSizeN + c = cell.2 := by
      intro r c cell h
      split_ifs at h with hmask
      rw [← Option.some.inj h]
      exact ⟨rfl, hmask.1, rfl⟩
    rw [List.nodup_flatMap]
    constructor
    · intro r _
      refine List.Nodup.filterMap (fun c c' cell hc hc' => ?_) List.nodup_range
      have h := (hrow r c cell hc).2.2
      have h' := (hrow r c' cell hc').2.2
      omega
    · refine List.nodup_range.imp_of_mem fun {r r'} hr hr' hne => ?_
      intro cell hc hc'
      have ⟨c, _, hsome⟩ := List.mem_filterMap.mp hc
      have ⟨c', _, hsome'⟩ := List.mem_filterMap.mp hc'
      have ⟨hslot, hvalid, _⟩ := hrow r c cell hsome
      have ⟨hslot', _, _⟩ := hrow r' c' cell hsome'
      have hlt := place_lt_of_block hal.dvd (List.mem_range.mp hr) (not_le.mp hpost)
      have hlt' := place_lt_of_block hal.dvd (List.mem_range.mp hr') (not_le.mp hpost)
      have hplace := (hal.once _ hvalid).unique ⟨hlt, hslot⟩ ⟨hlt', hslot'⟩
      omega

/-- **In whatever order the programs run, their cells are those of the result, each of
them once.** -/
theorem Aligned.storedCells_perm (hal : g.Aligned topkIds) (hbm : 0 < g.config.blockSizeM)
    (hbn : 0 < g.config.blockSizeN) (hgm : 0 < g.config.groupSizeM) {order : List ℕ}
    (horder : order.Perm (List.range g.grid)) :
    (order.flatMap g.storedCells).Perm (List.range g.numValidTokens ×ˢ List.range g.n) := by
  -- A cell is at home in the block of the place of its slot.
  choose! place hplace using fun t ht => (hal.once t ht).exists
  have hcell : ∀ cell : ℕ × ℕ, cell ∈ List.range g.numValidTokens ×ˢ List.range g.n ↔
      cell.1 < g.numValidTokens ∧ cell.2 < g.n := by
    intro cell
    rw [List.mem_product, List.mem_range, List.mem_range]
  have hpid : ∀ {pid}, pid ∈ order ↔ pid < g.grid := horder.mem_iff.trans List.mem_range
  have hbij := groupedTile_bijOn g.numPidM g.numPidN hgm
  rw [← pidMN_eq] at hbij
  refine flatMap_perm_of_tiles g.pidMN
    (fun cell => (place cell.1 / g.config.blockSizeM, cell.2 / g.config.blockSizeN))
    (horder.nodup_iff.mpr List.nodup_range) ?_
    (List.nodup_range.product List.nodup_range)
    (fun pid _ => hal.storedCells_nodup pid) ?_ ?_
  · intro pid hmem pid' hmem' heq
    exact hbij.injOn (hpid.mp hmem) (hpid.mp hmem') heq
  · intro pid _ cell
    rw [mem_storedCells, hcell]
    constructor
    · intro h
      obtain ⟨hpost, r, hr, c, hc, hmask, heq⟩ := h
      subst heq
      have hlt := place_lt_of_block hal.dvd hr hpost
      have hat : place (g.offsToken (g.pidMN pid).1 r) =
          (g.pidMN pid).1 * g.config.blockSizeM + r :=
        (hal.once _ hmask.1).unique (hplace _ hmask.1) ⟨hlt, rfl⟩
      refine ⟨hmask, Prod.ext ?_ ?_⟩
      · simp only [hat, (mul_add_div_mod hr).1]
      · simp only [(mul_add_div_mod hc).1]
    · intro h
      obtain ⟨⟨ht, hn⟩, heq⟩ := h
      obtain ⟨hlt, hsorted⟩ := hplace _ ht
      have hrow := Nat.div_add_mod' (place cell.1) g.config.blockSizeM
      have hcol := Nat.div_add_mod' cell.2 g.config.blockSizeN
      rw [← heq]
      refine ⟨(Nat.div_mul_le_self _ _).trans_lt hlt, place cell.1 % g.config.blockSizeM, Nat.mod_lt _ hbm,
        cell.2 % g.config.blockSizeN, Nat.mod_lt _ hbn, ?_, ?_⟩
      · rw [offsToken, hrow, hcol, hsorted]
        exact ⟨ht, hn⟩
      · rw [offsToken, hrow, hcol, hsorted]
  · intro cell h
    obtain ⟨ht, hn⟩ := (hcell cell).mp h
    obtain ⟨pid, hgrid, heq⟩ := exists_pid hgm
      (div_lt_numPidM hbm ((hplace _ ht).1.trans_le hal.le)) (div_lt_numPidN hbn hn)
    exact ⟨pid, hpid.mpr hgrid, heq⟩

end FusedMoeKernel

/-- What the call sets. -/
theorem invokeFusedMoeKernel_eq {R : Type*} {call : FusedMoeCall R} {g : FusedMoeKernel R}
    (hinvoke : invokeFusedMoeKernel call = some g) :
    g.config = call.config ∧ g.em = call.numSorted ∧ g.numValidTokens = call.numel ∧
      g.n = call.n ∧ g.strideCm = call.c.stride 1 ∧ g.strideCn = call.c.stride 2 := by
  rw [invokeFusedMoeKernel] at hinvoke
  split_ifs at hinvoke
  rw [← Option.some.inj hinvoke]
  exact ⟨rfl, rfl, rfl, rfl, rfl, rfl⟩

/-- The kernel gets the alignment of the call. -/
theorem FusedMoeCall.Aligned.kernel {R : Type*} {call : FusedMoeCall R} {g : FusedMoeKernel R}
    (hal : call.Aligned) (hinvoke : invokeFusedMoeKernel call = some g) :
    g.Aligned call.topkIds := by
  rw [invokeFusedMoeKernel] at hinvoke
  split_ifs at hinvoke
  rw [← Option.some.inj hinvoke]
  exact ⟨hal.le, hal.dvd, hal.once, hal.expert⟩

namespace FusedMoeCall

variable {R : Type*} [CommSemiring R] {call : FusedMoeCall R} {g : FusedMoeKernel R}

/-- The value of an entry is that of the grouped product. -/
theorem value_eq (hinvoke : invokeFusedMoeKernel call = some g) (t n : ℕ) :
    g.value t n (call.topkIds t) = call.groupedProduct t n := by
  rw [invokeFusedMoeKernel] at hinvoke
  split_ifs at hinvoke
  rw [← Option.some.inj hinvoke, FusedMoeKernel.value, groupedProduct]
  have hentry : ∀ k, call.bInd (call.topkIds t) * call.b.stride 0 + call.w2Off * call.b.stride 1 +
      (k * call.b.stride 2 + n * call.b.stride 1) =
      call.bInd (call.topkIds t) * call.b.stride 0 + (call.w2Off + n) * call.b.stride 1 +
        k * call.b.stride 2 := fun k => by ring
  simp only [FusedMoeKernel.bAddress, Strided.at₂, Strided.at₃, hentry]

end FusedMoeCall

section Launch

variable {R : Type*} [CommSemiring R] {call : FusedMoeCall R} {g : FusedMoeKernel R}

/-- The stores of all programs are the entries of the product. -/
theorem stores_perm (hinvoke : invokeFusedMoeKernel call = some g)
    (hconfig : 0 < call.config.blockSizeM ∧ 0 < call.config.blockSizeN ∧
      0 < call.config.blockSizeK ∧ 0 < call.config.groupSizeM)
    (hal : call.Aligned) {order : List ℕ} (horder : order.Perm (List.range g.grid)) :
    (order.flatMap g.program).Perm (call.cells.map fun cell =>
      (call.address cell.1 cell.2, call.groupedProduct cell.1 cell.2)) := by
  have ⟨hcfg, _, hnumel, hn, hcm, hcn⟩ := invokeFusedMoeKernel_eq hinvoke
  have ⟨hbm, hbn, hbk, hgm⟩ := hconfig
  rw [← hcfg] at hbm hbn hbk hgm
  have hkernel := hal.kernel hinvoke
  have hstores : order.flatMap g.program = (order.flatMap g.storedCells).map fun cell =>
      (call.address cell.1 cell.2, call.groupedProduct cell.1 cell.2) := by
    rw [List.map_flatMap]
    refine List.flatMap_congr fun pid _ => ?_
    rw [hkernel.program_eq hbk]
    refine List.map_congr_left fun cell _ => ?_
    rw [hcm, hcn, call.value_eq hinvoke]
    rfl
  rw [hstores, FusedMoeCall.cells, ← hnumel, ← hn]
  exact (hkernel.storedCells_perm hbm hbn hgm horder).map _

/-- **The tiled kernel is the grouped product.** The programs of a launch and the tiles of
the grid are in bijection, only the places of `sorted_token_ids` are loaded, and the stores
of all programs are the entries of the product, each of them once. So where the entries of
the result are apart, each has its value afterwards, and the rest of the memory is as it
was. -/
theorem invokeFusedMoeKernel_exact (hinvoke : invokeFusedMoeKernel call = some g)
    (hconfig : 0 < call.config.blockSizeM ∧ 0 < call.config.blockSizeN ∧
      0 < call.config.blockSizeK ∧ 0 < call.config.groupSizeM)
    (hal : call.Aligned) {order : List ℕ} (horder : order.Perm (List.range g.grid)) :
    Set.BijOn g.pidMN {pid | pid < g.grid} {tile | tile.1 < g.numPidM ∧ tile.2 < g.numPidN} ∧
    (∀ pid < g.grid, ∀ p ∈ g.sortedLoads pid, p < call.numSorted) ∧
    (order.flatMap g.program).Perm (call.cells.map fun cell =>
      (call.address cell.1 cell.2, call.groupedProduct cell.1 cell.2)) ∧
    ((∀ cell ∈ call.cells, ∀ cell' ∈ call.cells,
        call.address cell.1 cell.2 = call.address cell'.1 cell'.2 → cell = cell') →
      ∀ cell ∈ call.cells, g.launch order call.c.ptr (call.address cell.1 cell.2) =
        call.groupedProduct cell.1 cell.2) ∧
    ∀ p, (∀ cell ∈ call.cells, call.address cell.1 cell.2 ≠ p) →
      g.launch order call.c.ptr p = call.c.ptr p := by
  have ⟨hcfg, hem, _⟩ := invokeFusedMoeKernel_eq hinvoke
  have hstores := stores_perm hinvoke hconfig hal horder
  have hmem : ∀ st, st ∈ order.flatMap g.program ↔ ∃ cell ∈ call.cells,
      (call.address cell.1 cell.2, call.groupedProduct cell.1 cell.2) = st := fun st => by
    rw [hstores.mem_iff, List.mem_map]
  refine ⟨?_, fun pid _ p hp => ?_, hstores, fun hapart cell hcell => ?_, fun p hp => ?_⟩
  · rw [FusedMoeKernel.pidMN_eq]
    exact groupedTile_bijOn _ _ (by rw [hcfg]; exact hconfig.2.2.2)
  · rw [← hem]
    exact (hal.kernel hinvoke).sortedLoads_lt hp
  · refine applyStores_eq (fun st hst haddr => ?_) (Or.inr ?_)
    · have ⟨cell', hcell', heq⟩ := (hmem st).mp hst
      subst heq
      rw [hapart cell' hcell' cell hcell haddr]
    · exact ⟨_, (hmem _).mpr ⟨cell, hcell, rfl⟩, rfl⟩
  · refine applyStores_eq (fun st hst haddr => ?_) (Or.inl rfl)
    have ⟨cell, hcell, heq⟩ := (hmem st).mp hst
    subst heq
    exact absurd haddr (hp cell hcell)

/-- Two slots of different experts, in blocks of two rows, two columns and two steps, where
three columns, three steps and five places do not fit. -/
def raggedCall : FusedMoeCall ℕ where
  a := ⟨fun p => p + 1, fun d => if d = 0 then 3 else 1⟩
  b := ⟨fun p => p, fun d => if d = 0 then 9 else if d = 1 then 3 else 1⟩
  bInd := fun e => e
  c := ⟨fun _ => 0, fun d => if d = 0 then 6 else if d = 1 then 3 else 1⟩
  topkWeights := ⟨fun p => p + 2, fun _ => 1⟩
  topkIds := fun t => 1 - t
  numel := 2
  sortedTokenIds := ⟨fun p => if p = 0 then 1 else if p = 2 then 0 else 2, fun _ => 1⟩
  numSorted := 5
  expertIds := fun block => block
  numTokensPostPadded := 4
  mulRoutedWeight := true
  topK := 1
  config := ⟨2, 2, 2, 2⟩
  n := 3
  k := 3
  w2Off := 0

theorem invokeFusedMoeKernel_exact_ragged :
    ∃ g, invokeFusedMoeKernel raggedCall = some g ∧
      g.launch [3, 1, 0, 2, 5, 4] raggedCall.c.ptr 2 = 2 * (1 * 15 + 2 * 16 + 3 * 17) ∧
      g.launch [3, 1, 0, 2, 5, 4] raggedCall.c.ptr 6 = 0 := by
  have hal : raggedCall.Aligned := by
    have hplace : ∀ t < 2, 2 - 2 * t < 4 ∧ raggedCall.sortedTokenIds.ptr (2 - 2 * t) = t := by
      decide
    have hunique : ∀ t < 2, ∀ p < 4, raggedCall.sortedTokenIds.ptr p = t → p = 2 - 2 * t := by
      decide
    exact ⟨by decide, by decide,
      fun t ht => ⟨2 - 2 * t, hplace t ht, fun p hp => hunique t ht p hp.1 hp.2⟩, by decide⟩
  obtain ⟨g, hinvoke⟩ : ∃ g, invokeFusedMoeKernel raggedCall = some g := ⟨_, rfl⟩
  have hgrid : g.grid = 6 := by
    obtain ⟨hcfg, hem, _, hn, _⟩ := invokeFusedMoeKernel_eq hinvoke
    simp only [FusedMoeKernel.grid, FusedMoeKernel.numPidM, FusedMoeKernel.numPidN, hcfg, hem, hn,
      Nat.ceilDiv_eq_add_pred_div]
    rfl
  have horder : [3, 1, 0, 2, 5, 4].Perm (List.range g.grid) := by
    rw [hgrid]
    decide
  obtain ⟨_, _, _, hvalue, hrest⟩ :=
    invokeFusedMoeKernel_exact hinvoke (by decide) hal horder
  exact ⟨g, hinvoke, hvalue (by decide) (0, 2) (by decide), hrest 6 (by decide)⟩

end Launch

end HarvestMoE
