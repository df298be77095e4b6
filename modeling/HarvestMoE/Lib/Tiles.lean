import HarvestMoE.Lib.Loops
import Mathlib.Data.Finset.Card
import Mathlib.Data.Finset.Prod
import Mathlib.Data.List.Nodup

/-!
# Tiles in a grouped order

Numbered programs compute the tiles of a grid. In the grouped order the tiles of
`groupSize` rows are finished column by column before the next rows begin; the last group
may have fewer rows. Each tile has one number, and programs that compute the cells of
their own tiles compute each cell once.

## Main definitions

* `groupedTile` — the tile of a number.
* `groupedTile_bijOn` — the numbers of a grid and its tiles.
* `flatMap_perm_of_tiles` — the cells of all programs.
-/

namespace Lib

/-- The tile of a number, in a grid of `rows` rows and `cols` columns. -/
def groupedTile (rows cols groupSize pid : ℕ) : ℕ × ℕ :=
  let perGroup := groupSize * cols
  let firstRow := pid / perGroup * groupSize
  let size := min (rows - firstRow) groupSize
  (firstRow + pid % perGroup % size, pid % perGroup / size)

variable {rows cols groupSize : ℕ}

/-- Every tile has a number. -/
theorem exists_groupedTile (hgroup : 0 < groupSize) {row col : ℕ} (hrow : row < rows)
    (hcol : col < cols) : ∃ pid < rows * cols, groupedTile rows cols groupSize pid = (row, col) := by
  -- The group of the tile, and the row in it.
  have hrow' := Nat.div_add_mod row groupSize
  have hmod := Nat.mod_lt row hgroup
  generalize row / groupSize = group at hrow'
  generalize row % groupSize = i at hrow' hmod
  subst hrow'
  have hmin : min (rows - group * groupSize) groupSize ≤ groupSize := min_le_right _ _
  have hi : i < min (rows - group * groupSize) groupSize := by
    rw [Nat.mul_comm group]
    omega
  generalize hsize : min (rows - group * groupSize) groupSize = size at hmin hi
  have hplace : col * size + i < size * cols := by
    calc col * size + i < (col + 1) * size := by rw [Nat.succ_mul]; omega
      _ ≤ cols * size := Nat.mul_le_mul_right _ hcol
      _ = _ := Nat.mul_comm _ _
  have hgroup : col * size + i < groupSize * cols :=
    hplace.trans_le (Nat.mul_le_mul_right _ hmin)
  refine ⟨group * (groupSize * cols) + (col * size + i), ?_, ?_⟩
  · have hinside : group * groupSize + size ≤ rows := by
      rw [Nat.mul_comm group] at hsize ⊢
      omega
    calc group * (groupSize * cols) + (col * size + i)
        < group * groupSize * cols + size * cols := by
          rw [← Nat.mul_assoc]
          omega
      _ = (group * groupSize + size) * cols := (Nat.add_mul _ _ _).symm
      _ ≤ rows * cols := Nat.mul_le_mul_right _ hinside
  · have ⟨hdiv, hmod'⟩ := mul_add_div_mod (i := group) hgroup
    have ⟨hcol', hplace'⟩ := mul_add_div_mod (i := col) hi
    simp only [groupedTile, hdiv, hmod', hsize, hcol', hplace']
    rw [Nat.mul_comm group]

/-- There are as many numbers as tiles, so no two numbers have the same tile. -/
theorem groupedTile_bijOn (rows cols : ℕ) (hgroup : 0 < groupSize) :
    Set.BijOn (groupedTile rows cols groupSize) {pid | pid < rows * cols}
      {tile | tile.1 < rows ∧ tile.2 < cols} := by
  have hcard : (Finset.range (rows * cols)).card =
      (Finset.range rows ×ˢ Finset.range cols).card := by
    rw [Finset.card_product, Finset.card_range, Finset.card_range, Finset.card_range]
  have hcover : Finset.range rows ×ˢ Finset.range cols ⊆
      (Finset.range (rows * cols)).image (groupedTile rows cols groupSize) := by
    intro tile htile
    have ⟨hrow, hcol⟩ := Finset.mem_product.mp htile
    have ⟨pid, hpid, heq⟩ := exists_groupedTile hgroup (Finset.mem_range.mp hrow)
      (Finset.mem_range.mp hcol)
    exact Finset.mem_image.mpr ⟨pid, Finset.mem_range.mpr hpid, heq⟩
  have himage := Finset.eq_of_subset_of_card_le hcover (Finset.card_image_le.trans_eq hcard)
  have hbij := (Finset.image_eq_iff_bijOn_of_card hcard.le).mp himage.symm
  have hpids : ((Finset.range (rows * cols) : Finset ℕ) : Set ℕ) = {pid | pid < rows * cols} := by
    ext pid
    exact Finset.mem_range
  have htiles : ((Finset.range rows ×ˢ Finset.range cols : Finset (ℕ × ℕ)) : Set (ℕ × ℕ)) =
      {tile | tile.1 < rows ∧ tile.2 < cols} := by
    ext tile
    simp
  rwa [hpids, htiles] at hbij

section Programs

variable {ι κ τ : Type*} {pids : List ι} {program : ι → List κ}

/-- Programs that stay in different tiles have no cell in common. -/
theorem nodup_flatMap_of_tiles (tile : ι → τ) (home : κ → τ) (hpids : pids.Nodup)
    (hinj : ∀ i ∈ pids, ∀ j ∈ pids, tile i = tile j → i = j)
    (hnodup : ∀ i ∈ pids, (program i).Nodup)
    (hhome : ∀ i ∈ pids, ∀ c ∈ program i, home c = tile i) : (pids.flatMap program).Nodup := by
  refine List.nodup_flatMap.mpr ⟨hnodup, hpids.imp_of_mem fun {i j} hi hj hne => ?_⟩
  intro c hci hcj
  exact hne (hinj i hi j hj ((hhome i hi c hci).symm.trans (hhome j hj c hcj)))

/-- Programs with different tiles, each of which computes the cells at home in its tile,
compute every cell once. -/
theorem flatMap_perm_of_tiles {cells : List κ} (tile : ι → τ) (home : κ → τ) (hpids : pids.Nodup)
    (hinj : ∀ i ∈ pids, ∀ j ∈ pids, tile i = tile j → i = j) (hcells : cells.Nodup)
    (hnodup : ∀ i ∈ pids, (program i).Nodup)
    (hmem : ∀ i ∈ pids, ∀ c, c ∈ program i ↔ c ∈ cells ∧ home c = tile i)
    (hhome : ∀ c ∈ cells, ∃ i ∈ pids, tile i = home c) :
    (pids.flatMap program).Perm cells := by
  have hall : (pids.flatMap program).Nodup := nodup_flatMap_of_tiles tile home hpids hinj hnodup
    fun i hi c hc => ((hmem i hi c).mp hc).2
  refine (List.perm_ext_iff_of_nodup hall hcells).mpr fun c => ?_
  rw [List.mem_flatMap]
  constructor
  · intro hc
    have ⟨i, hi, hci⟩ := hc
    exact ((hmem i hi c).mp hci).1
  · intro hc
    have ⟨i, hi, htile⟩ := hhome c hc
    exact ⟨i, hi, (hmem i hi c).mpr ⟨hc, htile.symm⟩⟩

end Programs

end Lib
