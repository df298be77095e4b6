import Mathlib.Order.Basic
import Mathlib.Data.List.Basic
import Mathlib.Data.Set.Basic
import Mathlib.Logic.Function.Basic

/-!
# Row-addressed memories and block copies

A tensor is a memory from row numbers to rows. A copy moves a block of
consecutive rows; slices are Python's, clamped to the size of the tensor, and a
copy between slices of different lengths raises.

## Main definitions

* `Slice`, `Slice.length`, `Slice.rows`, `Slice.indices` — `[start:stop]` and the rows it
  selects.
* `copyRows` — move a block of rows.
* `copySlice` — `dst[d].copy_(src[s])`.
* `applyStores` — single stores in order.
* `scatter`, `gather` — indexed write, and the read of a block in order.
-/

namespace Lib

variable {α : Type*}

/-- A Python slice `[start:stop]`; without a stop it runs to the end. -/
structure Slice where
  start : ℕ
  stop : Option ℕ
  deriving DecidableEq, Repr

namespace Slice

/-- The number of rows the slice selects in a tensor of `size` rows. -/
def length (s : Slice) (size : ℕ) : ℕ := min (s.stop.getD size) size - min s.start size

/-- A slice inside the tensor selects exactly the rows it names. -/
theorem length_of_le {a len size : ℕ} (h : a + len ≤ size) :
    (Slice.mk a (some (a + len))).length size = len := by
  simp only [length, Option.getD_some]
  omega

theorem length_of_none {a size : ℕ} (h : a ≤ size) :
    (Slice.mk a none).length size = size - a := by
  simp only [length, Option.getD_none]
  omega

/-- The rows of the flat memory that the slice selects in a tensor of `size` rows, each
of which is `unit` rows of the memory. -/
def rows (s : Slice) (unit size : ℕ) : Set ℕ :=
  {r | s.start * unit ≤ r ∧ r < s.start * unit + s.length size * unit}

/-- The rows one by one, in a tensor whose rows are those of the memory. -/
def indices (s : Slice) (size : ℕ) : List ℕ := List.range' s.start (s.length size)

theorem mem_indices {s : Slice} {size r : ℕ} : r ∈ s.indices size ↔ r ∈ s.rows 1 size := by
  rw [indices, List.mem_range'_1, rows, Set.mem_ofPred_eq, Nat.mul_one, Nat.mul_one]

end Slice

/-- Copy `len` rows, from row `fr` of `src` to row `at₀` of `dst`. -/
def copyRows (dst : ℕ → α) (at₀ : ℕ) (src : ℕ → α) (fr len : ℕ) : ℕ → α :=
  fun r => if at₀ ≤ r ∧ r < at₀ + len then src (fr + (r - at₀)) else dst r

@[simp] theorem copyRows_add {dst src : ℕ → α} {at₀ fr len i : ℕ} (h : i < len) :
    copyRows dst at₀ src fr len (at₀ + i) = src (fr + i) := by
  simp [copyRows, h]

theorem copyRows_inside {dst src : ℕ → α} {at₀ fr len r : ℕ} (h₁ : at₀ ≤ r) (h₂ : r < at₀ + len) :
    copyRows dst at₀ src fr len r = src (fr + (r - at₀)) := by
  simp [copyRows, h₁, h₂]

theorem copyRows_below {dst src : ℕ → α} {at₀ fr len r : ℕ} (h : r < at₀) :
    copyRows dst at₀ src fr len r = dst r := by
  simp only [copyRows]
  rw [if_neg (by omega)]

theorem copyRows_above {dst src : ℕ → α} {at₀ fr len r : ℕ} (h : at₀ + len ≤ r) :
    copyRows dst at₀ src fr len r = dst r := by
  simp only [copyRows]
  rw [if_neg (by omega)]

/-- `dst[d].copy_(src[s])`, where a row of either tensor is `unit` rows of its flat
memory. Slices of different lengths raise. -/
def copySlice (unit : ℕ) (dst : ℕ → α) (dstSize : ℕ) (d : Slice) (src : ℕ → α)
    (srcSize : ℕ) (s : Slice) : Option (ℕ → α) :=
  if d.length dstSize = s.length srcSize then
    some (copyRows dst (d.start * unit) src (s.start * unit) (d.length dstSize * unit))
  else none

theorem copySlice_eq {unit : ℕ} {dst : ℕ → α} {dstSize : ℕ} {d : Slice} {src : ℕ → α}
    {srcSize : ℕ} {s : Slice} {len : ℕ} (hd : d.length dstSize = len)
    (hs : s.length srcSize = len) :
    copySlice unit dst dstSize d src srcSize s =
      some (copyRows dst (d.start * unit) src (s.start * unit) (len * unit)) := by
  simp [copySlice, hd, hs]

/-- Rows outside the slice keep their value. -/
theorem copySlice_of_notMem {unit : ℕ} {dst dst' : ℕ → α} {dstSize : ℕ} {d : Slice} {src : ℕ → α}
    {srcSize : ℕ} {s : Slice} (h : copySlice unit dst dstSize d src srcSize s = some dst') {r : ℕ}
    (hr : r ∉ d.rows unit dstSize) : dst' r = dst r := by
  rw [copySlice] at h
  split_ifs at h
  rw [← Option.some.inj h, copyRows]
  exact if_neg hr

/-- Rows before the slice keep their value. -/
theorem copySlice_below {unit : ℕ} {dst dst' : ℕ → α} {dstSize : ℕ} {d : Slice} {src : ℕ → α}
    {srcSize : ℕ} {s : Slice} (h : copySlice unit dst dstSize d src srcSize s = some dst') {r : ℕ}
    (hr : r < d.start * unit) : dst' r = dst r := by
  rw [copySlice] at h
  split_ifs at h
  obtain rfl := Option.some.inj h
  exact copyRows_below hr

/-- Write the values at the indices, in order: `dst[indices] = values`. -/
def scatter (mem : ℕ → α) (indices : List ℕ) (values : List α) : ℕ → α :=
  (indices.zip values).foldl (fun mem e => Function.update mem e.1 e.2) mem

/-- The `len` rows from `start` on. -/
def gather (mem : ℕ → α) (start len : ℕ) : List α :=
  (List.range len).map fun t => mem (start + t)

/-- A row no index names keeps its value. -/
theorem scatter_of_notMem {mem : ℕ → α} {indices : List ℕ} {values : List α} {r : ℕ}
    (h : r ∉ indices) : scatter mem indices values r = mem r := by
  induction indices generalizing mem values with
  | nil => rfl
  | cons i is ih =>
      cases values with
      | nil => rfl
      | cons v vs =>
          have hne : r ≠ i := fun heq => h (by simp [heq])
          have hrest : scatter (Function.update mem i v) is vs r = Function.update mem i v r :=
            ih fun hr => h (List.mem_cons_of_mem _ hr)
          simpa [scatter, hne] using hrest

/-- Two memories that agree on a row agree on it after the same write. -/
theorem scatter_congr {mem mem' : ℕ → α} (indices : List ℕ) (values : List α) {r : ℕ}
    (h : mem r = mem' r) : scatter mem indices values r = scatter mem' indices values r := by
  induction indices generalizing mem mem' values with
  | nil => exact h
  | cons i is ih =>
      cases values with
      | nil => exact h
      | cons v vs =>
          refine ih vs ?_
          by_cases hr : r = i
          · subst hr
            simp
          · simpa [hr] using h

/-- A row that some index names holds `v` when every value written there is `v`. -/
theorem scatter_eq {mem : ℕ → α} {indices : List ℕ} {values : List α} {r : ℕ} {v : α}
    (hmem : ∃ e ∈ indices.zip values, e.1 = r)
    (hval : ∀ e ∈ indices.zip values, e.1 = r → e.2 = v) : scatter mem indices values r = v := by
  suffices h : ∀ (es : List (ℕ × α)) (mem : ℕ → α), (∀ e ∈ es, e.1 = r → e.2 = v) →
      (mem r = v ∨ ∃ e ∈ es, e.1 = r) →
      es.foldl (fun mem e => Function.update mem e.1 e.2) mem r = v from h _ mem hval (Or.inr hmem)
  intro es
  induction es with
  | nil => intro mem _ h; simpa using h
  | cons e es ih =>
      intro mem hval h
      refine ih _ (fun e he => hval e (List.mem_cons_of_mem _ he)) ?_
      by_cases he : e.1 = r
      · left
        subst he
        exact (Function.update_self ..).trans (hval e (by simp) rfl)
      · rcases h with hm | ⟨e', he', hr⟩
        · left
          exact (Function.update_of_ne (fun h => he h.symm) ..).trans hm
        · rcases List.mem_cons.mp he' with rfl | hes
          · exact absurd hr he
          · exact Or.inr ⟨e', hes, hr⟩

theorem gather_congr {mem mem' : ℕ → α} {start len : ℕ}
    (h : ∀ t, t < len → mem (start + t) = mem' t) :
    gather mem start len = (List.range len).map mem' :=
  List.map_congr_left fun t ht => h t (List.mem_range.mp ht)

/-- Single stores, one after the other. -/
def applyStores : (ℕ → α) → List (ℕ × α) → ℕ → α
  | mem, [] => mem
  | mem, st :: stores => applyStores (Function.update mem st.1 st.2) stores

/-- A row that is stored, and always with the same value, has that value, whatever the
order. -/
theorem applyStores_eq {mem : ℕ → α} {stores : List (ℕ × α)} {r : ℕ} {v : α}
    (hall : ∀ st ∈ stores, st.1 = r → st.2 = v) (h : mem r = v ∨ ∃ st ∈ stores, st.1 = r) :
    applyStores mem stores r = v := by
  induction stores generalizing mem with
  | nil => simpa [applyStores] using h
  | cons st stores ih =>
      rw [applyStores]
      refine ih (fun st' hst' => hall st' (List.mem_cons_of_mem _ hst')) ?_
      by_cases hst : st.1 = r
      · left
        rw [hst, Function.update_self]
        exact hall st List.mem_cons_self hst
      · rw [Function.update_of_ne (Ne.symm hst)]
        refine h.imp_right fun hmem => ?_
        rcases hmem with ⟨st', hst', heq⟩
        cases hst' with
        | head => exact absurd heq hst
        | tail _ hst' => exact ⟨st', hst', heq⟩

end Lib
