import HarvestMoE.Lib.PrefixMass
import HarvestMoE.Lib.PyNum
import Mathlib.Algebra.Order.Field.Basic
import Mathlib.Data.List.GetD
import Mathlib.Data.List.Intervals
import Mathlib.Data.List.Sort
import Mathlib.Algebra.Order.Ring.Rat
import Mathlib.Tactic.NormNum
import Mathlib.Tactic.Ring

/-!
# Sampling from the most probable tokens

`_top_p_top_k` sorts the probabilities of a row in descending order and masks the places that
have more than `top_p` before them, and those from `top_k` on. What is left is a prefix of the
order (`unmasked_eq_range`), scaled such that its first entry is 1.

## Main definitions

* `topPTopK` — `_top_p_top_k`, on one row.
* `sampleRow` — `Batch.sample`, on one row.
* `IsTruncation` — what the row should become.
-/

namespace HarvestMoE

open Lib

variable {F : Type*} [Field F] [LinearOrder F]

/-- `tensor.sort(descending=True)`, on one row: the places in the order of their values, which
with ties may be any of several. -/
structure SortsDescending (sort : List F → List ℕ) : Prop where
  perm : ∀ xs, (sort xs).Perm (List.range xs.length)
  sorted : ∀ xs, ((sort xs).map fun i => xs.getD i 0).Pairwise (· ≥ ·)

/-- `torch.multinomial` draws a place of positive weight. -/
def DrawsPositive (multinomial : List F → ℕ) : Prop :=
  ∀ ws : List F, (∀ w ∈ ws, 0 ≤ w) → (∃ w ∈ ws, 0 < w) → 0 < ws.getD (multinomial ws) 0

/-- A row of `softmax`. -/
structure ProbabilityRow (probs : List F) : Prop where
  nonneg : ∀ p ∈ probs, 0 ≤ p
  sum_eq : probs.sum = 1

section Definitions

/-- The values in the order of the places. -/
def sortedRow (sort : List F → List ℕ) (probs : List F) : List F :=
  (sort probs).map fun i => probs.getD i 0

/-- `(probs_sum - probs_sort) > top_ps`, with `probs_sum = torch.cumsum(probs_sort)`. -/
def topPMask (probsSort : List F) (topP : PyNum F) : List Bool :=
  List.zipWith (fun sum p => topP.lt (.fin (sum - p))) (runningSums probsSort) probsSort

/-- `torch.arange(0, probs.shape[-1]) >= top_ks` -/
def topKMask (n : ℕ) (topK : ℤ) : List Bool :=
  (List.range n).map fun i : ℕ => decide (topK ≤ i)

/-- `probs_sort[mask] = 0.0` -/
def maskedFill (probsSort : List F) (mask : List Bool) : List F :=
  List.zipWith (fun p masked => if masked then 0 else p) probsSort mask

/-- The row behind both masks. -/
def maskedRow (probsSort : List F) (topP : PyNum F) (topK : ℤ) : List F :=
  maskedFill (maskedFill probsSort (topPMask probsSort topP)) (topKMask probsSort.length topK)

/-- `probs_sort.max(dim=-1)` -/
def rowMax (row : List F) : F := row.max?.getD 0

/-- `_top_p_top_k`: the weights, and the places they belong to. -/
def topPTopK (sort : List F → List ℕ) (probs : List F) (topP : PyNum F) (topK : ℤ) :
    List F × List ℕ :=
  let probsSort := maskedRow (sortedRow sort probs) topP topK
  (probsSort.map (· / rowMax probsSort), sort probs)

/-- `Batch.sample` behind the softmax: the next token, and its weight. -/
def sampleRow (sort : List F → List ℕ) (multinomial : List F → ℕ) (probs : List F)
    (topP : PyNum F) (topK : ℤ) : ℕ × F :=
  let (probsSort, probsIdx) := topPTopK sort probs topP topK
  let sampledIndex := multinomial probsSort
  (probsIdx.getD sampledIndex 0, probsSort.getD sampledIndex 0)

/-- The places that neither mask sets to zero. -/
def unmasked (probsSort : List F) (topP : PyNum F) (topK : ℤ) : List ℕ :=
  (List.range probsSort.length).filter fun i =>
    (topPMask probsSort topP)[i]? = some false ∧ (topKMask probsSort.length topK)[i]? = some false

end Definitions

section SortedRow

variable {sort : List F → List ℕ} {probs : List F}

theorem sortedRow_perm (hsort : SortsDescending sort) (probs : List F) :
    (sortedRow sort probs).Perm probs := by
  have hself : (List.range probs.length).map (fun i => probs.getD i 0) = probs := by
    apply List.ext_getElem
    · simp
    · intro i _ hi
      simp [hi]
  rw [sortedRow]
  exact ((hsort.perm probs).map _).trans (List.Perm.of_eq hself)

theorem ProbabilityRow.sortedRow (hsort : SortsDescending sort) (hrow : ProbabilityRow probs) :
    ProbabilityRow (sortedRow sort probs) := by
  have hperm := sortedRow_perm hsort probs
  constructor
  case nonneg =>
    intro p hp
    exact hrow.nonneg p (hperm.mem_iff.mp hp)
  case sum_eq =>
    rw [hperm.sum_eq, hrow.sum_eq]

/-- A row of probabilities has entries. -/
theorem ProbabilityRow.ne_nil (hrow : ProbabilityRow probs) : probs ≠ [] := by
  intro hnil
  have hsum := hrow.sum_eq
  rw [hnil, List.sum_nil] at hsum
  exact zero_ne_one hsum

/-- The first of the sorted probabilities is positive. -/
theorem ProbabilityRow.head_pos {p : F} {rest : List F} (hrow : ProbabilityRow (p :: rest))
    (hsorted : (p :: rest).Pairwise (· ≥ ·)) : 0 < p := by
  by_contra hp
  have hzero : ∀ q ∈ p :: rest, q = 0 := by
    intro q hq
    have hle : q ≤ p := by
      rcases List.mem_cons.mp hq with rfl | hq
      · exact le_rfl
      · exact (List.pairwise_cons.mp hsorted).1 q hq
    exact le_antisymm (hle.trans (not_lt.mp hp)) (hrow.nonneg q hq)
  have hsum := hrow.sum_eq
  rw [List.sum_eq_zero hzero] at hsum
  exact zero_ne_one hsum

end SortedRow

section Masks

variable {row : List F} {topP : PyNum F} {topK : ℤ} {i : ℕ}

theorem getElem?_topPMask (hi : i < row.length) :
    (topPMask row topP)[i]? = some (topP.lt (.fin (row.take i).sum)) := by
  have hc : i < (runningSums row).length := by rwa [length_runningSums]
  rw [topPMask, List.getElem?_zipWith, List.getElem?_eq_getElem hc, List.getElem?_eq_getElem hi]
  simp only [runningSums_sub row hi hc]

theorem getElem?_topKMask {n : ℕ} (hi : i < n) :
    (topKMask n topK)[i]? = some (decide (topK ≤ i)) := by
  rw [topKMask, List.getElem?_map, List.getElem?_range hi, Option.map_some]

@[simp] theorem length_maskedRow : (maskedRow row topP topK).length = row.length := by
  simp [maskedRow, maskedFill, topPMask, topKMask]

/-- An entry is kept if neither mask has its place. -/
theorem getElem_maskedRow (hi : i < row.length) (hm : i < (maskedRow row topP topK).length) :
    (maskedRow row topP topK)[i] = if topP.lt (.fin (row.take i).sum) ∨ topK ≤ i then 0
      else row[i] := by
  apply Option.some.inj
  rw [← List.getElem?_eq_getElem, maskedRow, maskedFill, maskedFill, List.getElem?_zipWith,
    List.getElem?_zipWith, getElem?_topPMask hi, getElem?_topKMask hi,
    List.getElem?_eq_getElem hi]
  by_cases hk : topK ≤ i <;> cases topP.lt (.fin (row.take i).sum) <;> simp [hk]

theorem mem_unmasked :
    i ∈ unmasked row topP topK ↔
      i < row.length ∧ topP.lt (.fin (row.take i).sum) = false ∧ i < topK := by
  rw [unmasked, List.mem_filter, List.mem_range]
  refine and_congr_right fun hi => ?_
  rw [getElem?_topPMask hi, getElem?_topKMask hi]
  simp

/-- Where no mask has the first place, the maximum is the first of the sorted values. -/
theorem rowMax_maskedRow {p : F} {rest : List F} (hnonneg : ∀ q ∈ p :: rest, 0 ≤ q)
    (hsorted : (p :: rest).Pairwise (· ≥ ·)) (hp : topP.lt (.fin 0) = false) (hk : 1 ≤ topK) :
    rowMax (maskedRow (p :: rest) topP topK) = p := by
  have hlen : 0 < (maskedRow (p :: rest) topP topK).length := by simp
  have hfirst : (maskedRow (p :: rest) topP topK)[0] = p := by
    rw [getElem_maskedRow (by simp)]
    simp [hp, show ¬ topK ≤ 0 by omega]
  have hmax : (maskedRow (p :: rest) topP topK).max? = some p := by
    rw [List.max?_eq_some_iff]
    constructor
    · exact List.mem_of_getElem hfirst
    · intro q hq
      have ⟨i, hi, hiq⟩ := List.getElem_of_mem hq
      have hrow : i < (p :: rest).length := by simpa using hi
      rw [← hiq, getElem_maskedRow hrow]
      split_ifs with hmask
      · exact hnonneg p (List.mem_cons_self ..)
      · rcases List.mem_cons.mp (List.getElem_mem hrow) with heq | hrest
        · exact heq.le
        · exact (List.pairwise_cons.mp hsorted).1 _ hrest
  rw [rowMax, hmax, Option.getD_some]

variable [IsStrictOrderedRing F]

/-- What the masks leave is a prefix. -/
theorem unmasked_eq_range (hnonneg : ∀ p ∈ row, 0 ≤ p) (topP : F) (topK : ℤ) :
    unmasked row (.fin topP) topK = List.range (min topK.toNat (massCut topP row)) := by
  have hcut : massCut topP row ≤ row.length := massCut_le
  calc unmasked row (.fin topP) topK
      = (List.range row.length).filter fun i =>
          decide (i < min topK.toNat (massCut topP row)) := by
        apply List.filter_congr
        intro i hi
        have hi := List.mem_range.mp hi
        rw [getElem?_topPMask hi, getElem?_topKMask hi, PyNum.fin_lt_fin, decide_eq_decide,
          lt_min_iff, lt_massCut_iff hnonneg hi]
        simp only [Option.some.injEq, decide_eq_false_iff_not, not_lt, not_le]
        rw [and_comm, Int.lt_toNat]
    _ = List.range (min topK.toNat (massCut topP row)) := by
        rw [← List.Ico.zero_bot, List.Ico.filter_lt, List.Ico.zero_bot]
        congr 1
        omega

end Masks

section Truncation

variable {sort : List F → List ℕ} {multinomial : List F → ℕ}
  {probs : List F} {topP : F} {topK : ℤ}

/-- The truncation of a row of descending probabilities: the places before `top_k` and before
the mass exceeds `top_p` are kept, in proportion, and the largest becomes 1. -/
structure IsTruncation (probsSort : List F) (topP : F) (topK : ℤ) (kept : List ℕ)
    (row : List F) : Prop where
  kept_eq : kept = List.range (min topK.toNat (massCut topP probsSort))
  kept_ne : kept ≠ []
  length_eq : row.length = probsSort.length
  ratio : ∀ i ∈ kept, ∀ j ∈ kept,
    row.getD i 0 * probsSort.getD j 0 = row.getD j 0 * probsSort.getD i 0
  first : row.getD 0 0 = 1
  dropped : ∀ i, i ∉ kept → row.getD i 0 = 0

section Weights

variable {p : F} {rest : List F}

/-- Each weight is that of its place over the first one, or zero behind a mask. -/
theorem getD_topPTopK (hcons : sortedRow sort probs = p :: rest)
    (hmax : rowMax (maskedRow (p :: rest) (.fin topP) topK) = p) (i : ℕ) :
    (topPTopK sort probs (.fin topP) topK).1.getD i 0 =
      if i ∈ unmasked (p :: rest) (.fin topP) topK then (p :: rest).getD i 0 / p else 0 := by
  have hweights : (topPTopK sort probs (.fin topP) topK).1 =
      (maskedRow (p :: rest) (.fin topP) topK).map (· / p) := by
    rw [topPTopK]
    simp only [hcons, hmax]
  rw [hweights, List.getD_eq_getElem?_getD, List.getElem?_map]
  by_cases hi : i < (p :: rest).length
  · rw [List.getElem?_eq_getElem (by simpa using hi), getElem_maskedRow hi, Option.map_some,
      Option.getD_some]
    have hmem : i ∈ unmasked (p :: rest) (.fin topP) topK ↔
        ¬ (PyNum.lt (.fin topP) (.fin ((p :: rest).take i).sum) = true ∨ topK ≤ i) := by
      rw [mem_unmasked, not_or, Bool.not_eq_true, not_le, and_iff_right hi]
    by_cases hmask : PyNum.lt (.fin topP) (.fin ((p :: rest).take i).sum) = true ∨ topK ≤ i
    · rw [if_pos hmask, if_neg (fun h => hmem.mp h hmask), zero_div]
    · rw [if_neg hmask, if_pos (hmem.mpr hmask), List.getD_eq_getElem _ _ hi]
  · rw [List.getElem?_eq_none (by simpa using hi), if_neg (fun h => hi (mem_unmasked.mp h).1)]
    rfl

/-- Where the first place is drawn, the token is one of maximal probability. -/
theorem sampleRow_maximal (hsort : SortsDescending sort)
    (hcons : sortedRow sort probs = p :: rest) (hsorted : (p :: rest).Pairwise (· ≥ ·))
    (hdrawn : multinomial (topPTopK sort probs (.fin topP) topK).1 = 0) :
    (sampleRow sort multinomial probs (.fin topP) topK).1 < probs.length ∧
      ∀ q ∈ probs, q ≤ probs.getD (sampleRow sort multinomial probs (.fin topP) topK).1 0 := by
  have ⟨t, ts, ht, htp, _⟩ := List.map_eq_cons_iff.mp hcons
  have htoken : (sampleRow sort multinomial probs (.fin topP) topK).1 = t := by
    calc (sampleRow sort multinomial probs (.fin topP) topK).1
        = (sort probs).getD (multinomial (topPTopK sort probs (.fin topP) topK).1) 0 := rfl
      _ = t := by rw [hdrawn, ht, List.getD_cons_zero]
  have hmem : t ∈ sort probs := ht ▸ List.mem_cons_self ..
  rw [htoken]
  constructor
  · exact List.mem_range.mp ((hsort.perm probs).mem_iff.mp hmem)
  · intro q hq
    have hperm := sortedRow_perm hsort probs
    rw [hcons] at hperm
    rw [htp]
    rcases List.mem_cons.mp (hperm.mem_iff.mpr hq) with heq | hrest
    · exact heq.le
    · exact (List.pairwise_cons.mp hsorted).1 q hrest

variable [IsStrictOrderedRing F]

/-- With `top_k = 1` only the first place has a positive weight. -/
theorem drawn_first (hdraw : DrawsPositive multinomial) (hrow : ProbabilityRow (p :: rest))
    {row : List F} (hone : row.getD 0 0 = 1)
    (hweight : ∀ i, row.getD i 0 =
      if i ∈ unmasked (p :: rest) (.fin topP) 1 then (p :: rest).getD i 0 / p else 0) :
    multinomial row = 0 := by
  have hp : 0 ≤ p := hrow.nonneg p (List.mem_cons_self ..)
  have hnonneg : ∀ w ∈ row, 0 ≤ w := by
    intro w hw
    have ⟨i, hi, hiw⟩ := List.getElem_of_mem hw
    rw [← hiw, ← List.getD_eq_getElem _ 0 hi, hweight]
    split_ifs with hmem
    · have hlen := (mem_unmasked.mp hmem).1
      rw [List.getD_eq_getElem _ _ hlen]
      exact div_nonneg (hrow.nonneg _ (List.getElem_mem hlen)) hp
    · exact le_rfl
  have hsome : ∃ w ∈ row, 0 < w := by
    cases row with
    | nil => simp at hone
    | cons w ws =>
        rw [List.getD_cons_zero] at hone
        exact ⟨w, List.mem_cons_self .., hone ▸ zero_lt_one⟩
  have hdrawn := hdraw row hnonneg hsome
  rw [hweight] at hdrawn
  split_ifs at hdrawn with hmem
  · have hlt := (mem_unmasked.mp hmem).2.2
    omega
  · exact absurd hdrawn (lt_irrefl 0)

end Weights

variable [IsStrictOrderedRing F]

/-- `_top_p_top_k` truncates every row of probabilities, with any order of ties; and with
`top_k = 1` the token is one of maximal probability, whatever is drawn. -/
theorem topPTopK_isTruncation (hsort : SortsDescending sort) (hdraw : DrawsPositive multinomial)
    (hrow : ProbabilityRow probs) (hp : 0 < topP) (hk : 1 ≤ topK) :
    IsTruncation (sortedRow sort probs) topP topK
        (unmasked (sortedRow sort probs) (.fin topP) topK)
        (topPTopK sort probs (.fin topP) topK).1 ∧
      (topK = 1 →
        (sampleRow sort multinomial probs (.fin topP) topK).1 < probs.length ∧
        ∀ q ∈ probs,
          q ≤ probs.getD (sampleRow sort multinomial probs (.fin topP) topK).1 0) := by
  have hsrow := hrow.sortedRow hsort
  have hsorted := hsort.sorted probs
  cases hcons : sortedRow sort probs with
  | nil => exact absurd hcons hsrow.ne_nil
  | cons p rest =>
      rw [← sortedRow, hcons] at hsorted
      rw [hcons] at hsrow
      have hkept := unmasked_eq_range hsrow.nonneg topP topK
      have hcut := massCut_pos hsrow.nonneg hsrow.ne_nil hp.le
      have hfirst : 0 ∈ unmasked (p :: rest) (.fin topP) topK := by
        rw [hkept, List.mem_range]
        omega
      have hfin : PyNum.lt (.fin topP) (.fin 0) = false := by simpa using hp.le
      have hmax := rowMax_maskedRow hsrow.nonneg hsorted hfin hk
      have hweight := getD_topPTopK hcons hmax
      have hone : (topPTopK sort probs (.fin topP) topK).1.getD 0 0 = 1 := by
        rw [hweight, if_pos hfirst, List.getD_cons_zero, div_self (hsrow.head_pos hsorted).ne']
      constructor
      · constructor
        case kept_eq => exact hkept
        case kept_ne => exact List.ne_nil_of_mem hfirst
        case length_eq => rw [topPTopK, hcons, List.length_map, length_maskedRow]
        case ratio =>
          intro i hi j hj
          rw [hweight, hweight, if_pos hi, if_pos hj]
          ring
        case first => exact hone
        case dropped =>
          intro i hi
          rw [hweight, if_neg hi]
      · intro hk
        have hdrawn := drawn_first hdraw hsrow hone (by simpa only [hk] using hweight)
        exact sampleRow_maximal hsort hcons hsorted hdrawn

end Truncation

section Instances

/-- A stable sort. -/
def sortDescending (xs : List F) : List ℕ :=
  (List.range xs.length).mergeSort fun i j => xs.getD j 0 ≤ xs.getD i 0

theorem sortDescending_sorts : SortsDescending (sortDescending (F := F)) := by
  constructor
  case perm =>
    intro xs
    exact List.mergeSort_perm _ _
  case sorted =>
    intro xs
    rw [List.pairwise_map, sortDescending]
    have htrans : ∀ i j k : ℕ, decide (xs.getD j 0 ≤ xs.getD i 0) = true →
        decide (xs.getD k 0 ≤ xs.getD j 0) = true → decide (xs.getD k 0 ≤ xs.getD i 0) = true := by
      intro i j k hij hjk
      exact decide_eq_true ((of_decide_eq_true hjk).trans (of_decide_eq_true hij))
    have htotal : ∀ i j : ℕ, (decide (xs.getD j 0 ≤ xs.getD i 0) ||
        decide (xs.getD i 0 ≤ xs.getD j 0)) = true := by
      intro i j
      simpa using le_total (xs.getD j 0) (xs.getD i 0)
    exact (List.pairwise_mergeSort htrans htotal _).imp of_decide_eq_true

/-- A draw that always takes the first place it may. -/
theorem findIdx_draws : DrawsPositive fun ws : List F => ws.findIdx (0 < ·) := by
  intro ws _ hpos
  have ⟨w, hw, hwpos⟩ := hpos
  have hlt : ws.findIdx (0 < ·) < ws.length :=
    List.findIdx_lt_length_of_exists ⟨w, hw, by simpa using hwpos⟩
  rw [List.getD_eq_getElem _ _ hlt]
  simpa using List.findIdx_getElem (w := hlt)

end Instances

/-- A row of three tokens, of which the second is the most probable. -/
theorem topPTopK_isTruncation_three :
    IsTruncation (sortedRow sortDescending [1 / 4, 1 / 2, (1 / 4 : ℚ)]) (3 / 5) 1
        (unmasked (sortedRow sortDescending [1 / 4, 1 / 2, (1 / 4 : ℚ)]) (.fin (3 / 5)) 1)
        (topPTopK sortDescending [1 / 4, 1 / 2, (1 / 4 : ℚ)] (.fin (3 / 5)) 1).1 ∧
      (sampleRow sortDescending (fun ws => ws.findIdx (0 < ·)) [1 / 4, 1 / 2, (1 / 4 : ℚ)]
        (.fin (3 / 5)) 1).1 < 3 := by
  have hrow : ProbabilityRow [1 / 4, 1 / 2, (1 / 4 : ℚ)] := ⟨by norm_num, by norm_num⟩
  have hp : (0 : ℚ) < 3 / 5 := by norm_num
  have htruncates := topPTopK_isTruncation sortDescending_sorts findIdx_draws hrow hp
    (le_refl (1 : ℤ))
  exact ⟨htruncates.1, (htruncates.2 rfl).1⟩

end HarvestMoE
