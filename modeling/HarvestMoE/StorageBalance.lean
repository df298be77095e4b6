import Mathlib.Tactic.Linarith
import Mathlib.Tactic.Positivity
import Mathlib.Tactic.FieldSimp
import Mathlib.Tactic.GCongr
import Mathlib.Tactic.LinearCombination
import HarvestMoE.CostModel

/-!
# What the linear program decides

The program of the decode stage comes down to the part `wg` of the experts' weights that
stays on the GPU and the time `T`: weights that stay take room and save loading. The
choices for two numbers of micro-batches mix to one for a number between them, and what
fits, fits with less. The largest part there is room for needs the least time.

## Main definitions

* `Balance` — `wg` and `T` go together.
* `times` — the times that are enough.
* `exactSolver` — a solver.
-/

namespace HarvestMoE

namespace CostModelConfig

variable (c : CostModelConfig) (gbs nb : ℕ)

/-- The time of a micro-batch on the GPU. -/
def gpuTime : ℚ :=
  max (1 / c.gpuFlops * mlpFlops c.h1 c.h2 gbs c.topk)
    (1 / c.gBdw * mlpBytes c.h1 c.h2 gbs c.nExperts)

/-- The time of the attention of a micro-batch on the CPU. -/
def cpuTime : ℚ :=
  max (1 / c.cpuFlops * attentionFlops gbs 1 (c.s + c.n) c.nh c.headDim)
    (1 / c.cBdw * attentionBytes gbs 1 (c.s + c.n) c.nh c.nkvh c.headDim .f16)

/-- GPU memory of the fused kernel. -/
def interBytes : ℚ :=
  2 * (gbs * c.topk * c.h1 * c.tpSize * c.s + gbs * c.topk * 3 * c.h2 * c.s) * 1.2

/-- GPU memory of the weights, and of what the kernel needs. -/
def weightBytes (wg : ℚ) : ℚ :=
  c.wOther + c.wi * c.l * wg + (2 * c.wi * (1 - wg) + c.interBytes gbs)

/-- GPU memory of the hidden states in the decode stage. -/
def decodeBytes : ℚ := 2 * 2 * c.h1 * (gbs * nb) * c.tpSize

/-- GPU memory of the hidden states and of the cache lines in prefill. -/
def prefillBytes : ℚ :=
  c.tpSize * (2 * c.h1 * gbs * 2 * c.s + c.h1 * (gbs * nb) * 2 * c.s) +
    4 * c.s * c.hKv * gbs * 2

/-- CPU memory of the cache and of the hidden states. -/
def hostBytes : ℚ :=
  4 * (c.s + c.n) * c.hKv * (gbs * nb) * c.l + 2 * c.h1 * (gbs * nb) * c.s * c.tpSize

/-- The part `wg` of the experts' weights can stay on the GPU, and `T` is time enough. -/
structure Balance (wg T : ℚ) : Prop where
  wg_nonneg : 0 ≤ wg
  wg_le : wg ≤ 1
  decode_le : c.weightBytes gbs wg + c.decodeBytes gbs nb ≤ c.gmem * 0.86
  prefill_le : c.weightBytes gbs wg + c.prefillBytes gbs nb ≤ c.gmem * 0.86
  host_le : c.wi * (c.l + 2) * (1 - wg) + c.hostBytes gbs nb ≤ c.cmem * 0.8
  ctog_le : 1 / c.ctogBdw * (c.wi * (1 - wg)) ≤ T
  gpuTime_le : c.gpuTime gbs * nb ≤ T
  cpuTime_le : c.cpuTime gbs * nb ≤ T

/-- The program of the decode stage for `nb` micro-batches of `gbs`. -/
def decodeLp : StorageLp := ⟨c, gbs * nb, gbs, .decode⟩

/-- The variables, when `wg` and `T` are chosen. -/
def varsOf (wg T : ℚ) : LpVars where
  T := T
  ctog := 1 / c.ctogBdw * (c.wi * (1 - wg))
  cpuComp := 1 / c.cpuFlops * attentionFlops gbs 1 (c.s + c.n) c.nh c.headDim * nb
  cpuComm := 1 / c.cBdw * attentionBytes gbs 1 (c.s + c.n) c.nh c.nkvh c.headDim .f16 * nb
  gpuCompAttn := 0
  gpuCommAttn := 0
  gpuTAttn := 0
  gpuCompMlp := 1 / c.gpuFlops * mlpFlops c.h1 c.h2 gbs c.topk * nb
  gpuCommMlp := 1 / c.gBdw * mlpBytes c.h1 c.h2 gbs c.nExperts * nb
  gpuTMlp := c.gpuTime gbs * nb
  gpuT := c.gpuTime gbs * nb
  cpuT := c.cpuTime gbs * nb
  wg := wg
  wc := 1 - wg
  cg := 0
  cc := 1
  gpuHome := c.wOther + c.wi * c.l * wg + max (c.decodeBytes gbs nb) (c.prefillBytes gbs nb)
  gpuHomeP := c.wOther + c.wi * c.l * wg + c.prefillBytes gbs nb
  gpuHomeD := c.wOther + c.wi * c.l * wg + c.decodeBytes gbs nb
  gpuW := 2 * c.wi * (1 - wg) + c.interBytes gbs
  inter := c.interBytes gbs
  cpuHome := c.wi * c.l * (1 - wg) + c.hostBytes gbs nb
  cpuW := c.wi * (1 - wg) * 2

variable {c} {gbs nb : ℕ} {wg T : ℚ}

/-- A solution has a `wg` and a `T` that go together. -/
theorem balance_of_feasible (hgbs : 0 < gbs) {v : LpVars} (hv : (c.decodeLp gbs nb).Feasible v) :
    c.Balance gbs nb v.wg v.T := by
  have hdiv : gbs * nb / gbs = nb := Nat.mul_div_cancel_left nb hgbs
  have hnonneg : ∀ x ∈ v.values, 0 ≤ x := hv.lowBound
  have hwg : 0 ≤ v.wg := hnonneg _ (by simp [LpVars.values])
  have hwc : 0 ≤ v.wc := hnonneg _ (by simp [LpVars.values])
  have hattn : 0 ≤ v.gpuTAttn := hnonneg _ (by simp [LpVars.values])
  have hw : v.wc = 1 - v.wg := by linarith [hv.w_eq]
  have hcc := hv.cc_eq
  have hcg := hv.cg_eq
  rcases hv.cpu rfl with ⟨hcomp, hcomm, hcompEq, hcommEq⟩
  have hd := hv.gpuHomeD_eq
  have hp := hv.gpuHomeP_eq
  have hinter := hv.inter_eq
  have hgw := hv.gpuW_eq
  have hch := hv.cpuHome_eq
  have hct := hv.ctog_eq
  have hgcomp := hv.gpuCompMlp_eq
  have hgcomm := hv.gpuCommMlp_eq
  simp only [decodeLp, hdiv, gattn, hcc, hcg, hw, mul_zero, mul_one, add_zero, sub_zero,
    Nat.cast_mul] at hcompEq hcommEq hd hp hinter hgw hch hct hgcomp hgcomm
  have hmlp : c.gpuTime gbs * nb ≤ v.gpuTMlp := by
    rw [gpuTime, max_mul_of_nonneg _ _ (Nat.cast_nonneg nb)]
    exact max_le (hgcomp ▸ hv.gpuCompMlp_le) (hgcomm ▸ hv.gpuCommMlp_le)
  have hcpu : c.cpuTime gbs * nb ≤ v.cpuT := by
    rw [cpuTime, max_mul_of_nonneg _ _ (Nat.cast_nonneg nb)]
    exact max_le (hcompEq ▸ hcomp) (hcommEq ▸ hcomm)
  have hgpu := hv.gpuT_eq
  have hgmem : v.gpuHome + v.gpuW ≤ c.gmem * 0.86 := hv.gmem_le
  have hcmem : v.cpuHome + v.cpuW ≤ c.cmem * 0.8 := hv.cmem_le
  have hcw : v.cpuW = c.wi * (1 - v.wg) * 2 := hv.cpuW_eq
  refine ⟨hwg, by linarith, ?_, ?_, ?_, hct ▸ hv.ctog_le, ?_, hcpu.trans hv.cpuT_le⟩
  · have hhome := hv.gpuHomeD_le
    simp only [weightBytes, decodeBytes, interBytes]
    linarith
  · have hhome := hv.gpuHomeP_le
    simp only [weightBytes, prefillBytes, interBytes]
    linarith
  · simp only [hostBytes]
    linarith
  · linarith [hv.gpuT_le]

section Signs

variable (gbs) (hc : c.Valid)
include hc

theorem mlpFlops_time_nonneg : 0 ≤ 1 / c.gpuFlops * mlpFlops c.h1 c.h2 gbs c.topk := by
  have := hc.gpuFlops_pos
  simp only [mlpFlops]
  positivity

theorem mlpBytes_time_nonneg : 0 ≤ 1 / c.gBdw * mlpBytes c.h1 c.h2 gbs c.nExperts := by
  have := hc.gBdw_pos
  simp only [mlpBytes]
  positivity

theorem attentionFlops_time_nonneg :
    0 ≤ 1 / c.cpuFlops * attentionFlops gbs 1 (c.s + c.n) c.nh c.headDim := by
  have := hc.cpuFlops_pos
  simp only [attentionFlops, headDim]
  positivity

theorem attentionBytes_time_nonneg :
    0 ≤ 1 / c.cBdw * attentionBytes gbs 1 (c.s + c.n) c.nh c.nkvh c.headDim .f16 := by
  have := hc.cBdw_pos
  simp only [attentionBytes, headDim, dtypeSize]
  positivity

end Signs

/-- No variable of such a choice is negative. -/
theorem Balance.varsOf_nonneg (hc : c.Valid) (h : c.Balance gbs nb wg T) :
    ∀ x ∈ (c.varsOf gbs nb wg T).values, 0 ≤ x := by
  have hwg := h.wg_nonneg
  have hwc : 0 ≤ 1 - wg := sub_nonneg.mpr h.wg_le
  have hnb : (0 : ℚ) ≤ nb := Nat.cast_nonneg nb
  have hgpuComp := mlpFlops_time_nonneg gbs hc
  have hgpuComm := mlpBytes_time_nonneg gbs hc
  have hcpuComp := attentionFlops_time_nonneg gbs hc
  have hcpuComm := attentionBytes_time_nonneg gbs hc
  have hgpu : 0 ≤ c.gpuTime gbs * nb := mul_nonneg (hgpuComp.trans (le_max_left _ _)) hnb
  have hcpu : 0 ≤ c.cpuTime gbs * nb := mul_nonneg (hcpuComp.trans (le_max_left _ _)) hnb
  have hctog : 0 ≤ 1 / c.ctogBdw * (c.wi * (1 - wg)) := by
    have := hc.ctogBdw_pos
    positivity
  have hinter : 0 ≤ c.interBytes gbs := by
    simp only [interBytes]
    positivity
  have hdecode : 0 ≤ c.decodeBytes gbs nb := by
    simp only [decodeBytes]
    positivity
  have hprefill : 0 ≤ c.prefillBytes gbs nb := by
    simp only [prefillBytes]
    positivity
  have hhost : 0 ≤ c.hostBytes gbs nb := by
    simp only [hostBytes]
    positivity
  have hhome : 0 ≤ (c.wOther : ℚ) + c.wi * c.l * wg := by positivity
  have hmax := hdecode.trans (le_max_left _ (c.prefillBytes gbs nb))
  simp only [LpVars.values, varsOf, List.forall_mem_cons, List.not_mem_nil, false_imp_iff,
    implies_true, and_true]
  exact ⟨hctog.trans h.ctog_le, hctog, mul_nonneg hcpuComp hnb, mul_nonneg hcpuComm hnb, le_rfl,
    le_rfl, le_rfl, mul_nonneg hgpuComp hnb, mul_nonneg hgpuComm hnb, hgpu, hgpu, hcpu, hwg, hwc,
    le_rfl, zero_le_one, add_nonneg hhome hmax, add_nonneg hhome hprefill,
    add_nonneg hhome hdecode, by positivity, hinter, by positivity, by positivity⟩

/-- Every such choice is that of a solution. -/
theorem Balance.feasible (hgbs : 0 < gbs) (hc : c.Valid) (h : c.Balance gbs nb wg T) :
    (c.decodeLp gbs nb).Feasible (c.varsOf gbs nb wg T) := by
  have hdiv : gbs * nb / gbs = nb := Nat.mul_div_cancel_left nb hgbs
  have hnb : (0 : ℚ) ≤ nb := Nat.cast_nonneg nb
  constructor
  case lowBound => exact h.varsOf_nonneg hc
  case gmem_le =>
    have hd := h.decode_le
    have hp := h.prefill_le
    simp only [weightBytes] at hd hp
    simp only [varsOf, decodeLp]
    rcases max_choice (c.decodeBytes gbs nb) (c.prefillBytes gbs nb) with hmax | hmax
    · rw [hmax]
      linarith
    · rw [hmax]
      linarith
  case cmem_le =>
    have hh := h.host_le
    simp only [varsOf, decodeLp]
    linarith
  case ctog_le => exact h.ctog_le
  case gpuT_le => exact h.gpuTime_le
  case cpuT_le => exact h.cpuTime_le
  case gpuCompMlp_le => exact mul_le_mul_of_nonneg_right (le_max_left _ _) hnb
  case gpuCommMlp_le => exact mul_le_mul_of_nonneg_right (le_max_right _ _) hnb
  case cpu =>
    intro _
    refine ⟨mul_le_mul_of_nonneg_right (le_max_left _ _) hnb,
      mul_le_mul_of_nonneg_right (le_max_right _ _) hnb, ?_, ?_⟩
    · simp only [varsOf, decodeLp, hdiv, gattn, sub_zero, mul_one]
    · simp only [varsOf, decodeLp, hdiv, gattn, sub_zero, mul_one]
  case gpuHomeP_le => exact add_le_add_right (le_max_right _ _) _
  case gpuHomeD_le => exact add_le_add_right (le_max_left _ _) _
  case w_eq => exact add_sub_cancel wg 1
  case gpuT_eq => exact (zero_add _).symm
  case cg_eq | cc_eq | inter_eq | gpuW_eq | cpuW_eq => rfl
  case gpuCompAttn_le | gpuCommAttn_le => exact le_rfl
  case gpuCompMlp_eq | gpuCommMlp_eq => simp only [varsOf, decodeLp, hdiv]
  case gpuCompAttn_eq | gpuCommAttn_eq => simp only [varsOf, gattn, decodeLp, mul_zero]
  case ctog_eq | gpuHomeD_eq | gpuHomeP_eq | cpuHome_eq =>
    simp only [varsOf, decodeLp, gattn, decodeBytes, prefillBytes, hostBytes, Nat.cast_mul]
    ring

/-- The times that are enough. -/
def times (c : CostModelConfig) (gbs nb : ℕ) : Set ℚ := {T | ∃ wg, c.Balance gbs nb wg T}

theorem feasible_iff (hgbs : 0 < gbs) (hc : c.Valid) :
    (∃ v, (c.decodeLp gbs nb).Feasible v) ↔ (c.times gbs nb).Nonempty := by
  constructor
  · intro ⟨v, hv⟩
    exact ⟨v.T, v.wg, balance_of_feasible hgbs hv⟩
  · intro ⟨T, wg, h⟩
    exact ⟨_, h.feasible hgbs hc⟩

/-- **An optimal solution has the least time.** -/
theorem optimal_iff (hgbs : 0 < gbs) (hnb : 0 < nb) (hc : c.Valid) {v : LpVars} :
    (c.decodeLp gbs nb).Optimal v ↔
      (c.decodeLp gbs nb).Feasible v ∧ IsLeast (c.times gbs nb) v.T := by
  have hbls : (0 : ℚ) < 1 / (c.decodeLp gbs nb).bls :=
    one_div_pos.mpr (Nat.cast_pos.mpr (Nat.mul_pos hgbs hnb))
  constructor
  · intro h
    refine ⟨h.feasible, ⟨v.wg, balance_of_feasible hgbs h.feasible⟩, fun T hT => ?_⟩
    rcases hT with ⟨wg, hT⟩
    exact le_of_mul_le_mul_right (h.le _ (hT.feasible hgbs hc)) hbls
  · intro ⟨hv, hleast⟩
    refine ⟨hv, fun w hw => ?_⟩
    exact mul_le_mul_of_nonneg_right (hleast.2 ⟨w.wg, balance_of_feasible hgbs hw⟩) hbls.le

/-- **What fits, fits with fewer and with smaller micro-batches**, in the same time. -/
theorem Balance.mono {gbs' nb' : ℕ} (hc : c.Valid) (h : c.Balance gbs nb wg T) (hgbs : gbs' ≤ gbs)
    (hnb : nb' ≤ nb) : c.Balance gbs' nb' wg T := by
  have hweight : c.weightBytes gbs' wg ≤ c.weightBytes gbs wg := by
    simp only [weightBytes, interBytes]
    gcongr
  have hdecode : c.decodeBytes gbs' nb' ≤ c.decodeBytes gbs nb := by
    simp only [decodeBytes]
    gcongr
  have hprefill : c.prefillBytes gbs' nb' ≤ c.prefillBytes gbs nb := by
    simp only [prefillBytes]
    gcongr
  have hhost : c.hostBytes gbs' nb' ≤ c.hostBytes gbs nb := by
    simp only [hostBytes]
    gcongr
  have hgf := hc.gpuFlops_pos
  have hgb := hc.gBdw_pos
  have hcf := hc.cpuFlops_pos
  have hcb := hc.cBdw_pos
  have hgpu0 : 0 ≤ c.gpuTime gbs := (mlpFlops_time_nonneg gbs hc).trans (le_max_left _ _)
  have hcpu0 : 0 ≤ c.cpuTime gbs := (attentionFlops_time_nonneg gbs hc).trans (le_max_left _ _)
  have hgpu : c.gpuTime gbs' * nb' ≤ c.gpuTime gbs * nb := by
    refine mul_le_mul (max_le_max ?_ ?_) (Nat.cast_le.mpr hnb) (Nat.cast_nonneg _) hgpu0
    · simp only [mlpFlops]
      gcongr
    · simp only [mlpBytes]
      gcongr
  have hcpu : c.cpuTime gbs' * nb' ≤ c.cpuTime gbs * nb := by
    refine mul_le_mul (max_le_max ?_ ?_) (Nat.cast_le.mpr hnb) (Nat.cast_nonneg _) hcpu0
    · simp only [attentionFlops, headDim]
      gcongr
    · simp only [attentionBytes, headDim, dtypeSize]
      gcongr
  exact ⟨h.wg_nonneg, h.wg_le, (add_le_add hweight hdecode).trans h.decode_le,
    (add_le_add hweight hprefill).trans h.prefill_le, (add_le_add_right hhost _).trans h.host_le,
    h.ctog_le, hgpu.trans h.gpuTime_le, hcpu.trans h.cpuTime_le⟩

/-- **Between two numbers of micro-batches, a mixture of what they do is enough.** -/
theorem Balance.mix {a b d : ℕ} {wa wd Ta Td x y : ℚ} (ha : c.Balance gbs a wa Ta)
    (hd : c.Balance gbs d wd Td) (hx : 0 ≤ x) (hy : 0 ≤ y) (hxy : x + y = 1)
    (hb : (b : ℚ) = x * a + y * d) :
    c.Balance gbs b (x * wa + y * wd) (x * Ta + y * Td) := by
  obtain rfl : y = 1 - x := by linarith
  constructor
  case wg_nonneg => exact add_nonneg (mul_nonneg hx ha.wg_nonneg) (mul_nonneg hy hd.wg_nonneg)
  case wg_le => linear_combination x * ha.wg_le + (1 - x) * hd.wg_le
  case decode_le =>
    have h1 := ha.decode_le
    have h2 := hd.decode_le
    simp only [weightBytes, decodeBytes, hb] at h1 h2 ⊢
    linear_combination x * h1 + (1 - x) * h2
  case prefill_le =>
    have h1 := ha.prefill_le
    have h2 := hd.prefill_le
    simp only [weightBytes, prefillBytes, hb] at h1 h2 ⊢
    linear_combination x * h1 + (1 - x) * h2
  case host_le =>
    have h1 := ha.host_le
    have h2 := hd.host_le
    simp only [hostBytes, hb] at h1 h2 ⊢
    linear_combination x * h1 + (1 - x) * h2
  case ctog_le => linear_combination x * ha.ctog_le + (1 - x) * hd.ctog_le
  case gpuTime_le =>
    rw [hb]
    linear_combination x * ha.gpuTime_le + (1 - x) * hd.gpuTime_le
  case cpuTime_le =>
    rw [hb]
    linear_combination x * ha.cpuTime_le + (1 - x) * hd.cpuTime_le

/-- The hidden states alone fill the GPU at some point. -/
theorem Balance.le_gmem (hc : c.Valid) (h : c.Balance gbs nb wg T) : (gbs * nb : ℚ) ≤ c.gmem := by
  have hwg := h.wg_nonneg
  have hwc : 0 ≤ 1 - wg := sub_nonneg.mpr h.wg_le
  have hweight : 0 ≤ c.weightBytes gbs wg := by
    simp only [weightBytes, interBytes]
    positivity
  have hh1 : (1 : ℚ) ≤ c.h1 := Nat.one_le_cast.mpr hc.h1_pos
  have htp : (1 : ℚ) ≤ c.tpSize := Nat.one_le_cast.mpr hc.tpSize_pos
  have hdecode : (gbs * nb : ℚ) ≤ c.decodeBytes gbs nb :=
    calc (gbs * nb : ℚ) = 1 * (gbs * nb) * 1 := by ring
      _ ≤ (2 * 2 * c.h1) * (gbs * nb) * c.tpSize := by gcongr; linarith
  have hle := h.decode_le
  have hpos := hc.gmem_pos
  linarith

theorem Balance.pos (hgbs : 0 < gbs) (hnb : 0 < nb) (hc : c.Valid) (h : c.Balance gbs nb wg T) :
    0 < T := by
  have hflops := hc.gpuFlops_pos
  have hh1 := hc.h1_pos
  have hh2 := hc.h2_pos
  have htopk := hc.topk_pos
  have hgpu : 0 < c.gpuTime gbs := by
    refine lt_of_lt_of_le ?_ (le_max_left _ _)
    simp only [mlpFlops]
    positivity
  exact (mul_pos hgpu (Nat.cast_pos.mpr hnb)).trans_le h.gpuTime_le

/-! ## The solution -/

/-- As much of the experts' weights on the GPU as there is room for. With two layers or
less, all of them take no more room than the two that are loaded. -/
def bestWg (c : CostModelConfig) (gbs nb : ℕ) : ℚ :=
  if c.l ≤ 2 then 1
  else min 1 ((c.gmem * 0.86 - max (c.decodeBytes gbs nb) (c.prefillBytes gbs nb) -
    c.weightBytes gbs 0) / (c.wi * (c.l - 2)))

def bestT (c : CostModelConfig) (gbs nb : ℕ) : ℚ :=
  max (1 / c.ctogBdw * (c.wi * (1 - c.bestWg gbs nb))) (max (c.gpuTime gbs * nb) (c.cpuTime gbs * nb))

theorem wi_pos (hc : c.Valid) : (0 : ℚ) < c.wi := by
  have hh1 := hc.h1_pos
  have hh2 := hc.h2_pos
  have hne := hc.nExperts_pos
  have hwi : 0 < c.wi := by
    simp only [wi]
    positivity
  exact Nat.cast_pos.mpr hwi

theorem weightBytes_eq : c.weightBytes gbs wg = c.weightBytes gbs 0 + c.wi * (c.l - 2) * wg := by
  simp only [weightBytes]
  ring

theorem Balance.le_bestWg (hc : c.Valid) (h : c.Balance gbs nb wg T) : wg ≤ c.bestWg gbs nb := by
  have hwi := wi_pos hc
  rw [bestWg]
  split_ifs with hl
  · exact h.wg_le
  · have hl' : (0 : ℚ) < c.l - 2 := sub_pos.mpr (by exact_mod_cast not_le.mp hl)
    have hd := h.decode_le
    have hp := h.prefill_le
    rw [weightBytes_eq] at hd hp
    refine le_min h.wg_le ((le_div_iff₀ (mul_pos hwi hl')).mpr ?_)
    rcases max_choice (c.decodeBytes gbs nb) (c.prefillBytes gbs nb) with hmax | hmax
    · rw [hmax]
      linarith
    · rw [hmax]
      linarith

/-- What fits for some `wg` fits for the best one. -/
theorem weightBytes_bestWg_le (hc : c.Valid) (h : c.Balance gbs nb wg T) :
    c.weightBytes gbs (c.bestWg gbs nb) + max (c.decodeBytes gbs nb) (c.prefillBytes gbs nb) ≤
      c.gmem * 0.86 := by
  have hwi := wi_pos hc
  have hroom : c.weightBytes gbs wg + max (c.decodeBytes gbs nb) (c.prefillBytes gbs nb) ≤
      c.gmem * 0.86 := by
    rcases max_choice (c.decodeBytes gbs nb) (c.prefillBytes gbs nb) with hmax | hmax
    · rw [hmax]
      exact h.decode_le
    · rw [hmax]
      exact h.prefill_le
  rw [bestWg]
  split_ifs with hl
  · have hl' : (c.l : ℚ) - 2 ≤ 0 := sub_nonpos.mpr (by exact_mod_cast hl)
    have hle : c.wi * (c.l - 2) * 1 ≤ c.wi * (c.l - 2) * wg :=
      mul_le_mul_of_nonpos_left h.wg_le (mul_nonpos_of_nonneg_of_nonpos hwi.le hl')
    rw [weightBytes_eq] at hroom ⊢
    linarith
  · have hl' : (0 : ℚ) < c.l - 2 := sub_pos.mpr (by exact_mod_cast not_le.mp hl)
    have hle := (le_div_iff₀ (mul_pos hwi hl')).mp (min_le_right 1
      ((c.gmem * 0.86 - max (c.decodeBytes gbs nb) (c.prefillBytes gbs nb) -
        c.weightBytes gbs 0) / (c.wi * (c.l - 2))))
    rw [weightBytes_eq]
    linarith

/-- **The largest part on the GPU needs the least time.** -/
theorem Balance.best (hc : c.Valid) (h : c.Balance gbs nb wg T) :
    c.Balance gbs nb (c.bestWg gbs nb) (c.bestT gbs nb) ∧ c.bestT gbs nb ≤ T := by
  have hwi := wi_pos hc
  have hctog := hc.ctogBdw_pos
  have hwg := h.le_bestWg hc
  have hroom := weightBytes_bestWg_le hc h
  constructor
  · constructor
    case wg_nonneg => exact h.wg_nonneg.trans hwg
    case wg_le =>
      rw [bestWg]
      split_ifs
      · exact le_rfl
      · exact min_le_left _ _
    case decode_le => exact (add_le_add_right (le_max_left _ _) _).trans hroom
    case prefill_le => exact (add_le_add_right (le_max_right _ _) _).trans hroom
    case host_le =>
      refine le_trans ?_ h.host_le
      gcongr
    case ctog_le => exact le_max_left _ _
    case gpuTime_le => exact (le_max_left _ _).trans (le_max_right _ _)
    case cpuTime_le => exact (le_max_right _ _).trans (le_max_right _ _)
  · refine max_le (le_trans ?_ h.ctog_le) (max_le h.gpuTime_le h.cpuTime_le)
    gcongr

theorem isLeast_bestT (hc : c.Valid) (h : (c.times gbs nb).Nonempty) :
    IsLeast (c.times gbs nb) (c.bestT gbs nb) := by
  rcases h with ⟨T, wg, hT⟩
  refine ⟨⟨_, (hT.best hc).1⟩, fun T' hT' => ?_⟩
  rcases hT' with ⟨wg', hT'⟩
  exact (hT'.best hc).2

instance : Decidable (c.Balance gbs nb wg T) :=
  decidable_of_iff (0 ≤ wg ∧ wg ≤ 1 ∧
      c.weightBytes gbs wg + c.decodeBytes gbs nb ≤ c.gmem * 0.86 ∧
      c.weightBytes gbs wg + c.prefillBytes gbs nb ≤ c.gmem * 0.86 ∧
      c.wi * (c.l + 2) * (1 - wg) + c.hostBytes gbs nb ≤ c.cmem * 0.8 ∧
      1 / c.ctogBdw * (c.wi * (1 - wg)) ≤ T ∧ c.gpuTime gbs * nb ≤ T ∧ c.cpuTime gbs * nb ≤ T)
    ⟨fun ⟨h1, h2, h3, h4, h5, h6, h7, h8⟩ => ⟨h1, h2, h3, h4, h5, h6, h7, h8⟩,
      fun ⟨h1, h2, h3, h4, h5, h6, h7, h8⟩ => ⟨h1, h2, h3, h4, h5, h6, h7, h8⟩⟩

end CostModelConfig

/-- A solver of the programs of the decode stage. -/
def exactSolver : LpSolver := fun lp =>
  let nb := lp.bls / lp.gbs
  let wg := lp.config.bestWg lp.gbs nb
  let T := lp.config.bestT lp.gbs nb
  (if lp.config.Balance lp.gbs nb wg T then 1 else -1, lp.config.varsOf lp.gbs nb wg T)

theorem exactSolver_ok {c : CostModelConfig} {gbs nb : ℕ} (hc : c.Valid) (hgbs : 0 < gbs)
    (hnb : 0 < nb) : SolverOk exactSolver (c.decodeLp gbs nb) := by
  have hdiv : (c.decodeLp gbs nb).bls / (c.decodeLp gbs nb).gbs = nb :=
    Nat.mul_div_cancel_left nb hgbs
  simp only [SolverOk, exactSolver, hdiv]
  by_cases h : c.Balance gbs nb (c.bestWg gbs nb) (c.bestT gbs nb)
  · exact Or.inl ⟨if_pos h, (CostModelConfig.optimal_iff hgbs hnb hc).mpr
      ⟨h.feasible hgbs hc, CostModelConfig.isLeast_bestT hc ⟨_, _, h⟩⟩⟩
  · refine Or.inr ⟨if_neg h, fun v hv => h ?_⟩
    exact ((CostModelConfig.balance_of_feasible hgbs hv).best hc).1

end HarvestMoE
