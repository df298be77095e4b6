import HarvestMoE.ExpertContents

/-!
# What the answer of a move tells

A move answers with a flag. `False` should mean that nothing has moved, and `True` that
the weights are in place. The handlers turn whatever is raised into `False`, also what is
raised after the tracker has been updated, and they restore nothing. And the weights come
from the buffer of the expert, which only a move to the CPU fills: an expert that never was
on the GPU has none, and `torch.randn` stands in for its weights.

## Main definitions

* `FailsQuietly` — a failed move leaves the tracker and the mapping.
* `MoveEnv.FailsLate` — torch raises after the update of the tracker.
* `InstallsWeights` — a successful move to the GPU puts the weights into the slot.
* `DrawsWeights` — what `torch.randn` draws for the expert happens to be its weights.
-/

namespace HarvestMoE

open Lib

variable {cfg : EngineConfig} {α : Type*}

section Failure

/-- A failed move leaves the tracker entry and the mapping entry of every expert. -/
def FailsQuietly (s : MoverState cfg α) (r : MoverState cfg α × MoveResult) : Prop :=
  r.2.1 = false → ∀ l e,
    r.1.tracker.layers l e = s.tracker.layers l e ∧ r.1.expertsMapping l e = s.expertsMapping l e

/-- The write of the mapping raises, or leaving the device context does. -/
def MoveEnv.FailsLate (env : MoveEnv α) : Prop :=
  env.fails .writeMapping ≠ none ∨ env.fails .exitDevice ≠ none

variable {env : MoveEnv α} {s : MoverState cfg α} {l e slot : ℕ}
  {r : MoverState cfg α × MoveResult}

theorem MoveEnv.not_failsLate :
    ¬ env.FailsLate ↔ env.fails .writeMapping = none ∧ env.fails .exitDevice = none := by
  simp only [MoveEnv.FailsLate, not_or, not_not]

/-- A move that records the new place and then raises has failed with a trace. -/
theorem failsQuietly_iff_of_recorded {recorded : Prop}
    (hok : r.2.1 = true ↔ recorded ∧ env.fails .writeMapping = none ∧ env.fails .exitDevice = none)
    (hmoved : recorded → r.1.tracker.layers l e ≠ s.tracker.layers l e)
    (hsame : ¬ recorded → r.1.tracker = s.tracker ∧ r.1.expertsMapping = s.expertsMapping) :
    FailsQuietly s r ↔ ¬ (recorded ∧ env.FailsLate) := by
  constructor
  · intro hquiet hlate
    have hfail : r.2.1 = false := by
      rw [← Bool.not_eq_true, hok]
      intro hsucceeded
      exact MoveEnv.not_failsLate.mpr hsucceeded.2 hlate.2
    exact hmoved hlate.1 (hquiet hfail l e).1
  · intro hnot hfail a b
    have hrecorded : ¬ recorded := by
      intro hrecorded
      have hsucceeded := hok.mpr
        ⟨hrecorded, MoveEnv.not_failsLate.mp fun hlate => hnot ⟨hrecorded, hlate⟩⟩
      rw [hsucceeded] at hfail
      exact absurd hfail (by simp)
    rw [(hsame hrecorded).1, (hsame hrecorded).2]
    exact ⟨rfl, rfl⟩

theorem ToGpuEffect.failsQuietly_iff {device : ℤ} (heff : ToGpuEffect env s l e slot device r)
    (hadm : GpuAdmits cfg s.tracker l e slot) :
    FailsQuietly s r ↔ ¬ (env.Tracks s l e ∧ env.FailsLate) := by
  apply failsQuietly_iff_of_recorded heff.succeeded_iff
  · intro htracks hentry
    -- The entry says that the expert is on the GPU, and the guard says that it was not.
    have hnone : s.tracker.slotOf l e = none := (canMoveToGpu_eq_none.mp hadm.1).2.1
    rw [ExpertTracker.slotOf_eq_none, ← hentry, heff.tracker_eq, if_pos htracks] at hnone
    simp at hnone
  · intro hnot
    rw [heff.tracker_eq, if_neg hnot, heff.mapping_eq, if_neg fun h => hnot h.1]
    exact ⟨rfl, rfl⟩

theorem ToCpuEffect.failsQuietly_iff (heff : ToCpuEffect env s l e slot r)
    (hadm : CpuAdmits s.tracker l e slot) :
    FailsQuietly s r ↔
      ¬ ((env.fails .synchronize = none ∧ cfg.expertRows ≠ 0 ∧ env.Tracks s l e) ∧
        env.FailsLate) := by
  apply failsQuietly_iff_of_recorded heff.succeeded_iff
  · intro htracks hentry
    have hgpu := (ExpertTracker.slotOf_eq_some.mp hadm.2).1
    rw [← hentry, heff.tracker_eq, if_pos htracks] at hgpu
    simp at hgpu
  · intro hnot
    rw [heff.tracker_eq, if_neg hnot, heff.mapping_eq, if_neg fun h => hnot h.1]
    exact ⟨rfl, rfl⟩

/-- A refused move leaves everything. -/
theorem FailsQuietly.of_same (h : r.1 = s) : FailsQuietly s r := by
  intro _ a b
  rw [h]
  exact ⟨rfl, rfl⟩

/-- A failed move shows nothing unless torch raises after the tracker has been updated. -/
theorem move_failsQuietly_iff (env : MoveEnv α) (s : MoverState cfg α) (layerId expertId : ℤ)
    (target : Option ℤ) :
    (FailsQuietly s (moveExpertToGpu env s layerId expertId target) ↔
      ∀ l e slot : ℕ, layerId = l → expertId = e → GpuAdmits cfg s.tracker l e slot →
        ¬ (env.Tracks s l e ∧ env.FailsLate)) ∧
    (FailsQuietly s (moveExpertToCpu env s layerId expertId) ↔
      ∀ l e slot : ℕ, layerId = l → expertId = e → CpuAdmits s.tracker l e slot →
        ¬ ((env.fails .synchronize = none ∧ cfg.expertRows ≠ 0 ∧ env.Tracks s l e) ∧
          env.FailsLate)) := by
  constructor
  · rcases moveExpertToGpu_cases env s layerId expertId target with
      ⟨l, e, slot, rfl, rfl, hadm, heff⟩ | ⟨hrefused, hsame, -⟩
    · rw [heff.failsQuietly_iff hadm]
      constructor
      · intro hnot l' e' slot' hl he _
        obtain rfl : l = l' := by exact_mod_cast hl
        obtain rfl : e = e' := by exact_mod_cast he
        exact hnot
      · intro hall
        exact hall l e slot rfl rfl hadm
    · exact iff_of_true (.of_same hsame)
        fun l e slot hl he hadm => absurd hadm (hrefused l e slot hl he)
  · rcases moveExpertToCpu_cases env s layerId expertId with
      ⟨l, e, slot, rfl, rfl, hadm, heff⟩ | ⟨hrefused, hsame, -⟩
    · rw [heff.failsQuietly_iff hadm]
      constructor
      · intro hnot l' e' slot' hl he _
        obtain rfl : l = l' := by exact_mod_cast hl
        obtain rfl : e = e' := by exact_mod_cast he
        exact hnot
      · intro hall
        exact hall l e slot rfl rfl hadm
    · exact iff_of_true (.of_same hsame)
        fun l e slot hl he hadm => absurd hadm (hrefused l e slot hl he)

/-- The write of the mapping raises: the move to the CPU has failed, and the expert is
tracked there. -/
theorem move_failsQuietly_fails :
    ¬ ∀ env : MoveEnv ℕ, FailsQuietly
      (.start (EngineConfig.small 3 (by decide))
        ⟨fun _ => 0, fun _ => 0, fun _ => 0, 0, 0, fun _ => none⟩)
      (moveExpertToCpu env
        (.start (EngineConfig.small 3 (by decide))
          ⟨fun _ => 0, fun _ => 0, fun _ => 0, 0, 0, fun _ => none⟩) 0 0) := by
  intro h
  have hquiet := h ⟨fun step => if step = .writeMapping then some ⟨.other, "CUDA error"⟩ else none,
    fun _ => 0, fun _ => 0⟩
  have hentry := (hquiet (by decide +kernel) 0 0).1
  exact absurd hentry (by decide +kernel)

end Failure

section Success

variable (mem : ℕ → ℕ → α) (l e : ℕ) (s : MoverState cfg α)

/-- A move of expert `e` of layer `l` to the GPU that answers `True` has put the weights
into the slot it took. -/
def InstallsWeights : MoverCall α → Prop
  | .moveExpertToGpu layerId expertId target env => layerId = l → expertId = e →
      (moveExpertToGpu env s layerId expertId target).2.1 = true → ∀ q, q < cfg.expertRows →
        (moveExpertToGpu env s layerId expertId target).1.weights.expertsCache
          (((moveExpertToGpu env s layerId expertId target).1.tracker.layers l e).cacheSlot.toNat *
            cfg.expertRows + q) = expertRowsOf cfg mem l e q
  | _ => True

/-- When a move gets as far as the tracker with an expert that did not start on the GPU and
has no buffer, `torch.randn` has drawn the weights. -/
def DrawsWeights : MoverCall α → Prop
  | .moveExpertToGpu layerId expertId _ env => layerId = l → expertId = e →
      cfg.numExpertsGpu ≤ e → s.cpuExpertStorage (storageKey l e) = none →
      (∃ slot, GpuAdmits cfg s.tracker l e slot) → env.Tracks s l e →
        ∀ q, q < cfg.expertRows → env.fresh q = expertRowsOf cfg mem l e q
  | _ => True

/-- The move raises nothing after the update of the tracker. -/
def MoverCall.NotLate : MoverCall α → Prop
  | .moveExpertToGpu _ _ _ env => ¬ env.FailsLate
  | _ => True

variable {mem l e s}

/-- A move to the GPU that is tracked has copied its source into the slot. -/
theorem moveExpertToGpu_copied {env : MoveEnv α} {slot : ℕ} {source : CpuTensor cfg α}
    (hadm : GpuAdmits cfg s.tracker l e slot) (htracks : env.Tracks s l e)
    (hget : getExpertWeightsFromCpu env s l e = some source) (target : Option ℤ) {q : ℕ}
    (hq : q < cfg.expertRows) :
    (moveExpertToGpu env s l e target).1.weights.expertsCache (slot * cfg.expertRows + q) =
      source.row q := by
  have hloc := ExpertTracker.getExpertLocation_natCast (canMoveToGpu_eq_none.mp hadm.1).1
  have hmove : moveExpertToGpu env s l e target =
      withDevice env s (toGpuBody env s l e slot (target.getD 0)) := by
    simp [moveExpertToGpu, hadm.1, hloc, hadm.2]
  have hbody : (toGpuBody env s l e slot (target.getD 0)).1.weights.expertsCache =
      copyRows s.weights.expertsCache (slot * cfg.expertRows) source.row 0 cfg.expertRows := by
    cases hwrite : env.fails .writeMapping <;>
      simp [toGpuBody, hget, source.size_eq, htracks.2.2.1, htracks.2.2.2, hwrite,
        MoverState.copyToSlot]
  have hrow : copyRows s.weights.expertsCache (slot * cfg.expertRows) source.row 0
      cfg.expertRows (slot * cfg.expertRows + q) = source.row (0 + q) := copyRows_add hq
  rw [hmove, withDevice_fst _ htracks.1, hbody, hrow, Nat.zero_add]

/-- An expert without a buffer is moved with what `torch.randn` draws. -/
theorem getExpertWeightsFromCpu_of_none {env : MoveEnv α} (htracks : env.Tracks s l e)
    (hstored : s.cpuExpertStorage (storageKey l e) = none) :
    getExpertWeightsFromCpu env s l e = some env.freshTensor := by
  have hsource := htracks.2.1
  rw [hstored] at hsource
  have hprovide : env.fails .provide = none := by simpa using hsource
  simp [getExpertWeightsFromCpu, hstored, hprovide]

/-- What a tracked move of the expert brings are its weights, if those of the expert are
where the tracker says and a draw is right. -/
theorem DrawsWeights.brings {env : MoveEnv α} {slot : ℕ} {target : Option ℤ}
    (hplaced : Placed cfg s.tracker) (hcontents : ContentsKept mem s)
    (hrows : RowsKept mem (fun a b => a = l ∧ b = e) s)
    (hdraws : DrawsWeights mem l e s (.moveExpertToGpu l e target env))
    (hadm : GpuAdmits cfg s.tracker l e slot) (htracks : env.Tracks s l e) {q : ℕ}
    (hq : q < cfg.expertRows) :
    (moveExpertToGpu env s l e target).1.weights.expertsCache (slot * cfg.expertRows + q) =
      expertRowsOf cfg mem l e q := by
  have ⟨hl, he, hnone, _, _⟩ := hplaced.slot_of_admits hadm
  have hcpu := (hplaced.off_gpu l e hl he hnone).1
  cases hstored : s.cpuExpertStorage (storageKey l e) with
  | some tensor =>
      have hget : getExpertWeightsFromCpu env s l e = some tensor := by
        simp [getExpertWeightsFromCpu, hstored]
      rw [moveExpertToGpu_copied hadm htracks hget target hq]
      exact hrows.cpu l e hl ⟨rfl, rfl⟩ hcpu tensor hstored q hq
  | none =>
      -- An expert that started on the GPU has a buffer, so this one did not.
      have hG : cfg.numExpertsGpu ≤ e := by
        by_contra hlt
        have hsome := (contentsKept_iff.mp hcontents).2 l e hl (by omega) hcpu
        rw [hstored] at hsome
        simp at hsome
      rw [moveExpertToGpu_copied hadm htracks (getExpertWeightsFromCpu_of_none htracks hstored)
        target hq]
      exact hdraws rfl rfl hG hstored ⟨slot, hadm⟩ htracks q hq

/-- The invariant of a run whose draws are right. -/
structure Installed (mem : ℕ → ℕ → α) (l e : ℕ) (s : MoverState cfg α) : Prop where
  placed : Placed cfg s.tracker
  contents : ContentsKept mem s
  rows : RowsKept mem (fun a b => a = l ∧ b = e) s

theorem Installed.step (h : Installed mem l e s) {c : MoverCall α}
    (hdraws : DrawsWeights mem l e s c) : Installed mem l e (moverStep s c) := by
  refine ⟨moverStep_placed h.placed c, moverStep_contentsKept h.placed h.contents c, ?_⟩
  cases c with
  | moveExpertToGpu layerId expertId target env =>
      rcases moveExpertToGpu_cases env s layerId expertId target with
        ⟨a, b, slot, rfl, rfl, hadm, heff⟩ | ⟨-, hsame, -⟩
      · apply heff.rowsKept h.placed hadm ?_ h.rows
        intro hab htracks q hq
        obtain ⟨rfl, rfl⟩ := hab
        exact hdraws.brings h.placed h.contents h.rows hadm htracks hq
      · rw [moverStep, hsame]
        exact h.rows
  | moveExpertToCpu layerId expertId env =>
      rcases moveExpertToCpu_cases env s layerId expertId with
        ⟨a, b, slot, rfl, rfl, hadm, heff⟩ | ⟨-, hsame, -⟩
      · exact heff.rowsKept h.placed hadm h.rows
      · rw [moverStep, hsame]
        exact h.rows
  | engine numMb call => exact h.rows.engine h.placed numMb call
  | newBatch => exact ⟨h.rows.gpu, h.rows.cpu⟩
  | reset => exact ⟨h.rows.gpu, h.rows.cpu⟩

/-- A move whose draw is right installs the weights. -/
theorem Installed.installsWeights (h : Installed mem l e s) {c : MoverCall α}
    (hdraws : DrawsWeights mem l e s c) : InstallsWeights mem l e s c := by
  cases c with
  | moveExpertToGpu layerId expertId target env =>
      intro hl he hok q hq
      subst hl he
      rcases moveExpertToGpu_cases env s l e target with
        ⟨a, b, slot, ha, hb, hadm, heff⟩ | ⟨-, -, hfail⟩
      · obtain rfl : l = a := by exact_mod_cast ha
        obtain rfl : e = b := by exact_mod_cast hb
        have htracks := (heff.succeeded_iff.mp hok).1
        rw [heff.tracker_eq, if_pos htracks]
        simp only [put_self, Int.toNat_natCast]
        exact hdraws.brings h.placed h.contents h.rows hadm htracks hq
      · rw [hok] at hfail
        exact absurd hfail (by simp)
  | _ => trivial

/-- A move that installs the weights, and raises nothing late, has drawn them if it has
drawn anything. -/
theorem InstallsWeights.drawsWeights {c : MoverCall α} (h : InstallsWeights mem l e s c)
    (hlate : c.NotLate) : DrawsWeights mem l e s c := by
  cases c with
  | moveExpertToGpu layerId expertId target env =>
      intro hl he _ hstored hslot htracks q hq
      subst hl he
      have ⟨slot, hadm⟩ := hslot
      rcases moveExpertToGpu_cases env s l e target with
        ⟨a, b, slot', ha, hb, hadm', heff⟩ | ⟨hrefused, -, -⟩
      · obtain rfl : l = a := by exact_mod_cast ha
        obtain rfl : e = b := by exact_mod_cast hb
        have hok := heff.succeeded_iff.mpr ⟨htracks, MoveEnv.not_failsLate.mp hlate⟩
        have hrow := h rfl rfl hok q hq
        rw [heff.tracker_eq, if_pos htracks] at hrow
        simp only [put_self, Int.toNat_natCast] at hrow
        rw [← hrow, moveExpertToGpu_copied hadm' htracks
          (getExpertWeightsFromCpu_of_none htracks hstored) target hq]
        rfl
      · exact absurd hadm (hrefused l e slot rfl rfl)
  | _ => trivial

theorem installed_start (mem : ℕ → ℕ → α) (l e : ℕ) (cache cold pin : ℕ → α) :
    Installed mem l e (MoverState.start cfg
      ⟨initGpuExperts cfg mem cache, cold, pin, 0, 0, fun _ => none⟩) := by
  refine ⟨Placed.start cfg, contentsKept_start mem cache cold pin, ⟨?_, ?_⟩⟩
  · intro a b ha _ hgpu q hq
    have hb : b < cfg.numExpertsGpu := by
      have hslot := ExpertTracker.slotOf_of_gpu hgpu
      simp only [MoverState.start, Placed.slotOf_initExpertTracker] at hslot
      by_contra hnot
      simp [hnot] at hslot
    exact (contentsKept_start mem cache cold pin).gpu a b ha hb hgpu q hq
  · intro a b _ _ _ tensor htensor
    simp [MoverState.start] at htensor

end Success

/-- In a run whose draws are right, every successful move of an expert to the GPU installs
its weights; and when no move raises late, in no other run. -/
theorem moverRun_installsWeights (cfg : EngineConfig) (mem : ℕ → ℕ → α) (cache cold pin : ℕ → α)
    (calls : List (MoverCall α)) (l e : ℕ) :
    let s := MoverState.start cfg ⟨initGpuExperts cfg mem cache, cold, pin, 0, 0, fun _ => none⟩
    (EachStep moverStep (DrawsWeights mem l e) s calls →
      EachStep moverStep (InstallsWeights mem l e) s calls) ∧
    ((∀ c ∈ calls, c.NotLate) → EachStep moverStep (InstallsWeights mem l e) s calls →
      EachStep moverStep (DrawsWeights mem l e) s calls) := by
  intro s
  have hstart : Installed mem l e s := installed_start mem l e cache cold pin
  constructor
  · intro hdraws
    apply hdraws.imp hstart
    · exact fun _ _ _ h hc => h.step hc
    · exact fun _ _ _ h hc => h.installsWeights hc
  · intro hlate hinstalls
    apply hinstalls.imp hstart
    · exact fun _ c hc h hi => h.step (hi.drawsWeights (hlate c hc))
    · exact fun _ c hc _ hi => hi.drawsWeights (hlate c hc)

/-- Expert 0 of layer 0 makes room, and expert 1, which never was on the GPU, arrives as
zeros while its weights are ones. -/
theorem moverRun_installsWeights_fails :
    ¬ ∀ calls : List (MoverCall ℕ), EachStep moverStep (InstallsWeights (fun _ _ => 1) 0 1)
      (.start (EngineConfig.small 3 (by decide))
        ⟨initGpuExperts (EngineConfig.small 3 (by decide)) (fun _ _ => 1) fun _ => 0,
          fun _ => 0, fun _ => 0, 0, 0, fun _ => none⟩) calls := by
  intro h
  have hinstalls := (h [.moveExpertToCpu 0 0 (.calm fun _ => 0),
    .moveExpertToGpu 0 1 none (.calm fun _ => 0)]).2.1
  have hrow := hinstalls rfl rfl (by decide +kernel) 0 (by decide)
  exact absurd hrow (by decide +kernel)

end HarvestMoE
