import HarvestMoE.SlotOwnership

/-!
# The rows the kernel reads

The fused kernel multiplies `experts_mapping[l][e]` with the stride of the expert cache
and loads from there, without a check. `init_gpu_experts` writes a mapping that is sound;
a move to the GPU writes the row of the slot it took, which keeps it sound unless another
entry still names that row; a move to the CPU writes a negative number.

## Main definitions

* `MappingSound` — every entry is a row of the cache, and no two of a layer are the same.
* `KeepsMapping` — the calls that leave a sound mapping sound.
-/

namespace HarvestMoE

open Lib

variable {cfg : EngineConfig} {α : Type*}

/-- Every entry is a row of the expert cache, and a layer names no row twice. -/
def MappingSound (s : MoverState cfg α) : Prop :=
  ∀ l, l < cfg.numHiddenLayers →
    (∀ e, e < cfg.numLocalExperts →
      0 ≤ s.expertsMapping l e ∧ s.expertsMapping l e < cfg.expertsPoolSize) ∧
    ∀ e e', e < cfg.numLocalExperts → e' < cfg.numLocalExperts →
      s.expertsMapping l e = s.expertsMapping l e' → e = e'

/-- A move to the CPU does not get to write the mapping, and a move to the GPU that does
takes a slot that no other entry of the layer names. -/
def KeepsMapping (s : MoverState cfg α) : MoverCall α → Prop
  | .moveExpertToGpu layerId expertId _ env => ∀ l e slot : ℕ, layerId = l → expertId = e →
      GpuAdmits cfg s.tracker l e slot → env.Tracks s l e → env.fails .writeMapping = none →
        ∀ e', e' < cfg.numLocalExperts → e' ≠ e → s.expertsMapping l e' ≠ slot
  | .moveExpertToCpu layerId expertId env => ∀ l e slot : ℕ, layerId = l → expertId = e →
      CpuAdmits s.tracker l e slot → env.fails .synchronize = none → cfg.expertRows ≠ 0 →
        env.Tracks s l e → env.fails .writeMapping ≠ none
  | _ => True

section Start

/-- The page rows of a layer follow the persistent rows of all. -/
theorem initExpertsMapping_bounds {l e : ℕ} (hl : l < cfg.numHiddenLayers)
    (he : e < cfg.numLocalExperts) :
    ∃ row : ℕ, initExpertsMapping cfg l e = row ∧ row < cfg.expertsPoolSize ∧
      (e < cfg.numExpertsGpu → row = l * cfg.numExpertsGpu + e) ∧
      (cfg.numExpertsGpu ≤ e → row = cfg.numHiddenLayers * cfg.numExpertsGpu +
        (l % 2) * cfg.pageSize + (e - cfg.numExpertsGpu)) := by
  have hE := cfg.numExpertsGpu_add_pageSize
  rcases Nat.lt_or_ge e cfg.numExpertsGpu with hG | hG
  · refine ⟨_, initExpertsMapping_gpu hG, ?_, fun _ => rfl, fun h => by omega⟩
    have hrow : (l + 1) * cfg.numExpertsGpu ≤ cfg.numHiddenLayers * cfg.numExpertsGpu :=
      Nat.mul_le_mul_right _ hl
    rw [Nat.add_mul, Nat.one_mul] at hrow
    simp only [EngineConfig.expertsPoolSize]
    omega
  · obtain ⟨t, rfl⟩ := Nat.exists_eq_add_of_le hG
    have ht : t < cfg.pageSize := by omega
    refine ⟨_, initExpertsMapping_page ht, ?_, fun h => by omega, fun _ => by omega⟩
    have hpage : (l % 2) * cfg.pageSize ≤ 1 * cfg.pageSize := Nat.mul_le_mul_right _ (by omega)
    simp only [EngineConfig.expertsPoolSize]
    omega

theorem mappingSound_start (weights : WeightState α) :
    MappingSound (MoverState.start cfg weights) := by
  intro l hl
  constructor
  · intro e he
    obtain ⟨row, hrow, hlt, -⟩ := initExpertsMapping_bounds hl he
    simp only [MoverState.start, hrow]
    omega
  · intro e e' he he' heq
    obtain ⟨row, hrow, -, hgpu, hpage⟩ := initExpertsMapping_bounds hl he
    obtain ⟨row', hrow', -, hgpu', hpage'⟩ := initExpertsMapping_bounds hl he'
    simp only [MoverState.start, hrow, hrow', Nat.cast_inj] at heq
    have hlayer : (l + 1) * cfg.numExpertsGpu ≤ cfg.numHiddenLayers * cfg.numExpertsGpu :=
      Nat.mul_le_mul_right _ hl
    rw [Nat.add_mul, Nat.one_mul] at hlayer
    -- The two kinds of rows do not meet: persistent rows end where the pages begin.
    rcases Nat.lt_or_ge e cfg.numExpertsGpu with hG | hG <;>
      rcases Nat.lt_or_ge e' cfg.numExpertsGpu with hG' | hG'
    · have := hgpu hG
      have := hgpu' hG'
      omega
    · have := hgpu hG
      have := hpage' hG'
      omega
    · have := hpage hG
      have := hgpu' hG'
      omega
    · have := hpage hG
      have := hpage' hG'
      omega

end Start

section Step

variable {s : MoverState cfg α}

/-- A slot of a layer is a row of the cache. -/
theorem lt_pool_of_mem {l : ℕ} {k : ℤ} (hl : l < cfg.numHiddenLayers) (h : k ∈ layerSlots cfg l) :
    0 ≤ k ∧ k < cfg.expertsPoolSize := by
  obtain ⟨i, hi, rfl⟩ := mem_layerSlots.mp h
  have hrow : (l + 1) * cfg.numExpertsGpu ≤ cfg.numHiddenLayers * cfg.numExpertsGpu :=
    Nat.mul_le_mul_right _ hl
  rw [Nat.add_mul, Nat.one_mul] at hrow
  simp only [EngineConfig.expertsPoolSize]
  omega

/-- Writing a row into an entry keeps the mapping sound when no other entry of the layer
names the row. -/
theorem mappingSound_put_iff {t : MoverState cfg α} (h : MappingSound s) {l e : ℕ} {k : ℤ}
    (hl : l < cfg.numHiddenLayers) (he : e < cfg.numLocalExperts) (hk : 0 ≤ k)
    (hk' : k < cfg.expertsPoolSize) (ht : t.expertsMapping = put s.expertsMapping l e k) :
    MappingSound t ↔ ∀ e', e' < cfg.numLocalExperts → e' ≠ e → s.expertsMapping l e' ≠ k := by
  constructor
  · intro hsound e' he' hne heq
    refine hne ((hsound l hl).2 e' e he' he ?_)
    rw [ht, put_self, put_of_ne (fun h => hne h.2), heq]
  · intro hfree a ha
    by_cases hal : a = l
    · subst hal
      rw [ht, put_row]
      constructor
      · intro b hb
        by_cases hbe : b = e
        · subst hbe
          rw [Function.update_self]
          exact ⟨hk, hk'⟩
        · rw [Function.update_of_ne hbe]
          exact (h a ha).1 b hb
      · intro b c hb hc hbc
        by_cases hbe : b = e <;> by_cases hce : c = e
        · rw [hbe, hce]
        · subst hbe
          rw [Function.update_self, Function.update_of_ne hce] at hbc
          exact absurd hbc.symm (hfree c hc hce)
        · subst hce
          rw [Function.update_self, Function.update_of_ne hbe] at hbc
          exact absurd hbc (hfree b hb hbe)
        · rw [Function.update_of_ne hbe, Function.update_of_ne hce] at hbc
          exact (h a ha).2 b c hb hc hbc
    · rw [ht, put_row_of_ne hal]
      exact h a ha

/-- A negative entry is not a row. -/
theorem not_mappingSound_put {t : MoverState cfg α} {l e : ℕ} {k : ℤ}
    (hl : l < cfg.numHiddenLayers) (he : e < cfg.numLocalExperts) (hk : k < 0)
    (ht : t.expertsMapping = put s.expertsMapping l e k) : ¬ MappingSound t := by
  intro hsound
  have hpos := ((hsound l hl).1 e he).1
  rw [ht, put_self] at hpos
  omega

theorem MappingSound.congr {t : MoverState cfg α} (ht : t.expertsMapping = s.expertsMapping) :
    MappingSound t ↔ MappingSound s := by
  simp only [MappingSound, ht]

/-- One call leaves a sound mapping sound if and only if it meets the condition. -/
theorem moverStep_mappingSound_iff (hplaced : Placed cfg s.tracker) (h : MappingSound s)
    (c : MoverCall α) : MappingSound (moverStep s c) ↔ KeepsMapping s c := by
  cases c with
  | moveExpertToGpu layerId expertId target env =>
      rcases moveExpertToGpu_cases env s layerId expertId target with
        ⟨l, e, slot, rfl, rfl, hadm, heff⟩ | ⟨hrefused, hsame, -⟩
      · obtain ⟨hl, he, -, hk, -⟩ := hplaced.slot_of_admits hadm
        have hunique : ∀ slot', GpuAdmits cfg s.tracker l e slot' → slot' = slot := fun slot' h' =>
          Option.some.inj (h'.2.symm.trans hadm.2)
        have hkeeps : KeepsMapping s (.moveExpertToGpu l e target env) ↔
            (env.Tracks s l e → env.fails .writeMapping = none →
              ∀ e', e' < cfg.numLocalExperts → e' ≠ e → s.expertsMapping l e' ≠ slot) := by
          constructor
          · exact fun h => h l e slot rfl rfl hadm
          · intro h l' e' slot' hl' he' hadm'
            obtain rfl : l = l' := by exact_mod_cast hl'
            obtain rfl : e = e' := by exact_mod_cast he'
            rw [hunique slot' hadm']
            exact h
        rw [hkeeps]
        have hmap := heff.mapping_eq
        split_ifs at hmap with hwrite
        · obtain ⟨hpos, hlt⟩ := lt_pool_of_mem hl hk
          have hiff := mappingSound_put_iff h hl he hpos hlt hmap
          simp only [moverStep, hiff, hwrite.1, hwrite.2, forall_const]
        · have hcongr := MappingSound.congr hmap
          simp only [moverStep, hcongr, h, true_iff]
          exact fun htracks hw => absurd ⟨htracks, hw⟩ hwrite
      · simp only [moverStep, hsame, h, true_iff]
        exact fun l e slot hl he hadm => absurd hadm (hrefused l e slot hl he)
  | moveExpertToCpu layerId expertId env =>
      rcases moveExpertToCpu_cases env s layerId expertId with
        ⟨l, e, slot, rfl, rfl, hadm, heff⟩ | ⟨hrefused, hsame, -⟩
      · obtain ⟨hl, he, -⟩ := hplaced.slot_mem l e _ hadm.2
        have hmap := heff.mapping_eq
        split_ifs at hmap with hwrite
        · have hnot := not_mappingSound_put (s := s) hl he (by omega) hmap
          simp only [moverStep, hnot, false_iff]
          intro hkeeps
          obtain ⟨⟨hsync, hrows, htracks⟩, hw⟩ := hwrite
          exact hkeeps l e slot rfl rfl hadm hsync hrows htracks hw
        · have hcongr := MappingSound.congr hmap
          simp only [moverStep, hcongr, h, true_iff]
          intro l' e' slot' hl' he' _ hsync hrows htracks hw
          obtain rfl : l = l' := by exact_mod_cast hl'
          obtain rfl : e = e' := by exact_mod_cast he'
          exact hwrite ⟨⟨hsync, hrows, htracks⟩, hw⟩
      · simp only [moverStep, hsame, h, true_iff]
        exact fun l e slot hl he hadm => absurd hadm (hrefused l e slot hl he)
  | engine numMb call => exact iff_of_true h trivial
  | newBatch => exact iff_of_true h trivial
  | reset => exact iff_of_true h trivial

end Step

/-- The mapping is sound in every state of a run if and only if every call of it meets
the condition. -/
theorem moverRun_mappingSound_iff (cfg : EngineConfig) (weights : WeightState α)
    (calls : List (MoverCall α)) :
    Always moverStep MappingSound (.start cfg weights) calls ↔
      EachStep moverStep KeepsMapping (.start cfg weights) calls :=
  always_iff_eachStep (J := fun s : MoverState cfg α => Placed cfg s.tracker)
    (fun _ c hs => moverStep_placed hs c) (fun _ c hs hI => moverStep_mappingSound_iff hs hI c)
    (Placed.start cfg) (mappingSound_start weights) calls

/-- Swapping out an expert, without any failure, leaves the kernel a negative row. -/
theorem moverRun_mappingSound_fails :
    ¬ ∀ calls : List (MoverCall ℕ), Always moverStep MappingSound
      (.start (EngineConfig.small 3 (by decide))
        ⟨fun _ => 0, fun _ => 0, fun _ => 0, 0, 0, fun _ => none⟩) calls := by
  intro h
  have hrow := ((h [.moveExpertToCpu 0 0 (.calm fun _ => 0)]).2 0 (by decide)).1 0 (by decide)
  exact absurd hrow.1 (by decide +kernel)

end HarvestMoE
