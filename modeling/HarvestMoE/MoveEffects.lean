import HarvestMoE.Lib.Names
import HarvestMoE.Reallocation

/-!
# What a move does

A move is refused without effect, or it is admitted and reaches the torch calls; how far
it gets in these decides which of the three records it updates. `moveExpertToGpu_cases`
and `moveExpertToCpu_cases` say all of it, and the invariants are derived from them.

## Main definitions

* `MoveEnv.Tracks` — torch goes through up to the update of the tracker.
* `GpuAdmits`, `CpuAdmits` — the guards pass.
* `ToGpuEffect`, `ToCpuEffect` — what an admitted move does, record by record.
-/

namespace HarvestMoE

open Lib

variable {cfg : EngineConfig} {α : Type*}

section Keys

/-- Two experts never share a buffer. -/
theorem storageKey_inj {l e l' e' : ℕ} (h : storageKey l e = storageKey l' e') :
    l = l' ∧ e = e' := by
  have hlist : 'L' :: (Nat.toDigits 10 l ++ 'E' :: Nat.toDigits 10 e) =
      'L' :: (Nat.toDigits 10 l' ++ 'E' :: Nat.toDigits 10 e') := by
    have hsep : (toString "E").toList = ['E'] := rfl
    simpa [storageKey, hsep] using congrArg String.toList h
  have ⟨hl, he⟩ := toDigits_append_cons_inj (by decide) (List.cons.inj hlist).2
  exact ⟨hl, toDigits_inj he⟩

end Keys

/-- The torch calls up to the update of the tracker go through. -/
def MoveEnv.Tracks (env : MoveEnv α) (s : MoverState cfg α) (layerId expertId : ℕ) : Prop :=
  env.fails .enterDevice = none ∧
    ((s.cpuExpertStorage (storageKey layerId expertId)).isSome ∨ env.fails .provide = none) ∧
    env.fails .copy = none ∧ env.fails .record = none

instance (env : MoveEnv α) (s : MoverState cfg α) (layerId expertId : ℕ) :
    Decidable (env.Tracks s layerId expertId) :=
  inferInstanceAs (Decidable (_ ∧ _ ∧ _ ∧ _))

/-- Torch goes through up to a new buffer. -/
def MoveEnv.Allocates (env : MoveEnv α) : Prop :=
  env.fails .synchronize = none ∧ env.fails .enterDevice = none ∧ env.fails .provide = none

instance (env : MoveEnv α) : Decidable env.Allocates := inferInstanceAs (Decidable (_ ∧ _ ∧ _))

/-- What an admitted `move_expert_to_gpu` does to each record. -/
structure ToGpuEffect (env : MoveEnv α) (s : MoverState cfg α) (l e slot : ℕ) (device : ℤ)
    (r : MoverState cfg α × MoveResult) : Prop where
  tracker_eq : r.1.tracker =
    if env.Tracks s l e then
      { s.tracker with
        layers := put s.tracker.layers l e ⟨.gpuPersistent, .cached, device, slot⟩ }
    else s.tracker
  mapping_eq : r.1.expertsMapping =
    if env.Tracks s l e ∧ env.fails .writeMapping = none then
      put s.expertsMapping l e (slot : ℤ)
    else s.expertsMapping
  storage_eq : r.1.cpuExpertStorage = s.cpuExpertStorage
  weights_eq : r.1.weights = { s.weights with expertsCache := r.1.weights.expertsCache }
  outside : ∀ row, row < slot * cfg.expertRows ∨ slot * cfg.expertRows + cfg.expertRows ≤ row →
    r.1.weights.expertsCache row = s.weights.expertsCache row
  inside : env.Tracks s l e → ∀ tensor, s.cpuExpertStorage (storageKey l e) = some tensor →
    ∀ q, q < cfg.expertRows →
      r.1.weights.expertsCache (slot * cfg.expertRows + q) = tensor.row q
  succeeded_iff : r.2.1 = true ↔
    env.Tracks s l e ∧ env.fails .writeMapping = none ∧ env.fails .exitDevice = none

/-- What an admitted `move_expert_to_cpu` does to each record. -/
structure ToCpuEffect (env : MoveEnv α) (s : MoverState cfg α) (l e slot : ℕ)
    (r : MoverState cfg α × MoveResult) : Prop where
  tracker_eq : r.1.tracker =
    if env.fails .synchronize = none ∧ cfg.expertRows ≠ 0 ∧ env.Tracks s l e then
      { s.tracker with layers := put s.tracker.layers l e ⟨.cpuMemory, .idle, -1, -1⟩ }
    else s.tracker
  mapping_eq : r.1.expertsMapping =
    if (env.fails .synchronize = none ∧ cfg.expertRows ≠ 0 ∧ env.Tracks s l e) ∧
        env.fails .writeMapping = none then
      put s.expertsMapping l e (-(e : ℤ) - 1)
    else s.expertsMapping
  weights_eq : r.1.weights = s.weights
  storage_other : ∀ key, key ≠ storageKey l e →
    r.1.cpuExpertStorage key = s.cpuExpertStorage key
  storage_own : env.fails .synchronize = none ∧ cfg.expertRows ≠ 0 ∧ env.Tracks s l e →
    ∃ tensor, r.1.cpuExpertStorage (storageKey l e) = some tensor ∧
      ∀ q, q < cfg.expertRows →
        tensor.row q = s.weights.expertsCache (slot * cfg.expertRows + q)
  stored_iff : (r.1.cpuExpertStorage (storageKey l e)).isSome ↔
    (s.cpuExpertStorage (storageKey l e)).isSome ∨ env.Allocates
  succeeded_iff : r.2.1 = true ↔
    (env.fails .synchronize = none ∧ cfg.expertRows ≠ 0 ∧ env.Tracks s l e) ∧
      env.fails .writeMapping = none ∧ env.fails .exitDevice = none

section Effects

variable {env : MoveEnv α} {s : MoverState cfg α} {l e slot : ℕ}

@[simp] theorem failedToMove_fst (err : TorchError) : (failedToMove err).1 = false := rfl

@[simp] theorem MoveResult.failure_fst (message : String) :
    (MoveResult.failure message).1 = false := rfl

@[simp] theorem MoveResult.success_fst : MoveResult.success.1 = true := rfl

theorem withDevice_of_raises {body : MoverState cfg α × Except TorchError MoveResult}
    {err : TorchError} (h : env.fails .enterDevice = some err) :
    withDevice env s body = (s, failedToMove err) := by
  simp [withDevice, h]

/-- Inside the context the body takes its effect, whatever is returned. -/
theorem withDevice_fst (body : MoverState cfg α × Except TorchError MoveResult)
    (h : env.fails .enterDevice = none) : (withDevice env s body).1 = body.1 := by
  simp only [withDevice, h]
  split <;> rfl

theorem withDevice_succeeded {body : MoverState cfg α × Except TorchError MoveResult}
    (h : env.fails .enterDevice = none) :
    (withDevice env s body).2.1 = true ↔
      (∃ message, body.2 = .ok (true, message)) ∧ env.fails .exitDevice = none := by
  simp only [withDevice, h]
  cases hexit : env.fails .exitDevice with
  | some err => simp
  | none =>
      cases hbody : body.2 with
      | error err => simp
      | ok result =>
          obtain ⟨ok, message⟩ := result
          simp

/-- A handled exception is not a success. -/
theorem toGpuHandler_ne_ok (err : TorchError) (message : Option String) :
    toGpuHandler err ≠ .ok (true, message) := by
  simp only [toGpuHandler, MoveResult.failure]
  split_ifs <;> simp

theorem toCpuHandler_ne_ok (err : TorchError) (message : Option String) :
    toCpuHandler err ≠ .ok (true, message) := by
  simp only [toCpuHandler, MoveResult.failure]
  split_ifs <;> simp

theorem copyToSlot_outside {source : ℕ → α} {row : ℕ}
    (h : row < slot * cfg.expertRows ∨ slot * cfg.expertRows + cfg.expertRows ≤ row) :
    (s.copyToSlot slot source).weights.expertsCache row = s.weights.expertsCache row := by
  rcases h with h | h
  · exact copyRows_below h
  · exact copyRows_above h

theorem getExpertWeightsFromCpu_eq_none :
    getExpertWeightsFromCpu env s l e = none ↔
      ¬ ((s.cpuExpertStorage (storageKey l e)).isSome ∨ env.fails .provide = none) := by
  simp only [getExpertWeightsFromCpu]
  cases s.cpuExpertStorage (storageKey l e) with
  | some tensor => simp
  | none => cases env.fails .provide <;> simp

theorem withDevice_failed {body : MoverState cfg α × Except TorchError MoveResult}
    (henter : env.fails .enterDevice = none) (hfail : ∀ message, body.2 ≠ .ok (true, message)) :
    (withDevice env s body).2.1 = false := by
  rw [← Bool.not_eq_true, withDevice_succeeded henter]
  rintro ⟨⟨message, hm⟩, -⟩
  exact hfail message hm

/-- A move that reaches the bytes of the slot at most. -/
theorem ToGpuEffect.of_failed {r : MoverState cfg α × MoveResult} {device : ℤ}
    (hnot : ¬ env.Tracks s l e)
    (hstate : r.1 = s ∨ ∃ source, r.1 = s.copyToSlot slot source)
    (hfail : r.2.1 = false) : ToGpuEffect env s l e slot device r := by
  constructor
  case inside => exact fun h => absurd h hnot
  case succeeded_iff => simp [hnot, hfail]
  case outside =>
    intro row hrow
    rcases hstate with hstate | ⟨source, hstate⟩
    · rw [hstate]
    · rw [hstate]
      exact copyToSlot_outside hrow
  all_goals rcases hstate with hstate | ⟨source, hstate⟩ <;>
    simp [hstate, hnot, MoverState.copyToSlot]

/-- A body that has tracked the expert in its slot. -/
theorem ToGpuEffect.of_tracked {body : MoverState cfg α × Except TorchError MoveResult}
    {device : ℤ} {source : CpuTensor cfg α} (htracks : env.Tracks s l e)
    (hget : getExpertWeightsFromCpu env s l e = some source)
    (hbody : body.1 =
      { s.copyToSlot slot source.row with
        tracker := { s.tracker with
          layers := put s.tracker.layers l e ⟨.gpuPersistent, .cached, device, slot⟩ }
        expertsMapping :=
          if env.fails .writeMapping = none then put s.expertsMapping l e (slot : ℤ)
          else s.expertsMapping })
    (hok : (∃ message, body.2 = .ok (true, message)) ↔ env.fails .writeMapping = none) :
    ToGpuEffect env s l e slot device (withDevice env s body) := by
  have henter := htracks.1
  constructor
  all_goals simp only [withDevice_fst _ henter, hbody, htracks, if_true, true_and]
  case outside => exact fun row hrow => copyToSlot_outside hrow
  case inside =>
    intro _ tensor htensor q hq
    obtain rfl : tensor = source := by simpa [getExpertWeightsFromCpu, htensor] using hget
    have hrow : copyRows s.weights.expertsCache (slot * cfg.expertRows) tensor.row 0
        cfg.expertRows (slot * cfg.expertRows + q) = tensor.row (0 + q) := copyRows_add hq
    rw [Nat.zero_add] at hrow
    exact hrow
  case succeeded_iff => rw [withDevice_succeeded henter, hok]
  all_goals rfl

theorem toGpuBody_effect (hknown : s.tracker.Known l e) (henter : env.fails .enterDevice = none)
    (device : ℤ) :
    ToGpuEffect env s l e slot device (withDevice env s (toGpuBody env s l e slot device)) := by
  have hfst := withDevice_fst (s := s) (toGpuBody env s l e slot device) henter
  cases hget : getExpertWeightsFromCpu env s l e with
  | none =>
      have hnot : ¬ env.Tracks s l e := fun h => getExpertWeightsFromCpu_eq_none.mp hget h.2.1
      have hbody : toGpuBody env s l e slot device =
          (s, .ok (.failure "Failed to locate expert weights in CPU")) := by
        simp [toGpuBody, hget]
      exact .of_failed hnot (.inl (by rw [hfst, hbody]))
        (withDevice_failed henter (by simp [hbody, MoveResult.failure]))
  | some source =>
      have hprovide : (s.cpuExpertStorage (storageKey l e)).isSome ∨ env.fails .provide = none := by
        by_contra h
        simp [getExpertWeightsFromCpu_eq_none.mpr h] at hget
      cases hcopy : env.fails .copy with
      | some err =>
          have hnot : ¬ env.Tracks s l e := fun h => by simp [h.2.2.1] at hcopy
          have hbody : toGpuBody env s l e slot device =
              (s.copyToSlot slot env.torn, toGpuHandler err) := by
            simp [toGpuBody, hget, source.size_eq, hcopy]
          exact .of_failed hnot (.inr ⟨_, by rw [hfst, hbody]⟩)
            (withDevice_failed henter fun m => by
              rw [hbody]
              exact toGpuHandler_ne_ok err m)
      | none =>
          cases hrecord : env.fails .record with
          | some err =>
              have hnot : ¬ env.Tracks s l e := fun h => by simp [h.2.2.2] at hrecord
              have hbody : toGpuBody env s l e slot device =
                  (s.copyToSlot slot source.row, toGpuHandler err) := by
                simp [toGpuBody, hget, source.size_eq, hcopy, hrecord]
              exact .of_failed hnot (.inr ⟨_, by rw [hfst, hbody]⟩)
                (withDevice_failed henter fun m => by
                  rw [hbody]
                  exact toGpuHandler_ne_ok err m)
          | none =>
              have htracks : env.Tracks s l e := ⟨henter, hprovide, hcopy, hrecord⟩
              have hupdate := ExpertTracker.updateExpertLocation_natCast hknown
                ⟨.gpuPersistent, .cached, device, slot⟩
              refine .of_tracked htracks hget ?_ ?_
              · cases hwrite : env.fails .writeMapping <;>
                  simp [toGpuBody, hget, source.size_eq, hcopy, hrecord, hwrite, hupdate,
                    MoverState.copyToSlot]
              · cases hwrite : env.fails .writeMapping <;>
                  simp [toGpuBody, hget, source.size_eq, hcopy, hrecord, hwrite,
                    MoveResult.success, toGpuHandler_ne_ok]

theorem getOrAllocateCpuStorage_cases (env : MoveEnv α) (s : MoverState cfg α) (l e : ℕ) :
    (getOrAllocateCpuStorage env s l e = (s, none) ∧
      ¬ ((s.cpuExpertStorage (storageKey l e)).isSome ∨ env.fails .provide = none)) ∨
    ∃ storage, getOrAllocateCpuStorage env s l e =
        ({ s with
            cpuExpertStorage :=
              Function.update s.cpuExpertStorage (storageKey l e) (some storage) }, some storage) ∧
      ((s.cpuExpertStorage (storageKey l e)).isSome ∨ env.fails .provide = none) := by
  cases hstored : s.cpuExpertStorage (storageKey l e) with
  | some tensor =>
      right
      refine ⟨tensor, ?_, .inl rfl⟩
      have hsame : Function.update s.cpuExpertStorage (storageKey l e) (some tensor) =
          s.cpuExpertStorage := by
        rw [← hstored, Function.update_eq_self]
      simp [getOrAllocateCpuStorage, hstored, hsame]
  | none =>
      cases hprovide : env.fails .provide with
      | some err => exact .inl ⟨by simp [getOrAllocateCpuStorage, hstored, hprovide], by simp⟩
      | none =>
          right
          exact ⟨env.freshTensor, by simp [getOrAllocateCpuStorage, hstored, hprovide], .inr rfl⟩

/-- A move that reaches the buffer of the expert at most. -/
theorem ToCpuEffect.of_failed {r : MoverState cfg α × MoveResult}
    (hnot : ¬ (env.fails .synchronize = none ∧ cfg.expertRows ≠ 0 ∧ env.Tracks s l e))
    (hstate : r.1 = s ∧ ¬ env.Allocates ∨ ∃ tensor, r.1 =
      { s with
        cpuExpertStorage := Function.update s.cpuExpertStorage (storageKey l e) (some tensor) } ∧
      ((s.cpuExpertStorage (storageKey l e)).isSome ∨ env.Allocates))
    (hfail : r.2.1 = false) : ToCpuEffect env s l e slot r := by
  constructor
  case succeeded_iff => simp [hnot, hfail]
  case storage_own => exact fun h => absurd h hnot
  case storage_other =>
    intro key hkey
    rcases hstate with ⟨hstate, -⟩ | ⟨tensor, hstate, -⟩
    · rw [hstate]
    · rw [hstate]
      exact Function.update_of_ne hkey ..
  case stored_iff =>
    rcases hstate with ⟨hstate, hnone⟩ | ⟨tensor, hstate, hsome⟩
    · simp [hstate, hnone]
    · simp [hstate, hsome]
  case weights_eq => rcases hstate with ⟨hstate, -⟩ | ⟨tensor, hstate, -⟩ <;> rw [hstate]
  case tracker_eq =>
    rw [if_neg hnot]
    rcases hstate with ⟨hstate, -⟩ | ⟨tensor, hstate, -⟩ <;> rw [hstate]
  case mapping_eq =>
    rw [if_neg fun h => hnot h.1]
    rcases hstate with ⟨hstate, -⟩ | ⟨tensor, hstate, -⟩ <;> rw [hstate]

/-- The buffer holds the slot, the tracker and the mapping follow. -/
theorem ToCpuEffect.of_tracked {body : MoverState cfg α × Except TorchError MoveResult}
    (storage : CpuTensor cfg α)
    (hsync : env.fails .synchronize = none) (hrows : cfg.expertRows ≠ 0)
    (htracks : env.Tracks s l e)
    (hbody : body.1 =
      { s with
        tracker := { s.tracker with
          layers := put s.tracker.layers l e ⟨.cpuMemory, .idle, -1, -1⟩ }
        expertsMapping :=
          if env.fails .writeMapping = none then put s.expertsMapping l e (-(e : ℤ) - 1)
          else s.expertsMapping
        cpuExpertStorage := Function.update s.cpuExpertStorage (storageKey l e)
          (some { storage with
            row := copyRows storage.row 0 s.weights.expertsCache (slot * cfg.expertRows)
              cfg.expertRows }) })
    (hok : (∃ message, body.2 = .ok (true, message)) ↔ env.fails .writeMapping = none) :
    ToCpuEffect env s l e slot (withDevice env s body) := by
  have henter := htracks.1
  constructor
  all_goals simp only [withDevice_fst _ henter, hbody, hsync, hrows, htracks, ne_eq,
    not_false_eq_true, if_true, true_and, and_self]
  case storage_other => exact fun key hkey => Function.update_of_ne hkey ..
  case stored_iff =>
    have hstored : (s.cpuExpertStorage (storageKey l e)).isSome ∨ env.Allocates :=
      htracks.2.1.imp_right fun hprovide => ⟨hsync, henter, hprovide⟩
    simp [hstored]
  case storage_own =>
    intro _
    refine ⟨_, Function.update_self .., fun q hq => ?_⟩
    have hrow : copyRows storage.row 0 s.weights.expertsCache (slot * cfg.expertRows)
        cfg.expertRows (0 + q) = s.weights.expertsCache (slot * cfg.expertRows + q) :=
      copyRows_add hq
    rw [Nat.zero_add] at hrow
    exact hrow
  case succeeded_iff => rw [withDevice_succeeded henter, hok]

theorem toCpuBody_effect (hknown : s.tracker.Known l e) (hsync : env.fails .synchronize = none)
    (henter : env.fails .enterDevice = none) :
    ToCpuEffect env s l e slot (withDevice env s (toCpuBody env s l e slot)) := by
  have hfst := withDevice_fst (s := s) (toCpuBody env s l e slot) henter
  rcases getOrAllocateCpuStorage_cases env s l e with ⟨hget, hprovide⟩ | ⟨storage, hget, hprovide⟩
  · have hnot : ¬ (env.fails .synchronize = none ∧ cfg.expertRows ≠ 0 ∧ env.Tracks s l e) :=
      fun h => hprovide h.2.2.2.1
    have hbody : toCpuBody env s l e slot = (s, .ok (.failure "Failed to allocate CPU memory")) := by
      simp [toCpuBody, hget]
    exact .of_failed hnot (.inl ⟨by rw [hfst, hbody], fun h => hprovide (.inr h.2.2)⟩)
      (withDevice_failed henter (by simp [hbody, MoveResult.failure]))
  · have hstored : (s.cpuExpertStorage (storageKey l e)).isSome ∨ env.Allocates :=
      hprovide.imp_right fun h => ⟨hsync, henter, h⟩
    by_cases hrows : cfg.expertRows = 0
    · have hbody : (toCpuBody env s l e slot).2 = .ok (.failure "GPU cache slot is empty") := by
        simp [toCpuBody, hget, hrows]
      refine .of_failed (fun h => h.2.1 hrows) (.inr ⟨storage, ?_, hstored⟩)
        (withDevice_failed henter (by simp [hbody, MoveResult.failure]))
      rw [hfst]
      simp [toCpuBody, hget, hrows]
    · cases hcopy : env.fails .copy with
      | some err =>
          have hnot : ¬ (env.fails .synchronize = none ∧ cfg.expertRows ≠ 0 ∧ env.Tracks s l e) :=
            fun h => by simp [h.2.2.2.2.1] at hcopy
          have hbody : (toCpuBody env s l e slot).2 = toCpuHandler err := by
            simp [toCpuBody, hget, hrows, storage.size_eq, hcopy]
          refine .of_failed hnot (.inr
            ⟨{ storage with row := copyRows storage.row 0 env.torn 0 cfg.expertRows }, ?_,
              hstored⟩)
            (withDevice_failed henter fun m => hbody ▸ toCpuHandler_ne_ok err m)
          rw [hfst]
          simp [toCpuBody, hget, hrows, storage.size_eq, hcopy, MoverState.copyToStorage]
      | none =>
          cases hrecord : env.fails .record with
          | some err =>
              have hnot :
                  ¬ (env.fails .synchronize = none ∧ cfg.expertRows ≠ 0 ∧ env.Tracks s l e) :=
                fun h => by simp [h.2.2.2.2.2] at hrecord
              have hbody : (toCpuBody env s l e slot).2 = toCpuHandler err := by
                simp [toCpuBody, hget, hrows, storage.size_eq, hcopy, hrecord]
              refine .of_failed hnot (.inr
                ⟨{ storage with
                    row := copyRows storage.row 0 s.weights.expertsCache (slot * cfg.expertRows)
                      cfg.expertRows }, ?_, hstored⟩)
                (withDevice_failed henter fun m => hbody ▸ toCpuHandler_ne_ok err m)
              rw [hfst]
              simp [toCpuBody, hget, hrows, storage.size_eq, hcopy, hrecord,
                MoverState.copyToStorage]
          | none =>
              have htracks : env.Tracks s l e := ⟨henter, hprovide, hcopy, hrecord⟩
              have hupdate := ExpertTracker.updateExpertLocation_natCast hknown
                ⟨.cpuMemory, .idle, -1, -1⟩
              refine .of_tracked storage hsync hrows htracks ?_ ?_
              · cases hwrite : env.fails .writeMapping <;>
                  simp [toCpuBody, hget, hrows, storage.size_eq, hcopy, hrecord, hwrite, hupdate,
                    MoverState.copyToStorage]
              · cases hwrite : env.fails .writeMapping <;>
                  simp [toCpuBody, hget, hrows, storage.size_eq, hcopy, hrecord, hwrite,
                    MoveResult.success, toCpuHandler_ne_ok]

end Effects

/-- `move_expert_to_gpu` gets as far as the device, with this slot. -/
def GpuAdmits (cfg : EngineConfig) (t : ExpertTracker) (l e slot : ℕ) : Prop :=
  canMoveToGpu cfg t l e = none ∧ findFreeGpuSlot cfg t l = some slot

/-- `move_expert_to_cpu` gets as far as the wait, with this slot. -/
def CpuAdmits (t : ExpertTracker) (l e slot : ℕ) : Prop :=
  t.Known l e ∧ t.slotOf l e = some (slot : ℤ)

section Moves

variable {t : ExpertTracker} {l e slot : ℕ}

theorem canMoveToGpu_eq_none {layerId expertId : ℤ} :
    canMoveToGpu cfg t layerId expertId = none ↔
      t.Known layerId expertId ∧ t.slotOf layerId.toNat expertId.toNat = none ∧
        t.totalGpuExperts < t.gpuCapacity ∧
          t.layerGpuExperts layerId.toNat < cfg.numExpertsGpu := by
  simp only [canMoveToGpu, ExpertTracker.getExpertLocation, ExpertTracker.slotOf_eq_none]
  by_cases hknown : t.Known layerId expertId
  · simp only [hknown, if_true, true_and]
    split_ifs with h₁ h₂ h₃
    · simp [h₁]
    · simp [h₁, h₂]
    · simp [h₁, h₃]
    · simp only [true_iff]
      exact ⟨h₁, by omega, by omega⟩
  · simp [hknown]

theorem isSlotFree_iff : isSlotFree t l slot = true ↔
    ∀ e, e < t.numExpertsPerLayer → t.slotOf l e ≠ some (slot : ℤ) := by
  simp only [isSlotFree, List.all_eq_true, List.mem_range, decide_eq_true_eq, ne_eq,
    ExpertTracker.slotOf_eq_some]
  exact forall₂_congr fun e _ => by rw [and_comm]

/-- The slot found is free, and one of the layer's. -/
theorem findFreeGpuSlot_spec (h : findFreeGpuSlot cfg t l = some slot) :
    (∃ i, i < cfg.numExpertsGpu ∧ slot = l * cfg.numExpertsGpu + i) ∧
      ∀ e, e < t.numExpertsPerLayer → t.slotOf l e ≠ some (slot : ℤ) := by
  rw [findFreeGpuSlot] at h
  split_ifs at h
  constructor
  · obtain ⟨i, hi, rfl⟩ := List.mem_map.mp (List.mem_of_find?_eq_some h)
    exact ⟨i, List.mem_range.mp hi, rfl⟩
  · exact isSlotFree_iff.mp (List.find?_some h)

variable (env : MoveEnv α) (s : MoverState cfg α)

/-- A move to the GPU is refused, or it has its effect. -/
theorem moveExpertToGpu_cases (layerId expertId : ℤ) (target : Option ℤ) :
    (∃ l e slot : ℕ, layerId = l ∧ expertId = e ∧ GpuAdmits cfg s.tracker l e slot ∧
      ToGpuEffect env s l e slot (target.getD 0)
        (moveExpertToGpu env s layerId expertId target)) ∨
    (∀ l e slot : ℕ, layerId = l → expertId = e → ¬ GpuAdmits cfg s.tracker l e slot) ∧
      (moveExpertToGpu env s layerId expertId target).1 = s ∧
      (moveExpertToGpu env s layerId expertId target).2.1 = false := by
  cases hcan : canMoveToGpu cfg s.tracker layerId expertId with
  | some error =>
      right
      refine ⟨?_, by simp [moveExpertToGpu, hcan], by simp [moveExpertToGpu, hcan]⟩
      rintro l e slot rfl rfl ⟨h, -⟩
      exact absurd (hcan.symm.trans h) (by simp)
  | none =>
      obtain ⟨l, e, rfl, rfl, hl, he⟩ := (canMoveToGpu_eq_none.mp hcan).1.exists_natCast
      have hknown := (canMoveToGpu_eq_none.mp hcan).1
      have hloc := ExpertTracker.getExpertLocation_natCast hknown
      cases hfind : findFreeGpuSlot cfg s.tracker l with
      | none =>
          right
          have hmove : moveExpertToGpu env s l e target =
              (s, .failure "No free GPU slots available") := by
            simp [moveExpertToGpu, hcan, hloc, hfind]
          refine ⟨?_, by rw [hmove], by rw [hmove]; rfl⟩
          rintro l' e' slot hl' - ⟨-, h⟩
          obtain rfl : l = l' := by exact_mod_cast hl'
          exact absurd (hfind.symm.trans h) (by simp)
      | some slot =>
          left
          have hmove : moveExpertToGpu env s l e target =
              withDevice env s (toGpuBody env s l e slot (target.getD 0)) := by
            simp [moveExpertToGpu, hcan, hloc, hfind]
          refine ⟨l, e, slot, rfl, rfl, ⟨hcan, hfind⟩, ?_⟩
          rw [hmove]
          cases henter : env.fails .enterDevice with
          | none => exact toGpuBody_effect hknown henter _
          | some err =>
              rw [withDevice_of_raises henter]
              exact .of_failed (fun h => by simp [h.1] at henter) (.inl rfl) rfl

/-- A move to the CPU is refused, or it has its effect. -/
theorem moveExpertToCpu_cases (layerId expertId : ℤ) :
    (∃ l e slot : ℕ, layerId = l ∧ expertId = e ∧ CpuAdmits s.tracker l e slot ∧
      ToCpuEffect env s l e slot (moveExpertToCpu env s layerId expertId)) ∨
    (∀ l e slot : ℕ, layerId = l → expertId = e → ¬ CpuAdmits s.tracker l e slot) ∧
      (moveExpertToCpu env s layerId expertId).1 = s ∧
      (moveExpertToCpu env s layerId expertId).2.1 = false := by
  by_cases hknown : s.tracker.Known layerId expertId
  · obtain ⟨l, e, rfl, rfl, hl, he⟩ := hknown.exists_natCast
    have hloc := ExpertTracker.getExpertLocation_natCast hknown
    by_cases hgpu : (s.tracker.layers l e).location = .gpuPersistent
    · by_cases hneg : (s.tracker.layers l e).cacheSlot < 0
      · right
        have hmove : moveExpertToCpu env s l e = (s, .failure "Invalid GPU cache slot") := by
          simp [moveExpertToCpu, hloc, hgpu, hneg]
        refine ⟨?_, by rw [hmove], by rw [hmove]; rfl⟩
        rintro l' e' slot hl' he' ⟨-, h⟩
        obtain rfl : l = l' := by exact_mod_cast hl'
        obtain rfl : e = e' := by exact_mod_cast he'
        have := (ExpertTracker.slotOf_eq_some.mp h).2
        omega
      · left
        obtain ⟨slot, hslot⟩ := Int.eq_ofNat_of_zero_le (not_lt.mp hneg)
        refine ⟨l, e, slot, rfl, rfl, ⟨hknown, ExpertTracker.slotOf_eq_some.mpr ⟨hgpu, hslot⟩⟩, ?_⟩
        cases hsync : env.fails .synchronize with
        | some err =>
            have hmove : moveExpertToCpu env s l e = (s, failedToMove err) := by
              simp [moveExpertToCpu, hloc, hgpu, hneg, hsync]
            rw [hmove]
            exact .of_failed (fun h => by simp [h.1] at hsync)
              (.inl ⟨rfl, fun h => by simp [h.1] at hsync⟩) rfl
        | none =>
            have hmove : moveExpertToCpu env s l e =
                withDevice env s (toCpuBody env s l e slot) := by
              simp [moveExpertToCpu, hloc, hgpu, hsync, hslot]
            rw [hmove]
            cases henter : env.fails .enterDevice with
            | none => exact toCpuBody_effect hknown hsync henter
            | some err =>
                rw [withDevice_of_raises henter]
                exact .of_failed (fun h => by simp [h.2.2.1] at henter)
                  (.inl ⟨rfl, fun h => by simp [h.2.1] at henter⟩) rfl
    · right
      have hmove : moveExpertToCpu env s l e = (s, .failure "Expert not on GPU") := by
        simp [moveExpertToCpu, hloc, hgpu]
      refine ⟨?_, by rw [hmove], by rw [hmove]; rfl⟩
      rintro l' e' slot hl' he' ⟨-, h⟩
      obtain rfl : l = l' := by exact_mod_cast hl'
      obtain rfl : e = e' := by exact_mod_cast he'
      exact hgpu (ExpertTracker.slotOf_eq_some.mp h).1
  · right
    have hmove : moveExpertToCpu env s layerId expertId = (s, .failure "Expert not found") := by
      simp [moveExpertToCpu, ExpertTracker.getExpertLocation, hknown]
    refine ⟨?_, by rw [hmove], by rw [hmove]; rfl⟩
    rintro l e slot rfl rfl ⟨h, -⟩
    exact hknown h

end Moves

end HarvestMoE
