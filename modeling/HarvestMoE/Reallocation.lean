import HarvestMoE.ExpertTracker
import HarvestMoE.Weights
import Mathlib.Data.List.Infix

/-!
# Moving experts between the GPU and the CPU

`ExpertMover` swaps a persistent expert out to a CPU buffer of its own, and an expert of
the CPU into a free slot of its layer. A move updates three records one after the other:
the bytes, the tracker, and the mapping the kernel reads. Each torch call may raise, and
what came before it stays; `MoveEnv` says which calls raise, and what a new buffer and a
torn copy contain. Copies take effect when they are issued.

## Main definitions

* `MoverState` — what a move reads and writes.
* `canMoveToGpu`, `findFreeGpuSlot` — the guards.
* `moveExpertToGpu`, `moveExpertToCpu` — the moves.
* `moverStep`, `moverRun` — moves interleaved with the calls of the engine.
-/

namespace HarvestMoE

open Lib

variable {cfg : EngineConfig} {α : Type*}

/-- A buffer of `expert_size_elements` on the CPU. -/
structure CpuTensor (cfg : EngineConfig) (α : Type*) where
  size : ℕ
  row : ℕ → α
  size_eq : size = cfg.expertRows

/-- The engine as the mover sees it. -/
structure MoverState (cfg : EngineConfig) (α : Type*) where
  tracker : ExpertTracker
  weights : WeightState α
  expertsMapping : ℕ → ℕ → ℤ
  cpuExpertStorage : String → Option (CpuTensor cfg α)

/-- The engine after `init_gpu_experts`. -/
def MoverState.start (cfg : EngineConfig) (weights : WeightState α) : MoverState cfg α where
  tracker := initExpertTracker cfg
  weights := weights
  expertsMapping := initExpertsMapping cfg
  cpuExpertStorage := fun _ => none

/-- The exception classes that the handlers tell apart. -/
inductive ErrorKind
  | cudaOutOfMemory
  | memoryError
  | runtimeError
  | other
  deriving DecidableEq, Repr

structure TorchError where
  kind : ErrorKind
  message : String
  deriving DecidableEq, Repr

/-- `"out of memory" in str(e).lower()`. -/
def TorchError.saysOutOfMemory (e : TorchError) : Bool :=
  decide ("out of memory".toList <:+: e.message.toLower.toList)

/-- The torch calls of a move. -/
inductive MoveStep
  | synchronize
  | enterDevice
  | provide
  | copy
  | record
  | writeMapping
  | exitDevice
  deriving DecidableEq, Repr

/-- How torch behaves during a move: the calls that raise, the contents of a buffer it
creates, and what a copy that raises leaves in its destination. -/
structure MoveEnv (α : Type*) where
  fails : MoveStep → Option TorchError
  fresh : ℕ → α
  torn : ℕ → α

/-- Torch raises nothing. -/
def MoveEnv.calm (fresh : ℕ → α) : MoveEnv α := ⟨fun _ => none, fresh, fresh⟩

/-- A move returns whether it succeeded, and an error message. -/
abbrev MoveResult := Bool × Option String

def MoveResult.success : MoveResult := (true, none)

def MoveResult.failure (message : String) : MoveResult := (false, some message)

/-- `f"L{layer_id}E{expert_id}"`. -/
def storageKey (layerId expertId : ℕ) : String := s!"L{layerId}E{expertId}"

/-- The outermost handler of a move. -/
def failedToMove (e : TorchError) : MoveResult := .failure s!"Failed to move expert: {e.message}"

section Guards

variable (cfg) (t : ExpertTracker)

/-- `can_move_to_gpu`: nothing, or why not. -/
def canMoveToGpu (layerId expertId : ℤ) : Option String :=
  match t.getExpertLocation layerId expertId with
  | none => some "Expert not found"
  | some loc =>
      if loc.location = .gpuPersistent then some "Expert already on GPU"
      else if t.gpuCapacity ≤ t.totalGpuExperts then some "GPU expert capacity full"
      else if cfg.numExpertsGpu ≤ t.layerGpuExperts layerId.toNat then
        some s!"Layer {layerId} already has maximum {cfg.numExpertsGpu} experts on GPU"
      else none

/-- `_is_slot_free`: no persistent expert of the layer is in the slot. -/
def isSlotFree (layerId slot : ℕ) : Bool :=
  (List.range t.numExpertsPerLayer).all fun e =>
    ¬ ((t.layers layerId e).cacheSlot = slot ∧ (t.layers layerId e).location = .gpuPersistent)

/-- `_find_free_gpu_slot`: the first free slot of the layer. -/
def findFreeGpuSlot (layerId : ℕ) : Option ℕ :=
  if cfg.numExpertsGpu = 0 then none
  else
    ((List.range cfg.numExpertsGpu).map fun i => layerId * cfg.numExpertsGpu + i).find?
      (isSlotFree t layerId)

end Guards

section Storage

variable (env : MoveEnv α) (s : MoverState cfg α)

/-- A buffer torch has just created. -/
def MoveEnv.freshTensor : CpuTensor cfg α := ⟨cfg.expertRows, env.fresh, rfl⟩

/-- `_get_expert_weights_from_cpu`: the expert's buffer, or random weights for an expert
that has none. No model defines `get_expert_weights`. -/
def getExpertWeightsFromCpu (layerId expertId : ℕ) : Option (CpuTensor cfg α) :=
  match s.cpuExpertStorage (storageKey layerId expertId) with
  | some tensor => some tensor
  | none => if (env.fails .provide).isSome then none else some env.freshTensor

/-- `_get_or_allocate_cpu_storage`: the expert's buffer, entered if it is new. -/
def getOrAllocateCpuStorage (layerId expertId : ℕ) :
    MoverState cfg α × Option (CpuTensor cfg α) :=
  match s.cpuExpertStorage (storageKey layerId expertId) with
  | some tensor => (s, some tensor)
  | none =>
      if (env.fails .provide).isSome then (s, none)
      else
        ({ s with
            cpuExpertStorage := Function.update s.cpuExpertStorage (storageKey layerId expertId)
              (some env.freshTensor) }, some env.freshTensor)

/-- Copy a CPU buffer into a slot of the expert cache. -/
def MoverState.copyToSlot (slot : ℕ) (source : ℕ → α) : MoverState cfg α :=
  { s with
    weights := { s.weights with
      expertsCache := copyRows s.weights.expertsCache (slot * cfg.expertRows) source 0
        cfg.expertRows } }

/-- Copy rows into the CPU buffer of an expert. -/
def MoverState.copyToStorage (key : String) (tensor : CpuTensor cfg α) (source : ℕ → α) (fr : ℕ) :
    MoverState cfg α :=
  { s with
    cpuExpertStorage := Function.update s.cpuExpertStorage key
      (some { tensor with row := copyRows tensor.row 0 source fr cfg.expertRows }) }

end Storage

section Moves

variable (env : MoveEnv α) (s : MoverState cfg α)

/-- `with torch.cuda.device(..)` inside the outer handler: what the body raises, and what
entering and leaving the context raise, ends as a failed move. -/
def withDevice (body : MoverState cfg α × Except TorchError MoveResult) :
    MoverState cfg α × MoveResult :=
  match env.fails .enterDevice with
  | some e => (s, failedToMove e)
  | none =>
      match env.fails .exitDevice, body.2 with
      | some e, _ => (body.1, failedToMove e)
      | none, .error e => (body.1, failedToMove e)
      | none, .ok result => (body.1, result)

/-- The inner handlers of `move_expert_to_gpu`. -/
def toGpuHandler (e : TorchError) : Except TorchError MoveResult :=
  if e.kind = .cudaOutOfMemory then .ok (.failure "GPU out of memory")
  else if e.kind = .runtimeError ∧ e.saysOutOfMemory then
    .ok (.failure "GPU memory allocation failed")
  else .error e

/-- The inner handlers of `move_expert_to_cpu`. An `OutOfMemoryError` of CUDA is a
`RuntimeError`. -/
def toCpuHandler (e : TorchError) : Except TorchError MoveResult :=
  if e.kind = .memoryError then .ok (.failure "CPU out of memory")
  else if (e.kind = .runtimeError ∨ e.kind = .cudaOutOfMemory) ∧ e.saysOutOfMemory then
    .ok (.failure "Memory allocation failed")
  else .error e

/-- The body of `move_expert_to_gpu`, once a slot is found. -/
def toGpuBody (layerId expertId gpuSlot : ℕ) (targetDeviceId : ℤ) :
    MoverState cfg α × Except TorchError MoveResult :=
  match getExpertWeightsFromCpu env s layerId expertId with
  | none => (s, .ok (.failure "Failed to locate expert weights in CPU"))
  | some source =>
      if cfg.expertRows ≠ source.size then (s, .ok (.failure "Shape mismatch when copying to GPU"))
      else match env.fails .copy with
        | some e => (s.copyToSlot gpuSlot env.torn, toGpuHandler e)
        | none =>
            let copied := s.copyToSlot gpuSlot source.row
            match env.fails .record with
            | some e => (copied, toGpuHandler e)
            | none =>
                let tracked := { copied with
                  tracker := copied.tracker.updateExpertLocation layerId expertId
                    { location := .gpuPersistent
                      status := .cached
                      deviceId := targetDeviceId
                      cacheSlot := gpuSlot } }
                match env.fails .writeMapping with
                | some e => (tracked, toGpuHandler e)
                | none =>
                    ({ tracked with
                        expertsMapping := put tracked.expertsMapping layerId expertId gpuSlot },
                      .ok .success)

/-- `move_expert_to_gpu`. -/
def moveExpertToGpu (layerId expertId : ℤ) (targetDeviceId : Option ℤ) :
    MoverState cfg α × MoveResult :=
  match canMoveToGpu cfg s.tracker layerId expertId with
  | some error => (s, .failure error)
  | none =>
      if (s.tracker.getExpertLocation layerId expertId).isNone then
        (s, .failure "Expert not found in tracker")
      else match findFreeGpuSlot cfg s.tracker layerId.toNat with
        | none => (s, .failure "No free GPU slots available")
        | some gpuSlot =>
            withDevice env s
              (toGpuBody env s layerId.toNat expertId.toNat gpuSlot (targetDeviceId.getD 0))

/-- The body of `move_expert_to_cpu`. Marking the slot free does nothing: the tracker is
the record of the slots. -/
def toCpuBody (layerId expertId gpuSlot : ℕ) : MoverState cfg α × Except TorchError MoveResult :=
  let key := storageKey layerId expertId
  match getOrAllocateCpuStorage env s layerId expertId with
  | (s, none) => (s, .ok (.failure "Failed to allocate CPU memory"))
  | (s, some storage) =>
      if cfg.expertRows = 0 then (s, .ok (.failure "GPU cache slot is empty"))
      else if cfg.expertRows ≠ storage.size then
        (s, .ok (.failure "Shape mismatch when copying to CPU"))
      else match env.fails .copy with
        | some e => (s.copyToStorage key storage env.torn 0, toCpuHandler e)
        | none =>
            let copied := s.copyToStorage key storage s.weights.expertsCache
              (gpuSlot * cfg.expertRows)
            match env.fails .record with
            | some e => (copied, toCpuHandler e)
            | none =>
                let tracked := { copied with
                  tracker := copied.tracker.updateExpertLocation layerId expertId
                    { location := .cpuMemory, status := .idle } }
                match env.fails .writeMapping with
                | some e => (tracked, toCpuHandler e)
                | none =>
                    ({ tracked with
                        expertsMapping :=
                          put tracked.expertsMapping layerId expertId (-(expertId : ℤ) - 1) },
                      .ok .success)

/-- `move_expert_to_cpu`. -/
def moveExpertToCpu (layerId expertId : ℤ) : MoverState cfg α × MoveResult :=
  match s.tracker.getExpertLocation layerId expertId with
  | none => (s, .failure "Expert not found")
  | some loc =>
      if loc.location ≠ .gpuPersistent then (s, .failure "Expert not on GPU")
      else if loc.cacheSlot < 0 then (s, .failure "Invalid GPU cache slot")
      else match env.fails .synchronize with
        | some e => (s, failedToMove e)
        | none =>
            withDevice env s (toCpuBody env s layerId.toNat expertId.toNat loc.cacheSlot.toNat)

end Moves

/-- A call of the mover or of the engine, with what torch does during it. -/
inductive MoverCall (α : Type*)
  | moveExpertToGpu (layerId expertId : ℤ) (targetDeviceId : Option ℤ) (env : MoveEnv α)
  | moveExpertToCpu (layerId expertId : ℤ) (env : MoveEnv α)
  | engine (numMb : ℕ) (call : Call)
  | newBatch
  | reset

/-- One call. A call of the engine that raises leaves the weights. -/
def moverStep (s : MoverState cfg α) : MoverCall α → MoverState cfg α
  | .moveExpertToGpu layerId expertId target env => (moveExpertToGpu env s layerId expertId target).1
  | .moveExpertToCpu layerId expertId env => (moveExpertToCpu env s layerId expertId).1
  | .engine numMb call => { s with weights := (weightStep cfg numMb s.weights call).getD s.weights }
  | .newBatch => { s with weights := s.weights.newBatch }
  | .reset => { s with weights := s.weights.reset }

/-- The state after a sequence of calls. -/
def moverRun (s : MoverState cfg α) (calls : List (MoverCall α)) : MoverState cfg α :=
  calls.foldl moverStep s

end HarvestMoE
