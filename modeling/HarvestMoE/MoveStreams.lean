import HarvestMoE.EngineStreams
import HarvestMoE.Lib.StreamSides
import HarvestMoE.MoveEffects

/-!
# Moves and kernels on their streams

The mover copies on a stream of its own. It updates the tracker and the mapping as soon
as a copy is enqueued, and the next kernel of the layer reads the new row. The stream of
the kernels does not wait for the copies, nor the copies for the kernels that still read
a row for the expert before: the two are ordered when the host waits in between, and
only then. The mapping lives on the device of the kernels and is written on their
stream, so a kernel reads the entries of the time it is launched.

## Main definitions

* `MoverStream`, `MoverEvent`, `MoverTask` — the engine with the copy stream.
* `MoverHost`, `moverCommands` — the host, and what each call enqueues.
* `MoveConflict` — a copy into a row and the kernels that read it.
* `HostWaited` — the host has waited for what the call conflicts with.
* `moves_inOrder_iff` — when moves and kernels are in order.
-/

namespace HarvestMoE

open Lib

variable {cfg : EngineConfig} {α : Type*}

/-- The streams of the engine, and `copy_stream` of the mover. -/
inductive MoverStream
  | engine (s : EngineStream)
  | copy
  deriving DecidableEq, Repr

/-- The events of the engine, by batch, and `sync_events` of the mover: `gpu_{l}_{e}` and
`cpu_{l}_{e}`. -/
inductive MoverEvent
  | engine (batch : ℕ) (e : EngineEvent)
  | gpu (layerId expertId : ℕ)
  | cpu (layerId expertId : ℕ)
  deriving DecidableEq, Repr

/-- The work of the engine, with the experts it computes and the rows it reads for them,
and the copies of the mover. -/
inductive MoverTask
  | engine (t : Task) (reads : List (ℕ × ℤ))
  | toSlot (layerId expertId slot : ℕ) (succeeded : Bool)
  | fromSlot (layerId expertId slot : ℕ)
  deriving DecidableEq, Repr

abbrev MoverCmd := StreamCmd MoverStream MoverEvent MoverTask

abbrev MoverClock := StreamClock MoverStream MoverEvent MoverTask

/-- `create_micro_batches` makes new events, but for those of the cache lines. -/
def engineEvent (batch : ℕ) : EngineEvent → MoverEvent
  | .offloadKv cacheLine => .engine 0 (.offloadKv cacheLine)
  | e => .engine batch e

/-- The layer whose experts a task computes. -/
def Task.moeLayer : Task → Option ℕ
  | .moe layerId _ | .postAttention layerId _ => some layerId
  | _ => none

/-- The layer whose experts a call computes. -/
def Call.moeLayer : Call → Option ℕ
  | .layer layerId _ _ | .postAttention layerId _ _ => some layerId
  | _ => none

/-- A call, with the experts that the tokens of its kernel are routed to. -/
structure RoutedCall (α : Type*) where
  call : MoverCall α
  routed : List ℕ

/-- The host of the engine and the mover. -/
structure MoverHost (cfg : EngineConfig) (α : Type*) where
  mover : MoverState cfg α
  enqueue : EnqueueState
  batch : ℕ

section Host

/-- The host after `init_gpu_experts`. -/
def MoverHost.start (cfg : EngineConfig) (weights : WeightState α) : MoverHost cfg α where
  mover := .start cfg weights
  enqueue := .start weights.weightsPrefetchPageGpu
  batch := 0

/-- The host after a call. -/
def MoverHost.next (h : MoverHost cfg α) (c : RoutedCall α) : MoverHost cfg α where
  mover := moverStep h.mover c.call
  enqueue :=
    match c.call with
    | .engine numMb call =>
        if (weightStep cfg numMb h.mover.weights call).isSome then
          enqueueStep cfg.numHiddenLayers numMb h.enqueue call
        else h.enqueue
    | .newBatch => .start h.enqueue.weightsPrefetchPageGpu
    | .reset => .start 0
    | _ => h.enqueue
  batch :=
    match c.call with
    | .newBatch => h.batch + 1
    | _ => h.batch

/-- A task of the engine: a kernel looks its rows up in the mapping. -/
def MoverHost.engineTask (h : MoverHost cfg α) (routed : List ℕ) (t : Task) : MoverTask :=
  match t.moeLayer with
  | some layerId => .engine t (routed.map fun e => (e, h.mover.expertsMapping layerId e))
  | none => .engine t []

/-- What a call of the engine enqueues. One that raises enqueues nothing. -/
def engineCommands (h : MoverHost cfg α) (cacheLine : ℕ → ℕ) (routed : List ℕ) (numMb : ℕ)
    (call : Call) : List MoverCmd :=
  if (weightStep cfg numMb h.mover.weights call).isSome then
    (commands cfg.numHiddenLayers numMb cacheLine h.enqueue call).map
      (StreamCmd.map .engine (engineEvent h.batch) (h.engineTask routed))
  else []

/-- What `move_expert_to_gpu` enqueues: the copy, and the record of its event. -/
def toGpuCommands (env : MoveEnv α) (s : MoverState cfg α) (layerId expertId : ℤ)
    (targetDeviceId : Option ℤ) : List MoverCmd :=
  match canMoveToGpu cfg s.tracker layerId expertId,
    findFreeGpuSlot cfg s.tracker layerId.toNat with
  | none, some gpuSlot =>
      if (env.fails .enterDevice).isSome then []
      else match getExpertWeightsFromCpu env s layerId.toNat expertId.toNat with
        | none => []
        | some source =>
            if cfg.expertRows ≠ source.size then []
            else
              .launch .copy (.toSlot layerId.toNat expertId.toNat gpuSlot
                  (moveExpertToGpu env s layerId expertId targetDeviceId).2.1) ::
                if (env.fails .copy).isSome ∨ (env.fails .record).isSome then []
                else [.record (.gpu layerId.toNat expertId.toNat) .copy]
  | _, _ => []

/-- What `move_expert_to_cpu` enqueues. The host waits for the event of the last copy to
the GPU; an event that was never recorded is not in `sync_events`. -/
def toCpuCommands (env : MoveEnv α) (s : MoverState cfg α) (layerId expertId : ℤ) :
    List MoverCmd :=
  match s.tracker.getExpertLocation layerId expertId with
  | none => []
  | some loc =>
      if loc.location ≠ .gpuPersistent then []
      else if loc.cacheSlot < 0 then []
      else if (env.fails .synchronize).isSome then []
      else
        .synchronize (.gpu layerId.toNat expertId.toNat) ::
          if (env.fails .enterDevice).isSome then []
          else match (getOrAllocateCpuStorage env s layerId.toNat expertId.toNat).2 with
            | none => []
            | some storage =>
                if cfg.expertRows = 0 ∨ cfg.expertRows ≠ storage.size then []
                else
                  .launch .copy (.fromSlot layerId.toNat expertId.toNat loc.cacheSlot.toNat) ::
                    if (env.fails .copy).isSome ∨ (env.fails .record).isSome then []
                    else [.record (.cpu layerId.toNat expertId.toNat) .copy]

/-- What a call enqueues; `cacheLine` gives the cache lines of each batch. -/
def moverCommands (cacheLine : ℕ → ℕ → ℕ) (h : MoverHost cfg α) (c : RoutedCall α) :
    List MoverCmd :=
  match c.call with
  | .moveExpertToGpu layerId expertId target env =>
      toGpuCommands env h.mover layerId expertId target
  | .moveExpertToCpu layerId expertId env => toCpuCommands env h.mover layerId expertId
  | .engine numMb call => engineCommands h (cacheLine h.batch) c.routed numMb call
  | .newBatch | .reset => []

/-- What the calls enqueue, from `init_gpu_experts` on. -/
def moverProgram (cfg : EngineConfig) (cacheLine : ℕ → ℕ → ℕ) (weights : WeightState α)
    (calls : List (RoutedCall α)) : List MoverCmd :=
  issued MoverHost.next (moverCommands cacheLine) (MoverHost.start cfg weights) calls

/-- A call moves the host and the clock. -/
def moverStreamsStep (cfg : EngineConfig) (cacheLine : ℕ → ℕ → ℕ) :
    MoverHost cfg α × MoverClock → RoutedCall α → Option (MoverHost cfg α × MoverClock) :=
  issueStep MoverHost.next (moverCommands cacheLine) StreamClock.next

end Host

/-- The copy of a successful move is over before a kernel reads its row for the expert,
and the kernels that read a row are over before the copy of a successful move into it. -/
def MoveConflict : MoverTask → MoverTask → Prop
  | .toSlot layerId expertId slot true, .engine t reads =>
      t.moeLayer = some layerId ∧ (expertId, (slot : ℤ)) ∈ reads
  | .engine _ reads, .toSlot _ _ slot true => ∃ e, (e, (slot : ℤ)) ∈ reads
  | _, _ => False

/-- The host has waited for every successful copy into the row that the mapping names for
the expert. -/
def CopyAwaited (s : MoverHost cfg α × MoverClock) (l e : ℕ) : Prop :=
  ∀ a slot : ℕ, s.2.tasks[a]? = some (.toSlot l e slot true) →
    s.1.mover.expertsMapping l e = slot → a ∈ s.2.host

/-- The host has waited for every kernel that reads the slot. -/
def ReadersAwaited (s : MoverHost cfg α × MoverClock) (slot : ℕ) : Prop :=
  ∀ (a : ℕ) t reads e, s.2.tasks[a]? = some (.engine t reads) → (e, (slot : ℤ)) ∈ reads →
    a ∈ s.2.host

/-- Before a kernel, the host has waited for the copies of its experts; before a
successful move to the GPU, for the readers of its slot. -/
def HostWaited (s : MoverHost cfg α × MoverClock) (c : RoutedCall α) : Prop :=
  match c.call with
  | .engine _ call => ∀ l, call.moeLayer = some l → ∀ e ∈ c.routed, CopyAwaited s l e
  | .moveExpertToGpu layerId expertId _ env => ∀ l e slot : ℕ, layerId = l → expertId = e →
      GpuAdmits cfg s.1.mover.tracker l e slot → env.Tracks s.1.mover l e →
        env.fails .writeMapping = none → env.fails .exitDevice = none → ReadersAwaited s slot
  | _ => True

section Order

/-- The engine and the mover share no stream, event or task. -/
def moverSides : Sides MoverStream MoverEvent MoverTask Bool where
  stream
    | .engine _ => false
    | .copy => true
  event
    | .engine _ _ => false
    | .gpu _ _ | .cpu _ _ => true
  task
    | .engine _ _ => false
    | .toSlot _ _ _ _ | .fromSlot _ _ _ => true

theorem moveConflict_sides {u t : MoverTask} (h : MoveConflict u t) :
    moverSides.task u ≠ moverSides.task t := by
  cases u <;> cases t <;> simp_all [MoveConflict, moverSides]

variable {s : MoverHost cfg α × MoverClock} {cacheLine : ℕ → ℕ → ℕ}

theorem not_moveConflict_idle (u : MoverTask) (t : Task) : ¬ MoveConflict u (.engine t []) := by
  rcases u with _ | ⟨l, e, slot, _ | _⟩ | _ <;> simp [MoveConflict]

theorem not_moveConflict_failed (u : MoverTask) (l e slot : ℕ) :
    ¬ MoveConflict u (.toSlot l e slot false) := by
  cases u <;> simp [MoveConflict]

theorem not_moveConflict_fromSlot (u : MoverTask) (l e slot : ℕ) :
    ¬ MoveConflict u (.fromSlot l e slot) := by
  rcases u with _ | ⟨l, e, slot, _ | _⟩ | _ <;> simp [MoveConflict]

/-- A kernel conflicts with the copies of its experts. -/
theorem awaited_kernel_iff {t : Task} {l : ℕ} (ht : t.moeLayer = some l) (routed : List ℕ) :
    s.2.Awaited MoveConflict (s.1.engineTask routed t) ↔ ∀ e ∈ routed, CopyAwaited s l e := by
  simp only [MoverHost.engineTask, ht]
  constructor
  · intro h e he a slot hu hrow
    refine h a _ hu ⟨ht, ?_⟩
    exact List.mem_map.mpr ⟨e, he, by rw [hrow]⟩
  · intro h a u hu hconflict
    rcases u with _ | ⟨l', e, slot, _ | _⟩ | _
    · exact hconflict.elim
    · exact hconflict.elim
    · obtain ⟨hlayer, hmem⟩ := hconflict
      obtain rfl : l = l' := Option.some.inj (ht.symm.trans hlayer)
      obtain ⟨e', he', hpair⟩ := List.mem_map.mp hmem
      obtain ⟨rfl, hrow⟩ := Prod.mk.inj hpair
      exact h e' he' a slot hu hrow
    · exact hconflict.elim

/-- A copy into a slot conflicts with the kernels that read it. -/
theorem awaited_toSlot_iff {l e slot : ℕ} :
    s.2.Awaited MoveConflict (.toSlot l e slot true) ↔ ReadersAwaited s slot := by
  constructor
  · exact fun h a t reads e hu hmem => h a _ hu ⟨e, hmem⟩
  · intro h a u hu hconflict
    cases u with
    | engine t reads =>
        obtain ⟨e, hmem⟩ := hconflict
        exact h a t reads e hu hmem
    | toSlot l' e' slot' succeeded => cases succeeded <;> exact hconflict.elim
    | fromSlot l' e' slot' => exact hconflict.elim

/-- A call launches kernels of its own layer only. -/
theorem moeLayer_of_launch {numLayers numMb : ℕ} {line : ℕ → ℕ} {h : EnqueueState} {call : Call}
    {v : EngineStream} {t : Task} (ht : .launch v t ∈ commands numLayers numMb line h call) :
    t.moeLayer = none ∨ t.moeLayer = call.moeLayer := by
  cases call with
  | layer i j k =>
      simp only [commands, lastLayerCommands] at ht
      have htask : t = .attention i k ∨ t = .moe i k := by
        split_ifs at ht <;> simp only [List.mem_append, List.mem_cons, List.not_mem_nil] at ht <;>
          grind
      rcases htask with rfl | rfl
      · exact .inl rfl
      · exact .inr rfl
  | postAttention i j k =>
      simp only [commands, lastLayerCommands] at ht
      have htask : t = .postAttention i k := by
        split_ifs at ht <;> simp_all
      exact .inr (by rw [htask]; rfl)
  | prefetchExperts l p k stage => cases stage <;> simp_all [commands, Task.moeLayer]
  | offloadHiddenPrefill | loadHiddenPrefill =>
      simp only [commands] at ht
      split_ifs at ht <;> simp_all [Task.moeLayer]
  | prepareForDecode => simp [commands, List.mem_replicate] at ht
  | _ => simp_all [commands, Task.moeLayer]

/-- The work of a call that computes no experts waits for nothing. -/
theorem hostOrdered_idle {h : MoverHost cfg α} {line : ℕ → ℕ} {routed : List ℕ} {numMb : ℕ}
    {call : Call} (hcall : call.moeLayer = none) {cmd : MoverCmd}
    (hcmd : cmd ∈ engineCommands h line routed numMb call) (c : MoverClock) :
    HostOrdered MoveConflict c cmd := by
  rw [engineCommands] at hcmd
  split_ifs at hcmd
  · obtain ⟨cmd₀, hcmd₀, rfl⟩ := List.mem_map.mp hcmd
    cases cmd₀ with
    | launch v t =>
        have ht : t.moeLayer = none := (moeLayer_of_launch hcmd₀).elim id (·.trans hcall)
        have htask : h.engineTask routed t = .engine t [] := by simp [MoverHost.engineTask, ht]
        simp only [StreamCmd.map, HostOrdered, htask]
        exact StreamClock.awaited_of_never fun u => not_moveConflict_idle u t
    | _ => trivial
  · simp at hcmd

theorem hostOrdered_engine (line : ℕ → ℕ) (routed : List ℕ) (numMb : ℕ) (call : Call) :
    Along clockStep (HostOrdered MoveConflict) s.2 (engineCommands s.1 line routed numMb call) ↔
      ∀ l, call.moeLayer = some l → ∀ e ∈ routed, CopyAwaited s l e := by
  cases hcall : call.moeLayer with
  | none =>
      simp only [reduceCtorEq, false_implies, implies_true, iff_true]
      exact Along.of_forall fun c cmd hcmd => hostOrdered_idle hcall hcmd c
  | some l =>
      have hkernel : ∀ t : Task, t.moeLayer = some l →
          (s.2.Awaited MoveConflict (s.1.engineTask routed t) ↔
            ∀ e ∈ routed, CopyAwaited s l e) :=
        fun t ht => awaited_kernel_iff ht routed
      simp only [Option.some.injEq, forall_eq']
      cases call with
      | layer i j k =>
          obtain rfl : i = l := Option.some.inj hcall
          rw [← hkernel (.moe i k) rfl]
          have hidle : s.1.engineTask routed (.attention i k) = .engine (.attention i k) [] := rfl
          have hone : ¬ MoveConflict (.engine (.attention i k) [])
              (s.1.engineTask routed (.moe i k)) := fun h => h
          simp only [engineCommands, weightStep, Option.isSome_some, if_true, commands,
            lastLayerCommands]
          split_ifs <;>
            simp [StreamCmd.map, clockStep, HostOrdered, hidle, StreamClock.awaited_launch hone,
              StreamClock.awaited_of_never (fun u => not_moveConflict_idle u _)]
      | postAttention i j k =>
          obtain rfl : i = l := Option.some.inj hcall
          rw [← hkernel (.postAttention i k) rfl]
          simp only [engineCommands, weightStep, Option.isSome_some, if_true, commands,
            lastLayerCommands]
          split_ifs <;> simp [StreamCmd.map, clockStep, HostOrdered]
      | _ => simp [Call.moeLayer] at hcall

/-- An admitted move has its effect. -/
theorem moveExpertToGpu_effect (env : MoveEnv α) {s : MoverState cfg α} {l e slot : ℕ}
    (hadmits : GpuAdmits cfg s.tracker l e slot) (target : Option ℤ) :
    ToGpuEffect env s l e slot (target.getD 0) (moveExpertToGpu env s l e target) := by
  rcases moveExpertToGpu_cases env s l e target with ⟨l', e', slot', hl, he, hadmits', heff⟩ | h
  · obtain rfl : l = l' := by exact_mod_cast hl
    obtain rfl : e = e' := by exact_mod_cast he
    obtain rfl : slot' = slot := Option.some.inj (hadmits'.2.symm.trans hadmits.2)
    exact heff
  · exact absurd hadmits (h.1 l e slot rfl rfl)

/-- A move that is not admitted enqueues nothing. -/
theorem toGpuCommands_refused {env : MoveEnv α} {s : MoverState cfg α} {layerId expertId : ℤ}
    {target : Option ℤ}
    (h : ∀ l e slot : ℕ, layerId = l → expertId = e → ¬ GpuAdmits cfg s.tracker l e slot) :
    toGpuCommands env s layerId expertId target = [] := by
  rw [toGpuCommands]
  split
  · rename_i slot hcan hfind
    obtain ⟨l, e, rfl, rfl, -, -⟩ := (canMoveToGpu_eq_none.mp hcan).1.exists_natCast
    exact absurd ⟨hcan, hfind⟩ (h l e slot rfl rfl)
  · rfl

theorem mem_toGpuCommands {env : MoveEnv α} {s : MoverState cfg α} {layerId expertId : ℤ}
    {target : Option ℤ} {cmd : MoverCmd}
    (hcmd : cmd ∈ toGpuCommands env s layerId expertId target) :
    (∃ slot, cmd = .launch .copy (.toSlot layerId.toNat expertId.toNat slot
        (moveExpertToGpu env s layerId expertId target).2.1)) ∨
      cmd = .record (.gpu layerId.toNat expertId.toNat) .copy := by
  rw [toGpuCommands] at hcmd
  split at hcmd
  · rename_i slot hcan hfind
    cases hget : getExpertWeightsFromCpu env s layerId.toNat expertId.toNat with
    | none => simp [hget] at hcmd
    | some source =>
        simp only [hget] at hcmd
        split_ifs at hcmd
        · simp at hcmd
        · simp at hcmd
        · exact .inl ⟨slot, List.mem_singleton.mp hcmd⟩
        · rcases List.mem_cons.mp hcmd with hcmd | hcmd
          · exact .inl ⟨slot, hcmd⟩
          · exact .inr (List.mem_singleton.mp hcmd)
  · simp at hcmd

/-- A successful move enqueues the copy and the record. -/
theorem toGpuCommands_succeeded {env : MoveEnv α} {s : MoverState cfg α} {l e slot : ℕ}
    {target : Option ℤ} (hadmits : GpuAdmits cfg s.tracker l e slot)
    (hok : (moveExpertToGpu env s l e target).2.1 = true) :
    toGpuCommands env s l e target =
      [.launch .copy (.toSlot l e slot true), .record (.gpu l e) .copy] := by
  obtain ⟨⟨henter, hprovide, hcopy, hrecord⟩, -⟩ :=
    (moveExpertToGpu_effect env hadmits target).succeeded_iff.mp hok
  have hsome : getExpertWeightsFromCpu env s l e ≠ none := fun h =>
    getExpertWeightsFromCpu_eq_none.mp h hprovide
  obtain ⟨source, hsource⟩ := Option.ne_none_iff_exists'.mp hsome
  simp [toGpuCommands, hadmits.1, hadmits.2, henter, hsource, source.size_eq, hcopy, hrecord, hok]

theorem hostOrdered_toGpu (env : MoveEnv α) (layerId expertId : ℤ) (target : Option ℤ) :
    Along clockStep (HostOrdered MoveConflict) s.2
        (toGpuCommands env s.1.mover layerId expertId target) ↔
      ∀ l e slot : ℕ, layerId = l → expertId = e →
        GpuAdmits cfg s.1.mover.tracker l e slot → env.Tracks s.1.mover l e →
          env.fails .writeMapping = none → env.fails .exitDevice = none →
            ReadersAwaited s slot := by
  by_cases h : ∃ l e slot : ℕ, layerId = l ∧ expertId = e ∧
      GpuAdmits cfg s.1.mover.tracker l e slot
  · obtain ⟨l, e, slot, rfl, rfl, hadmits⟩ := h
    have hsucceeded := (moveExpertToGpu_effect env hadmits target).succeeded_iff
    cases hok : (moveExpertToGpu env s.1.mover l e target).2.1 with
    | true =>
        obtain ⟨htracks, hwrite, hexit⟩ := hsucceeded.mp hok
        rw [toGpuCommands_succeeded hadmits hok]
        simp only [along_cons, HostOrdered, awaited_toSlot_iff, along_nil, implies_true, and_self,
          and_true]
        constructor
        · intro hreaders l' e' slot' hl he hadmits' _ _ _
          obtain rfl : l = l' := by exact_mod_cast hl
          obtain rfl : slot = slot' := Option.some.inj (hadmits.2.symm.trans hadmits'.2)
          exact hreaders
        · exact fun hall => hall l e slot rfl rfl hadmits htracks hwrite hexit
    | false =>
        refine iff_of_true (Along.of_forall fun c cmd hcmd => ?_) ?_
        · rcases mem_toGpuCommands hcmd with ⟨slot', rfl⟩ | rfl
          · rw [hok]
            exact StreamClock.awaited_of_never fun u => not_moveConflict_failed u _ _ slot'
          · trivial
        · intro l' e' slot' hl he _ htracks hwrite hexit
          obtain rfl : l = l' := by exact_mod_cast hl
          obtain rfl : e = e' := by exact_mod_cast he
          rw [hok] at hsucceeded
          exact absurd (hsucceeded.mpr ⟨htracks, hwrite, hexit⟩) Bool.false_ne_true
  · have hrefused : ∀ l e slot : ℕ, layerId = l → expertId = e →
        ¬ GpuAdmits cfg s.1.mover.tracker l e slot :=
      fun l e slot hl he hadmits => h ⟨l, e, slot, hl, he, hadmits⟩
    rw [toGpuCommands_refused hrefused]
    exact iff_of_true trivial fun l e slot hl he hadmits => absurd hadmits (hrefused l e slot hl he)

theorem mem_toCpuCommands {env : MoveEnv α} {s : MoverState cfg α} {layerId expertId : ℤ}
    {cmd : MoverCmd} (hcmd : cmd ∈ toCpuCommands env s layerId expertId) :
    cmd = .synchronize (.gpu layerId.toNat expertId.toNat) ∨
      (∃ slot, cmd = .launch .copy (.fromSlot layerId.toNat expertId.toNat slot)) ∨
        cmd = .record (.cpu layerId.toNat expertId.toNat) .copy := by
  cases hloc : s.tracker.getExpertLocation layerId expertId with
  | none => simp [toCpuCommands, hloc] at hcmd
  | some loc =>
      simp only [toCpuCommands, hloc] at hcmd
      split_ifs at hcmd
      · simp at hcmd
      · simp at hcmd
      · simp at hcmd
      · exact .inl (List.mem_singleton.mp hcmd)
      all_goals
        cases hget : (getOrAllocateCpuStorage env s layerId.toNat expertId.toNat).2 with
        | none => exact .inl (by simpa [hget] using hcmd)
        | some storage =>
            simp only [hget] at hcmd
            split_ifs at hcmd <;> simp only [List.mem_cons, List.not_mem_nil, or_false] at hcmd <;>
              grind

/-- A move to the CPU conflicts with nothing. -/
theorem hostOrdered_toCpu (env : MoveEnv α) (layerId expertId : ℤ) :
    Along clockStep (HostOrdered MoveConflict) s.2
      (toCpuCommands env s.1.mover layerId expertId) := by
  refine Along.of_forall fun c cmd hcmd => ?_
  rcases mem_toCpuCommands hcmd with rfl | ⟨slot, rfl⟩ | rfl
  · trivial
  · exact StreamClock.awaited_of_never fun u => not_moveConflict_fromSlot u _ _ slot
  · trivial

theorem hostOrdered_iff {c : RoutedCall α} :
    Along clockStep (HostOrdered MoveConflict) s.2 (moverCommands cacheLine s.1 c) ↔
      HostWaited s c := by
  obtain ⟨call, routed⟩ := c
  cases call with
  | moveExpertToGpu layerId expertId target env =>
      exact hostOrdered_toGpu env layerId expertId target
  | moveExpertToCpu layerId expertId env => exact iff_of_true (hostOrdered_toCpu env _ _) trivial
  | engine numMb call => exact hostOrdered_engine _ routed numMb call
  | newBatch | reset => exact iff_of_true trivial trivial

/-- Every call keeps to the sides. -/
theorem keeps_moverCommands (h : MoverHost cfg α) (c : RoutedCall α) :
    ∀ cmd ∈ moverCommands cacheLine h c, cmd.Keeps moverSides := by
  intro cmd hcmd
  obtain ⟨call, routed⟩ := c
  cases call with
  | moveExpertToGpu layerId expertId target env =>
      rcases mem_toGpuCommands hcmd with ⟨slot, rfl⟩ | rfl <;> rfl
  | moveExpertToCpu layerId expertId env =>
      rcases mem_toCpuCommands hcmd with rfl | ⟨slot, rfl⟩ | rfl
      · trivial
      · rfl
      · rfl
  | engine numMb call =>
      simp only [moverCommands, engineCommands] at hcmd
      split_ifs at hcmd
      · obtain ⟨cmd₀, -, rfl⟩ := List.mem_map.mp hcmd
        have hstream : ∀ s, moverSides.stream (.engine s) = false := fun _ => rfl
        have hevent : ∀ e, moverSides.event (engineEvent h.batch e) = false := by
          intro e
          cases e <;> rfl
        have htask : ∀ t, moverSides.task (h.engineTask routed t) = false := by
          intro t
          cases t <;> rfl
        exact StreamCmd.keeps_map hstream hevent htask cmd₀
      · simp at hcmd
  | newBatch | reset => simp [moverCommands] at hcmd

end Order

/-- The program is in order exactly when, at every launch, the host has waited for what
conflicts with it. -/
theorem moves_inOrder_along (cfg : EngineConfig) (cacheLine : ℕ → ℕ → ℕ) (weights : WeightState α)
    (calls : List (RoutedCall α)) :
    InOrder MoveConflict (moverProgram cfg cacheLine weights calls) ↔
      Along (moverStreamsStep cfg cacheLine)
        (fun s c =>
          Along clockStep (HostOrdered MoveConflict) s.2 (moverCommands cacheLine s.1 c))
        (MoverHost.start cfg weights, StreamClock.start) calls := by
  have hkeeps : ∀ cmd ∈ moverProgram cfg cacheLine weights calls, cmd.Keeps moverSides :=
    forall_mem_issued fun h c _ => keeps_moverCommands h c
  exact (inOrder_iff_host (fun _ _ => moveConflict_sides) hkeeps).trans along_issued

section Pending

/-- The streams of the engine. -/
def EngineSide : Set MoverStream := {s | moverSides.stream s = false}

/-- The events of the engine. -/
def EngineEvents : Set MoverEvent := {e | moverSides.event e = false}

/-- The expert owns the slot, and the copy that fills it is unknown to the engine. -/
structure CopyPending (l e slot : ℕ) (s : MoverHost cfg α × MoverClock) : Prop where
  owned : s.1.mover.tracker.slotOf l e = some (slot : ℤ)
  mapped : s.1.mover.expertsMapping l e = slot
  pending : ∃ a, s.2.tasks[a]? = some (.toSlot l e slot true) ∧
    Unseen a EngineSide EngineEvents s.2

/-- The call is no move to the CPU. -/
def RoutedCall.Stays (c : RoutedCall α) : Prop := ∀ l e env, c.call ≠ .moveExpertToCpu l e env

variable {s : MoverHost cfg α × MoverClock} {cacheLine : ℕ → ℕ → ℕ} {l e slot : ℕ}

/-- Only a move to the CPU waits for a copy. -/
theorem closed_moverCommands {h : MoverHost cfg α} {c : RoutedCall α} (hc : c.Stays) :
    ∀ cmd ∈ moverCommands cacheLine h c, cmd.Closed EngineSide EngineEvents := by
  intro cmd hcmd
  refine (keeps_moverCommands h c cmd hcmd).closed ?_
  obtain ⟨call, routed⟩ := c
  cases call with
  | moveExpertToGpu layerId expertId target env =>
      rcases mem_toGpuCommands hcmd with ⟨slot, rfl⟩ | rfl <;> trivial
  | moveExpertToCpu layerId expertId env => exact absurd rfl (hc layerId expertId env)
  | engine numMb call =>
      simp only [moverCommands, engineCommands] at hcmd
      split_ifs at hcmd
      · obtain ⟨cmd₀, -, rfl⟩ := List.mem_map.mp hcmd
        cases cmd₀ with
        | synchronize e => cases e <;> rfl
        | drain s => rfl
        | _ => trivial
      · simp at hcmd
  | newBatch | reset => simp [moverCommands] at hcmd

/-- Until a move to the CPU, the expert keeps its slot and the copy stays unknown. -/
theorem CopyPending.next (hs : CopyPending l e slot s) {c : RoutedCall α} (hc : c.Stays) :
    CopyPending l e slot (s.1.next c, s.2.run (moverCommands cacheLine s.1 c)) := by
  have hpending : ∃ a, (s.2.run (moverCommands cacheLine s.1 c)).tasks[a]? =
      some (.toSlot l e slot true) ∧
        Unseen a EngineSide EngineEvents (s.2.run (moverCommands cacheLine s.1 c)) :=
    hs.pending.imp fun _ ha => ⟨s.2.tasks_run _ ha.1, ha.2.run (closed_moverCommands hc)⟩
  suffices hrecords : (s.1.next c).mover.tracker.slotOf l e = some (slot : ℤ) ∧
      (s.1.next c).mover.expertsMapping l e = slot from ⟨hrecords.1, hrecords.2, hpending⟩
  obtain ⟨call, routed⟩ := c
  cases call with
  | moveExpertToGpu layerId expertId target env =>
      rcases moveExpertToGpu_cases env s.1.mover layerId expertId target with
        ⟨l', e', slot', rfl, rfl, hadmits, heff⟩ | ⟨-, hsame, -⟩
      · have hne : ¬ (l = l' ∧ e = e') := by
          rintro ⟨rfl, rfl⟩
          have hnone : s.1.mover.tracker.slotOf l e = none :=
            (canMoveToGpu_eq_none.mp hadmits.1).2.1
          simp [hs.owned] at hnone
        simp only [MoverHost.next, moverStep, heff.tracker_eq, heff.mapping_eq]
        constructor
        · split_ifs
          · rw [ExpertTracker.slotOf_put_gpu, put_of_ne hne]
            exact hs.owned
          · exact hs.owned
        · split_ifs
          · rw [put_of_ne hne]
            exact hs.mapped
          · exact hs.mapped
      · simp only [MoverHost.next, moverStep, hsame]
        exact ⟨hs.owned, hs.mapped⟩
  | moveExpertToCpu layerId expertId env => exact absurd rfl (hc layerId expertId env)
  | engine numMb call => exact ⟨hs.owned, hs.mapped⟩
  | newBatch | reset => exact ⟨hs.owned, hs.mapped⟩

/-- A successful move leaves its copy pending. -/
theorem CopyPending.of_move (hsane : s.2.Sane) {env : MoveEnv α} {target : Option ℤ}
    (hadmits : GpuAdmits cfg s.1.mover.tracker l e slot)
    (hok : (moveExpertToGpu env s.1.mover l e target).2.1 = true) (routed : List ℕ) :
    CopyPending l e slot (s.1.next ⟨.moveExpertToGpu l e target env, routed⟩,
      s.2.run (moverCommands cacheLine s.1 ⟨.moveExpertToGpu l e target env, routed⟩)) := by
  have heff := moveExpertToGpu_effect env hadmits target
  obtain ⟨htracks, hwrite, -⟩ := heff.succeeded_iff.mp hok
  have hcommands : moverCommands cacheLine s.1 ⟨.moveExpertToGpu l e target env, routed⟩ =
      [.launch .copy (.toSlot l e slot true), .record (.gpu l e) .copy] :=
    toGpuCommands_succeeded hadmits hok
  refine ⟨?_, ?_, s.2.tasks.length, ?_, ?_⟩
  · simp [MoverHost.next, moverStep, heff.tracker_eq, htracks, ExpertTracker.slotOf_put_gpu]
  · simp [MoverHost.next, moverStep, heff.mapping_eq, htracks, hwrite]
  · rw [hcommands]
    simp [StreamClock.run, StreamClock.next]
  · have hengine : EngineSide ⊆ {s | s ≠ .copy} := by
      rintro s hs rfl
      simp [EngineSide, moverSides] at hs
    have hnew : Unseen s.2.tasks.length EngineSide EngineEvents
        (s.2.next (.launch .copy (.toSlot l e slot true))) :=
      (Unseen.launch hsane .copy _).mono hengine (Set.subset_univ _)
    have hrecord : (StreamCmd.record (.gpu l e) .copy : MoverCmd).Closed EngineSide
        EngineEvents := by
      simp [StreamCmd.Closed, EngineEvents, moverSides]
    simp only [hcommands]
    exact hnew.next hrecord

theorem CopyPending.not_awaited (hs : CopyPending l e slot s) : ¬ CopyAwaited s l e := by
  obtain ⟨a, ha, hunseen⟩ := hs.pending
  exact fun h => hunseen.host (h a slot ha hs.mapped)

/-- Every call executes, and moves the mover. -/
theorem exec_moverStreams (calls : List (RoutedCall α)) {s : MoverHost cfg α × MoverClock}
    (hsane : s.2.Sane) : ∃ t, exec (moverStreamsStep cfg cacheLine) s calls = some t ∧
      t.1.mover = moverRun s.1.mover (calls.map RoutedCall.call) ∧ t.2.Sane := by
  induction calls generalizing s with
  | nil => exact ⟨s, rfl, rfl, hsane⟩
  | cons c calls ih =>
      have hnext : (s.2.run (moverCommands cacheLine s.1 c)).Sane :=
        foldl_preserves (fun _ cmd _ h => h.next cmd) hsane
      obtain ⟨t, ht, hmover, hend⟩ := ih (s := (s.1.next c, _)) hnext
      exact ⟨t, ht, hmover, hend⟩

/-- Until the next move to the CPU, every kernel that computes an expert just moved to
the GPU may run before its weights are there. -/
theorem kernel_not_inOrder {weights : WeightState α} (as bs cs : List (RoutedCall α))
    {env : MoveEnv α} {target : Option ℤ} {routed experts : List ℕ} {numMb : ℕ} {call : Call}
    (hok : (moveExpertToGpu env (moverRun (.start cfg weights) (as.map RoutedCall.call)) l e
      target).2.1 = true)
    (hbs : ∀ c ∈ bs, c.Stays) (hcall : call.moeLayer = some l) (he : e ∈ experts) :
    ¬ InOrder MoveConflict (moverProgram cfg cacheLine weights
      (as ++ ⟨.moveExpertToGpu l e target env, routed⟩ :: bs ++
        ⟨.engine numMb call, experts⟩ :: cs)) := by
  obtain ⟨t, ht, hmover, hsane⟩ : ∃ t, exec (moverStreamsStep cfg cacheLine)
      (MoverHost.start cfg weights, StreamClock.start) as = some t ∧
      t.1.mover = moverRun (.start cfg weights) (as.map RoutedCall.call) ∧ t.2.Sane :=
    exec_moverStreams as (StreamClock.sane_run [])
  rw [← hmover] at hok
  rcases moveExpertToGpu_cases env t.1.mover l e target with
    ⟨l', e', slot, hl, he', hadmits, -⟩ | ⟨-, -, hfailed⟩
  · obtain rfl : l = l' := by exact_mod_cast hl
    obtain rfl : e = e' := by exact_mod_cast he'
    have hrun : Runs (moverStreamsStep cfg cacheLine) (fun _ _ => True) (CopyPending l e slot) bs
        (CopyPending l e slot) :=
      Runs.keep fun s c hc hs => ⟨trivial, _, rfl, hs.next (hbs c hc)⟩
    obtain ⟨-, u, hu, hpending⟩ := hrun _ (CopyPending.of_move hsane hadmits hok routed)
    have hexec : exec (moverStreamsStep cfg cacheLine)
        (MoverHost.start cfg weights, StreamClock.start)
        (as ++ ⟨.moveExpertToGpu l e target env, routed⟩ :: bs) = some u := by
      rw [exec_append, ht]
      exact hu
    intro horder
    have hwaited : HostWaited u ⟨.engine numMb call, experts⟩ :=
      hostOrdered_iff.mp (((moves_inOrder_along cfg cacheLine weights _).mp horder).at hexec)
    exact hpending.not_awaited (hwaited l hcall e he)
  · simp [hok] at hfailed

end Pending

/-- Whatever calls come in whatever order, no kernel reads the row of a successful move
before its copy is done, and no copy of a successful move overwrites a row before the
earlier kernels that read it are done, exactly when at every call the host has waited for
them. -/
theorem moves_inOrder_iff (cfg : EngineConfig) (cacheLine : ℕ → ℕ → ℕ) (weights : WeightState α)
    (calls : List (RoutedCall α)) :
    InOrder MoveConflict (moverProgram cfg cacheLine weights calls) ↔
      Along (moverStreamsStep cfg cacheLine) HostWaited
        (MoverHost.start cfg weights, StreamClock.start) calls := by
  refine (moves_inOrder_along cfg cacheLine weights calls).trans ⟨fun h => ?_, fun h => ?_⟩
  · exact h.imp fun s c _ hc => hostOrdered_iff.mp hc
  · exact h.imp fun s c _ hc => hostOrdered_iff.mpr hc

/-- Expert 0 of layer 0 makes room for expert 1, and the next kernel computes expert 1. -/
theorem moves_not_inOrder_swap :
    ¬ ∀ (cacheLine : ℕ → ℕ → ℕ) (weights : WeightState ℕ) (calls : List (RoutedCall ℕ)),
      InOrder MoveConflict
        (moverProgram (EngineConfig.small 3 (by decide)) cacheLine weights calls) := by
  intro hall
  have horder := hall (fun _ _ => 0) ⟨fun _ => 0, fun _ => 0, fun _ => 0, 0, 0, fun _ => none⟩
    [⟨.moveExpertToCpu 0 0 (.calm fun _ => 0), []⟩,
      ⟨.moveExpertToGpu (0 : ℕ) (1 : ℕ) none (.calm fun _ => 0), []⟩,
      ⟨.engine 1 (.layer 0 0 0), [1]⟩]
  have hlayer : (Call.layer 0 0 0).moeLayer = some 0 := rfl
  refine kernel_not_inOrder [_] [] [] ?_ (List.forall_mem_nil _) hlayer (List.mem_singleton_self 1)
    horder
  decide +kernel

end HarvestMoE
