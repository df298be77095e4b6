import HarvestMoE.EngineStreams
import HarvestMoE.Lookahead

/-!
# Reuse of the cache lines of the GPU

The micro-batches share the cache lines of the GPU. A prefill attention overwrites its
line, whose last user may be another micro-batch or layer, and a CPU attention reads
what the prefill of its micro-batch has stored. Both are ordered by two facts that hold
between any two calls: the event of a line is behind every store from it, and so is the
offload stream, which every query of the decode phase passes.

## Main definitions

* `LineConflict` — a store, and an attention that overwrites its line or reads it.
* `LinesStored` — the invariant.
* `lines_inOrder` — the order in every interleaving of a batch.
-/

namespace HarvestMoE

open Lib

/-- A store from a cache line is over before the line is overwritten, and before a CPU
attention of its micro-batch starts. -/
def LineConflict (cacheLine : ℕ → ℕ) : Task → Task → Prop
  | .storeKv _ k', .attention _ k => cacheLine k' = cacheLine k
  | .storeKv _ k', .cpuAttention _ k => k' = k
  | _, _ => False

/-- The cache line that a store reads. -/
def Task.storedLine (cacheLine : ℕ → ℕ) : Task → Option ℕ
  | .storeKv _ batchId => some (cacheLine batchId)
  | _ => none

/-- The cache line whose stores an attention comes after. -/
def Task.usedLine (cacheLine : ℕ → ℕ) : Task → Set ℕ
  | .attention _ batchId | .cpuAttention _ batchId => {cacheLine batchId}
  | _ => ∅

/-- The event of a line, and the offload stream, know every store from it. -/
structure LinesStored (s : EnqueueState × ClassClock ℕ EngineStream EngineEvent) : Prop where
  offload : ∀ c, c ∈ s.2.stream .offload
  stored : ∀ c, c ∈ s.2.event (.offloadKv c)

/-- The calls execute in order from the invariant to the invariant. -/
def KeepsLines (numLayers numMb : ℕ) (cacheLine : ℕ → ℕ) (cs : List Call) : Prop :=
  ClassRuns numLayers numMb cacheLine (Task.storedLine cacheLine) (Task.usedLine cacheLine)
    LinesStored cs LinesStored

section Lines

variable {numLayers numMb : ℕ} {cacheLine : ℕ → ℕ}

theorem lineConflict_classifies : Classifies (Task.storedLine cacheLine) (Task.usedLine cacheLine)
    (LineConflict cacheLine) := by
  intro u t h
  cases u with
  | storeKv i' k' =>
      refine ⟨_, rfl, ?_⟩
      cases t with
      | attention i k => exact h
      | cpuAttention i k => exact congrArg cacheLine h
      | _ => exact h.elim
  | _ => exact h.elim

/-- Before the decode loop waits for the current stream, nothing changes but what the
host knows. -/
theorem LinesStored.drained {s : EnqueueState × ClassClock ℕ EngineStream EngineEvent}
    (hs : LinesStored s) : LinesStored (enqueueStep numLayers numMb s.1 .prepareForDecode,
      s.2.run (Task.storedLine cacheLine) (List.replicate numMb (.drain .cur))) := by
  cases numMb with
  | zero => exact ⟨hs.offload, hs.stored⟩
  | succ n =>
      rw [ClassClock.run_drains]
      exact ⟨hs.offload, hs.stored⟩

/-- A call that starts no CPU attention keeps the offload stream and the events. -/
theorem LinesStored.call {c : Call} (hc : ∀ i k, c ≠ .cpuAttention i k)
    {s : EnqueueState × ClassClock ℕ EngineStream EngineEvent} (hs : LinesStored s) :
    ∃ t, classesStep numLayers numMb cacheLine (Task.storedLine cacheLine) s c = some t ∧
      LinesStored t := by
  refine ⟨_, rfl, ?_⟩
  cases c with
  | cpuAttention i k => exact absurd rfl (hc i k)
  | prepareForDecode => exact hs.drained
  | prefetchExperts l p k stage =>
      cases stage <;> constructor <;>
        simp [commands, ClassClock.next, Task.storedLine, hs.offload, hs.stored]
  | offloadKvCache i k =>
      refine ⟨by simp [commands, ClassClock.next, hs.offload], fun c => ?_⟩
      -- the store is new to its line's event until the event is recorded again
      by_cases hline : c = cacheLine k
      · simp [commands, ClassClock.next, hline, hs.offload]
      · simp [commands, ClassClock.next, Task.storedLine, hline, Ne.symm hline, hs.stored]
  | layer | offloadHiddenPrefill | loadHiddenPrefill | postAttention =>
      simp only [commands, lastLayerCommands]
      split_ifs <;> constructor <;>
        simp [ClassClock.next, Task.storedLine, hs.offload, hs.stored]
  | _ =>
      constructor <;> simp [commands, ClassClock.next, Task.storedLine, hs.offload, hs.stored]

/-- The calls that start no CPU attention are in order: an attention waits for the event
of its line. -/
theorem LinesStored.ordered {c : Call} (hc : ∀ i k, c ≠ .cpuAttention i k)
    {s : EnqueueState × ClassClock ℕ EngineStream EngineEvent} (hs : LinesStored s) :
    CallClassOrdered numLayers numMb cacheLine (Task.storedLine cacheLine)
      (Task.usedLine cacheLine) s c := by
  cases c with
  | cpuAttention i k => exact absurd rfl (hc i k)
  | prepareForDecode =>
      refine Along.of_forall fun _ cmd hcmd => ?_
      rw [List.eq_of_mem_replicate hcmd]
      trivial
  | prefetchExperts l p k stage =>
      cases stage <;> simp [CallClassOrdered, commands, classStep, ClassOrdered, Task.usedLine]
  | layer i j k =>
      simp only [CallClassOrdered, commands, lastLayerCommands]
      split_ifs <;>
        simp [classStep, ClassClock.next, ClassOrdered, Task.storedLine, Task.usedLine, hs.stored]
  | offloadHiddenPrefill | loadHiddenPrefill | postAttention =>
      simp only [CallClassOrdered, commands, lastLayerCommands]
      split_ifs <;> simp [classStep, ClassOrdered, Task.usedLine]
  | _ => simp [CallClassOrdered, commands, classStep, ClassOrdered, Task.usedLine]

theorem KeepsLines.of_forall {cs : List Call} (hcs : ∀ c ∈ cs, ∀ i k, c ≠ .cpuAttention i k) :
    KeepsLines numLayers numMb cacheLine cs :=
  Runs.keep fun _ c hc hs => ⟨hs.ordered (hcs c hc), hs.call (hcs c hc)⟩

theorem KeepsLines.append {as bs : List Call} (ha : KeepsLines numLayers numMb cacheLine as)
    (hb : KeepsLines numLayers numMb cacheLine bs) :
    KeepsLines numLayers numMb cacheLine (as ++ bs) :=
  Runs.append ha hb

theorem KeepsLines.loop {f : ℕ → List Call} (n : ℕ)
    (h : ∀ i, KeepsLines numLayers numMb cacheLine (f i)) :
    KeepsLines numLayers numMb cacheLine ((List.range n).flatMap f) :=
  Runs.loop n fun i _ => h i

/-- The query that the offload stream passes on brings its stores with it. -/
theorem lines_attentionCalls (i k : ℕ) :
    KeepsLines numLayers numMb cacheLine (attentionCalls i k) := by
  have hqkv : ClassRuns numLayers numMb cacheLine (Task.storedLine cacheLine)
      (Task.usedLine cacheLine) LinesStored [.offloadQkv i k]
      (fun s => LinesStored s ∧ cacheLine k ∈ s.2.event (.offloadQkv k)) := by
    refine Runs.single fun s hs => ⟨hs.ordered (by simp), ?_⟩
    have hcall : ∃ t, classesStep numLayers numMb cacheLine (Task.storedLine cacheLine) s
        (.offloadQkv i k) = some t ∧ LinesStored t := hs.call (by simp)
    obtain ⟨t, ht, hlines⟩ := hcall
    refine ⟨t, ht, hlines, ?_⟩
    rw [← Option.some.inj ht]
    simp [commands, ClassClock.next, Task.storedLine, hs.offload]
  have hpre : KeepsLines numLayers numMb cacheLine [.preAttention i k] := .of_forall (by simp)
  refine Runs.cons hpre (Runs.cons hqkv (Runs.single fun s hs => ⟨?_, _, rfl, ?_⟩))
  · simp [CallClassOrdered, commands, classStep, ClassClock.next, ClassOrdered, Task.usedLine, hs.2]
  · constructor <;>
      simp [commands, ClassClock.next, Task.storedLine, hs.1.offload, hs.1.stored]

theorem lines_lookAheadCalls (i k : ℕ) :
    KeepsLines numLayers numMb cacheLine (lookAheadCalls numLayers numMb i k) := by
  rw [lookAheadCalls]
  split_ifs
  · exact lines_attentionCalls i (k + 2)
  · exact lines_attentionCalls (i + 1) ((k + 2) % numMb)
  · exact Runs.nil fun _ => id
  · exact Runs.nil fun _ => id

theorem lines_decodeStepCalls :
    KeepsLines numLayers numMb cacheLine (decodeStepCalls numLayers 1 numMb) := by
  have hrelay : ∀ i k, ∀ c ∈ relayCalls numLayers 1 numMb i 0 k, ∀ i' k', c ≠ .cpuAttention i' k' := by
    intro i k c hc
    rw [relayCalls] at hc
    split at hc
    · simp [List.mem_singleton.mp hc]
    · simp at hc
  have hprologue : KeepsLines numLayers numMb cacheLine
      ((List.range (min 2 numMb)).flatMap (prologueCalls 1)) :=
    .loop _ fun k => (lines_attentionCalls 0 k).append (.of_forall (by simp))
  have hlayer : ∀ i, KeepsLines numLayers numMb cacheLine (decodeLayerCalls numLayers 1 numMb i) := by
    intro i
    rw [decodeLayerCalls_one]
    refine .loop _ fun k => ?_
    rw [decodeBatchCalls_one]
    exact (KeepsLines.append (.of_forall (by simp)) (lines_lookAheadCalls i k)).append
      (.of_forall (hrelay i k))
  have hprepare : KeepsLines numLayers numMb cacheLine [.prepareForDecode] := .of_forall (by simp)
  exact hprepare.append (hprologue.append (.loop _ hlayer))

theorem lines_prefillCalls :
    KeepsLines numLayers numMb cacheLine (prefillCalls numLayers 1 numMb) := by
  refine .of_forall fun c hc i k hcpu => ?_
  have hnone := List.filter_eq_nil_iff.mp (filter_prefillCalls (k := k)) c hc
  simp [hcpu, Call.isOf, Call.batch] at hnone

end Lines

/-- In every interleaving of a batch, whatever lines its micro-batches are given: no
attention overwrites a cache line before every store from it is done, and no CPU
attention starts before every store of its micro-batch is. -/
theorem lines_inOrder (numLayers numMb steps page : ℕ) (cacheLine : ℕ → ℕ) :
    InOrder (LineConflict cacheLine)
      (engineProgram numLayers numMb cacheLine page (forwardCalls numLayers 1 numMb steps)) := by
  have hstart : LinesStored (EnqueueState.start page, ClassClock.start) :=
    ⟨fun _ => trivial, fun _ => trivial⟩
  exact engine_inOrder_of_classes lineConflict_classifies
    ((lines_prefillCalls.append (.loop steps fun _ => lines_decodeStepCalls)) _ hstart).1

end HarvestMoE
