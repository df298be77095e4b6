import HarvestMoE.EngineStreams
import HarvestMoE.Lib.Loops

/-!
# The hidden states between two layers of prefill

With several micro-batches the hidden states wait for their next layer on the CPU. The
offload stream copies them out, and the load stream copies them back one micro-batch
ahead. Both streams wait for the event of the computation, neither for the other, so
the copy back may run first. It is never made when there is one layer or one
micro-batch.

## Main definitions

* `HiddenConflict` — a copy out, and a copy back of the same micro-batch.
* `HiddenUnseen` — the first copy out, which the load stream has not seen.
* `hidden_inOrder_iff` — when the copies back come after the copies out.
-/

namespace HarvestMoE

open Lib

/-- The hidden states of a micro-batch are copied back after they are copied out. -/
def HiddenConflict : Task → Task → Prop
  | .offloadHidden k', .loadHiddenPrefill k => k' = k
  | _, _ => False

/-- The micro-batch that a task copies out. -/
def Task.copiedOut : Task → Option ℕ
  | .offloadHidden batchId => some batchId
  | _ => none

/-- The micro-batch that a task copies back. -/
def Task.copiedBack : Task → Set ℕ
  | .loadHiddenPrefill batchId => {batchId}
  | _ => ∅

theorem hiddenConflict_classifies :
    Classifies Task.copiedOut Task.copiedBack HiddenConflict := by
  intro u t h
  cases u with
  | offloadHidden k' =>
      refine ⟨_, rfl, ?_⟩
      cases t with
      | loadHiddenPrefill k => exact h
      | _ => exact h.elim
  | _ => exact h.elim

section Safe

/-- No hidden states are on the CPU, and with a single layer none are kept at all. -/
structure NoneOut (numLayers : ℕ) (s : EnqueueState × ClassClock ℕ EngineStream EngineEvent) :
    Prop where
  cpu : ∀ k, s.1.hiddenStatesCpu k = false
  kept : numLayers ≤ 1 → ∀ k, s.1.hiddenStates k = false

variable {numLayers numMb page : ℕ} {cacheLine : ℕ → ℕ}

theorem NoneOut.call (h : numMb ≤ 1 ∨ numLayers ≤ 1) {c : Call}
    (hc : c ∈ prefillCalls numLayers 1 numMb)
    {s : EnqueueState × ClassClock ℕ EngineStream EngineEvent} (hs : NoneOut numLayers s) :
    CallClassOrdered numLayers numMb cacheLine Task.copiedOut Task.copiedBack s c ∧
      ∃ t, classesStep numLayers numMb cacheLine Task.copiedOut s c = some t ∧
        NoneOut numLayers t := by
  rcases mem_prefillCalls hc with ⟨l, rfl⟩ | ⟨i, k, -, -, hbatch⟩
  · refine ⟨?_, _, rfl, hs.cpu, hs.kept⟩
    simp [CallClassOrdered, commands, classStep, ClassOrdered, Task.copiedBack]
  · rcases mem_prefillBatchCalls hbatch with rfl | rfl | ⟨hn, rfl | rfl⟩
    · refine ⟨?_, _, rfl, fun k' => ?_, fun hL k' => ?_⟩
      · simp only [CallClassOrdered, commands, lastLayerCommands]
        split_ifs <;> simp [classStep, ClassOrdered, Task.copiedBack]
      · simp only [enqueueStep]
        split_ifs
        · exact hs.cpu k'
        · by_cases hk : k' = k <;> simp [hk, hs.cpu]
      · have hlast : ¬ i < numLayers - 1 := by omega
        by_cases hk : k' = k <;> simp [enqueueStep, hk, hlast, hs.kept hL]
    · refine ⟨?_, _, rfl, hs.cpu, hs.kept⟩
      simp [CallClassOrdered, commands, classStep, ClassOrdered, Task.copiedBack]
    · have hL : numLayers ≤ 1 := h.resolve_left (by omega)
      have hnone := hs.kept hL k
      refine ⟨?_, _, rfl, ?_, fun _ k' => ?_⟩
      · simp [CallClassOrdered, commands, hnone]
      · simpa [enqueueStep, hnone] using hs.cpu
      · by_cases hk : k' = k <;> simp [enqueueStep, hk, hs.kept hL]
    · have hnone := hs.cpu ((k + 1) % numMb)
      refine ⟨?_, _, rfl, hs.cpu, ?_⟩
      · simp [CallClassOrdered, commands, hnone]
      · simpa [enqueueStep, hnone] using hs.kept

theorem hidden_inOrder_of (h : numMb ≤ 1 ∨ numLayers ≤ 1) :
    InOrder HiddenConflict
      (engineProgram numLayers numMb cacheLine page (prefillCalls numLayers 1 numMb)) := by
  have hrun : ClassRuns numLayers numMb cacheLine Task.copiedOut Task.copiedBack
      (NoneOut numLayers) (prefillCalls numLayers 1 numMb) (NoneOut numLayers) :=
    Runs.keep fun s c hc hs => hs.call h hc
  exact engine_inOrder_of_classes hiddenConflict_classifies
    (hrun (EnqueueState.start page, ClassClock.start) ⟨fun _ => rfl, fun _ _ => rfl⟩).1

end Safe

section Unsafe

/-- The micro-batches before `k` are on the CPU, and the load stream has not seen the
copy of the first one. -/
def HiddenUnseen (k : ℕ) (s : EnqueueState × StreamClock EngineStream EngineEvent Task) : Prop :=
  (∀ j, s.1.hiddenStatesCpu j = decide (j < k)) ∧
    ∃ a, s.2.tasks[a]? = some (.offloadHidden 0) ∧ Unseen a {.load} {.compute 0} s.2

variable {numLayers numMb page : ℕ} {cacheLine : ℕ → ℕ}

/-- A call that shows the copy to neither. -/
theorem HiddenUnseen.call {c : Call} {k k' : ℕ}
    {s : EnqueueState × StreamClock EngineStream EngineEvent Task} (hs : HiddenUnseen k s)
    (hc : ∀ cmd ∈ commands numLayers numMb cacheLine s.1 c, cmd.Closed {.load} {.compute 0})
    (hcpu : ∀ j, (enqueueStep numLayers numMb s.1 c).hiddenStatesCpu j = decide (j < k')) :
    ∃ t, streamsStep numLayers numMb cacheLine s c = some t ∧ HiddenUnseen k' t := by
  obtain ⟨a, ha, hunseen⟩ := hs.2
  exact ⟨_, rfl, hcpu, a, s.2.tasks_run _ ha, hunseen.run hc⟩

/-- A later micro-batch of layer 0 goes to the CPU. -/
theorem HiddenUnseen.offload (hL : 0 < numLayers - 1) {k : ℕ} (hk : 0 < k) :
    StreamRuns numLayers numMb cacheLine (HiddenUnseen k)
      [.layer 0 0 k, .offloadKvCache 0 k, .offloadHiddenPrefill k] (HiddenUnseen (k + 1)) := by
  have hlayer : StreamRuns numLayers numMb cacheLine (HiddenUnseen k) [.layer 0 0 k]
      (fun s => HiddenUnseen k s ∧ s.1.hiddenStates k = true) := by
    refine Runs.single fun s hs => ⟨trivial, ?_⟩
    have hcall : ∃ t, streamsStep numLayers numMb cacheLine s (.layer 0 0 k) = some t ∧
        HiddenUnseen k t := by
      refine hs.call ?_ ?_
      · simp [commands, lastLayerCommands, hL, hk.ne', StreamCmd.Closed]
      · simpa [enqueueStep, hL] using hs.1
    obtain ⟨t, ht, hend⟩ := hcall
    refine ⟨t, ht, hend, ?_⟩
    rw [← Option.some.inj ht]
    simp [enqueueStep, hL]
  have hstore : StreamRuns numLayers numMb cacheLine
      (fun s => HiddenUnseen k s ∧ s.1.hiddenStates k = true) [.offloadKvCache 0 k]
      (fun s => HiddenUnseen k s ∧ s.1.hiddenStates k = true) := by
    refine Runs.single fun s hs => ⟨trivial, ?_⟩
    have hcall : ∃ t, streamsStep numLayers numMb cacheLine s (.offloadKvCache 0 k) = some t ∧
        HiddenUnseen k t := hs.1.call (by simp [commands, StreamCmd.Closed]) hs.1.1
    obtain ⟨t, ht, hend⟩ := hcall
    refine ⟨t, ht, hend, ?_⟩
    rw [← Option.some.inj ht]
    exact hs.2
  refine Runs.cons hlayer (Runs.cons hstore (Runs.single fun s hs => ⟨trivial, ?_⟩))
  refine hs.1.call ?_ fun j => ?_
  · simp [commands, hs.2, StreamCmd.Closed]
  · simp only [enqueueStep, hs.2, if_true]
    by_cases hj : j = k
    · simp [hj]
    · simp only [Function.update_of_ne hj, hs.1.1, decide_eq_decide]
      omega

/-- There is nothing to load for a micro-batch that is not on the CPU yet. -/
theorem HiddenUnseen.skip {j k : ℕ} (hjk : k ≤ j) :
    StreamRuns numLayers numMb cacheLine (HiddenUnseen k) [.loadHiddenPrefill j]
      (HiddenUnseen k) := by
  refine Runs.single fun s hs => ⟨trivial, ?_⟩
  have hnone : s.1.hiddenStatesCpu j = false := by
    rw [hs.1 j]
    exact decide_eq_false (by omega)
  exact hs.call (by simp [commands, hnone]) hs.1

/-- The first micro-batch goes to the CPU. -/
theorem HiddenUnseen.first (hL : 0 < numLayers - 1) :
    StreamRuns numLayers numMb cacheLine (· = (EnqueueState.start page, StreamClock.start))
      [.prefetchExperts 0 0 0 .prefill, .layer 0 0 0, .offloadKvCache 0 0, .offloadHiddenPrefill 0]
      (HiddenUnseen 1) := by
  intro s hs
  subst hs
  refine ⟨Along.of_forall fun _ _ _ => trivial, _, rfl, fun j => ?_, 4, ?_, ?_, ?_, ?_, ?_⟩
  · by_cases hj : j = 0 <;> simp [enqueueStep, EnqueueState.start, hL, hj]
  · simp [commands, lastLayerCommands, enqueueStep, hL, StreamClock.next, StreamClock.start]
  · simp [commands, lastLayerCommands, enqueueStep, hL, StreamClock.next, StreamClock.start]
  · simp [commands, lastLayerCommands, enqueueStep, hL, StreamClock.next, StreamClock.start]
  · simp [commands, lastLayerCommands, enqueueStep, hL, StreamClock.next, StreamClock.start]
  · simp [commands, lastLayerCommands, enqueueStep, hL, StreamClock.next, StreamClock.start]

/-- Loading the first micro-batch is out of order: the computation it waits for came
before the copy. -/
theorem HiddenUnseen.not_ordered {k : ℕ} (hk : 0 < k)
    {s : EnqueueState × StreamClock EngineStream EngineEvent Task} (hs : HiddenUnseen k s) :
    ¬ CallOrdered numLayers numMb cacheLine HiddenConflict s (.loadHiddenPrefill 0) := by
  have hlive : s.1.hiddenStatesCpu 0 = true := by
    rw [hs.1 0]
    exact decide_eq_true hk
  have hunseen : TaskUnseen (.offloadHidden 0) {.load} {.compute 0} s := hs.2
  have hcommands : commands numLayers numMb cacheLine s.1 (.loadHiddenPrefill 0) =
      [.wait (.compute 0) .load] ++
        .launch .load (.loadHiddenPrefill 0) :: [.record (.prefillLoadHidden 0) .load] := by
    simp [commands, hlive]
  have hconflict : HiddenConflict (.offloadHidden 0) (.loadHiddenPrefill 0) := rfl
  exact hunseen.not_ordered hconflict (Set.mem_singleton _) hcommands (by simp [StreamCmd.Closed])

/-- With several layers and micro-batches, the first copy back may run before the copy
out is done. -/
theorem hidden_not_inOrder (hn : 1 < numMb) (hL : 1 < numLayers) :
    ¬ InOrder HiddenConflict
      (engineProgram numLayers numMb cacheLine page (prefillCalls numLayers 1 numMb)) := by
  obtain ⟨m, rfl⟩ : ∃ m, numMb = m + 2 := ⟨numMb - 2, by omega⟩
  obtain ⟨l, rfl⟩ : ∃ l, numLayers = l + 1 := ⟨numLayers - 1, by omega⟩
  have hbatch : ∀ k, prefillBatchCalls (m + 2) 0 0 k =
      [.layer 0 0 k, .offloadKvCache 0 k, .offloadHiddenPrefill k] ++
        [.loadHiddenPrefill ((k + 1) % (m + 2))] := by
    simp [prefillBatchCalls]
  have hmiddle : ∀ i, i < m → StreamRuns (l + 1) (m + 2) cacheLine (HiddenUnseen (i + 1))
      (prefillBatchCalls (m + 2) 0 0 (i + 1)) (HiddenUnseen (i + 1 + 1)) := by
    intro i hi
    rw [hbatch, Nat.mod_eq_of_lt (by omega)]
    exact (HiddenUnseen.offload (by omega) (by omega)).append (HiddenUnseen.skip le_rfl)
  have hskip : StreamRuns (l + 1) (m + 2) cacheLine (HiddenUnseen 1)
      [.loadHiddenPrefill (1 % (m + 2))] (HiddenUnseen 1) := by
    rw [Nat.mod_eq_of_lt (by omega)]
    exact HiddenUnseen.skip le_rfl
  obtain ⟨-, t, ht, hend⟩ := (((HiddenUnseen.first (by omega)).append hskip).append
    (Runs.loop m (I := fun i => HiddenUnseen (i + 1)) hmiddle)).append
      (HiddenUnseen.offload (by omega) (show 0 < m + 1 by omega)) _ rfl
  have hsplit : prefillCalls (l + 1) 1 (m + 2) =
      [.prefetchExperts 0 0 0 .prefill, .layer 0 0 0, .offloadKvCache 0 0,
        .offloadHiddenPrefill 0] ++ [.loadHiddenPrefill (1 % (m + 2))] ++
        (List.range m).flatMap (fun i => prefillBatchCalls (m + 2) 0 0 (i + 1)) ++
        [.layer 0 0 (m + 1), .offloadKvCache 0 (m + 1), .offloadHiddenPrefill (m + 1)] ++
        .loadHiddenPrefill 0 :: .prefetchExperts (1 % (l + 1)) 0 0 .prefill ::
          ((List.range l).map Nat.succ).flatMap (prefillLayerCalls (l + 1) 1 (m + 2)) := by
    have hloop : (List.range (m + 2)).flatMap (prefillBatchCalls (m + 2) 0 0) =
        prefillBatchCalls (m + 2) 0 0 0 ++
          (List.range m).flatMap (fun i => prefillBatchCalls (m + 2) 0 0 (i + 1)) ++
          prefillBatchCalls (m + 2) 0 0 (m + 1) := by
      rw [List.range_succ, List.range_succ_eq_map, List.flatMap_append, List.flatMap_cons,
        List.flatMap_map, List.flatMap_singleton]
    rw [prefillCalls, List.range_succ_eq_map, List.flatMap_cons, prefillLayerCalls_one, hloop,
      hbatch 0, hbatch (m + 1)]
    simp
  rw [hsplit]
  exact engine_not_inOrder ht (hend.not_ordered (by omega))

end Unsafe

/-- The copies of hidden states back to the GPU come after the copies out, in every
interleaving of prefill, exactly when there is at most one micro-batch or one layer. -/
theorem hidden_inOrder_iff (numLayers numMb page : ℕ) (cacheLine : ℕ → ℕ) :
    InOrder HiddenConflict
        (engineProgram numLayers numMb cacheLine page (prefillCalls numLayers 1 numMb)) ↔
      numMb ≤ 1 ∨ numLayers ≤ 1 := by
  refine ⟨fun h => ?_, hidden_inOrder_of⟩
  by_contra hcond
  exact hidden_not_inOrder (by omega) (by omega) h

/-- Two layers, two micro-batches. -/
theorem hidden_not_inOrder_two :
    ¬ ∀ (numLayers numMb : ℕ) (cacheLine : ℕ → ℕ), 1 < numMb →
      InOrder HiddenConflict
        (engineProgram numLayers numMb cacheLine 0 (prefillCalls numLayers 1 numMb)) :=
  fun hall => hidden_not_inOrder (by decide) (by decide) (hall 2 2 (· % 2) (by decide))

end HarvestMoE
