import HarvestMoE.Lib.StreamInvariants
import HarvestMoE.PageParity

/-!
# What the engine enqueues

The engine spreads its work over the current stream, three copy streams, the stream of
the second device and two executors with one worker each. An executor is a stream for
this purpose: its jobs run in the order of submission, `event.synchronize()` in a job is
a wait, and the future of a job is an event that the host synchronizes on. The event a
job synchronizes on is not recorded again before the job is done, since the host waits
for its future before it gets there.

## Main definitions

* `EngineStream`, `EngineEvent`, `Task` — where the work goes, what orders it, and the
  work itself.
* `EnqueueState`, `enqueueStep` — what the host looks at while it enqueues.
* `commands` — what each call enqueues.
* `engineProgram` — what a list of calls enqueues.
-/

namespace HarvestMoE

open Lib

/-- The streams of the engine and its executors. -/
inductive EngineStream
  | cur
  | prefetch
  | offload
  | load
  | cold
  | cpuExecutor
  | copyExecutor
  deriving DecidableEq, Repr

/-- The events, by micro-batch or slot, those of the cache lines, and the futures. -/
inductive EngineEvent
  | prefetch (slotId : ℕ)
  | attn (batchId : ℕ)
  | compute (batchId : ℕ)
  | prefillLoadHidden (batchId : ℕ)
  | offloadQkv (batchId : ℕ)
  | loadHidden (batchId : ℕ)
  | offloadKv (cacheLine : ℕ)
  | attnFuture (batchId : ℕ)
  | copyFuture (slotId : ℕ)
  deriving DecidableEq, Repr

/-- The work that is enqueued. -/
inductive Task
  | copyPage (page : ℕ)
  | attention (layerId batchId : ℕ)
  | moe (layerId batchId : ℕ)
  | storeKv (layerId batchId : ℕ)
  | offloadHidden (batchId : ℕ)
  | loadHiddenPrefill (batchId : ℕ)
  | preAttention (layerId batchId : ℕ)
  | offloadQkv (layerId batchId : ℕ)
  | cpuAttention (layerId batchId : ℕ)
  | loadHidden (layerId batchId : ℕ)
  | postAttention (layerId batchId : ℕ)
  | copySlot (slotId : ℕ)
  | pinCopy (slotId : ℕ)
  deriving DecidableEq, Repr

abbrev EngineCmd := StreamCmd EngineStream EngineEvent Task

/-- What the host looks at: whether a micro-batch has `hidden_states` and
`hidden_states_cpu`, and the page pointer. -/
structure EnqueueState where
  hiddenStates : ℕ → Bool
  hiddenStatesCpu : ℕ → Bool
  weightsPrefetchPageGpu : ℕ

/-- New micro-batches have no hidden states. -/
def EnqueueState.start (page : ℕ) : EnqueueState := ⟨fun _ => false, fun _ => false, page⟩

section Engine

variable (numLayers numMb : ℕ) (cacheLine : ℕ → ℕ)

/-- The host after a call. -/
def enqueueStep (h : EnqueueState) (c : Call) : EnqueueState where
  hiddenStates :=
    match c with
    | .layer layerId _ batchId =>
        Function.update h.hiddenStates batchId (decide (layerId < numLayers - 1))
    | .offloadHiddenPrefill batchId => Function.update h.hiddenStates batchId false
    | .loadHiddenPrefill batchId =>
        if h.hiddenStatesCpu batchId then Function.update h.hiddenStates batchId true
        else h.hiddenStates
    | .loadHidden _ batchId => Function.update h.hiddenStates batchId true
    | .postAttention layerId _ batchId =>
        Function.update h.hiddenStates batchId (decide (layerId < numLayers - 1))
    | _ => h.hiddenStates
  hiddenStatesCpu :=
    match c with
    | .layer layerId _ batchId =>
        if layerId < numLayers - 1 then h.hiddenStatesCpu
        else Function.update h.hiddenStatesCpu batchId false
    | .offloadHiddenPrefill batchId =>
        if h.hiddenStates batchId then Function.update h.hiddenStatesCpu batchId true
        else h.hiddenStatesCpu
    | _ => h.hiddenStatesCpu
  weightsPrefetchPageGpu := pageStep numMb h.weightsPrefetchPageGpu c

/-- The transfers to the host at the end of the last layer wait for the current stream. -/
def lastLayerCommands (layerId : ℕ) : List EngineCmd :=
  if layerId < numLayers - 1 then [] else [.drain .cur]

/-- What a call enqueues. The decode prefetch copies on the load stream and records its
event on the prefetch stream. -/
def commands (h : EnqueueState) : Call → List EngineCmd
  | .prefetchExperts _ _ slotId .prefill =>
      [.launch .prefetch (.copyPage (h.weightsPrefetchPageGpu % weightsPrefetchNumPagesGpu)),
        .record (.prefetch slotId) .prefetch]
  | .prefetchExperts _ _ slotId .decode =>
      [.synchronize (.copyFuture slotId), .launch .load (.copySlot slotId),
        .record (.prefetch slotId) .prefetch]
  | .layer layerId _ batchId =>
      [.wait (.prefetch batchId) .cur] ++
        (if batchId = 0 then [.wait (.prefetch 0) .cur] else []) ++
        [.wait (.offloadKv (cacheLine batchId)) .cur, .wait (.prefillLoadHidden batchId) .cur,
          .launch .cur (.attention layerId batchId), .record (.attn batchId) .cur,
          .launch .cur (.moe layerId batchId)] ++
        lastLayerCommands numLayers layerId ++ [.record (.compute batchId) .cur]
  | .offloadKvCache layerId batchId =>
      [.wait (.attn batchId) .offload, .launch .offload (.storeKv layerId batchId),
        .record (.offloadKv (cacheLine batchId)) .offload]
  | .offloadHiddenPrefill batchId =>
      if h.hiddenStates batchId then
        [.wait (.compute batchId) .offload, .launch .offload (.offloadHidden batchId)]
      else []
  | .loadHiddenPrefill batchId =>
      if h.hiddenStatesCpu batchId then
        [.wait (.compute batchId) .load, .launch .load (.loadHiddenPrefill batchId),
          .record (.prefillLoadHidden batchId) .load]
      else []
  | .prepareForDecode => List.replicate numMb (.drain .cur)
  | .preAttention layerId batchId =>
      [.launch .cur (.preAttention layerId batchId), .record (.compute batchId) .cur]
  | .offloadQkv layerId batchId =>
      [.wait (.compute batchId) .offload, .launch .offload (.offloadQkv layerId batchId),
        .record (.offloadQkv batchId) .offload]
  | .cpuAttention layerId batchId =>
      [.wait (.offloadQkv batchId) .cpuExecutor,
        .launch .cpuExecutor (.cpuAttention layerId batchId),
        .record (.attnFuture batchId) .cpuExecutor]
  | .prefetchExpertsToPin _ slotId =>
      [.wait (.prefetch slotId) .copyExecutor, .record (.copyFuture slotId) .copyExecutor,
        .wait (.copyFuture slotId) .cold, .launch .cold (.pinCopy slotId)]
  | .loadHidden layerId batchId =>
      [.synchronize (.attnFuture batchId), .launch .load (.loadHidden layerId batchId),
        .record (.loadHidden batchId) .load]
  | .postAttention layerId _ batchId =>
      (if batchId = 0 then [.wait (.prefetch (numMb - 1)) .cur] else []) ++
        [.wait (.loadHidden batchId) .cur, .launch .cur (.postAttention layerId batchId)] ++
        lastLayerCommands numLayers layerId

/-- What a batch enqueues that starts with the pointer at `page`. -/
def engineProgram (page : ℕ) (cs : List Call) : List EngineCmd :=
  issued (enqueueStep numLayers numMb) (commands numLayers numMb cacheLine) (EnqueueState.start page) cs

/-- A call moves the host and the clock. -/
def streamsStep : EnqueueState × StreamClock EngineStream EngineEvent Task → Call →
    Option (EnqueueState × StreamClock EngineStream EngineEvent Task) :=
  issueStep (enqueueStep numLayers numMb) (commands numLayers numMb cacheLine) StreamClock.next

/-- The launches of a call are in order. -/
def CallOrdered (conflict : Task → Task → Prop)
    (s : EnqueueState × StreamClock EngineStream EngineEvent Task) (c : Call) : Prop :=
  Along clockStep (LaunchOrdered conflict) s.2 (commands numLayers numMb cacheLine s.1 c)

/-- The calls execute, whatever order their launches are in. -/
abbrev StreamRuns :
    (EnqueueState × StreamClock EngineStream EngineEvent Task → Prop) → List Call →
      (EnqueueState × StreamClock EngineStream EngineEvent Task → Prop) → Prop :=
  Runs (streamsStep numLayers numMb cacheLine) fun _ _ => True

/-- The call shows the streams and events nothing they have not seen. -/
def Call.Closed (Ss : Set EngineStream) (Es : Set EngineEvent) (c : Call) : Prop :=
  ∀ e, ∀ cmd ∈ commands numLayers numMb cacheLine e c, cmd.Closed Ss Es

variable {κ : Type*}

/-- A call moves the host and the clock of the classes. -/
def classesStep (cls : Task → Option κ) :
    EnqueueState × ClassClock κ EngineStream EngineEvent → Call →
      Option (EnqueueState × ClassClock κ EngineStream EngineEvent) :=
  issueStep (enqueueStep numLayers numMb) (commands numLayers numMb cacheLine) (ClassClock.next cls)

/-- The launches of a call are in order by their classes. -/
def CallClassOrdered (cls : Task → Option κ) (need : Task → Set κ)
    (s : EnqueueState × ClassClock κ EngineStream EngineEvent) (c : Call) : Prop :=
  Along (classStep cls) (ClassOrdered need) s.2 (commands numLayers numMb cacheLine s.1 c)

/-- The calls take every state of the precondition in order to the postcondition. -/
abbrev ClassRuns (cls : Task → Option κ) (need : Task → Set κ) :
    (EnqueueState × ClassClock κ EngineStream EngineEvent → Prop) → List Call →
      (EnqueueState × ClassClock κ EngineStream EngineEvent → Prop) → Prop :=
  Runs (classesStep numLayers numMb cacheLine cls)
    (CallClassOrdered numLayers numMb cacheLine cls need)

variable {numLayers numMb cacheLine} {conflict : Task → Task → Prop} {page : ℕ} {cs : List Call}

/-- The engine keeps its conflicting tasks in order, in every interleaving, exactly when
every call finds them ordered by the clock. -/
theorem engine_inOrder_iff : InOrder conflict (engineProgram numLayers numMb cacheLine page cs) ↔
    Along (streamsStep numLayers numMb cacheLine) (CallOrdered numLayers numMb cacheLine conflict)
      (EnqueueState.start page, StreamClock.start) cs :=
  inOrder_iff.trans along_issued

/-- One call that finds a launch out of order suffices. -/
theorem engine_not_inOrder {as bs : List Call} {c : Call}
    {t : EnqueueState × StreamClock EngineStream EngineEvent Task}
    (ht : exec (streamsStep numLayers numMb cacheLine) (EnqueueState.start page, StreamClock.start)
      as = some t)
    (hc : ¬ CallOrdered numLayers numMb cacheLine conflict t c) :
    ¬ InOrder conflict (engineProgram numLayers numMb cacheLine page (as ++ c :: bs)) :=
  fun h => hc ((engine_inOrder_iff.mp h).at ht)

/-- Calls that launch no task of a class leave all known. -/
theorem ClassRuns.unclassed {cls : Task → Option κ} {need : Task → Set κ}
    (h : ∀ c ∈ cs, ∀ e, ∀ cmd ∈ commands numLayers numMb cacheLine e c, cmd.Unclassed cls) :
    ClassRuns numLayers numMb cacheLine cls need (fun s => s.2 = ClassClock.start) cs
      (fun s => s.2 = ClassClock.start) := by
  refine Runs.keep fun s c hc hs => ⟨?_, _, rfl, ?_⟩
  · rw [CallClassOrdered, hs]
    exact ClassClock.along_start (h c hc s.1)
  · rw [hs]
    exact ClassClock.run_start (h c hc s.1)

variable {Ss : Set EngineStream} {Es : Set EngineEvent}

/-- What has been seen has been launched. -/
theorem sane_calls (cs : List Call) :
    StreamRuns numLayers numMb cacheLine (fun s => s.2.Sane) cs (fun s => s.2.Sane) :=
  Runs.keep fun _ _ _ hs =>
    ⟨trivial, _, rfl, foldl_preserves (fun _ cmd _ h => h.next cmd) hs⟩

/-- The task has been launched, and the host, the streams and the events have not seen
it. -/
def TaskUnseen (u : Task) (Ss : Set EngineStream) (Es : Set EngineEvent)
    (s : EnqueueState × StreamClock EngineStream EngineEvent Task) : Prop :=
  ∃ a, s.2.tasks[a]? = some u ∧ Unseen a Ss Es s.2

variable {u : Task}

theorem TaskUnseen.mono {Ss' : Set EngineStream} {Es' : Set EngineEvent}
    {s : EnqueueState × StreamClock EngineStream EngineEvent Task} (h : TaskUnseen u Ss Es s)
    (hs : Ss' ⊆ Ss) (he : Es' ⊆ Es) : TaskUnseen u Ss' Es' s :=
  h.imp fun _ ha => ⟨ha.1, ha.2.mono hs he⟩

/-- Calls that are closed keep a task unseen. -/
theorem TaskUnseen.calls (h : ∀ c ∈ cs, c.Closed numLayers numMb cacheLine Ss Es) :
    StreamRuns numLayers numMb cacheLine (TaskUnseen u Ss Es) cs (TaskUnseen u Ss Es) :=
  Runs.keep fun s c hc hs =>
    ⟨trivial, _, rfl, hs.imp fun _ ha => ⟨s.2.tasks_run _ ha.1, ha.2.run (h c hc s.1)⟩⟩

/-- A call that launches a conflicting task is out of order. -/
theorem TaskUnseen.not_ordered {s : EnqueueState × StreamClock EngineStream EngineEvent Task}
    (hs : TaskUnseen u Ss Es s) {t : Task} (hconflict : conflict u t) {c : Call}
    {pre post : List EngineCmd} {v : EngineStream} (hv : v ∈ Ss)
    (hc : commands numLayers numMb cacheLine s.1 c = pre ++ .launch v t :: post)
    (hpre : ∀ cmd ∈ pre, cmd.Closed Ss Es) :
    ¬ CallOrdered numLayers numMb cacheLine conflict s c := by
  obtain ⟨a, ha, hunseen⟩ := hs
  intro hordered
  rw [CallOrdered, hc] at hordered
  exact (hunseen.run hpre).not_ordered hv (s.2.tasks_run pre ha) hconflict
    (hordered.at (exec_clockStep s.2 pre))

theorem engine_inOrder_of_classes {cls : Task → Option κ} {need : Task → Set κ}
    (hclass : Classifies cls need conflict)
    (h : Along (classesStep numLayers numMb cacheLine cls)
      (CallClassOrdered numLayers numMb cacheLine cls need)
      (EnqueueState.start page, ClassClock.start) cs) :
    InOrder conflict (engineProgram numLayers numMb cacheLine page cs) :=
  inOrder_of_classes hclass (along_issued.mpr h)

end Engine

end HarvestMoE
