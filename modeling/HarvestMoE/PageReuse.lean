import HarvestMoE.EngineStreams
import HarvestMoE.Lib.Loops

/-!
# Reuse of the two pages in prefill

A layer computes on the page of its parity while the prefetch stream fills the other
one, and two layers later the page is filled again. The prefetch stream never waits for
the current stream, so what keeps the copy behind the computation is the host alone,
which waits for the current stream in the last layer only. With two layers that is
enough, with more the copy of the third page may overtake the first layer.

## Main definitions

* `PageConflict` — a computation that reads a page, and a copy into it.
* `PagesRead` — the pages whose readers the host knows to be done.
* `PageUnseen` — the first computation, which the prefetch stream has not seen.
* `pages_inOrder_iff` — when the copies come after the computations.
-/

namespace HarvestMoE

open Lib

/-- A layer is computed before the page it reads is filled again. -/
def PageConflict : Task → Task → Prop
  | .moe layerId _, .copyPage page => layerId % 2 = page
  | _, _ => False

/-- The page that a computation reads. -/
def Task.readPage : Task → Option ℕ
  | .moe layerId _ => some (layerId % 2)
  | _ => none

/-- The page that a copy fills. -/
def Task.filledPage : Task → Set ℕ
  | .copyPage page => {page}
  | _ => ∅

theorem pageConflict_classifies : Classifies Task.readPage Task.filledPage PageConflict := by
  intro u t h
  cases u with
  | moe i k =>
      refine ⟨_, rfl, ?_⟩
      cases t with
      | copyPage page => exact h
      | _ => exact h.elim
  | _ => exact h.elim

section Safe

/-- The calls execute and keep the pages in order. -/
abbrev PageRuns (numLayers numMb : ℕ) (cacheLine : ℕ → ℕ) :=
  ClassRuns numLayers numMb cacheLine Task.readPage Task.filledPage

/-- The pointer is at `page`, and the host knows the pages of `X` to be read. -/
structure PagesRead (page : ℕ) (X : ℕ → Prop)
    (s : EnqueueState × ClassClock ℕ EngineStream EngineEvent) : Prop where
  pointer : s.1.weightsPrefetchPageGpu % 2 = page
  cur : ∀ p, p ∈ s.2.stream .cur
  host : ∀ p, X p → p ∈ s.2.host

variable {numLayers numMb page : ℕ} {cacheLine : ℕ → ℕ} {X : ℕ → Prop}

/-- A prefetch of a page that has been read turns the pointer. -/
theorem PagesRead.prefetch (layerId : ℕ) (hX : X page) :
    PageRuns numLayers numMb cacheLine
      (PagesRead page X) [.prefetchExperts layerId 0 0 .prefill] (PagesRead ((page + 1) % 2) X) := by
  refine Runs.single fun s hs => ⟨?_, _, rfl, ?_, fun p => ?_, fun p hp => ?_⟩
  · simp [CallClassOrdered, commands, classStep, ClassOrdered, Task.filledPage,
      weightsPrefetchNumPagesGpu, hs.pointer, hs.host page hX]
  · have := hs.pointer
    simp only [enqueueStep, pageStep]
    omega
  · simp [commands, ClassClock.next, Task.readPage, hs.cur]
  · simp [commands, ClassClock.next, Task.readPage, hs.host p hp]

/-- The calls between the layers and the prefetches. -/
def Call.isTransfer : Call → Bool
  | .offloadKvCache .. | .offloadHiddenPrefill .. | .loadHiddenPrefill .. => true
  | _ => false

theorem PagesRead.transfers {cs : List Call} (hcs : ∀ c ∈ cs, c.isTransfer) :
    PageRuns numLayers numMb cacheLine
      (PagesRead page X) cs (PagesRead page X) := by
  refine Runs.keep fun s c hc hs => ?_
  have htransfer := hcs c hc
  cases c with
  | offloadKvCache i k =>
      refine ⟨?_, _, rfl, hs.pointer, fun p => ?_, fun p hp => ?_⟩
      · simp [CallClassOrdered, commands, classStep, ClassOrdered, Task.filledPage]
      · simp [commands, ClassClock.next, Task.readPage, hs.cur]
      · simp [commands, ClassClock.next, Task.readPage, hs.host p hp]
  | offloadHiddenPrefill k | loadHiddenPrefill k =>
      refine ⟨?_, _, rfl, hs.pointer, fun p => ?_, fun p hp => ?_⟩
      · simp only [CallClassOrdered, commands]
        split_ifs <;> simp [classStep, ClassOrdered, Task.filledPage]
      · simp only [commands]
        split_ifs <;> simp [ClassClock.next, Task.readPage, hs.cur]
      · simp only [commands]
        split_ifs <;> simp [ClassClock.next, Task.readPage, hs.host p hp]
  | _ => exact absurd htransfer (by simp [Call.isTransfer])

/-- A layer reads its page behind the back of the host, unless it is the last. -/
theorem PagesRead.layer (i k : ℕ) (hX : i < numLayers - 1 → ¬ X (i % 2)) :
    PageRuns numLayers numMb cacheLine
      (PagesRead page X) [.layer i 0 k] (PagesRead page fun p => X p ∨ ¬ i < numLayers - 1) := by
  refine Runs.single fun s hs => ⟨?_, _, rfl, hs.pointer, fun p => ?_, fun p hp => ?_⟩
  · simp only [CallClassOrdered, commands, lastLayerCommands]
    split_ifs <;> simp [classStep, ClassOrdered, Task.filledPage]
  · simp only [commands, lastLayerCommands]
    split_ifs <;> simp [ClassClock.next, Task.readPage, hs.cur]
  · simp only [commands, lastLayerCommands]
    by_cases hlast : i < numLayers - 1
    · have hread : X p := hp.resolve_right (not_not.mpr hlast)
      have hne : i % 2 ≠ p := fun heq => hX hlast (heq ▸ hread)
      split_ifs <;> simp [ClassClock.next, Task.readPage, hs.host p hread, hne]
    · split_ifs <;> simp [ClassClock.next, Task.readPage, hs.cur]

theorem PagesRead.mono {Y : ℕ → Prop} (h : ∀ p, Y p → X p)
    {s : EnqueueState × ClassClock ℕ EngineStream EngineEvent} (hs : PagesRead page X s) :
    PagesRead page Y s :=
  ⟨hs.pointer, hs.cur, fun p hp => hs.host p (h p hp)⟩

theorem isTransfer_prefillBatchCalls {i k : ℕ} {c : Call}
    (hc : c ∈ (prefillBatchCalls numMb i 0 k).tail) : c.isTransfer := by
  simp only [prefillBatchCalls, if_true, List.cons_append, List.tail_cons, List.nil_append,
    List.mem_cons] at hc
  rcases hc with rfl | hc
  · rfl
  · split_ifs at hc
    · simp only [List.mem_cons, List.not_mem_nil, or_false] at hc
      rcases hc with rfl | rfl <;> rfl
    · simp at hc

theorem PagesRead.batch (i k : ℕ) (hX : i < numLayers - 1 → ¬ X (i % 2)) :
    PageRuns numLayers numMb cacheLine
      (PagesRead page X) (prefillBatchCalls numMb i 0 k)
      (PagesRead page fun p => X p ∨ ¬ i < numLayers - 1) :=
  Runs.cons (PagesRead.layer i k hX) (PagesRead.transfers fun _ => isTransfer_prefillBatchCalls)

/-- The micro-batches of a layer, and the prefetch of the other page. -/
theorem PagesRead.layerCalls (i : ℕ) (hX : i < numLayers - 1 → ¬ X (i % 2) ∧ X page)
    (hn : ¬ i < numLayers - 1 → 0 < numMb) :
    PageRuns numLayers numMb cacheLine
      (PagesRead page X) (prefillLayerCalls numLayers 1 numMb i)
      (PagesRead ((page + 1) % 2) fun p => X p ∨ ¬ i < numLayers - 1) := by
  rw [prefillLayerCalls_one]
  by_cases hi : i < numLayers - 1
  · have hloop : PageRuns numLayers numMb cacheLine
        (PagesRead page X) ((List.range numMb).flatMap (prefillBatchCalls numMb i 0))
        (PagesRead page X) :=
      Runs.loop numMb (I := fun _ => PagesRead page X) fun k _ =>
        (PagesRead.batch i k fun hi => (hX hi).1).conseq (fun _ => id)
          fun _ => PagesRead.mono fun _ => Or.inl
    exact (hloop.append (PagesRead.prefetch _ (hX hi).2)).conseq (fun _ => id)
      fun _ => PagesRead.mono fun _ hp => hp.resolve_right (not_not.mpr hi)
  · -- the first micro-batch of the last layer makes the host wait for all that was read
    obtain ⟨m, hm⟩ : ∃ m, numMb = m + 1 := ⟨numMb - 1, by have := hn hi; omega⟩
    have hloop : PageRuns numLayers numMb cacheLine
        (PagesRead page X) ((List.range numMb).flatMap (prefillBatchCalls numMb i 0))
        (PagesRead page fun _ => True) := by
      have hbatch : ∀ k, k < numMb → PageRuns numLayers numMb cacheLine
          (PagesRead page fun p => X p ∨ 0 < k) (prefillBatchCalls numMb i 0 k)
          (PagesRead page fun p => X p ∨ 0 < k + 1) := fun k _ =>
        (PagesRead.batch i k fun h => absurd h hi).conseq (fun _ => id)
          fun _ => PagesRead.mono fun _ _ => Or.inr hi
      have hrun := Runs.loop numMb (I := fun k => PagesRead page fun p => X p ∨ 0 < k) hbatch
      exact hrun.conseq (fun _ => PagesRead.mono fun _ hp => hp.resolve_right (Nat.lt_irrefl 0))
        fun _ => PagesRead.mono fun _ _ => Or.inr (by omega)
    exact (hloop.append (PagesRead.prefetch _ trivial)).conseq (fun _ => id)
      fun _ => PagesRead.mono fun _ _ => trivial

/-- With two layers at most the host waits before a page is filled again. -/
theorem PagesRead.prefillCalls_of (hn : 0 < numMb) (hL : numLayers + page ≤ 2) (hp : page < 2) :
    PageRuns numLayers numMb cacheLine (PagesRead page fun _ => True)
      (prefillCalls numLayers 1 numMb) (fun _ => True) := by
  have hfirst : PageRuns numLayers numMb cacheLine (PagesRead page fun _ => True)
      [.prefetchExperts 0 0 0 .prefill] (PagesRead ((page + 1) % 2) fun _ => True) :=
    PagesRead.prefetch 0 trivial
  refine Runs.cons hfirst ?_
  match numLayers with
  | 0 => exact Runs.nil fun _ _ => trivial
  | 1 =>
      have hlast : PageRuns 1 numMb cacheLine (PagesRead ((page + 1) % 2) fun _ => True)
          (prefillLayerCalls 1 1 numMb 0) _ := PagesRead.layerCalls 0 (by omega) fun _ => hn
      simpa using hlast.conseq (fun _ => id) fun _ _ => trivial
  | 2 =>
      obtain rfl : page = 0 := by omega
      have hone : PageRuns 2 numMb cacheLine (PagesRead 1 fun p => p ≠ 0)
          (prefillLayerCalls 2 1 numMb 0) _ :=
        PagesRead.layerCalls 0 (fun _ => ⟨by simp, by simp⟩) (by omega)
      have hlast : PageRuns 2 numMb cacheLine (PagesRead 0 fun p => p ≠ 0)
          (prefillLayerCalls 2 1 numMb 1) _ := PagesRead.layerCalls 1 (by omega) fun _ => hn
      have htwo := (hone.conseq (fun _ => PagesRead.mono fun _ _ => trivial) fun _ =>
        PagesRead.mono fun _ => Or.inl).append hlast
      simpa [List.range_succ] using htwo.conseq (fun _ => id) fun _ _ => trivial
  | n + 3 => omega

/-- With no micro-batch the prefetches are alone. -/
theorem PagesRead.prefillCalls_empty :
    PageRuns numLayers 0 cacheLine (PagesRead page fun _ => True)
      (prefillCalls numLayers 1 0) (fun _ => True) := by
  have hprefetch : ∀ layerId, PageRuns numLayers 0 cacheLine
      (fun s => ∃ page, PagesRead page (fun _ => True) s) [.prefetchExperts layerId 0 0 .prefill]
      (fun s => ∃ page, PagesRead page (fun _ => True) s) := by
    intro layerId s hs
    obtain ⟨page, hs⟩ := hs
    exact ((PagesRead.prefetch layerId trivial).conseq (fun _ => id) fun _ h => ⟨_, h⟩) s hs
  have hrun : PageRuns numLayers 0 cacheLine (fun s => ∃ page, PagesRead page (fun _ => True) s)
      (prefillCalls numLayers 1 0) (fun s => ∃ page, PagesRead page (fun _ => True) s) := by
    refine Runs.cons (hprefetch 0) (Runs.loop numLayers
      (I := fun _ s => ∃ page, PagesRead page (fun _ => True) s) fun i _ => ?_)
    rw [prefillLayerCalls_one]
    exact hprefetch ((i + 1) % numLayers)
  exact hrun.conseq (fun _ hs => ⟨page, hs⟩) fun _ _ => trivial

theorem pages_inOrder_of (h : numMb = 0 ∨ numLayers + page ≤ 2) (hp : page < 2) :
    InOrder PageConflict
      (engineProgram numLayers numMb cacheLine page (prefillCalls numLayers 1 numMb)) := by
  have hstart : PagesRead page (fun _ => True) (EnqueueState.start page, ClassClock.start) :=
    ⟨Nat.mod_eq_of_lt hp, fun _ => trivial, fun _ _ => trivial⟩
  refine engine_inOrder_of_classes pageConflict_classifies ?_
  rcases Nat.eq_zero_or_pos numMb with rfl | hn
  · exact (PagesRead.prefillCalls_empty _ hstart).1
  · exact (PagesRead.prefillCalls_of hn (h.resolve_left hn.ne') hp _ hstart).1

end Safe

section Unsafe

/-- The pointer is at `page`, and the first computation has been launched unseen by the
prefetch stream and the host. -/
def PageUnseen (page : ℕ) (s : EnqueueState × StreamClock EngineStream EngineEvent Task) : Prop :=
  s.1.weightsPrefetchPageGpu % 2 = page ∧
    ∃ a, s.2.tasks[a]? = some (.moe 0 0) ∧ Unseen a {.prefetch} ∅ s.2

variable {numLayers numMb page : ℕ} {cacheLine : ℕ → ℕ}

theorem PageUnseen.call {c : Call} {page' : ℕ}
    (hc : ∀ e, ∀ cmd ∈ commands numLayers numMb cacheLine e c, cmd.Closed {.prefetch} ∅)
    (hpage : ∀ p, p % 2 = page → pageStep numMb p c % 2 = page') :
    StreamRuns numLayers numMb cacheLine (PageUnseen page) [c] (PageUnseen page') := by
  refine Runs.single fun s hs => ⟨trivial, _, rfl, hpage _ hs.1, ?_⟩
  exact hs.2.imp fun _ ha => ⟨s.2.tasks_run _ ha.1, ha.2.run (hc s.1)⟩

/-- Nothing waits for the current stream in a layer before the last. -/
theorem closed_prefillBatchCalls {i k : ℕ} (hi : i < numLayers - 1) {c : Call}
    (hc : c ∈ prefillBatchCalls numMb i 0 k) (e : EnqueueState) :
    ∀ cmd ∈ commands numLayers numMb cacheLine e c, cmd.Closed {.prefetch} ∅ := by
  rcases mem_prefillBatchCalls hc with rfl | rfl | ⟨-, rfl | rfl⟩
  · simp only [commands, lastLayerCommands, if_pos hi]
    split_ifs <;> simp [StreamCmd.Closed]
  · simp [commands, StreamCmd.Closed]
  · simp only [commands]
    split_ifs <;> simp [StreamCmd.Closed]
  · simp only [commands]
    split_ifs <;> simp [StreamCmd.Closed]

theorem PageUnseen.prefetch (layerId : ℕ) :
    StreamRuns numLayers numMb cacheLine (PageUnseen page) [.prefetchExperts layerId 0 0 .prefill]
      (PageUnseen ((page + 1) % 2)) := by
  refine PageUnseen.call (fun e => by simp [commands, StreamCmd.Closed]) fun p hp => ?_
  simp only [pageStep]
  omega

theorem PageUnseen.batches {i : ℕ} (hi : i < numLayers - 1) {cs : List Call}
    (hcs : ∀ c ∈ cs, ∃ k, c ∈ prefillBatchCalls numMb i 0 k) :
    StreamRuns numLayers numMb cacheLine (PageUnseen page) cs (PageUnseen page) := by
  refine Runs.keep fun s c hc hs => ?_
  obtain ⟨k, hk⟩ := hcs c hc
  have hpage : ∀ p, p % 2 = page → pageStep numMb p c % 2 = page := by
    intro p hp
    have hnot := isPrefetch_prefillBatchCalls hk
    cases c with
    | prefetchExperts l p k stage => exact absurd hnot (by simp [Call.isPrefetch])
    | _ => exact hp
  have hone : StreamRuns numLayers numMb cacheLine (PageUnseen page) [c] (PageUnseen page) :=
    PageUnseen.call (closed_prefillBatchCalls hi hk) hpage
  simpa using hone s hs

/-- The first computation is launched. -/
theorem PageUnseen.first (hL : 0 < numLayers - 1) :
    StreamRuns numLayers numMb cacheLine (· = (EnqueueState.start page, StreamClock.start))
      [.prefetchExperts 0 0 0 .prefill, .layer 0 0 0] (PageUnseen ((page + 1) % 2)) := by
  intro s hs
  subst hs
  refine ⟨Along.of_forall fun _ _ _ => trivial, _, rfl, ?_, 2, ?_, ?_, ?_, ?_, ?_⟩
  · simp [enqueueStep, pageStep, EnqueueState.start]
  · simp [commands, lastLayerCommands, hL, StreamClock.next, StreamClock.start]
  · simp [commands, lastLayerCommands, hL, StreamClock.next, StreamClock.start]
  · simp [commands, lastLayerCommands, hL, StreamClock.next, StreamClock.start]
  · simp [commands, lastLayerCommands, hL, StreamClock.next, StreamClock.start]
  · simp

/-- A prefetch that comes upon the page of the first computation is out of order. -/
theorem PageUnseen.not_ordered {s : EnqueueState × StreamClock EngineStream EngineEvent Task}
    (hs : PageUnseen 0 s) (layerId : ℕ) :
    ¬ CallOrdered numLayers numMb cacheLine PageConflict s (.prefetchExperts layerId 0 0 .prefill) := by
  have hunseen : TaskUnseen (.moe 0 0) {.prefetch} ∅ s := hs.2
  have hconflict : PageConflict (.moe 0 0)
      (.copyPage (s.1.weightsPrefetchPageGpu % weightsPrefetchNumPagesGpu)) := hs.1.symm
  have hcommands : commands numLayers numMb cacheLine s.1 (.prefetchExperts layerId 0 0 .prefill) =
      [] ++ .launch .prefetch (.copyPage (s.1.weightsPrefetchPageGpu % weightsPrefetchNumPagesGpu)) ::
        [.record (.prefetch 0) .prefetch] := rfl
  exact hunseen.not_ordered hconflict (Set.mem_singleton _) hcommands (List.forall_mem_nil _)

/-- Layer 0, with its first computation taken out. -/
theorem prefillLayerCalls_zero (numLayers m : ℕ) :
    ∃ cs, prefillLayerCalls numLayers 1 (m + 1) 0 =
        .layer 0 0 0 :: cs ++ [.prefetchExperts (1 % numLayers) 0 0 .prefill] ∧
      ∀ c ∈ cs, ∃ k, c ∈ prefillBatchCalls (m + 1) 0 0 k := by
  refine ⟨(prefillBatchCalls (m + 1) 0 0 0).tail ++
    ((List.range m).map Nat.succ).flatMap (prefillBatchCalls (m + 1) 0 0), ?_, fun c hc => ?_⟩
  · rw [prefillLayerCalls_one, List.range_succ_eq_map, List.flatMap_cons]
    rfl
  · rcases List.mem_append.mp hc with hc | hc
    · exact ⟨0, List.mem_of_mem_tail hc⟩
    · obtain ⟨k, -, hk⟩ := List.mem_flatMap.mp hc
      exact ⟨k, hk⟩

/-- With more layers, the prefetch for the layer that shares the first page may run
before the first computation is done. -/
theorem pages_not_inOrder (hn : 0 < numMb) (hL : 2 < numLayers + page) (hp : page < 2) :
    ¬ InOrder PageConflict
      (engineProgram numLayers numMb cacheLine page (prefillCalls numLayers 1 numMb)) := by
  obtain ⟨m, rfl⟩ : ∃ m, numMb = m + 1 := ⟨numMb - 1, by omega⟩
  obtain ⟨l, rfl⟩ : ∃ l, numLayers = l + 2 := ⟨numLayers - 2, by omega⟩
  obtain ⟨cs, hzero, hcs⟩ := prefillLayerCalls_zero (l + 2) m
  have hfirst : StreamRuns (l + 2) (m + 1) cacheLine
      (· = (EnqueueState.start page, StreamClock.start))
      ([.prefetchExperts 0 0 0 .prefill, .layer 0 0 0] ++ cs) (PageUnseen ((page + 1) % 2)) :=
    (PageUnseen.first (by omega)).append (PageUnseen.batches (by omega) hcs)
  have hlayers : prefillCalls (l + 2) 1 (m + 1) = [.prefetchExperts 0 0 0 .prefill, .layer 0 0 0] ++
      cs ++ .prefetchExperts (1 % (l + 2)) 0 0 .prefill ::
        ((List.range (l + 1)).map Nat.succ).flatMap (prefillLayerCalls (l + 2) 1 (m + 1)) := by
    rw [prefillCalls, List.range_succ_eq_map, List.flatMap_cons, hzero]
    simp
  obtain rfl | rfl : page = 1 ∨ page = 0 := by omega
  · obtain ⟨-, t, ht, hend⟩ := hfirst _ rfl
    rw [hlayers]
    exact engine_not_inOrder ht (hend.not_ordered _)
  · -- the pointer comes round to page 0 after layer 1
    obtain ⟨l, rfl⟩ : ∃ l', l = l' + 1 := ⟨l - 1, by omega⟩
    have hsecond : StreamRuns (l + 3) (m + 1) cacheLine (PageUnseen 0)
        ((List.range (m + 1)).flatMap (prefillBatchCalls (m + 1) 1 0)) (PageUnseen 0) := by
      refine PageUnseen.batches (i := 1) (by omega) fun c hc => ?_
      obtain ⟨k, -, hk⟩ := List.mem_flatMap.mp hc
      exact ⟨k, hk⟩
    obtain ⟨-, t, ht, hend⟩ :=
      ((hfirst.append (PageUnseen.prefetch (1 % (l + 3)))).append hsecond) _ rfl
    have hsplit : prefillCalls (l + 3) 1 (m + 1) = [.prefetchExperts 0 0 0 .prefill, .layer 0 0 0] ++
        cs ++ [.prefetchExperts (1 % (l + 3)) 0 0 .prefill] ++
        (List.range (m + 1)).flatMap (prefillBatchCalls (m + 1) 1 0) ++
        .prefetchExperts (2 % (l + 3)) 0 0 .prefill ::
          ((List.range (l + 1)).map (Nat.succ ∘ Nat.succ)).flatMap
            (prefillLayerCalls (l + 3) 1 (m + 1)) := by
      rw [hlayers, List.range_succ_eq_map, List.map_cons, List.flatMap_cons, prefillLayerCalls_one]
      simp
    rw [hsplit]
    exact engine_not_inOrder ht (hend.not_ordered _)

end Unsafe

/-- For a batch that starts with the pointer at `page`, the copies into the pages come
after the computations that read them, in every interleaving of prefill, exactly when
there is no micro-batch, or there are at most two layers, or one from page 1. -/
theorem pages_inOrder_iff (numLayers numMb : ℕ) (cacheLine : ℕ → ℕ) {page : ℕ} (hp : page < 2) :
    InOrder PageConflict
        (engineProgram numLayers numMb cacheLine page (prefillCalls numLayers 1 numMb)) ↔
      numMb = 0 ∨ numLayers + page ≤ 2 := by
  refine ⟨fun h => ?_, fun h => pages_inOrder_of h hp⟩
  by_contra hcond
  exact pages_not_inOrder (by omega) (by omega) hp h

theorem pages_inOrder_two :
    InOrder PageConflict (engineProgram 2 3 (· % 2) 0 (prefillCalls 2 1 3)) :=
  (pages_inOrder_iff 2 3 (· % 2) (by decide)).mpr (by decide)

/-- Four layers, one micro-batch. -/
theorem pages_not_inOrder_four :
    ¬ ∀ (numLayers numMb : ℕ) (cacheLine : ℕ → ℕ), 0 < numMb →
      InOrder PageConflict
        (engineProgram numLayers numMb cacheLine 0 (prefillCalls numLayers 1 numMb)) :=
  fun hall => pages_not_inOrder (by decide) (by decide) (by decide) (hall 4 1 (· % 2) (by decide))

end HarvestMoE
