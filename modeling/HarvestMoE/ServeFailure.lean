import HarvestMoE.Answers

/-!
# What an exception leaves behind

The `try` of `exposed_step` encloses the loop over the requests, and `flush_cache` is
called behind `batch_forward_step` only. So an exception ends the list, and it leaves the
pool and the page pointers where the batch had them: after the first line of the pool is
given out, nothing moves the cursor back but a later batch that succeeds.

## Main definitions

* `Cleared` — the state `reset` leaves.
* `Isolated` — every call of a sequence ends cleared, with every other request processed.
* `Harmless` — an exception strikes the last request only, before the first line is
  given out and after the queue is emptied.
-/

namespace HarvestMoE

open Lib

variable {κ α : Type*} {cfg : ServeConfig}

/-- The server as `reset` leaves it. -/
structure Cleared (s : Server κ α) : Prop where
  queue_eq : s.forwardQueue = []
  start_eq : s.engine.kv.pool.curStartLoc = 0
  line_eq : s.engine.kv.pool.curCl = 0
  gpu_eq : s.engine.weights.weightsPrefetchPageGpu = 0
  cpu_eq : s.engine.weights.weightsPrefetchPageCpu = 0

/-- Every call of the sequence ends in the cleared state, and no request of its list is
left over. -/
def Isolated (cfg : ServeConfig) : Server κ α → List (List (RecvReq κ)) → Prop
  | _, [] => True
  | s, recvReqs :: rest =>
      Cleared (exposedStep cfg s recvReqs).2.1 ∧
        Outcome.skipped ∉ (exposedStep cfg s recvReqs).2.2 ∧
        Isolated cfg (exposedStep cfg s recvReqs).2.1 rest

/-- Nothing is raised, unless for the last request, and there after the queue is emptied
(or with nothing in it) and before the first line of the pool is given out. -/
def Harmless (cfg : ServeConfig) : Server κ α → List (RecvReq κ) → Prop
  | _, [] => True
  | _, .invalid :: rest => rest = []
  | s, .batch recvReq env fault :: rest =>
      let queued := handleBatchGenerateRequest cfg recvReq s
      let ran := runBatch cfg env fault queued.1
      if queued.2 = false then queued.1.forwardQueue = [] ∧ rest = []
      else if ran.2 = false then
        (∃ m, fault = some m ∧ m ≤ 4 ∧ (2 ≤ m ∨ queued.1.forwardQueue = [])) ∧ rest = []
      else Harmless cfg (flushCache ran.1) rest

/-- Every call of the sequence is harmless. -/
def AllHarmless (cfg : ServeConfig) : Server κ α → List (List (RecvReq κ)) → Prop
  | _, [] => True
  | s, recvReqs :: rest =>
      Harmless cfg s recvReqs ∧ AllHarmless cfg (exposedStep cfg s recvReqs).2.1 rest

section Batch

variable {env : BatchEnv κ} {s : Server κ α} {fault : Option ℕ}

/-- A batch makes at least one micro-batch, so after admission a line is given out. -/
theorem batchCalls_eq (cfg : ServeConfig) (s : Server κ α) : ∃ cs,
    batchCalls cfg.engine (s.numMb cfg) = admitCalls ++ .allocCpu :: cs := by
  have hpos : 0 < s.numMb cfg := by
    rw [Server.numMb, createMicroBatches_length]
    split_ifs
    · exact Nat.one_pos
    · exact cfg.engine.nUb_pos
  obtain ⟨n, hn⟩ := Nat.exists_eq_add_of_lt hpos
  rw [batchCalls, prepareCalls, hn, Nat.zero_add, List.range_succ_eq_map, List.flatMap_cons]
  exact ⟨_, rfl⟩

/-- Behind the first line, the cursor has moved. -/
theorem not_cleared_of_alloc (hline : 0 < s.engine.kv.pool.cacheLine) (cs : List ServeCall) :
    ¬ Cleared (reach (serveStep cfg env) s (admitCalls ++ .allocCpu :: cs)).1 := by
  obtain ⟨u, hu, hmoved⟩ : ∃ u, serveStep cfg env (s.admitted cfg) .allocCpu = some u ∧
      u.engine.kv.pool.curStartLoc = s.engine.kv.pool.curStartLoc + s.engine.kv.pool.cacheLine :=
    ⟨_, rfl, rfl⟩
  rw [reach_append (exec_admitCalls s), reach, hu]
  intro hclear
  have hle := (reach_cursor cs).1.trans hclear.start_eq.le
  omega

/-- An exception in the first parts leaves the pool and the pages. -/
theorem cleared_of_admit (hs : Cleared { s with forwardQueue := [] }) {m : ℕ} (hm : m ≤ 4) :
    Cleared (reach (serveStep cfg env) s (admitCalls.take m)).1 ↔ 2 ≤ m ∨ s.forwardQueue = [] := by
  obtain ⟨-, hstart, hcl, hgpu, hcpu⟩ := hs
  obtain rfl | rfl | rfl | rfl | rfl : m = 0 ∨ m = 1 ∨ m = 2 ∨ m = 3 ∨ m = 4 := by omega
  · exact ⟨fun h => Or.inr h.queue_eq, fun h => ⟨h.resolve_left (by omega), hstart, hcl, hgpu, hcpu⟩⟩
  · exact ⟨fun h => Or.inr h.queue_eq, fun h => ⟨h.resolve_left (by omega), hstart, hcl, hgpu, hcpu⟩⟩
  · exact ⟨fun _ => Or.inl le_rfl, fun _ => ⟨rfl, hstart, hcl, hgpu, hcpu⟩⟩
  · exact ⟨fun _ => Or.inl (by omega), fun _ => ⟨rfl, hstart, hcl, hgpu, hcpu⟩⟩
  · exact ⟨fun _ => Or.inl (by omega), fun _ => ⟨rfl, hstart, hcl, hgpu, hcpu⟩⟩

/-- When a batch raises, it leaves the cleared state exactly if the exception strikes
between the emptying of the queue and the first line. -/
theorem runBatch_cleared (hs : Cleared { s with forwardQueue := [] })
    (hline : 0 < s.engine.kv.pool.cacheLine) (hraised : (runBatch cfg env fault s).2 = false) :
    Cleared (runBatch cfg env fault s).1 ↔
      ∃ m, fault = some m ∧ m ≤ 4 ∧ (2 ≤ m ∨ s.forwardQueue = []) := by
  obtain ⟨cs, hcs⟩ := batchCalls_eq cfg s
  have hlen : 5 ≤ (batchCalls cfg.engine (s.numMb cfg)).length := by
    rw [hcs]
    simp [admitCalls]
  have hfull : ¬ Cleared (reach (serveStep cfg env) s (batchCalls cfg.engine (s.numMb cfg))).1 :=
    hcs ▸ not_cleared_of_alloc hline cs
  cases fault with
  | none => exact ⟨fun h => absurd h hfull, fun ⟨m, hm, _⟩ => absurd hm (by simp)⟩
  | some m =>
      simp only [runBatch, Option.some.injEq, exists_eq_left']
      split_ifs with hlt
      · rcases Nat.lt_or_ge 4 m with h4 | h4
        · -- The line is given out before part `m`.
          obtain ⟨n, rfl⟩ := Nat.exists_eq_add_of_lt h4
          have htake : (batchCalls cfg.engine (s.numMb cfg)).take (4 + n + 1) =
              admitCalls ++ .allocCpu :: cs.take n := by
            rw [hcs, Nat.add_assoc, show 4 = admitCalls.length from rfl, List.take_length_add_append]
            rfl
          rw [htake]
          exact ⟨fun h => absurd h (not_cleared_of_alloc hline _), fun h => by omega⟩
        · have htake : (batchCalls cfg.engine (s.numMb cfg)).take m = admitCalls.take m := by
            rw [hcs]
            exact List.take_append_of_le_length h4
          rw [htake, cleared_of_admit hs h4]
          exact ⟨fun h => ⟨h4, h⟩, fun h => h.2⟩
      · exact ⟨fun h => absurd h hfull, fun h => by omega⟩

end Batch

section Loop

variable {s : Server κ α}

theorem cleared_flushCache (hs : s.forwardQueue = []) : Cleared (flushCache s) := by
  rw [flushCache, if_pos hs]
  exact ⟨hs, rfl, rfl, rfl, rfl⟩

theorem skipped_notMem (rest : List (RecvReq κ)) :
    Outcome.skipped ∉ Outcome.raised :: rest.map (fun _ => Outcome.skipped) ↔ rest = [] := by
  cases rest with
  | nil => simp
  | cons r rest => simp

theorem serveLoop_cacheLine (s : Server κ α) (recvReqs : List (RecvReq κ)) :
    (serveLoop cfg s recvReqs).1.engine.kv.pool.cacheLine = s.engine.kv.pool.cacheLine := by
  induction recvReqs generalizing s with
  | nil => rfl
  | cons r rest ih =>
      cases r with
      | invalid => rfl
      | batch recvReq env fault =>
          have hran := runBatch_cacheLine cfg env fault (handleBatchGenerateRequest cfg recvReq s).1
          simp only [serveLoop]
          split_ifs
          · rfl
          · exact hran
          · exact (ih _).trans ((flushCache_frame _).2.2.trans hran)

/-- The loop of `exposed_step` from the cleared state. -/
theorem serveLoop_cleared_iff (hs : Cleared s) (hline : 0 < s.engine.kv.pool.cacheLine)
    (recvReqs : List (RecvReq κ)) :
    Cleared (serveLoop cfg s recvReqs).1 ∧ Outcome.skipped ∉ (serveLoop cfg s recvReqs).2 ↔
      Harmless cfg s recvReqs := by
  induction recvReqs generalizing s with
  | nil => simp [serveLoop, Harmless, hs]
  | cons r rest ih =>
      cases r with
      | invalid => simpa only [serveLoop, Harmless, hs, true_and] using skipped_notMem rest
      | batch recvReq env fault =>
          obtain ⟨-, hstart, hcl, hgpu, hcpu⟩ := hs
          simp only [serveLoop, Harmless]
          split_ifs with hqueued hran
          · have hclear : Cleared (handleBatchGenerateRequest cfg recvReq s).1 ↔
                (handleBatchGenerateRequest cfg recvReq s).1.forwardQueue = [] :=
              ⟨Cleared.queue_eq, fun h => ⟨h, hstart, hcl, hgpu, hcpu⟩⟩
            exact and_congr hclear (skipped_notMem rest)
          · exact and_congr (runBatch_cleared ⟨rfl, hstart, hcl, hgpu, hcpu⟩ hline hran)
              (skipped_notMem rest)
          · rw [Bool.not_eq_false] at hran
            obtain ⟨hqueue, -⟩ := runBatch_answers (Prod.ext rfl hran)
            have hpos := runBatch_cacheLine cfg env fault (handleBatchGenerateRequest cfg recvReq s).1
            rw [← ih (cleared_flushCache hqueue) (by
              rw [(flushCache_frame _).2.2, hpos]
              exact hline)]
            simp

/-- A call of `exposed_step` from the cleared state. -/
theorem exposedStep_cleared_iff (cfg : ServeConfig) (hs : Cleared s) (hline : 0 < s.engine.kv.pool.cacheLine)
    (recvReqs : List (RecvReq κ)) :
    Cleared (exposedStep cfg s recvReqs).2.1 ∧ Outcome.skipped ∉ (exposedStep cfg s recvReqs).2.2 ↔
      Harmless cfg s recvReqs := by
  rw [← serveLoop_cleared_iff hs hline]
  refine and_congr ⟨?_, ?_⟩ Iff.rfl
  · exact fun h => ⟨h.queue_eq, h.start_eq, h.line_eq, h.gpu_eq, h.cpu_eq⟩
  · exact fun h => ⟨h.queue_eq, h.start_eq, h.line_eq, h.gpu_eq, h.cpu_eq⟩

theorem isolated_iff_of_cleared (hs : Cleared s) (hline : 0 < s.engine.kv.pool.cacheLine)
    (recvss : List (List (RecvReq κ))) : Isolated cfg s recvss ↔ AllHarmless cfg s recvss := by
  induction recvss generalizing s with
  | nil => simp [Isolated, AllHarmless]
  | cons recvReqs rest ih =>
      have hstep := exposedStep_cleared_iff cfg hs hline recvReqs
      have hnext : (exposedStep cfg s recvReqs).2.1.engine.kv.pool.cacheLine =
          s.engine.kv.pool.cacheLine := serveLoop_cacheLine s recvReqs
      constructor
      · rintro ⟨hclear, hskipped, hrest⟩
        exact ⟨hstep.mp ⟨hclear, hskipped⟩, (ih hclear (hnext ▸ hline)).mp hrest⟩
      · rintro ⟨hharmless, hrest⟩
        obtain ⟨hclear, hskipped⟩ := hstep.mpr hharmless
        exact ⟨hclear, hskipped, (ih hclear (hnext ▸ hline)).mpr hrest⟩

/-- From the start of the server on, every call of a sequence is isolated if and only if
every call is harmless. -/
theorem serve_isolated_iff (cfg : ServeConfig) (mem : ℕ → ℕ → α) (cache cold pin : ℕ → α)
    (gpu : ℕ → κ) (cpu : ℕ → ℕ → κ) (recvss : List (List (RecvReq κ))) :
    Isolated cfg (.start cfg mem cache cold pin gpu cpu) recvss ↔
      AllHarmless cfg (.start cfg mem cache cold pin gpu cpu) recvss := by
  refine isolated_iff_of_cleared ⟨rfl, rfl, rfl, rfl, rfl⟩ ?_ recvss
  have := cfg.engine.cacheLine_pos
  rwa [← cfg.engine.gpuTokenBufferSize_half] at this

/-- An exception in the first call of prefill leaves the cursor behind the lines of the
batch. -/
theorem serve_isolated_fails :
    ¬ ∀ recvss : List (List (RecvReq ℕ)),
      Isolated (.small 3 (by decide)) (.small 3 (by decide)) recvss := by
  intro h
  have hclear := (h [[.one 16 (some 6)]]).1.start_eq
  exact absurd hclear (by decide +kernel)

end Loop

end HarvestMoE
