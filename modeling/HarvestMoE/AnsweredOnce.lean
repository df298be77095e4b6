import HarvestMoE.Answers

/-!
# No request is answered twice

Wherever an exception strikes in a batch, the ids that have been answered and those that wait
are among the ids from before, each as often as there at most (`runBatch_rids`): an id that
leaves the queue is in the micro-batches or among the aborted requests, and a micro-batch is
emptied when it is answered. The answers only grow, and nothing depends on them
(`serveLoop_behind`), so lists of requests may be put together (`serveLoop_append`).

## Main definitions

* `Server.rids` — the ids that are answered or wait.
* `Processes` — a list of requests raises nothing.
-/

namespace HarvestMoE

open Lib

variable {κ α : Type*} {cfg : ServeConfig} {env : BatchEnv κ} {fault : Option ℕ}
  {s t : Server κ α}

section Batch

/-- The ids that are answered or wait. -/
def Server.rids (s : Server κ α) : List String :=
  s.outPyobjs.flatMap BatchTokenIDOut.rids ++ s.forwardQueue.map Req.rid

/-- The ids that are answered or in a micro-batch. -/
def Server.admittedRids (s : Server κ α) : List String :=
  s.outPyobjs.flatMap BatchTokenIDOut.rids ++ s.engine.tokens.microBatches.flatten.map Req.rid

/-- An exception leaves the state before some part of the batch. -/
theorem runBatch_prefix (cfg : ServeConfig) (env : BatchEnv κ) (fault : Option ℕ)
    (s : Server κ α) : ∃ bs, bs <+: batchCalls cfg.engine (s.numMb cfg) ∧
      exec (serveStep cfg env) s bs = some (runBatch cfg env fault s).1 := by
  have hfull := reach_prefix (serveStep cfg env) s (batchCalls cfg.engine (s.numMb cfg))
  cases fault with
  | none => exact hfull
  | some m =>
      simp only [runBatch]
      split_ifs
      · obtain ⟨bs, hbs, hexec⟩ := reach_prefix (serveStep cfg env) s
          ((batchCalls cfg.engine (s.numMb cfg)).take m)
        exact ⟨bs, hbs.trans (List.take_prefix _ _), hexec⟩
      · exact hfull

/-- New requests with the old ids leave the ids of the micro-batches. -/
theorem flatten_set_rids {mbs : List (List Req)} {k : ℕ} {old new : List Req}
    (hk : mbs[k]? = some old) (hrids : new.map Req.rid = old.map Req.rid) :
    (mbs.set k new).flatten.map Req.rid = mbs.flatten.map Req.rid := by
  obtain ⟨hlt, rfl⟩ := List.getElem?_eq_some_iff.mp hk
  have hlen : k < (mbs.map (List.map Req.rid)).length := by rwa [List.length_map]
  have hget : new.map Req.rid = (mbs.map (List.map Req.rid))[k] := by
    rw [hrids, List.getElem_map]
  rw [List.map_flatten, List.map_flatten, List.map_set, hget, List.set_getElem_self]

/-- A host call samples for the requests of a micro-batch, and keeps their ids. -/
theorem tokenStep_rids {numLayers eosTokenId : ℕ} {sample : ℕ → ℕ → ℕ → ℕ} {u v : TokenState}
    {c : Call} (h : tokenStep numLayers eosTokenId sample u c = some v) :
    v.microBatches.flatten.map Req.rid = u.microBatches.flatten.map Req.rid := by
  cases c with
  | layer i page k | postAttention i page k =>
      obtain ⟨reqs, hreqs, rfl⟩ := Option.map_eq_some_iff.mp h
      split_ifs
      · rfl
      · refine flatten_set_rids hreqs (List.ext_getElem? fun q => ?_)
        cases hq : reqs[q]? with
        | none => simp [hq]
        | some r => simp [hq, Req.prefillToken, Req.decodeToken]
  | _ => rw [← Option.some.inj h]

/-- A micro-batch that is answered is emptied. -/
theorem handleFinished_rids {k : ℕ} (h : serveStep cfg env s (.handleFinishedRequests k) = some t) :
    t.admittedRids.Subperm s.admittedRids := by
  obtain ⟨reqs, hreqs, rfl⟩ := Option.map_eq_some_iff.mp h
  obtain ⟨hlt, rfl⟩ := List.getElem?_eq_some_iff.mp hreqs
  rw [Server.admittedRids, Server.admittedRids, handleFinishedRequests, reportFinished_rids,
    List.append_assoc]
  refine (List.subperm_append_left _).mpr ?_
  by_cases hany : (s.engine.tokens.microBatches[k]).any Req.finished
  · -- The micro-batch leaves behind what is answered of it.
    rw [if_pos hany, List.set_eq_take_append_cons_drop, if_pos hlt]
    conv_rhs => rw [← List.take_append_drop k s.engine.tokens.microBatches,
      List.drop_eq_getElem_cons hlt]
    simp only [List.flatten_append, List.flatten_cons, List.map_append, List.nil_append]
    have hfinished : (finishedRids s.engine.tokens.microBatches[k]).Sublist
        (s.engine.tokens.microBatches[k].map Req.rid) := List.filter_sublist.map Req.rid
    exact (List.perm_append_comm_assoc _ _ _).subperm.trans
      ((hfinished.append_right _).append_left _).subperm
  · have hnone : finishedRids s.engine.tokens.microBatches[k] = [] := by
      simpa [finishedRids] using hany
    rw [if_neg hany, hnone, List.set_getElem_self, List.nil_append]

/-- The parts of a batch behind admission answer no id that is not in a micro-batch. -/
theorem serveStep_rids {numMb : ℕ} {c : ServeCall}
    (hc : c ∈ prepareCalls numMb ++ ((batchForwardStep cfg.engine numMb).map .forward ++
      (List.range numMb).map .handleFinishedRequests))
    (h : serveStep cfg env s c = some t) :
    t.forwardQueue = s.forwardQueue ∧ t.admittedRids.Subperm s.admittedRids := by
  rcases List.mem_append.mp hc with hc | hc
  · rcases mem_prepareCalls hc with rfl | ⟨k, rfl⟩
    · obtain rfl := Option.some.inj h
      exact ⟨rfl, List.Subperm.refl _⟩
    · obtain ⟨reqs, -, h⟩ := Option.bind_eq_some_iff.mp h
      obtain ⟨b, -, rfl⟩ := Option.map_eq_some_iff.mp h
      exact ⟨rfl, List.Subperm.refl _⟩
  rcases List.mem_append.mp hc with hc | hc
  · obtain ⟨a, -, rfl⟩ := List.mem_map.mp hc
    have hmiddle := serveStep_middle (Or.inr (Or.inr ⟨a, rfl⟩)) h
    obtain ⟨engine, hengine, rfl⟩ := Option.map_eq_some_iff.mp h
    refine ⟨rfl, (List.Perm.of_eq ?_).subperm⟩
    rw [Server.admittedRids, tokenStep_rids (engineStep_tokens hengine)]
    rfl
  · obtain ⟨k, -, rfl⟩ := List.mem_map.mp hc
    refine ⟨?_, handleFinished_rids h⟩
    obtain ⟨reqs, -, rfl⟩ := Option.map_eq_some_iff.mp h
    rfl

/-- A batch answers requests that waited. -/
theorem runBatch_rids (cfg : ServeConfig) (env : BatchEnv κ) (fault : Option ℕ)
    (s : Server κ α) : (runBatch cfg env fault s).1.rids.Subperm s.rids := by
  obtain ⟨bs, hbs, hexec⟩ := runBatch_prefix cfg env fault s
  generalize (runBatch cfg env fault s).1 = t at hexec
  obtain ⟨aborted, habort, hperm⟩ := createMicroBatches_perm (s.policy cfg) s.forwardQueue
  -- What is answered of the aborted requests, and what is admitted, is the queue.
  have hadmitted : (s.admitted cfg).admittedRids.Perm s.rids := by
    change ((reportFinished (createMicroBatches (s.policy cfg) s.forwardQueue).2 (fun _ => [])
      s.outPyobjs).flatMap BatchTokenIDOut.rids ++
        (createMicroBatches (s.policy cfg) s.forwardQueue).1.flatten.map Req.rid).Perm s.rids
    rw [reportFinished_rids, habort, finishedRids_abort, List.append_assoc, ← List.map_append]
    exact (hperm.map Req.rid).append_left _
  rcases List.prefix_or_prefix_of_prefix hbs (List.prefix_append admitCalls _) with hlt | ⟨cs, rfl⟩
  · have hout : (s.admitted cfg).rids.Sublist (s.admitted cfg).admittedRids :=
      (List.nil_sublist _).append_left _
    have hle := hlt.length_le
    rw [List.prefix_iff_eq_take.mp hlt] at hexec
    obtain hm | hm | hm | hm | hm : bs.length = 0 ∨ bs.length = 1 ∨ bs.length = 2 ∨
        bs.length = 3 ∨ bs.length = 4 := by
      simp only [admitCalls, List.length_cons, List.length_nil] at hle
      omega
    all_goals
      rw [hm] at hexec
      obtain rfl := Option.some.inj hexec
    · exact List.Subperm.refl s.rids
    · exact List.Subperm.refl s.rids
    · exact ((List.nil_sublist _).append_left _).subperm
    · exact hout.subperm.trans hadmitted.subperm
    · exact hout.subperm.trans hadmitted.subperm
  · rw [exec_append, exec_admitCalls, Option.bind_some] at hexec
    have hcs : cs <+: _ := (List.prefix_append_right_inj admitCalls).mp hbs
    have hlast := exec_preserves
      (I := fun u : Server κ α => u.forwardQueue = [] ∧ u.admittedRids.Subperm s.rids)
      (fun u c hc v hu hv => by
        have hstep := serveStep_rids (hcs.subset hc) hv
        exact ⟨hstep.1.trans hu.1, hstep.2.trans hu.2⟩) ⟨rfl, hadmitted.subperm⟩ hexec
    rw [Server.rids, hlast.1]
    exact ((List.nil_sublist _).append_left _).subperm.trans hlast.2

end Batch

section Lists

/-- The ids of a request of the list. -/
def RecvReq.rids : RecvReq κ → List String
  | .batch recvReq _ _ => recvReq.rid
  | .invalid => []

theorem newRequests_rids (cfg : ServeConfig) (recvReq : BatchTokenizedGenerateReqInput) :
    ((newRequests cfg recvReq).map Req.rid).Sublist recvReq.rid := by
  have hfst : (newRequests cfg recvReq).map Req.rid =
      (recvReq.rid.zip recvReq.inputIds).map Prod.fst := by
    simp [newRequests, Req.new, Function.comp_def]
  rw [hfst, List.zip_eq_zip_take_min, List.map_fst_zip (by simp)]
  exact List.take_sublist _ _

theorem handleBatchGenerateRequest_rids (cfg : ServeConfig)
    (recvReq : BatchTokenizedGenerateReqInput) (s : Server κ α) :
    (handleBatchGenerateRequest cfg recvReq s).1.rids.Sublist (s.rids ++ recvReq.rid) := by
  rw [Server.rids, Server.rids, handleBatchGenerateRequest, List.map_append, ← List.append_assoc]
  exact (newRequests_rids cfg recvReq).append_left _

/-- The ids of a list of requests. -/
theorem serveLoop_rids (cfg : ServeConfig) (s : Server κ α) (recvReqs : List (RecvReq κ)) :
    (serveLoop cfg s recvReqs).1.rids.Subperm (s.rids ++ recvReqs.flatMap RecvReq.rids) := by
  induction recvReqs generalizing s with
  | nil => simp [serveLoop, List.Subperm.refl]
  | cons r rest ih =>
      cases r with
      | invalid => exact (List.sublist_append_left _ _).subperm
      | batch recvReq env fault =>
          have hqueued := (handleBatchGenerateRequest_rids cfg recvReq s).subperm
          have hran := (runBatch_rids cfg env fault
            (handleBatchGenerateRequest cfg recvReq s).1).trans hqueued
          have hall : ∀ {rids : List String}, rids.Subperm (s.rids ++ recvReq.rid) →
              rids.Subperm (s.rids ++ (recvReq.rid ++ rest.flatMap RecvReq.rids)) := by
            intro rids h
            rw [← List.append_assoc]
            exact h.trans (List.sublist_append_left _ _).subperm
          simp only [serveLoop, List.flatMap_cons]
          split_ifs
          · exact hall hqueued
          · exact hall hran
          · refine (ih _).trans ?_
            rw [Server.rids, (flushCache_frame _).1, (flushCache_frame _).2.1, ← Server.rids,
              RecvReq.rids, ← List.append_assoc]
            exact (List.subperm_append_right _).mpr hran

/-- The answers of a call of `exposed_step`, and the ids that wait behind it. -/
theorem exposedStep_rids (cfg : ServeConfig) (s : Server κ α) (recvReqs : List (RecvReq κ)) :
    ((exposedStep cfg s recvReqs).1.flatMap BatchTokenIDOut.rids ++
      (exposedStep cfg s recvReqs).2.1.rids).Subperm
        (s.rids ++ recvReqs.flatMap RecvReq.rids) :=
  serveLoop_rids cfg s recvReqs

end Lists

section Behind

/-- The server, with more answers in front of its own. -/
def Server.behind (outs : List BatchTokenIDOut) (s : Server κ α) : Server κ α :=
  { s with outPyobjs := outs ++ s.outPyobjs }

@[simp] theorem behind_forwardQueue (outs : List BatchTokenIDOut) (s : Server κ α) :
    (s.behind outs).forwardQueue = s.forwardQueue := rfl

theorem reportFinished_append (reqs : List Req) (tokens : Req → List ℕ)
    (outs outPyobjs : List BatchTokenIDOut) :
    reportFinished reqs tokens (outs ++ outPyobjs) =
      outs ++ reportFinished reqs tokens outPyobjs := by
  simp only [reportFinished]
  split_ifs
  · rfl
  · rw [List.append_assoc]

/-- No part of a batch reads the answers. -/
theorem serveStep_behind (outs : List BatchTokenIDOut) (s : Server κ α) (c : ServeCall) :
    serveStep cfg env (s.behind outs) c = (serveStep cfg env s c).map (Server.behind outs) := by
  cases c with
  | handleAbortedRequests =>
      simp [serveStep, Server.behind, handleAbortedRequests, reportFinished_append]
  | prepareForPrefill k =>
      simp only [serveStep, Server.behind, Option.map_bind, Function.comp_def, Option.map_map]
  | forward c => simp only [serveStep, Server.behind, Option.map_map, Function.comp_def]
  | handleFinishedRequests k =>
      simp only [serveStep, Server.behind, handleFinishedRequests, reportFinished_append,
        Option.map_map, Function.comp_def]
  | _ => rfl

theorem runBatch_behind (outs : List BatchTokenIDOut) (s : Server κ α) :
    runBatch cfg env fault (s.behind outs) =
      ((runBatch cfg env fault s).1.behind outs, (runBatch cfg env fault s).2) := by
  have hstep : ∀ (t : Server κ α) c, serveStep cfg env (Server.behind outs t) c =
      (serveStep cfg env t c).map (Server.behind outs) := serveStep_behind outs
  have hreach := reach_map hstep s
  cases fault with
  | none => exact hreach _
  | some m =>
      have hnumMb : (s.behind outs).numMb cfg = s.numMb cfg := rfl
      simp only [runBatch, hnumMb, hreach]
      split_ifs <;> rfl

theorem flushCache_behind (outs : List BatchTokenIDOut) (s : Server κ α) :
    flushCache (s.behind outs) = (flushCache s).behind outs := by
  rw [flushCache, flushCache, behind_forwardQueue]
  split_ifs <;> rfl

/-- The answers are collected, and nothing depends on them. -/
theorem serveLoop_behind (cfg : ServeConfig) (outs : List BatchTokenIDOut) (s : Server κ α)
    (recvReqs : List (RecvReq κ)) :
    serveLoop cfg (s.behind outs) recvReqs =
      ((serveLoop cfg s recvReqs).1.behind outs, (serveLoop cfg s recvReqs).2) := by
  induction recvReqs generalizing s with
  | nil => rfl
  | cons r rest ih =>
      cases r with
      | invalid => rfl
      | batch recvReq env fault =>
          have hqueued : handleBatchGenerateRequest cfg recvReq (s.behind outs) =
              ((handleBatchGenerateRequest cfg recvReq s).1.behind outs,
                (handleBatchGenerateRequest cfg recvReq s).2) := rfl
          simp only [serveLoop, hqueued, runBatch_behind, flushCache_behind, ih]
          split_ifs <;> rfl

/-- The list raises nothing. -/
def Processes (cfg : ServeConfig) (s : Server κ α) (recvReqs : List (RecvReq κ)) : Prop :=
  ∀ o ∈ (serveLoop cfg s recvReqs).2, o = .processed

/-- Two lists of which nothing raises, one after the other. -/
theorem serveLoop_append {as bs : List (RecvReq κ)} (h : Processes cfg s (as ++ bs)) :
    Processes cfg s as ∧
      (serveLoop cfg s (as ++ bs)).1 = (serveLoop cfg (serveLoop cfg s as).1 bs).1 := by
  induction as generalizing s with
  | nil => exact ⟨by simp [Processes, serveLoop], rfl⟩
  | cons r rest ih =>
      cases r with
      | invalid => exact absurd (h .raised (by simp [serveLoop])) (by simp)
      | batch recvReq env fault =>
          rw [Processes, List.cons_append, serveLoop] at h
          rw [Processes, List.cons_append, serveLoop, serveLoop]
          split_ifs at h ⊢ with hqueued hran
          · exact absurd (h .raised (by simp)) (by simp)
          · exact absurd (h .raised (by simp)) (by simp)
          · obtain ⟨hrest, heq⟩ := ih fun o ho => h o (List.mem_cons_of_mem _ ho)
            exact ⟨List.forall_mem_cons.mpr ⟨rfl, hrest⟩, heq⟩

end Behind

end HarvestMoE
