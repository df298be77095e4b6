import HarvestMoE.ExpertMapping
import HarvestMoE.ReallocationBatch

/-!
# The engine that serves and the engine that is moved

`start_router_process` makes a `ModelRpcClient` in the process of the router, and
`launch_server` makes another one for the API of the experts. With one rank, each builds
an engine of its own. `/generate` runs on the first, while reallocation requests move
experts of the second and `/expert_locations` reads its tracker.

## Main definitions

* `LaunchedServer` — the two servers.
* `exposedRequestExpertReallocation` — a request for one expert.
* `launchStep` — the calls on either engine, in any order.
* `OneEngine` — what holds if there were one.
* `Lands` — a request gets to the tracker.
-/

namespace HarvestMoE

open Lib

variable {α : Type*}

/-- Both engines are built from the server's arguments. How large their batches are depends
on the memory that is free when they are. -/
structure LaunchConfig where
  cfg : EngineConfig
  ubsApi : ℕ
  nUbApi : ℕ
  ubsApi_pos : 0 < ubsApi
  nUbApi_pos : 0 < nUbApi

/-- The configuration of the engine behind the API. -/
def LaunchConfig.api (lc : LaunchConfig) : EngineConfig :=
  { lc.cfg with
    ubs := lc.ubsApi
    nUb := lc.nUbApi
    ubs_pos := lc.ubsApi_pos
    nUb_pos := lc.nUbApi_pos }

structure ModelRpcServer (cfg : EngineConfig) (α : Type*) where
  exeEngine : MoverState cfg α
  reallocationManager : ReallocationManager

/-- `exposed_init_model` -/
def ModelRpcServer.init (cfg : EngineConfig) (weights : WeightState α) : ModelRpcServer cfg α where
  exeEngine := .start cfg weights
  reallocationManager := .new

/-- The server of the router process, and the one in the process of the API. -/
structure LaunchedServer (lc : LaunchConfig) (α : Type*) where
  router : ModelRpcServer lc.cfg α
  modelClient : ModelRpcServer lc.api α

def launchServer (lc : LaunchConfig) (weights weightsApi : WeightState α) : LaunchedServer lc α where
  router := .init lc.cfg weights
  modelClient := .init lc.api weightsApi

section Request

variable {cfg : EngineConfig}

/-- What the call returns: a dictionary with an error, or one with a result. -/
inductive ReallocationReply
  | error (message : String)
  | result (requestId status message : String) (success : Bool)
  deriving DecidableEq, Repr

/-- `exposed_request_expert_reallocation`. What `submit_request` leaves in the request is
overwritten. -/
def exposedRequestExpertReallocation (requestId : String) (layerId expertId : ℤ) (action : String)
    (priority : ℤ) (env : MoveEnv α) (s : MoverState cfg α) (m : ReallocationManager) :
    MoverState cfg α × ReallocationManager × ReallocationReply :=
  match ReallocationAction.ofString action with
  | none => (s, m, .error s!"'{action}' is not a valid ReallocationAction")
  | some action =>
      let (m, req) := m.submitRequest { requestId, layerId, expertId, action, priority }
      let (s, success, error) := processReallocationRequest env s req
      let req := { req with
        status := if success then .completed else .failed
        errorMessage := error }
      let message := match error with
        | some message => if message = "" then "Expert reallocation completed" else message
        | none => "Expert reallocation completed"
      (s, m.complete req, .result requestId (if success then "completed" else "failed") message success)

/-- `ReallocationResponse` -/
structure ReallocationResponse where
  requestId : String
  status : String
  message : String
  deriving DecidableEq, Repr

/-- `/expert_reallocation/request`, from what the model client returns. -/
def requestExpertReallocation : ReallocationReply → ReallocationResponse
  | .error _ => ⟨"", "submitted", "Request submitted"⟩
  | .result requestId status message _ => ⟨requestId, status, message⟩

/-- An entry of `/expert_locations`. -/
structure LocatedExpert where
  layerId : ℕ
  expertId : ℕ
  loc : ExpertLocation

def ExpertTracker.getAllExpertLocations (t : ExpertTracker) : List LocatedExpert :=
  (List.range t.numLayers).flatMap fun l =>
    (List.range t.numExpertsPerLayer).map fun e => ⟨l, e, t.layers l e⟩

end Request

/-- A call on one of the engines: `batch_forward_step` makes those of the first three kinds,
the API those of the others. -/
inductive LaunchEvent (α : Type*)
  | createMicroBatches
  | forward (numMb : ℕ) (call : Call)
  | flushCache
  | request (requestId : String) (layerId expertId : ℤ) (action : String) (priority : ℤ)
      (env : MoveEnv α)
  | expertLocations

inductive ApiResponse
  | nothing
  | reallocation (response : ReallocationResponse)
  | locations (experts : List LocatedExpert)

/-- What `batch_forward_step` does to an engine. -/
def forwardStep {cfg : EngineConfig} (s : MoverState cfg α) : LaunchEvent α → MoverState cfg α
  | .createMicroBatches => moverStep s .newBatch
  | .forward numMb call => moverStep s (.engine numMb call)
  | .flushCache => moverStep s .reset
  | _ => s

/-- A request passes the guards, and torch goes through up to the update of the tracker. -/
def MovesTracker {cfg : EngineConfig} (env : MoveEnv α) (s : MoverState cfg α)
    (req : ReallocationReq) : Prop :=
  ∃ l e slot : ℕ, req.layerId = l ∧ req.expertId = e ∧ env.Tracks s l e ∧
    (req.action = .moveToGpu ∧ GpuAdmits cfg s.tracker l e slot ∨
      req.action = .moveToCpu ∧ CpuAdmits s.tracker l e slot ∧
        env.fails .synchronize = none ∧ cfg.expertRows ≠ 0)

section Launched

variable {lc : LaunchConfig}

/-- The server takes a call. -/
def LaunchedServer.step (s : LaunchedServer lc α) (event : LaunchEvent α) :
    LaunchedServer lc α × ApiResponse :=
  match event with
  | .request requestId layerId expertId action priority env =>
      let (engine, manager, reply) := exposedRequestExpertReallocation requestId layerId expertId
        action priority env s.modelClient.exeEngine s.modelClient.reallocationManager
      ({ s with modelClient := ⟨engine, manager⟩ }, .reallocation (requestExpertReallocation reply))
  | .expertLocations => (s, .locations s.modelClient.exeEngine.tracker.getAllExpertLocations)
  | event => ({ s with router := { s.router with
      exeEngine := forwardStep s.router.exeEngine event } }, .nothing)

/-- The engine that was asked for: it takes the calls of `batch_forward_step`, and every
request that is reported completed. -/
def expectedStep (m : MoverState lc.cfg α) (event : LaunchEvent α) (response : ApiResponse) :
    MoverState lc.cfg α :=
  match event, response with
  | .request requestId layerId expertId action priority env, .reallocation response =>
      match ReallocationAction.ofString action with
      | some action =>
          if response.status = "completed" then
            (processReallocationRequest env m { requestId, layerId, expertId, action, priority }).1
          else m
      | none => m
  | event, _ => forwardStep m event

/-- A call, seen by the server and by the engine that was asked for. -/
def launchStep (p : LaunchedServer lc α × MoverState lc.cfg α) (event : LaunchEvent α) :
    LaunchedServer lc α × MoverState lc.cfg α :=
  ((p.1.step event).1, expectedStep p.2 event (p.1.step event).2)

def launchRun (p : LaunchedServer lc α × MoverState lc.cfg α) (events : List (LaunchEvent α)) :
    LaunchedServer lc α × MoverState lc.cfg α := events.foldl launchStep p

/-- The server before any call. -/
def launchStart (lc : LaunchConfig) (weights weightsApi : WeightState α) :
    LaunchedServer lc α × MoverState lc.cfg α :=
  (launchServer lc weights weightsApi, .start lc.cfg weights)

/-- The entries name the rows of the persistent experts, and no other expert has such a row. -/
def Describes (cfg : EngineConfig) (experts : List LocatedExpert) (mapping : ℕ → ℕ → ℤ) : Prop :=
  ∀ x ∈ experts,
    if x.loc.location = .gpuPersistent then mapping x.layerId x.expertId = x.loc.cacheSlot
    else ∀ row : ℕ, row < cfg.numHiddenLayers * cfg.numExpertsGpu → mapping x.layerId x.expertId ≠ row

/-- The next `batch_forward_step` uses the mapping and the rows that were asked for, and the
API describes that mapping. -/
structure OneEngine (s : LaunchedServer lc α) (m : MoverState lc.cfg α) : Prop where
  mapping_eq : ∀ l < lc.cfg.numHiddenLayers, ∀ e < lc.cfg.numLocalExperts,
    s.router.exeEngine.expertsMapping l e = m.expertsMapping l e
  rows_eq : ∀ q < lc.cfg.expertsPoolSize * lc.cfg.expertRows,
    s.router.exeEngine.weights.expertsCache q = m.weights.expertsCache q
  describes : Describes lc.cfg s.modelClient.exeEngine.tracker.getAllExpertLocations
    s.router.exeEngine.expertsMapping

/-- A request that gets to the tracker of the engine behind the API. -/
def Lands (s : LaunchedServer lc α) : LaunchEvent α → Prop
  | .request requestId layerId expertId action priority env =>
      ∃ a, ReallocationAction.ofString action = some a ∧
        MovesTracker env s.modelClient.exeEngine
          ⟨requestId, layerId, expertId, a, priority, .pending, none⟩
  | _ => False

end Launched

section Moves

variable {cfg : EngineConfig} {env : MoveEnv α} {s : MoverState cfg α} {req : ReallocationReq}

/-- What a request that gets to the tracker enters there. -/
theorem tracker_of_movesTracker (h : MovesTracker env s req) :
    ∃ l e slot : ℕ, ∃ loc, (processReallocationRequest env s req).1.tracker =
        { s.tracker with layers := put s.tracker.layers l e loc } ∧
      (GpuAdmits cfg s.tracker l e slot ∧ loc = ⟨.gpuPersistent, .cached, 0, slot⟩ ∨
        CpuAdmits s.tracker l e slot ∧ loc = ⟨.cpuMemory, .idle, -1, -1⟩) := by
  rcases h with ⟨l, e, slot, hl, he, htracks, ⟨haction, hadm⟩ | ⟨haction, hadm, hsync, hrows⟩⟩
  · refine ⟨l, e, slot, _, ?_, Or.inl ⟨hadm, rfl⟩⟩
    rw [processReallocationRequest, haction]
    rcases moveExpertToGpu_cases env s req.layerId req.expertId none with
      ⟨l', e', slot', hl', he', hadm', heff⟩ | ⟨hrefused, -⟩
    · obtain rfl : l' = l := by exact_mod_cast hl'.symm.trans hl
      obtain rfl : e' = e := by exact_mod_cast he'.symm.trans he
      obtain rfl : slot' = slot := Option.some.inj (hadm'.2.symm.trans hadm.2)
      exact heff.tracker_eq.trans (if_pos htracks)
    · exact absurd hadm (hrefused l e slot hl he)
  · refine ⟨l, e, slot, _, ?_, Or.inr ⟨hadm, rfl⟩⟩
    rw [processReallocationRequest, haction]
    rcases moveExpertToCpu_cases env s req.layerId req.expertId with
      ⟨l', e', slot', hl', he', hadm', heff⟩ | ⟨hrefused, -⟩
    · obtain rfl : l' = l := by exact_mod_cast hl'.symm.trans hl
      obtain rfl : e' = e := by exact_mod_cast he'.symm.trans he
      exact heff.tracker_eq.trans (if_pos ⟨hsync, hrows, htracks⟩)
    · exact absurd hadm (hrefused l e slot hl he)

/-- Any other request leaves the tracker, and is not reported completed. -/
theorem tracker_of_not_movesTracker (h : ¬ MovesTracker env s req) :
    (processReallocationRequest env s req).1.tracker = s.tracker ∧
      (processReallocationRequest env s req).2.1 = false := by
  cases haction : req.action with
  | moveToGpu =>
      rw [processReallocationRequest, haction]
      rcases moveExpertToGpu_cases env s req.layerId req.expertId none with
        ⟨l, e, slot, hl, he, hadm, heff⟩ | ⟨-, hsame, hfailed⟩
      · have htracks : ¬ env.Tracks s l e := fun htracks =>
          h ⟨l, e, slot, hl, he, htracks, Or.inl ⟨haction, hadm⟩⟩
        refine ⟨heff.tracker_eq.trans (if_neg htracks), ?_⟩
        rw [Bool.eq_false_iff, ne_eq, heff.succeeded_iff]
        exact fun hok => htracks hok.1
      · exact ⟨by rw [hsame], hfailed⟩
  | moveToCpu =>
      rw [processReallocationRequest, haction]
      rcases moveExpertToCpu_cases env s req.layerId req.expertId with
        ⟨l, e, slot, hl, he, hadm, heff⟩ | ⟨-, hsame, hfailed⟩
      · have htracks : ¬ (env.fails .synchronize = none ∧ cfg.expertRows ≠ 0 ∧ env.Tracks s l e) :=
          fun hok => h ⟨l, e, slot, hl, he, hok.2.2, Or.inr ⟨haction, hadm, hok.1, hok.2.1⟩⟩
        refine ⟨heff.tracker_eq.trans (if_neg htracks), ?_⟩
        rw [Bool.eq_false_iff, ne_eq, heff.succeeded_iff]
        exact fun hok => htracks hok.1
      · exact ⟨by rw [hsame], hfailed⟩
  | preloadToCache => simp [processReallocationRequest, haction, MoveResult.failure]
  | evictFromCache => simp [processReallocationRequest, haction, MoveResult.failure]

end Moves

section Reply

variable {cfg : EngineConfig} {env : MoveEnv α} {s : MoverState cfg α} {m : ReallocationManager}
variable {requestId action : String} {layerId expertId priority : ℤ} {a : ReallocationAction}

/-- The manager does not change what is carried out. -/
theorem processReallocationRequest_submitted (req : ReallocationReq) :
    processReallocationRequest env s (m.submitRequest req).2 = processReallocationRequest env s req := by
  rw [ReallocationManager.submitRequest]
  split <;> rfl

/-- The engine takes the request, and the status says whether it succeeded. -/
theorem exposedRequest_of_action (env : MoveEnv α) (s : MoverState cfg α) (m : ReallocationManager)
    (requestId : String) (layerId expertId priority : ℤ)
    (ha : ReallocationAction.ofString action = some a) :
    let r := processReallocationRequest env s
      ⟨requestId, layerId, expertId, a, priority, .pending, none⟩
    let reply := exposedRequestExpertReallocation requestId layerId expertId action priority env s m
    reply.1 = r.1 ∧ ((requestExpertReallocation reply.2.2).status = "completed" ↔ r.2.1 = true) := by
  simp only [exposedRequestExpertReallocation, ha, processReallocationRequest_submitted,
    requestExpertReallocation, true_and]
  split_ifs with hok
  · simp [hok]
  · simp [hok]

/-- An unknown action does nothing. -/
theorem exposedRequest_of_unknown (ha : ReallocationAction.ofString action = none) :
    (exposedRequestExpertReallocation requestId layerId expertId action priority env s m).1 = s := by
  simp only [exposedRequestExpertReallocation, ha]

end Reply

section Runs

variable {lc : LaunchConfig} {p : LaunchedServer lc α × MoverState lc.cfg α}

/-- No request has got to the tracker. -/
structure Untouched (p : LaunchedServer lc α × MoverState lc.cfg α) : Prop where
  tracker_eq : p.1.modelClient.exeEngine.tracker = initExpertTracker lc.cfg
  mapping_eq : p.1.router.exeEngine.expertsMapping = initExpertsMapping lc.cfg
  expected_eq : p.2 = p.1.router.exeEngine

theorem Untouched.start (lc : LaunchConfig) (weights weightsApi : WeightState α) :
    Untouched (launchStart lc weights weightsApi) := ⟨rfl, rfl, rfl⟩

theorem ExpertTracker.mem_getAllExpertLocations {t : ExpertTracker} {l e : ℕ} (h : t.Known l e) :
    ⟨l, e, t.layers l e⟩ ∈ t.getAllExpertLocations := by
  have hle := ExpertTracker.known_natCast.mp h
  exact List.mem_flatMap.mpr ⟨l, List.mem_range.mpr hle.1,
    List.mem_map.mpr ⟨e, List.mem_range.mpr hle.2, rfl⟩⟩

/-- The first mapping is described by the first tracker. -/
theorem describes_init (cfg : EngineConfig) :
    Describes cfg (initExpertTracker cfg).getAllExpertLocations (initExpertsMapping cfg) := by
  intro x hx
  rcases List.mem_flatMap.mp hx with ⟨l, hl, hx⟩
  rcases List.mem_map.mp hx with ⟨e, he, rfl⟩
  rw [initExpertTracker_eq] at hl he
  have hl : l < cfg.numHiddenLayers := List.mem_range.mp hl
  have he : e < cfg.numLocalExperts := List.mem_range.mp he
  have hslot := Placed.slotOf_initExpertTracker cfg l e
  split_ifs with hgpu
  · rw [ExpertTracker.slotOf_of_gpu hgpu] at hslot
    split_ifs at hslot with h
    · rw [initExpertsMapping_gpu h.2]
      exact (Option.some.inj hslot).symm
  · rw [ExpertTracker.slotOf_eq_none.mpr hgpu] at hslot
    split_ifs at hslot with h
    intro row hrow heq
    rcases initExpertsMapping_bounds hl he with ⟨row', hrow', -, -, hpage⟩
    have hrow := hpage (by omega)
    have heq : initExpertsMapping cfg l e = row := heq
    omega

/-- The persistent rows of a layer end before those of the next one begin. -/
theorem slot_lt_persistent {cfg : EngineConfig} {l i : ℕ} (hl : l < cfg.numHiddenLayers)
    (hi : i < cfg.numExpertsGpu) :
    l * cfg.numExpertsGpu + i < cfg.numHiddenLayers * cfg.numExpertsGpu := by
  have hrow : (l + 1) * cfg.numExpertsGpu ≤ cfg.numHiddenLayers * cfg.numExpertsGpu :=
    Nat.mul_le_mul_right _ hl
  rw [Nat.add_mul, Nat.one_mul] at hrow
  omega

theorem Untouched.oneEngine (h : Untouched p) : OneEngine p.1 p.2 where
  mapping_eq := fun _ _ _ _ => by rw [h.expected_eq]
  rows_eq := fun _ _ => by rw [h.expected_eq]
  describes := by
    rw [h.tracker_eq, h.mapping_eq]
    exact describes_init lc.cfg

/-- A call other than a request that gets to the tracker leaves both engines as they are
expected. -/
theorem Untouched.step (h : Untouched p) {event : LaunchEvent α} (hno : ¬ Lands p.1 event) :
    Untouched (launchStep p event) := by
  cases event with
  | request requestId layerId expertId action priority env =>
      cases ha : ReallocationAction.ofString action with
      | none =>
          refine ⟨?_, h.mapping_eq, ?_⟩
          · simp only [launchStep, LaunchedServer.step, exposedRequest_of_unknown ha]
            exact h.tracker_eq
          · simp only [launchStep, LaunchedServer.step, expectedStep, ha]
            exact h.expected_eq
      | some a =>
          have hmoves : ¬ MovesTracker env p.1.modelClient.exeEngine
              ⟨requestId, layerId, expertId, a, priority, .pending, none⟩ :=
            fun hmoves => hno ⟨a, ha, hmoves⟩
          have hreply := exposedRequest_of_action env p.1.modelClient.exeEngine
            p.1.modelClient.reallocationManager requestId layerId expertId priority ha
          rcases tracker_of_not_movesTracker hmoves with ⟨htracker, hfailed⟩
          refine ⟨?_, h.mapping_eq, ?_⟩
          · simp only [launchStep, LaunchedServer.step, hreply.1, htracker]
            exact h.tracker_eq
          · have hstatus : ¬ (requestExpertReallocation (exposedRequestExpertReallocation requestId
                layerId expertId action priority env p.1.modelClient.exeEngine
                p.1.modelClient.reallocationManager).2.2).status = "completed" := by
              rw [hreply.2, hfailed]
              exact Bool.false_ne_true
            simp only [launchStep, LaunchedServer.step, expectedStep, ha, if_neg hstatus]
            exact h.expected_eq
  | createMicroBatches =>
      exact ⟨h.tracker_eq, h.mapping_eq, congrArg (fun m => moverStep m .newBatch) h.expected_eq⟩
  | forward numMb call =>
      exact ⟨h.tracker_eq, h.mapping_eq,
        congrArg (fun m => moverStep m (.engine numMb call)) h.expected_eq⟩
  | flushCache =>
      exact ⟨h.tracker_eq, h.mapping_eq, congrArg (fun m => moverStep m .reset) h.expected_eq⟩
  | expertLocations => exact h

/-- A request that gets to the tracker makes the API describe another mapping. -/
theorem Untouched.not_oneEngine (h : Untouched p) {event : LaunchEvent α} (hlands : Lands p.1 event) :
    ¬ OneEngine (launchStep p event).1 (launchStep p event).2 := by
  cases event with
  | request requestId layerId expertId action priority env =>
      rcases hlands with ⟨a, ha, hmoves⟩
      rcases tracker_of_movesTracker hmoves with ⟨l, e, slot, loc, htracker, hadm⟩
      have hreply := exposedRequest_of_action env p.1.modelClient.exeEngine
        p.1.modelClient.reallocationManager requestId layerId expertId priority ha
      intro hone
      have hdesc := hone.describes
      simp only [launchStep, LaunchedServer.step, hreply.1, htracker, h.tracker_eq,
        h.mapping_eq] at hdesc
      rw [h.tracker_eq] at hadm
      rcases hadm with ⟨hadm, rfl⟩ | ⟨⟨hknown, hslot⟩, rfl⟩
      · -- The expert is entered as persistent, and its row is still one of a page.
        have hadm' := canMoveToGpu_eq_none.mp hadm.1
        have hentry := hdesc _ (ExpertTracker.mem_getAllExpertLocations hadm'.1)
        simp only [put_self, if_true] at hentry
        have hknown : (initExpertTracker lc.cfg).Known l e := hadm'.1
        rw [initExpertTracker_eq] at hknown
        have hl : l < lc.cfg.numHiddenLayers := (ExpertTracker.known_natCast.mp hknown).1
        have he : e < lc.cfg.numLocalExperts := (ExpertTracker.known_natCast.mp hknown).2
        have hpaged : ¬ e < lc.cfg.numExpertsGpu := by
          intro hlt
          have hnone : (initExpertTracker lc.cfg).slotOf l e = none := hadm'.2.1
          rw [Placed.slotOf_initExpertTracker, if_pos ⟨hl, hlt⟩] at hnone
          cases hnone
        rcases initExpertsMapping_bounds hl he with ⟨row, hrow, -, -, hpage⟩
        have hpage := hpage (not_lt.mp hpaged)
        rcases (findFreeGpuSlot_spec hadm.2).1 with ⟨i, hi, rfl⟩
        have hbound : l * lc.cfg.numExpertsGpu + i <
            lc.cfg.numHiddenLayers * lc.cfg.numExpertsGpu := slot_lt_persistent hl hi
        have hentry : initExpertsMapping lc.cfg l e = (l * lc.cfg.numExpertsGpu + i : ℕ) := hentry
        omega
      · -- The expert is entered as one of the CPU, and its row is still a persistent one.
        have hentry := hdesc _ (ExpertTracker.mem_getAllExpertLocations hknown)
        simp only [put_self, reduceCtorEq] at hentry
        rw [Placed.slotOf_initExpertTracker] at hslot
        split_ifs at hslot with h
        have hrow : l * lc.cfg.numExpertsGpu + e < lc.cfg.numHiddenLayers * lc.cfg.numExpertsGpu :=
          slot_lt_persistent h.1 h.2
        exact hentry _ hrow (initExpertsMapping_gpu h.2)
  | createMicroBatches => exact hlands.elim
  | forward numMb call => exact hlands.elim
  | flushCache => exact hlands.elim
  | expertLocations => exact hlands.elim

/-- The router's engine is the one that was asked for, and the API describes it, in every
state of a run exactly when no request of the run gets to the tracker. -/
theorem launchRun_oneEngine_iff (lc : LaunchConfig) (weights weightsApi : WeightState α)
    (events : List (LaunchEvent α)) :
    Always launchStep (fun p => OneEngine p.1 p.2) (launchStart lc weights weightsApi) events ↔
      EachStep launchStep (fun p event => ¬ Lands p.1 event) (launchStart lc weights weightsApi)
        events :=
  always_iff_eachStep_of_kept (K := Untouched) (fun _ h => h.oneEngine)
    (fun _ _ h hno => h.step hno) (fun _ _ h hlands => h.not_oneEngine (not_not.mp hlands))
    (.start lc weights weightsApi) events

/-- The first request for a persistent expert to leave the GPU gets to the tracker. -/
theorem Untouched.lands_toCpu (h : Untouched p) {l e : ℕ} (hl : l < lc.cfg.numHiddenLayers)
    (he : e < lc.cfg.numExpertsGpu) (hrows : lc.cfg.expertRows ≠ 0) (requestId : String)
    (priority : ℤ) (fresh : ℕ → α) :
    Lands p.1 (.request requestId l e "move_to_cpu" priority (.calm fresh)) := by
  have heE : e < lc.cfg.numLocalExperts := he.trans_le lc.cfg.numExpertsGpu_le
  have hknown : p.1.modelClient.exeEngine.tracker.Known l e := by
    rw [h.tracker_eq, initExpertTracker_eq]
    exact ExpertTracker.known_natCast.mpr ⟨hl, heE⟩
  have hslot : p.1.modelClient.exeEngine.tracker.slotOf l e =
      some ((l * lc.cfg.numExpertsGpu + e : ℕ) : ℤ) := by
    rw [h.tracker_eq, Placed.slotOf_initExpertTracker, if_pos ⟨hl, he⟩]
  exact ⟨.moveToCpu, rfl, l, e, _, rfl, rfl, ⟨rfl, Or.inr rfl, rfl, rfl⟩,
    Or.inr ⟨rfl, ⟨hknown, hslot⟩, rfl, hrows⟩⟩

/-- An expert is moved off the GPU, and the engine that serves still has it there. -/
theorem launchRun_twoEngines : ¬ ∀ events : List (LaunchEvent ℕ),
    let weights := ⟨fun _ => 0, fun _ => 0, fun _ => 0, 0, 0, fun _ => none⟩
    Always launchStep (fun p => OneEngine p.1 p.2)
      (launchStart ⟨.small 2 two_pos, 2, 3, two_pos, three_pos⟩ weights weights) events := by
  intro h
  have hstart := Untouched.start ⟨.small 2 two_pos, 2, 3, two_pos, three_pos⟩
    (⟨fun _ => 0, fun _ => 0, fun _ => 0, 0, 0, fun _ => none⟩ : WeightState ℕ)
    ⟨fun _ => 0, fun _ => 0, fun _ => 0, 0, 0, fun _ => none⟩
  have hlands := hstart.lands_toCpu (l := 0) (e := 0) (by decide) (by simp) (by decide) "r" 0
    fun _ => 0
  exact hstart.not_oneEngine hlands (h [_]).2

/-- Whatever is requested, the mapping that serves is the one of the start. -/
theorem launchRun_mapping (lc : LaunchConfig) (weights weightsApi : WeightState α)
    (events : List (LaunchEvent α)) :
    (launchRun (launchStart lc weights weightsApi) events).1.router.exeEngine.expertsMapping =
      initExpertsMapping lc.cfg := by
  refine foldl_preserves (I := fun p : LaunchedServer lc α × MoverState lc.cfg α =>
    p.1.router.exeEngine.expertsMapping = initExpertsMapping lc.cfg) (fun p event _ hp => ?_) rfl
  cases event <;> exact hp

end Runs

end HarvestMoE
