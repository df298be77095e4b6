import HarvestMoE.Reallocation

/-!
# Batches of reallocation requests

`exposed_request_batch_expert_reallocation` makes a request of every item, submits the
batch to the manager, and then carries the requests out in their order. The flag `atomic`
is read in one place: `submit_batch` fails a batch whose experts are in motion, and no
expert ever is; the loop over the requests goes on whatever a request returns.

## Main definitions

* `ReallocationManager` — the queue and the tables of requests.
* `processReallocationRequest` — one request.
* `exposedRequestBatchExpertReallocation` — the call.
-/

namespace HarvestMoE

open Lib

variable {cfg : EngineConfig} {α : Type*}

inductive ReallocationAction
  | moveToGpu
  | moveToCpu
  | preloadToCache
  | evictFromCache
  deriving DecidableEq, Repr

/-- `ReallocationAction(value)`. -/
def ReallocationAction.ofString : String → Option ReallocationAction
  | "move_to_gpu" => some .moveToGpu
  | "move_to_cpu" => some .moveToCpu
  | "preload_cache" => some .preloadToCache
  | "evict_cache" => some .evictFromCache
  | _ => none

/-- The member as an f-string prints it. -/
def ReallocationAction.format : ReallocationAction → String
  | .moveToGpu => "ReallocationAction.MOVE_TO_GPU"
  | .moveToCpu => "ReallocationAction.MOVE_TO_CPU"
  | .preloadToCache => "ReallocationAction.PRELOAD_TO_CACHE"
  | .evictFromCache => "ReallocationAction.EVICT_FROM_CACHE"

inductive ReallocationStatus
  | pending
  | inProgress
  | completed
  | failed
  | cancelled
  deriving DecidableEq, Repr

structure ReallocationReq where
  requestId : String
  layerId : ℤ
  expertId : ℤ
  action : ReallocationAction
  priority : ℤ := 0
  status : ReallocationStatus := .pending
  errorMessage : Option String := none
  deriving DecidableEq, Repr

structure BatchReallocationRequest where
  requestId : String
  requests : List ReallocationReq
  atomic : Bool := true
  status : ReallocationStatus := .pending
  deriving DecidableEq, Repr

structure ReallocationManager where
  requestQueue : List ReallocationReq
  activeRequests : String → Option ReallocationReq
  completedRequests : String → Option ReallocationReq
  expertsInMotion : List (ℤ × ℤ)

namespace ReallocationManager

/-- The manager of a new server. -/
def new : ReallocationManager := ⟨[], fun _ => none, fun _ => none, []⟩

/-- `submit_batch`. -/
def submitBatch (m : ReallocationManager) (batch : BatchReallocationRequest) :
    ReallocationManager × BatchReallocationRequest :=
  if batch.atomic ∧ batch.requests.any (fun r => (r.layerId, r.expertId) ∈ m.expertsInMotion) then
    (m, { batch with status := .failed })
  else
    ({ m with
        requestQueue := m.requestQueue ++ batch.requests
        activeRequests := batch.requests.foldl (fun active r =>
          Function.update active r.requestId (some r)) m.activeRequests }, batch)

/-- `submit_request`. -/
def submitRequest (m : ReallocationManager) (req : ReallocationReq) :
    ReallocationManager × ReallocationReq :=
  if (req.layerId, req.expertId) ∈ m.expertsInMotion then
    (m, { req with
      status := .failed
      errorMessage := some "Expert is already being reallocated" })
  else
    ({ m with
        requestQueue := m.requestQueue ++ [req]
        activeRequests := Function.update m.activeRequests req.requestId (some req) }, req)

/-- Move a request from the active to the completed ones. -/
def complete (m : ReallocationManager) (req : ReallocationReq) : ReallocationManager :=
  if (m.activeRequests req.requestId).isSome then
    { m with
      completedRequests := Function.update m.completedRequests req.requestId (some req)
      activeRequests := Function.update m.activeRequests req.requestId none }
  else m

end ReallocationManager

/-- An item of the API call, with the id drawn for its request and the behaviour of torch
when it is carried out. -/
structure BatchItem (α : Type*) where
  layerId : ℤ
  expertId : ℤ
  action : String
  priority : ℤ := 0
  requestId : String
  env : MoveEnv α

/-- One entry of the results. -/
structure ReallocationResult where
  expert : String
  success : Bool
  error : Option String
  deriving DecidableEq, Repr

inductive BatchResponse
  | completed (requestId : String) (results : List ReallocationResult)
  | error (message : String)
  deriving DecidableEq, Repr

/-- The requests of the items; an unknown action raises. -/
def makeRequests : List (BatchItem α) → Except String (List (ReallocationReq × MoveEnv α))
  | [] => .ok []
  | item :: rest =>
      match ReallocationAction.ofString item.action with
      | none => .error s!"'{item.action}' is not a valid ReallocationAction"
      | some action =>
          let req : ReallocationReq :=
            { requestId := item.requestId
              layerId := item.layerId
              expertId := item.expertId
              action := action
              priority := item.priority }
          (makeRequests rest).map ((req, item.env) :: ·)

/-- `_process_reallocation_request`. -/
def processReallocationRequest (env : MoveEnv α) (s : MoverState cfg α) (req : ReallocationReq) :
    MoverState cfg α × MoveResult :=
  match req.action with
  | .moveToGpu => moveExpertToGpu env s req.layerId req.expertId none
  | .moveToCpu => moveExpertToCpu env s req.layerId req.expertId
  | action => (s, .failure s!"Unsupported action: {action.format}")

/-- The loop over the requests. -/
def processBatch (s : MoverState cfg α) (m : ReallocationManager) :
    List (ReallocationReq × MoveEnv α) →
      MoverState cfg α × ReallocationManager × List ReallocationResult
  | [] => (s, m, [])
  | (req, env) :: rest =>
      let (s', success, error) := processReallocationRequest env s req
      let m' := m.complete
        { req with
          status := if success then .completed else .failed
          errorMessage := error }
      let (t, n, results) := processBatch s' m' rest
      (t, n, ⟨s!"L{req.layerId}E{req.expertId}", success, error⟩ :: results)

/-- `exposed_request_batch_expert_reallocation`. The status that `submit_batch` leaves in
the batch is not looked at. -/
def exposedRequestBatchExpertReallocation (batchId : String) (items : List (BatchItem α))
    (atomic : Bool) (s : MoverState cfg α) (m : ReallocationManager) :
    MoverState cfg α × ReallocationManager × BatchResponse :=
  match makeRequests items with
  | .error message => (s, m, .error message)
  | .ok reqs =>
      let (m', _) := m.submitBatch
        { requestId := batchId, requests := reqs.map (·.1), atomic := atomic }
      let (t, n, results) := processBatch s m' reqs
      (t, n, .completed batchId results)

end HarvestMoE
