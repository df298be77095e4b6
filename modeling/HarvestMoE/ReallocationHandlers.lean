import HarvestMoE.Lib.Run
import HarvestMoE.ReallocationBatch
import Mathlib.Data.List.Perm.Basic
import Mathlib.Data.List.Perm.Lattice

/-!
# Handlers of reallocation requests, side by side

Every RPC runs in a thread of its own. The manager and the mover each have a lock, and a
handler takes them one after the other: it submits under the first, moves under the
second, writes the status of the request under none, and files the request under the
first again. Between two of these steps any other handler may run, and a request may be
cancelled. A request is an object, and the queue, the two tables and the handler hold
references to it: what one of them writes, all of them see.

## Main definitions

* `ManagerObjects` — the manager, with the requests as objects under their ids.
* `HandlerSystem` — the engine, the manager and the handlers.
* `HandlerSystem.next` — one step of one handler, or a cancellation.
* `HandlerSystem.Effect` — what a step can do.
* `HandlersSound` — the invariant.
-/

namespace HarvestMoE

open Lib

variable {cfg : EngineConfig} {α : Type*}

/-- The request can no longer change by itself. -/
def ReallocationStatus.Terminal : ReallocationStatus → Prop
  | .completed | .failed | .cancelled => True
  | .pending | .inProgress => False

/-- What `get_reallocation_stats` returns. -/
structure ReallocationStats where
  pendingRequests : ℕ
  inProgressRequests : ℕ
  completedRequests : ℕ
  expertsInMotion : ℕ
  queueSize : ℕ
  deriving DecidableEq, Repr

/-- The manager. A request is known by its id, which is drawn once: `requests` are the
objects, the queue and the tables list the ids of those they refer to. -/
structure ManagerObjects where
  requests : String → Option ReallocationReq
  requestQueue : List String
  activeRequests : List String
  completedRequests : List String
  expertsInMotion : List (ℤ × ℤ)

namespace ManagerObjects

/-- The manager of a new server. -/
def new : ManagerObjects := ⟨fun _ => none, [], [], [], []⟩

variable (m : ManagerObjects)

/-- New request objects. -/
def create (reqs : List ReallocationReq) : ManagerObjects :=
  { m with requests := reqs.foldl (fun f r => Function.update f r.requestId (some r)) m.requests }

/-- Put requests into the queue and among the active ones. -/
def enqueue (ids : List String) : ManagerObjects :=
  { m with
    requestQueue := m.requestQueue ++ ids
    activeRequests := m.activeRequests ++ ids }

/-- Write to a request. -/
def write (id : String) (f : ReallocationReq → ReallocationReq) : ManagerObjects :=
  { m with requests := Function.update m.requests id ((m.requests id).map f) }

/-- `expert_key in self.experts_in_motion` -/
def inMotion (req : ReallocationReq) : Bool :=
  m.expertsInMotion.contains (req.layerId, req.expertId)

/-- `submit_request`: the manager, and whether it takes the request. -/
def submitRequest (req : ReallocationReq) : ManagerObjects × Bool :=
  if m.inMotion req then
    (m.create [{ req with
      status := .failed
      errorMessage := some "Expert is already being reallocated" }], false)
  else ((m.create [req]).enqueue [req.requestId], true)

/-- `submit_batch`. -/
def submitBatch (reqs : List ReallocationReq) (atomic : Bool) : ManagerObjects × Bool :=
  if atomic ∧ reqs.any m.inMotion then
    (m.create reqs, false)
  else ((m.create reqs).enqueue (reqs.map (·.requestId)), true)

/-- A request the manager holds in a status. -/
def hasStatus (id : String) (status : ReallocationStatus) : Bool :=
  (m.requests id).any fun r => r.status = status

/-- `cancel_request`. -/
def cancelRequest (id : String) : ManagerObjects × Bool :=
  if id ∈ m.activeRequests ∧ m.hasStatus id .pending then
    (m.write id fun r => { r with status := .cancelled }, true)
  else (m, false)

/-- Move a request from the active to the completed ones. -/
def complete (id : String) : ManagerObjects :=
  if id ∈ m.activeRequests then
    { m with
      activeRequests := m.activeRequests.erase id
      completedRequests := m.completedRequests ++ [id] }
  else m

/-- `get_reallocation_stats`. -/
def getReallocationStats : ReallocationStats where
  pendingRequests := m.activeRequests.countP fun id => m.hasStatus id .pending
  inProgressRequests := m.activeRequests.countP fun id => m.hasStatus id .inProgress
  completedRequests := m.completedRequests.length
  expertsInMotion := m.expertsInMotion.length
  queueSize := m.requestQueue.length

end ManagerObjects

/-- How far a handler is with a request. -/
inductive HandlerStage
  | submitted
  | answered (result : MoveResult)
  | recorded
  deriving DecidableEq, Repr

/-- A handler: the requests of its call that it has not filed, and how far it is with the
first of them. One that has none is between two calls. -/
structure Handler (α : Type*) where
  todo : List (String × MoveEnv α)
  stage : HandlerStage

/-- The server. What was accepted, rejected and executed is a history that no code reads. -/
structure HandlerSystem (cfg : EngineConfig) (α : Type*) where
  mover : MoverState cfg α
  manager : ManagerObjects
  handlers : ℕ → Handler α
  accepted : List String
  rejected : List String
  executed : List String

inductive HandlerStep (α : Type*)
  | requestExpertReallocation (thread : ℕ) (item : BatchItem α)
  | requestBatchExpertReallocation (thread : ℕ) (items : List (BatchItem α)) (atomic : Bool)
  | process (thread : ℕ)
  | setStatus (thread : ℕ)
  | file (thread : ℕ)
  | cancelRequest (id : String)

namespace HandlerSystem

/-- A server that no call has reached. -/
def start (mover : MoverState cfg α) : HandlerSystem cfg α where
  mover := mover
  manager := .new
  handlers := fun _ => ⟨[], .submitted⟩
  accepted := []
  rejected := []
  executed := []

variable (s : HandlerSystem cfg α)

/-- A call can begin: the thread is between two calls, and the ids have not been drawn. -/
def Ready (thread : ℕ) (ids : List String) : Prop :=
  (s.handlers thread).todo = [] ∧ ids.Nodup ∧ ∀ id ∈ ids, s.manager.requests id = none

instance (thread : ℕ) (ids : List String) : Decidable (s.Ready thread ids) :=
  haveI : Decidable ((s.handlers thread).todo = []) :=
    decidable_of_iff ((s.handlers thread).todo.isEmpty = true) List.isEmpty_iff
  haveI : Decidable (∀ id ∈ ids, s.manager.requests id = none) :=
    decidable_of_iff (∀ id ∈ ids, (s.manager.requests id).isNone = true) (by simp)
  inferInstanceAs (Decidable (_ ∧ _ ∧ _))

/-- A handler goes on with its requests, whether or not the manager has taken them. -/
def submit (thread : ℕ) (reqs : List (ReallocationReq × MoveEnv α)) (r : ManagerObjects × Bool) :
    HandlerSystem cfg α :=
  let ids := reqs.map (·.1.requestId)
  { s with
    manager := r.1
    handlers := Function.update s.handlers thread
      ⟨reqs.map fun x => (x.1.requestId, x.2), .submitted⟩
    accepted := if r.2 then s.accepted ++ ids else s.accepted
    rejected := if r.2 then s.rejected else s.rejected ++ ids }

/-- One step. A step that cannot be taken changes nothing. -/
def next : HandlerStep α → HandlerSystem cfg α
  | .requestExpertReallocation thread item =>
      if s.Ready thread [item.requestId] then
        match makeRequests [item] with
        | .ok [(req, env)] => s.submit thread [(req, env)] (s.manager.submitRequest req)
        | _ => s
      else s
  | .requestBatchExpertReallocation thread items atomic =>
      if s.Ready thread (items.map (·.requestId)) then
        match makeRequests items with
        | .ok reqs => s.submit thread reqs (s.manager.submitBatch (reqs.map (·.1)) atomic)
        | .error _ => s
      else s
  | .process thread =>
      match s.handlers thread with
      | ⟨(id, env) :: rest, .submitted⟩ =>
          match s.manager.requests id with
          | some req =>
              let (mover, result) := processReallocationRequest env s.mover req
              { s with
                mover := mover
                handlers := Function.update s.handlers thread
                  ⟨(id, env) :: rest, .answered result⟩
                executed := s.executed ++ [id] }
          | none => s
      | _ => s
  | .setStatus thread =>
      match s.handlers thread with
      | ⟨(id, env) :: rest, .answered (success, error)⟩ =>
          { s with
            manager := s.manager.write id fun r =>
              { r with
                status := if success then .completed else .failed
                errorMessage := error }
            handlers := Function.update s.handlers thread ⟨(id, env) :: rest, .recorded⟩ }
      | _ => s
  | .file thread =>
      match s.handlers thread with
      | ⟨(id, _) :: rest, .recorded⟩ =>
          { s with
            manager := s.manager.complete id
            handlers := Function.update s.handlers thread ⟨rest, .submitted⟩ }
      | _ => s
  | .cancelRequest id => { s with manager := (s.manager.cancelRequest id).1 }

/-- The server after a sequence of steps. -/
def run (steps : List (HandlerStep α)) : HandlerSystem cfg α := steps.foldl next s

/-- The requests a handler has not filed. -/
def owed (thread : ℕ) : List String := (s.handlers thread).todo.map (·.1)

/-- No call is going on. -/
def Quiescent : Prop := ∀ thread, (s.handlers thread).todo = []

/-- The requests that a step submits, and for which thread. -/
def submission : HandlerStep α → Option (ℕ × List (ReallocationReq × MoveEnv α))
  | .requestExpertReallocation thread item =>
      if s.Ready thread [item.requestId] then
        (makeRequests [item]).toOption.map fun reqs => (thread, reqs)
      else none
  | .requestBatchExpertReallocation thread items _ =>
      if s.Ready thread (items.map (·.requestId)) then
        (makeRequests items).toOption.map fun reqs => (thread, reqs)
      else none
  | _ => none

end HandlerSystem

section Requests

/-- The requests of a call are pending, and have the ids and experts of its items. -/
theorem makeRequests_spec {items : List (BatchItem α)} {reqs : List (ReallocationReq × MoveEnv α)}
    (h : makeRequests items = .ok reqs) :
    reqs.map (·.1.requestId) = items.map (·.requestId) ∧
      ∀ x ∈ reqs, x.1.status = .pending := by
  induction items generalizing reqs with
  | nil =>
      rw [makeRequests, Except.ok.injEq] at h
      subst h
      simp
  | cons item items ih =>
      rw [makeRequests] at h
      cases hact : ReallocationAction.ofString item.action with
      | none => simp [hact] at h
      | some action =>
          simp only [hact] at h
          cases hrest : makeRequests items with
          | error message => simp [hrest, Except.map] at h
          | ok rest =>
              simp only [hrest, Except.map, Except.ok.injEq] at h
              subst h
              have ⟨hids, hpending⟩ := ih hrest
              constructor
              · simp only [List.map_cons, hids]
              · intro x hx
                rcases List.mem_cons.mp hx with rfl | hx
                · rfl
                · exact hpending x hx

namespace ManagerObjects

variable {m : ManagerObjects} {id : String}

@[simp] theorem write_activeRequests (f : ReallocationReq → ReallocationReq) :
    (m.write id f).activeRequests = m.activeRequests := rfl

@[simp] theorem write_completedRequests (f : ReallocationReq → ReallocationReq) :
    (m.write id f).completedRequests = m.completedRequests := rfl

@[simp] theorem write_requestQueue (f : ReallocationReq → ReallocationReq) :
    (m.write id f).requestQueue = m.requestQueue := rfl

theorem write_requests_self (f : ReallocationReq → ReallocationReq) :
    (m.write id f).requests id = (m.requests id).map f := by
  simp [write]

theorem write_requests_of_ne {id' : String} (h : id' ≠ id) (f : ReallocationReq → ReallocationReq) :
    (m.write id f).requests id' = m.requests id' := by
  simp [write, h]

/-- Filing a request does not write to it. -/
@[simp] theorem complete_requests : (m.complete id).requests = m.requests := by
  simp only [complete]
  split <;> rfl

theorem hasStatus_iff {status : ReallocationStatus} :
    m.hasStatus id status = true ↔ ∃ r, m.requests id = some r ∧ r.status = status := by
  simp [hasStatus, Option.any_eq_true_iff_get, Option.eq_some_iff_get_eq]

/-- A manager that has nothing in motion takes every batch, -/
theorem submitBatch_of_motion (h : m.expertsInMotion = []) (reqs : List ReallocationReq)
    (atomic : Bool) :
    m.submitBatch reqs atomic = ((m.create reqs).enqueue (reqs.map (·.requestId)), true) := by
  have hfree : reqs.any m.inMotion = false := by
    rw [List.any_eq_false]
    intro r _
    simp [inMotion, h]
  rw [submitBatch, hfree, if_neg fun hin => Bool.false_ne_true hin.2]

/-- and every request. -/
theorem submitRequest_of_motion (h : m.expertsInMotion = []) (req : ReallocationReq) :
    m.submitRequest req = ((m.create [req]).enqueue [req.requestId], true) := by
  have hfree : m.inMotion req = false := by
    simp [inMotion, h]
  rw [submitRequest, hfree, if_neg Bool.false_ne_true]

/-- An id that is not drawn keeps its object. -/
theorem create_of_notMem {reqs : List ReallocationReq} (h : id ∉ reqs.map (·.requestId)) :
    (m.create reqs).requests id = m.requests id := by
  simp only [create]
  induction reqs generalizing m with
  | nil => rfl
  | cons r reqs ih =>
      simp only [List.map_cons, List.mem_cons, not_or] at h
      have hrest := ih (m := m.create [r]) h.2
      exact hrest.trans (Function.update_of_ne h.1 ..)

/-- A new object is the request made. -/
theorem create_of_mem {reqs : List ReallocationReq} (hnodup : (reqs.map (·.requestId)).Nodup)
    {r : ReallocationReq} (hr : r ∈ reqs) : (m.create reqs).requests r.requestId = some r := by
  induction reqs generalizing m with
  | nil => simp at hr
  | cons r' reqs ih =>
      rw [List.map_cons, List.nodup_cons] at hnodup
      rcases List.mem_cons.mp hr with rfl | hr
      · have hkeep := create_of_notMem (m := m.create [r]) hnodup.1
        simpa [create] using hkeep
      · exact ih (m := m.create [r']) hnodup.2 hr

/-- What had an object keeps one, and what is new gets one. -/
theorem create_ne_none {reqs : List ReallocationReq} (hnodup : (reqs.map (·.requestId)).Nodup)
    (h : m.requests id ≠ none ∨ id ∈ reqs.map (·.requestId)) :
    (m.create reqs).requests id ≠ none := by
  by_cases hmem : id ∈ reqs.map (·.requestId)
  · obtain ⟨r, hr, rfl⟩ := List.mem_map.mp hmem
    rw [create_of_mem hnodup hr]
    exact Option.some_ne_none r
  · rw [create_of_notMem hmem]
    exact h.resolve_right hmem

theorem write_eq_none {f : ReallocationReq → ReallocationReq} {id' : String}
    (h : (m.write id f).requests id' = none) : m.requests id' = none := by
  by_cases hid : id' = id
  · rw [hid, write_requests_self, Option.map_eq_none_iff] at h
    rw [hid, h]
  · rwa [write_requests_of_ne hid] at h

@[simp] theorem complete_requestQueue : (m.complete id).requestQueue = m.requestQueue := by
  simp only [complete]
  split <;> rfl

@[simp] theorem complete_expertsInMotion :
    (m.complete id).expertsInMotion = m.expertsInMotion := by
  simp only [complete]
  split <;> rfl

/-- Filing a request takes it from one table to the other, -/
theorem complete_perm : ((m.complete id).activeRequests ++ (m.complete id).completedRequests).Perm
    (m.activeRequests ++ m.completedRequests) := by
  simp only [complete]
  split_ifs with hactive
  · have hback : (m.activeRequests.erase id ++ (m.completedRequests ++ [id])).Perm
        (id :: (m.activeRequests.erase id ++ m.completedRequests)) := by
      rw [← List.append_assoc]
      exact List.perm_append_singleton id _
    exact hback.trans ((List.perm_cons_erase hactive).symm.append_right _)
  · exact List.Perm.refl _

/-- so that it is active no more -/
theorem mem_complete_active (hnodup : m.activeRequests.Nodup) {x : String} :
    x ∈ (m.complete id).activeRequests ↔ x ∈ m.activeRequests ∧ x ≠ id := by
  simp only [complete]
  split_ifs with hactive
  · rw [hnodup.mem_erase_iff, and_comm]
  · exact ⟨fun hx => ⟨hx, fun heq => hactive (heq ▸ hx)⟩, fun hx => hx.1⟩

/-- and nothing else is completed. -/
theorem mem_complete_completed {x : String} (hx : x ∈ (m.complete id).completedRequests) :
    x ∈ m.completedRequests ∨ x = id := by
  simp only [complete] at hx
  split_ifs at hx
  · exact (List.mem_append.mp hx).imp_right List.mem_singleton.mp
  · exact .inl hx

end ManagerObjects

end Requests

namespace HandlerSystem

variable {s t : HandlerSystem cfg α}

/-- The handler has written the outcome of the request. -/
def Final (s : HandlerSystem cfg α) (id : String) : Prop :=
  ∃ r, s.manager.requests id = some r ∧ (r.status = .completed ∨ r.status = .failed)

/-- What a step can do, when no expert is in motion. -/
inductive Effect (s : HandlerSystem cfg α) : HandlerStep α → HandlerSystem cfg α → Prop
  | idles {step} (hnone : s.submission step = none) : Effect s step s
  | submits {step thread reqs} (hreqs : s.submission step = some (thread, reqs))
      (hready : s.Ready thread (reqs.map (·.1.requestId)))
      (hpending : ∀ x ∈ reqs, x.1.status = .pending) :
      Effect s step (s.submit thread reqs
        ((s.manager.create (reqs.map (·.1))).enqueue (reqs.map (·.1.requestId)), true))
  | processes {thread id env rest req} (hhandler : s.handlers thread = ⟨(id, env) :: rest, .submitted⟩)
      (hreq : s.manager.requests id = some req) :
      Effect s (.process thread)
        { s with
          mover := (processReallocationRequest env s.mover req).1
          handlers := Function.update s.handlers thread
            ⟨(id, env) :: rest, .answered (processReallocationRequest env s.mover req).2⟩
          executed := s.executed ++ [id] }
  | records {thread id env rest result}
      (hhandler : s.handlers thread = ⟨(id, env) :: rest, .answered result⟩) :
      Effect s (.setStatus thread)
        { s with
          manager := s.manager.write id fun r =>
            { r with
              status := if result.1 then .completed else .failed
              errorMessage := result.2 }
          handlers := Function.update s.handlers thread ⟨(id, env) :: rest, .recorded⟩ }
  | files {thread id env rest} (hhandler : s.handlers thread = ⟨(id, env) :: rest, .recorded⟩) :
      Effect s (.file thread)
        { s with
          manager := s.manager.complete id
          handlers := Function.update s.handlers thread ⟨rest, .submitted⟩ }
  | cancels {id} (hactive : id ∈ s.manager.activeRequests)
      (hpending : s.manager.hasStatus id .pending = true) :
      Effect s (.cancelRequest id)
        { s with manager := s.manager.write id fun r => { r with status := .cancelled } }

/-- A call with its items submits their requests, or nothing. -/
theorem effect_of_items {step : HandlerStep α} (thread : ℕ) (items : List (BatchItem α))
    (hsub : s.submission step = if s.Ready thread (items.map (·.requestId)) then
      (makeRequests items).toOption.map fun reqs => (thread, reqs) else none)
    (hwait : ¬ s.Ready thread (items.map (·.requestId)) → s.next step = s)
    (herror : ∀ message, makeRequests items = .error message → s.next step = s)
    (hgo : ∀ reqs, s.Ready thread (items.map (·.requestId)) → makeRequests items = .ok reqs →
      s.next step = s.submit thread reqs ((s.manager.create (reqs.map (·.1))).enqueue
        (reqs.map (·.1.requestId)), true)) :
    s.Effect step (s.next step) := by
  by_cases hready : s.Ready thread (items.map (·.requestId))
  · cases hreqs : makeRequests items with
    | error message =>
        rw [herror message hreqs]
        exact .idles (by simp [hsub, hreqs, Except.toOption])
    | ok reqs =>
        have ⟨hids, hpending⟩ := makeRequests_spec hreqs
        rw [hgo reqs hready hreqs]
        refine .submits ?_ ?_ hpending
        · simp [hsub, hready, hreqs, Except.toOption]
        · rw [hids]
          exact hready
  · rw [hwait hready]
    exact .idles (by rw [hsub, if_neg hready])

/-- A step does one of these. -/
theorem next_effect (hmotion : s.manager.expertsInMotion = []) (step : HandlerStep α) :
    s.Effect step (s.next step) := by
  cases step with
  | requestExpertReallocation thread item =>
      apply effect_of_items thread [item] rfl
      case hwait => exact fun hready => if_neg hready
      case herror =>
        intro message hreqs
        simp [next, hreqs]
      case hgo =>
        intro reqs hready hreqs
        have ⟨hids, _⟩ := makeRequests_spec hreqs
        have ⟨(req, env), hsingle, _⟩ := List.map_eq_singleton_iff.mp hids
        subst hsingle
        have hready : s.Ready thread [item.requestId] := hready
        simp only [next, hready, if_true, hreqs, ManagerObjects.submitRequest_of_motion hmotion,
          List.map_cons, List.map_nil]
  | requestBatchExpertReallocation thread items atomic =>
      apply effect_of_items thread items rfl
      case hwait => exact fun hready => if_neg hready
      case herror =>
        intro message hreqs
        simp [next, hreqs]
      case hgo =>
        intro reqs hready hreqs
        simp only [next, hready, if_true, hreqs, ManagerObjects.submitBatch_of_motion hmotion,
          List.map_map, Function.comp_def]
  | process thread =>
      simp only [next]
      split
      · next id env rest hhandler =>
          cases hreq : s.manager.requests id with
          | none => exact .idles rfl
          | some req => exact .processes hhandler hreq
      · exact .idles rfl
  | setStatus thread =>
      simp only [next]
      split
      · next id env rest success error hhandler => exact .records hhandler
      · exact .idles rfl
  | file thread =>
      simp only [next]
      split
      · next id env rest hhandler => exact .files hhandler
      · exact .idles rfl
  | cancelRequest id =>
      simp only [next, ManagerObjects.cancelRequest]
      split_ifs with hcancel
      · exact .cancels hcancel.1 hcancel.2
      · exact .idles rfl

/-- A final status stays: a cancellation finds its request pending, and an id is drawn
once. -/
theorem Effect.final {step : HandlerStep α} (heff : s.Effect step t) {id : String}
    (h : s.Final id) : t.Final id := by
  have ⟨r, hr, hstatus⟩ := h
  cases heff with
  | idles => exact h
  | @submits _ thread reqs _ hready _ =>
      refine ⟨r, ?_, hstatus⟩
      have hnew : id ∉ (reqs.map (·.1)).map ReallocationReq.requestId := by
        intro hmem
        rw [List.map_map] at hmem
        have hnone := hready.2.2 id hmem
        rw [hr] at hnone
        simp at hnone
      exact (ManagerObjects.create_of_notMem hnew).trans hr
  | processes => exact h
  | @records _ id' _ _ result _ =>
      by_cases hid : id = id'
      · subst hid
        refine ⟨_, by simp only [ManagerObjects.write_requests_self, hr, Option.map_some]; rfl, ?_⟩
        cases result.1
        · right
          rfl
        · left
          rfl
      · exact ⟨r, (ManagerObjects.write_requests_of_ne hid _).trans hr, hstatus⟩
  | files => exact ⟨r, by simpa using hr, hstatus⟩
  | @cancels id' _ hpending =>
      have hid : id ≠ id' := by
        intro heq
        subst heq
        have ⟨r', hr', hpend⟩ := ManagerObjects.hasStatus_iff.mp hpending
        rw [hr, Option.some.injEq] at hr'
        subst hr'
        simp [hpend] at hstatus
      exact ⟨r, (ManagerObjects.write_requests_of_ne hid _).trans hr, hstatus⟩

/-- What is accepted stays accepted. -/
theorem Effect.accepted {step : HandlerStep α} (heff : s.Effect step t) {id : String}
    (h : id ∈ s.accepted) : id ∈ t.accepted := by
  cases heff with
  | submits => exact List.mem_append_left _ h
  | _ => exact h

end HandlerSystem

section Updates

variable {s t : HandlerSystem cfg α} {thread : ℕ} {handler : Handler α}

/-- A step of one handler leaves what the others owe. -/
theorem HandlerSystem.owed_of_update (ht : t.handlers = Function.update s.handlers thread handler)
    (u : ℕ) : t.owed u = if u = thread then handler.todo.map (·.1) else s.owed u := by
  rw [owed, ht]
  split_ifs with hu
  · rw [hu, Function.update_self]
  · rw [Function.update_of_ne hu, owed]

theorem HandlerSystem.owed_of_same (ht : t.handlers = Function.update s.handlers thread handler)
    (hsame : handler.todo = (s.handlers thread).todo) (u : ℕ) : t.owed u = s.owed u := by
  rw [owed_of_update ht]
  split_ifs with hu
  · rw [hsame, hu, owed]
  · rfl

/-- A handler is as it was, unless it has taken the step. -/
theorem HandlerSystem.handler_of_update
    (ht : t.handlers = Function.update s.handlers thread handler) {u : ℕ} {now : Handler α}
    (hnow : t.handlers u = now) : handler = now ∧ u = thread ∨ s.handlers u = now := by
  rw [ht] at hnow
  by_cases hu : u = thread
  · rw [hu, Function.update_self] at hnow
    exact .inl ⟨hnow, hu⟩
  · rw [Function.update_of_ne hu] at hnow
    exact .inr hnow

end Updates

/-- The invariant: the manager accepts everything, every accepted request is active or
completed, the active ones are those that a handler still owes, each of them to one
handler, and a request that is completed has its outcome. -/
structure HandlersSound (s : HandlerSystem cfg α) : Prop where
  motion : s.manager.expertsInMotion = []
  none_rejected : s.rejected = []
  queue_eq : s.manager.requestQueue = s.accepted
  nodup : s.accepted.Nodup
  objects : ∀ id ∈ s.accepted, s.manager.requests id ≠ none
  split : (s.manager.activeRequests ++ s.manager.completedRequests).Perm s.accepted
  owed_nodup : ∀ thread, (s.owed thread).Nodup
  owed_unique : ∀ thread thread' id, id ∈ s.owed thread → id ∈ s.owed thread' → thread = thread'
  active_iff : ∀ id, id ∈ s.manager.activeRequests ↔ ∃ thread, id ∈ s.owed thread
  recorded : ∀ thread id env rest, s.handlers thread = ⟨(id, env) :: rest, .recorded⟩ → s.Final id
  completed : ∀ id ∈ s.manager.completedRequests, s.Final id

namespace HandlersSound

variable {s t : HandlerSystem cfg α}

theorem start (mover : MoverState cfg α) : HandlersSound (.start mover) where
  motion := rfl
  none_rejected := rfl
  queue_eq := rfl
  nodup := List.nodup_nil
  objects := by simp [HandlerSystem.start]
  split := List.Perm.refl _
  owed_nodup := by simp [HandlerSystem.start, HandlerSystem.owed]
  owed_unique := by simp [HandlerSystem.start, HandlerSystem.owed]
  active_iff := by simp [HandlerSystem.start, HandlerSystem.owed, ManagerObjects.new]
  recorded := by simp [HandlerSystem.start]
  completed := by simp [HandlerSystem.start, ManagerObjects.new]

/-- An active request is accepted. -/
theorem mem_accepted (h : HandlersSound s) {id : String} (hid : id ∈ s.manager.activeRequests) :
    id ∈ s.accepted :=
  h.split.subset (List.mem_append_left _ hid)

theorem active_nodup (h : HandlersSound s) : s.manager.activeRequests.Nodup :=
  (h.split.nodup_iff.mpr h.nodup).of_append_left

/-- The steps of a handler between submitting and filing leave what the requests owed are. -/
theorem keep (h : HandlersSound s) {step : HandlerStep α} (heff : s.Effect step t)
    (hmotion : t.manager.expertsInMotion = []) (hrejected : t.rejected = s.rejected)
    (hqueue : t.manager.requestQueue = s.manager.requestQueue) (haccepted : t.accepted = s.accepted)
    (hobjects : ∀ id, t.manager.requests id = none → s.manager.requests id = none)
    (hactive : t.manager.activeRequests = s.manager.activeRequests)
    (hcompleted : t.manager.completedRequests = s.manager.completedRequests)
    (howed : ∀ thread, t.owed thread = s.owed thread)
    (hrecorded : ∀ thread id env rest, t.handlers thread = ⟨(id, env) :: rest, .recorded⟩ →
      s.handlers thread ≠ ⟨(id, env) :: rest, .recorded⟩ → t.Final id) : HandlersSound t where
  motion := hmotion
  none_rejected := hrejected.trans h.none_rejected
  queue_eq := by rw [hqueue, haccepted, h.queue_eq]
  nodup := haccepted ▸ h.nodup
  objects := fun id hid hnone => h.objects id (haccepted ▸ hid) (hobjects id hnone)
  split := by
    rw [hactive, hcompleted, haccepted]
    exact h.split
  owed_nodup := fun thread => howed thread ▸ h.owed_nodup thread
  owed_unique := by
    intro thread thread' id hid hid'
    rw [howed] at hid hid'
    exact h.owed_unique thread thread' id hid hid'
  active_iff := by simpa only [hactive, howed] using h.active_iff
  recorded := by
    intro thread id env rest hhandler
    by_cases hold : s.handlers thread = ⟨(id, env) :: rest, .recorded⟩
    · exact heff.final (h.recorded thread id env rest hold)
    · exact hrecorded thread id env rest hhandler hold
  completed := fun id hid => heff.final (h.completed id (hcompleted ▸ hid))

/-- A handler submits. -/
theorem submit (h : HandlersSound s) {thread : ℕ} {reqs : List (ReallocationReq × MoveEnv α)}
    (hready : s.Ready thread (reqs.map (·.1.requestId))) {step : HandlerStep α}
    (heff : s.Effect step (s.submit thread reqs
      ((s.manager.create (reqs.map (·.1))).enqueue (reqs.map (·.1.requestId)), true))) :
    HandlersSound (s.submit thread reqs
      ((s.manager.create (reqs.map (·.1))).enqueue (reqs.map (·.1.requestId)), true)) := by
  have hids : (reqs.map (·.1)).map ReallocationReq.requestId = reqs.map (·.1.requestId) := by
    rw [List.map_map]
    rfl
  -- The new ids belong to no accepted request, so to none that is owed.
  have hnew : ∀ id ∈ reqs.map (·.1.requestId), id ∉ s.accepted := fun id hid hold =>
    h.objects id hold (hready.2.2 id hid)
  have howed := HandlerSystem.owed_of_update (s := s) (t := s.submit thread reqs
    ((s.manager.create (reqs.map (·.1))).enqueue (reqs.map (·.1.requestId)), true)) rfl
  simp only [List.map_map, Function.comp_def] at howed
  have hempty : s.owed thread = [] := by
    rw [HandlerSystem.owed, hready.1]
    rfl
  have hidle : ∀ u id, id ∈ s.owed u → u ≠ thread := by
    intro u id hid hu
    rw [hu, hempty] at hid
    simp at hid
  have hold : ∀ u id, id ∈ s.owed u → id ∈ s.accepted := fun u id hid =>
    h.mem_accepted ((h.active_iff id).mpr ⟨u, hid⟩)
  constructor
  case motion => exact h.motion
  case none_rejected => exact h.none_rejected
  case queue_eq => exact congrArg (· ++ reqs.map (·.1.requestId)) h.queue_eq
  case nodup =>
    refine List.nodup_append.mpr ⟨h.nodup, hready.2.1, fun a ha b hb heq => ?_⟩
    exact hnew b hb (heq ▸ ha)
  case objects =>
    intro id hid
    refine ManagerObjects.create_ne_none (hids ▸ hready.2.1) ?_
    rw [hids]
    exact (List.mem_append.mp hid).imp_left (h.objects id)
  case split =>
    have hperm : (s.manager.activeRequests ++ reqs.map (·.1.requestId) ++
        s.manager.completedRequests).Perm
        (s.manager.activeRequests ++ s.manager.completedRequests ++ reqs.map (·.1.requestId)) := by
      rw [List.append_assoc, List.append_assoc]
      exact (List.perm_append_comm).append_left _
    exact hperm.trans (h.split.append_right _)
  case owed_nodup =>
    intro u
    rw [howed]
    split_ifs
    · exact hready.2.1
    · exact h.owed_nodup u
  case owed_unique =>
    intro u u' id hid hid'
    rw [howed] at hid hid'
    split_ifs at hid hid' with hu hu' hu'
    · rw [hu, hu']
    · exact absurd (hold u' id hid') (hnew id hid)
    · exact absurd (hold u id hid) (hnew id hid')
    · exact h.owed_unique u u' id hid hid'
  case active_iff =>
    intro id
    constructor
    · intro hid
      rcases List.mem_append.mp hid with hid | hid
      · have ⟨u, hu⟩ := (h.active_iff id).mp hid
        refine ⟨u, ?_⟩
        rw [howed, if_neg (hidle u id hu)]
        exact hu
      · refine ⟨thread, ?_⟩
        rw [howed, if_pos rfl]
        exact hid
    · intro howes
      have ⟨u, hu⟩ := howes
      rw [howed] at hu
      split_ifs at hu
      · exact List.mem_append_right _ hu
      · exact List.mem_append_left _ ((h.active_iff id).mpr ⟨u, hu⟩)
  case recorded =>
    intro u id env rest hhandler
    rcases HandlerSystem.handler_of_update rfl hhandler with hthis | hkeep
    · simp at hthis
    · exact heff.final (h.recorded u id env rest hkeep)
  case completed => exact fun id hid => heff.final (h.completed id hid)

/-- Once a request is filed, it is owed no more, and everything else is. -/
theorem mem_owed_filed (h : HandlersSound s) {thread : ℕ} {id : String} {env : MoveEnv α}
    {rest : List (String × MoveEnv α)} (hhandler : s.handlers thread = ⟨(id, env) :: rest, .recorded⟩)
    (ht : t.handlers = Function.update s.handlers thread ⟨rest, .submitted⟩) (u : ℕ) (x : String) :
    x ∈ t.owed u ↔ x ∈ s.owed u ∧ x ≠ id := by
  have hthread : s.owed thread = id :: rest.map (·.1) := by
    rw [HandlerSystem.owed, hhandler]
    rfl
  have hnodup := h.owed_nodup thread
  rw [hthread, List.nodup_cons] at hnodup
  rw [HandlerSystem.owed_of_update ht]
  split_ifs with hu
  · rw [hu, hthread, List.mem_cons]
    constructor
    · intro hx
      exact ⟨.inr hx, fun heq => hnodup.1 (heq ▸ hx)⟩
    · intro hx
      exact hx.1.resolve_left hx.2
  · constructor
    · intro hx
      refine ⟨hx, fun heq => hu ?_⟩
      refine h.owed_unique u thread id (heq ▸ hx) ?_
      rw [hthread]
      exact List.mem_cons_self
    · exact fun hx => hx.1

/-- A handler files the first of its requests. -/
theorem file (h : HandlersSound s) {thread : ℕ} {id : String} {env : MoveEnv α}
    {rest : List (String × MoveEnv α)} (hhandler : s.handlers thread = ⟨(id, env) :: rest, .recorded⟩)
    {step : HandlerStep α}
    (heff : s.Effect step { s with
      manager := s.manager.complete id
      handlers := Function.update s.handlers thread ⟨rest, .submitted⟩ }) :
    HandlersSound { s with
      manager := s.manager.complete id
      handlers := Function.update s.handlers thread ⟨rest, .submitted⟩ } := by
  generalize ht : ({ s with
    manager := s.manager.complete id
    handlers := Function.update s.handlers thread ⟨rest, .submitted⟩ } : HandlerSystem cfg α) = t
    at heff ⊢
  have hmanager : t.manager = s.manager.complete id := by rw [← ht]
  have haccepted : t.accepted = s.accepted := by rw [← ht]
  have hhandlers : t.handlers = Function.update s.handlers thread ⟨rest, .submitted⟩ := by rw [← ht]
  have howed := h.mem_owed_filed hhandler hhandlers
  constructor
  case motion => rw [hmanager, ManagerObjects.complete_expertsInMotion, h.motion]
  case none_rejected => rw [← ht, h.none_rejected]
  case queue_eq => rw [hmanager, haccepted, ManagerObjects.complete_requestQueue, h.queue_eq]
  case nodup => rw [haccepted]; exact h.nodup
  case objects =>
    rw [hmanager, haccepted, ManagerObjects.complete_requests]
    exact h.objects
  case split =>
    rw [hmanager, haccepted]
    exact ManagerObjects.complete_perm.trans h.split
  case owed_nodup =>
    intro u
    rw [HandlerSystem.owed_of_update hhandlers]
    split_ifs
    · have hnodup := h.owed_nodup thread
      rw [HandlerSystem.owed, hhandler] at hnodup
      exact hnodup.of_cons
    · exact h.owed_nodup u
  case owed_unique =>
    intro u u' x hx hx'
    rw [howed] at hx hx'
    exact h.owed_unique u u' x hx.1 hx'.1
  case active_iff =>
    intro x
    rw [hmanager, ManagerObjects.mem_complete_active h.active_nodup, h.active_iff x]
    simp only [howed, exists_and_right]
  case recorded =>
    intro u x env' rest' hhandler'
    rcases HandlerSystem.handler_of_update hhandlers hhandler' with hthis | hkeep
    · simp at hthis
    · exact heff.final (h.recorded u x env' rest' hkeep)
  case completed =>
    intro x hx
    rw [hmanager] at hx
    rcases ManagerObjects.mem_complete_completed hx with hx | rfl
    · exact heff.final (h.completed x hx)
    · exact heff.final (h.recorded thread x env rest hhandler)

/-- Every step keeps the invariant. -/
theorem next (h : HandlersSound s) (step : HandlerStep α) : HandlersSound (s.next step) := by
  have heff := HandlerSystem.next_effect h.motion step
  generalize s.next step = t at heff ⊢
  cases heff with
  | idles => exact h
  | submits hreqs hready hpending => exact h.submit hready (.submits hreqs hready hpending)
  | @processes thread id env rest req hhandler hreq =>
      apply h.keep (.processes hhandler hreq) h.motion rfl rfl rfl (fun _ hx => hx) rfl rfl
      · exact HandlerSystem.owed_of_same rfl (by rw [hhandler])
      · intro u x env' rest' hnew hold
        rcases HandlerSystem.handler_of_update rfl hnew with hthis | hkeep
        · simp at hthis
        · exact absurd hkeep hold
  | @records thread id env rest result hhandler =>
      apply h.keep (.records hhandler) h.motion rfl rfl rfl
        (fun _ => ManagerObjects.write_eq_none) rfl rfl
      · exact HandlerSystem.owed_of_same rfl (by rw [hhandler])
      · intro u x env' rest' hnew hold
        rcases HandlerSystem.handler_of_update rfl hnew with hthis | hkeep
        · obtain ⟨hthis, rfl⟩ := hthis
          simp only [Handler.mk.injEq, List.cons.injEq, Prod.mk.injEq, and_true] at hthis
          obtain rfl : id = x := hthis.1.1
          have howed : id ∈ s.owed u := by simp [HandlerSystem.owed, hhandler]
          have hobject := h.objects id (h.mem_accepted ((h.active_iff id).mpr ⟨u, howed⟩))
          have ⟨r, hr⟩ := Option.ne_none_iff_exists'.mp hobject
          refine ⟨_, (ManagerObjects.write_requests_self _).trans (by rw [hr]; rfl), ?_⟩
          cases result.1
          · right
            rfl
          · left
            rfl
        · exact absurd hkeep hold
  | files hhandler => exact h.file hhandler (.files hhandler)
  | @cancels id hactive hpending =>
      exact h.keep (.cancels hactive hpending) h.motion rfl rfl rfl
        (fun _ => ManagerObjects.write_eq_none) rfl rfl (fun _ => rfl) fun _ _ _ _ hnew hold => absurd hnew hold

theorem run (mover : MoverState cfg α) (steps : List (HandlerStep α)) :
    HandlersSound ((HandlerSystem.start mover).run steps) :=
  foldl_preserves (fun _ step _ h => h.next step) (start mover)

/-- No call is going on when no request is active: an active one is owed. -/
theorem quiescent_of_active (h : HandlersSound s) (hactive : s.manager.activeRequests = []) :
    s.Quiescent := by
  intro thread
  rw [← List.map_eq_nil_iff (f := Prod.fst), List.eq_nil_iff_forall_not_mem]
  intro id howed
  have hid := (h.active_iff id).mpr ⟨thread, howed⟩
  rw [hactive] at hid
  simp at hid

/-- Between two calls every accepted request is completed, with its outcome. -/
theorem of_quiescent (h : HandlersSound s) (hquiet : s.Quiescent) :
    s.manager.activeRequests = [] ∧ ∀ id ∈ s.accepted, s.Final id := by
  have hactive : s.manager.activeRequests = [] := by
    rw [List.eq_nil_iff_forall_not_mem]
    intro id hid
    have ⟨thread, howed⟩ := (h.active_iff id).mp hid
    rw [HandlerSystem.owed, hquiet thread] at howed
    simp at howed
  refine ⟨hactive, fun id hid => h.completed id ?_⟩
  have hsplit := h.split
  rw [hactive, List.nil_append] at hsplit
  exact hsplit.symm.subset hid

end HandlersSound

section Serial

variable {s : HandlerSystem cfg α}

/-- The steps of a handler that nothing interrupts, after it has submitted `n` requests. -/
def serialSteps (α : Type*) (thread n : ℕ) : List (HandlerStep α) :=
  (List.replicate n [.process thread, .setStatus thread, .file thread]).flatten

/-- A handler that nothing interrupts carries out its requests in their order. -/
theorem run_serialSteps {thread : ℕ} {reqs : List (ReallocationReq × MoveEnv α)}
    (hnodup : (reqs.map (·.1.requestId)).Nodup)
    (hobjects : ∀ x ∈ reqs, s.manager.requests x.1.requestId = some x.1)
    (hhandler : s.handlers thread = ⟨reqs.map fun x => (x.1.requestId, x.2), .submitted⟩)
    (m : ReallocationManager) :
    (s.run (serialSteps α thread reqs.length)).mover = (processBatch s.mover m reqs).1 ∧
      ((s.run (serialSteps α thread reqs.length)).handlers thread).todo = [] := by
  induction reqs generalizing s m with
  | nil => exact ⟨rfl, by rw [serialSteps]; simp [HandlerSystem.run, hhandler]⟩
  | cons x reqs ih =>
      have ⟨req, env⟩ := x
      rw [List.map_cons, List.nodup_cons] at hnodup
      have hreq := hobjects (req, env) List.mem_cons_self
      -- After the three steps the handler is at the next request, and no other has changed.
      have hmover : (((s.next (.process thread)).next (.setStatus thread)).next
          (.file thread)).mover = (processReallocationRequest env s.mover req).1 := by
        simp only [HandlerSystem.next, hhandler, List.map_cons, hreq, Function.update_self]
      have hrest : (((s.next (.process thread)).next (.setStatus thread)).next
          (.file thread)).handlers thread =
            ⟨reqs.map fun x => (x.1.requestId, x.2), .submitted⟩ := by
        simp only [HandlerSystem.next, hhandler, List.map_cons, hreq, Function.update_self]
      have hkept : ∀ y ∈ reqs, (((s.next (.process thread)).next (.setStatus thread)).next
          (.file thread)).manager.requests y.1.requestId = some y.1 := by
        intro y hy
        have hne : y.1.requestId ≠ req.requestId := fun heq =>
          hnodup.1 (heq ▸ List.mem_map_of_mem (f := fun z => z.1.requestId) hy)
        have hold := hobjects y (List.mem_cons_of_mem _ hy)
        simp only [HandlerSystem.next, hhandler, List.map_cons, hreq, Function.update_self,
          ManagerObjects.complete_requests, ManagerObjects.write_requests_of_ne hne]
        exact hold
      have hall := ih hnodup.2 hkept hrest (m.complete
        { req with
          status := if (processReallocationRequest env s.mover req).2.1 then .completed else .failed
          errorMessage := (processReallocationRequest env s.mover req).2.2 })
      rw [hmover] at hall
      exact hall

/-- A batch call that nothing interrupts does to the engine what the call does alone. -/
theorem run_serialCall (h : HandlersSound s) {thread : ℕ} {items : List (BatchItem α)}
    (hready : s.Ready thread (items.map (·.requestId)))
    {reqs : List (ReallocationReq × MoveEnv α)} (hreqs : makeRequests items = .ok reqs)
    (atomic : Bool) (batchId : String) (m : ReallocationManager) :
    (s.run (.requestBatchExpertReallocation thread items atomic ::
        serialSteps α thread reqs.length)).mover =
      (exposedRequestBatchExpertReallocation batchId items atomic s.mover m).1 := by
  have hids := (makeRequests_spec hreqs).1
  have hnodup : ((reqs.map (·.1)).map ReallocationReq.requestId).Nodup := by
    rw [List.map_map]
    exact hids ▸ hready.2.1
  have hnext : s.next (.requestBatchExpertReallocation thread items atomic) =
      s.submit thread reqs ((s.manager.create (reqs.map (·.1))).enqueue
        (reqs.map (·.1.requestId)), true) := by
    simp only [HandlerSystem.next, hready, if_true, hreqs,
      ManagerObjects.submitBatch_of_motion h.motion, List.map_map, Function.comp_def]
  have hobjects : ∀ x ∈ reqs, (s.next (.requestBatchExpertReallocation thread items
      atomic)).manager.requests x.1.requestId = some x.1 := by
    intro x hx
    rw [hnext]
    exact ManagerObjects.create_of_mem hnodup (List.mem_map_of_mem hx)
  have hhandler : (s.next (.requestBatchExpertReallocation thread items atomic)).handlers thread =
      ⟨reqs.map fun x => (x.1.requestId, x.2), .submitted⟩ := by
    rw [hnext]
    simp [HandlerSystem.submit]
  have hmover : (s.next (.requestBatchExpertReallocation thread items atomic)).mover = s.mover := by
    rw [hnext]
    rfl
  have hserial := (run_serialSteps (hids ▸ hready.2.1) hobjects hhandler (m.submitBatch
    { requestId := batchId, requests := reqs.map (·.1), atomic := atomic }).1).1
  rw [hmover] at hserial
  simp only [exposedRequestBatchExpertReallocation, hreqs]
  exact hserial

end Serial

end HarvestMoE
