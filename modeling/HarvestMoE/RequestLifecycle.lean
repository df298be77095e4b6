import HarvestMoE.ReallocationHandlers

/-!
# What becomes of a request

Three rules a request should follow on its way through the server: while it is in flight
no other request for its expert is; between two calls the queue holds what is pending; and
once it is cancelled it is not carried out. Nothing enforces them. The set of experts in
motion stays empty, so that every request is accepted; nobody takes a request out of the
queue; and a handler looks at the status of a request only to overwrite it.

## Main definitions

* `OneInFlight`, `SubmitsAlone` — no two requests in flight for one expert.
* `Consistent`, `SubmitsNothing` — the books between two calls.
* `CancelFinal`, `CancelsNothing` — a cancelled request stays cancelled.
-/

namespace HarvestMoE

open Lib

variable {cfg : EngineConfig} {α : Type*}

namespace HandlerSystem

variable (s : HandlerSystem cfg α)

/-- The expert of a request. -/
def expertKey (r : ReallocationReq) : ℤ × ℤ := (r.layerId, r.expertId)

/-- The request is accepted, not terminal, and for this expert. -/
def InFlight (id : String) (key : ℤ × ℤ) : Prop :=
  id ∈ s.accepted ∧
    ∃ r, s.manager.requests id = some r ∧ ¬ r.status.Terminal ∧ expertKey r = key

/-- One reallocation in flight for an expert, and none carried out that was rejected. -/
structure OneInFlight : Prop where
  unique : ∀ id id' key, s.InFlight id key → s.InFlight id' key → id = id'
  not_executed : ∀ id ∈ s.rejected, id ∉ s.executed

/-- A step submits requests for different experts, none of which has one in flight. -/
def SubmitsAlone (step : HandlerStep α) : Prop :=
  ∀ thread reqs, s.submission step = some (thread, reqs) →
    (reqs.map fun x => expertKey x.1).Nodup ∧ ∀ x ∈ reqs, ∀ id, ¬ s.InFlight id (expertKey x.1)

/-- The books of the manager agree. -/
structure Consistent : Prop where
  one_table : ∀ id ∈ s.accepted,
    Xor (id ∈ s.manager.activeRequests) (id ∈ s.manager.completedRequests)
  active_status : ∀ id ∈ s.manager.activeRequests,
    ∃ r, s.manager.requests id = some r ∧ ¬ r.status.Terminal
  completed_status : ∀ id ∈ s.manager.completedRequests, s.Final id
  queue_iff : ∀ id, id ∈ s.manager.requestQueue ↔
    id ∈ s.manager.activeRequests ∧ s.manager.hasStatus id .pending = true
  stats_agree : s.manager.getReallocationStats.queueSize =
    s.manager.getReallocationStats.pendingRequests

/-- A step submits no request: its call has an action that is unknown, or no item. -/
def SubmitsNothing (step : HandlerStep α) : Prop :=
  ∀ thread reqs, s.submission step = some (thread, reqs) → reqs = []

/-- Once `cancel_request` has returned `True`, the request stays cancelled and is not
carried out. -/
def CancelFinal (s : HandlerSystem cfg α) : List (HandlerStep α) → Prop
  | [] => True
  | step :: rest =>
      (∀ id, step = .cancelRequest id → (s.manager.cancelRequest id).2 = true →
        Always next (fun t => t.manager.hasStatus id .cancelled = true ∧
          t.executed.count id = s.executed.count id) (s.next step) rest) ∧
      CancelFinal (s.next step) rest

/-- A cancellation finds its request not active, or no longer pending. -/
def CancelsNothing : HandlerStep α → Prop
  | .cancelRequest id =>
      ¬ (id ∈ s.manager.activeRequests ∧ s.manager.hasStatus id .pending = true)
  | _ => True

section InFlight

variable {s} {t : HandlerSystem cfg α}

/-- When no request comes in flight, the rule is kept. -/
theorem OneInFlight.of_subset (h : s.OneInFlight) (ht : HandlersSound t)
    (hsub : ∀ id key, t.InFlight id key → s.InFlight id key) : t.OneInFlight := by
  refine ⟨fun id id' key hid hid' => h.unique id id' key (hsub id key hid) (hsub id' key hid'), ?_⟩
  rw [ht.none_rejected]
  simp

/-- A write that ends in a terminal status takes a request out of flight. -/
theorem InFlight.of_write {x : String} {key : ℤ × ℤ} (h : t.InFlight x key) {id : String}
    {f : ReallocationReq → ReallocationReq}
    (hwrite : t.manager.requests = (s.manager.write id f).requests)
    (haccepted : t.accepted = s.accepted) (hterminal : ∀ r, (f r).status.Terminal) :
    s.InFlight x key := by
  have ⟨hx, r, hr, hlive, hkey⟩ := h
  rw [hwrite] at hr
  rw [haccepted] at hx
  by_cases hid : x = id
  · subst hid
    rw [ManagerObjects.write_requests_self] at hr
    have ⟨r', _, hr'⟩ := Option.map_eq_some_iff.mp hr
    rw [← hr'] at hlive
    exact absurd (hterminal r') hlive
  · rw [ManagerObjects.write_requests_of_ne hid] at hr
    exact ⟨hx, r, hr, hlive, hkey⟩

/-- The requests in flight after a submission. -/
theorem inFlight_submit (h : HandlersSound s) {thread : ℕ}
    {reqs : List (ReallocationReq × MoveEnv α)}
    (hready : s.Ready thread (reqs.map (·.1.requestId)))
    (hpending : ∀ x ∈ reqs, x.1.status = .pending) (id : String) (key : ℤ × ℤ) :
    (s.submit thread reqs ((s.manager.create (reqs.map (·.1))).enqueue
        (reqs.map (·.1.requestId)), true)).InFlight id key ↔
      s.InFlight id key ∨ ∃ x ∈ reqs, x.1.requestId = id ∧ expertKey x.1 = key := by
  have hids : (reqs.map (·.1)).map ReallocationReq.requestId = reqs.map (·.1.requestId) := by
    rw [List.map_map]
    rfl
  have hkeep : ∀ x ∈ s.accepted, (s.manager.create (reqs.map (·.1))).requests x =
      s.manager.requests x := by
    intro x hx
    refine ManagerObjects.create_of_notMem fun hmem => ?_
    rw [hids] at hmem
    exact h.objects x hx (hready.2.2 x hmem)
  have hmade : ∀ x ∈ reqs, (s.manager.create (reqs.map (·.1))).requests x.1.requestId =
      some x.1 := fun x hx =>
    ManagerObjects.create_of_mem (hids ▸ hready.2.1) (List.mem_map_of_mem hx)
  constructor
  · intro hflight
    have ⟨hid, r, hr, hlive, hkey⟩ := hflight
    rcases List.mem_append.mp hid with hid | hid
    · left
      exact ⟨hid, r, (hkeep id hid).symm.trans hr, hlive, hkey⟩
    · right
      have ⟨x, hx, hxid⟩ := List.mem_map.mp hid
      refine ⟨x, hx, hxid, ?_⟩
      have hx' := hmade x hx
      rw [hxid] at hx'
      have heq : x.1 = r := Option.some.inj (hx'.symm.trans hr)
      rw [heq, hkey]
  · intro hflight
    rcases hflight with ⟨hid, r, hr, hlive, hkey⟩ | ⟨x, hx, hxid, hkey⟩
    · exact ⟨List.mem_append_left _ hid, r, (hkeep id hid).trans hr, hlive, hkey⟩
    · subst hxid
      refine ⟨List.mem_append_right _ (List.mem_map_of_mem hx), x.1, hmade x hx, ?_, hkey⟩
      rw [hpending x hx]
      exact not_false

/-- After a submission one request at most is in flight for each expert, if and only if the
experts it names are different and none of them had one. -/
theorem oneInFlight_submit_iff (h : HandlersSound s) (hone : s.OneInFlight) {thread : ℕ}
    {reqs : List (ReallocationReq × MoveEnv α)}
    (hrejected : (s.submit thread reqs ((s.manager.create (reqs.map (·.1))).enqueue
      (reqs.map (·.1.requestId)), true)).rejected = [])
    (hready : s.Ready thread (reqs.map (·.1.requestId)))
    (hpending : ∀ x ∈ reqs, x.1.status = .pending) :
    (s.submit thread reqs ((s.manager.create (reqs.map (·.1))).enqueue
      (reqs.map (·.1.requestId)), true)).OneInFlight ↔
      (reqs.map fun x => expertKey x.1).Nodup ∧
        ∀ x ∈ reqs, ∀ id, ¬ s.InFlight id (expertKey x.1) := by
  have hflight := inFlight_submit h hready hpending
  have hinj : ∀ x ∈ reqs, ∀ y ∈ reqs, x.1.requestId = y.1.requestId → x = y := fun x hx y hy =>
    List.inj_on_of_nodup_map hready.2.1 hx hy
  have hfresh : ∀ x ∈ reqs, ∀ key, ¬ s.InFlight x.1.requestId key := by
    intro x hx key hold
    exact h.objects _ hold.1 (hready.2.2 _ (List.mem_map_of_mem (f := (·.1.requestId)) hx))
  constructor
  · intro hnew
    constructor
    · refine (List.nodup_map_iff_inj_on (List.Nodup.of_map _ hready.2.1)).mpr ?_
      intro x hx y hy hkey
      exact hinj x hx y hy (hnew.unique _ _ (expertKey x.1)
        ((hflight _ _).mpr (.inr ⟨x, hx, rfl, rfl⟩))
        ((hflight _ _).mpr (.inr ⟨y, hy, rfl, hkey.symm⟩)))
    · intro x hx id hold
      have heq := hnew.unique id x.1.requestId (expertKey x.1) ((hflight _ _).mpr (.inl hold))
        ((hflight _ _).mpr (.inr ⟨x, hx, rfl, rfl⟩))
      exact hfresh x hx _ (heq ▸ hold)
  · intro halone
    refine ⟨fun id id' key hid hid' => ?_, by rw [hrejected]; simp⟩
    rcases (hflight id key).mp hid with hid | ⟨x, hx, hxid, hxkey⟩ <;>
      rcases (hflight id' key).mp hid' with hid' | ⟨y, hy, hyid, hykey⟩
    · exact hone.unique id id' key hid hid'
    · exact absurd (hykey ▸ hid) (halone.2 y hy id)
    · exact absurd (hxkey ▸ hid') (halone.2 x hx id')
    · have heq := List.inj_on_of_nodup_map halone.1 hx hy (hxkey.trans hykey.symm)
      rw [← hxid, ← hyid, heq]

/-- Under the rule a step keeps it if and only if it submits alone. -/
theorem next_oneInFlight_iff (h : HandlersSound s) (hone : s.OneInFlight) (step : HandlerStep α) :
    (s.next step).OneInFlight ↔ s.SubmitsAlone step := by
  have hsound := h.next step
  have heff := next_effect h.motion step
  generalize s.next step = t at heff hsound ⊢
  cases heff with
  | idles hnone =>
      refine iff_of_true hone fun thread reqs hreqs => ?_
      rw [hnone] at hreqs
      simp at hreqs
  | @submits _ thread reqs hreqs hready hpending =>
      rw [oneInFlight_submit_iff h hone hsound.none_rejected hready hpending]
      constructor
      · intro hkeys thread' reqs' hreqs'
        rw [hreqs, Option.some.injEq, Prod.mk.injEq] at hreqs'
        rw [← hreqs'.2]
        exact hkeys
      · exact fun halone => halone thread reqs hreqs
  | processes =>
      exact iff_of_true (hone.of_subset hsound fun _ _ hid => hid)
        (fun _ _ hreqs => by simp [submission] at hreqs)
  | @records thread id env rest result hhandler =>
      refine iff_of_true (hone.of_subset hsound fun _ _ hid => ?_)
        (fun _ _ hreqs => by simp [submission] at hreqs)
      refine hid.of_write rfl rfl fun r => ?_
      cases result.1 <;> exact trivial
  | files =>
      refine iff_of_true (hone.of_subset hsound fun x key hid => ?_)
        (fun _ _ hreqs => by simp [submission] at hreqs)
      obtain ⟨hx, r, hr, hlive⟩ := hid
      exact ⟨hx, r, by simpa using hr, hlive⟩
  | cancels =>
      refine iff_of_true (hone.of_subset hsound fun _ _ hid => ?_)
        (fun _ _ hreqs => by simp [submission] at hreqs)
      exact hid.of_write rfl rfl fun _ => trivial

end InFlight

section Books

variable {s}

/-- An accepted request is in one table. -/
theorem one_table (h : HandlersSound s) {id : String} (hid : id ∈ s.accepted) :
    Xor (id ∈ s.manager.activeRequests) (id ∈ s.manager.completedRequests) := by
  have hnodup := h.split.nodup_iff.mpr h.nodup
  have hdisjoint := (List.nodup_append.mp hnodup).2.2
  rcases List.mem_append.mp (h.split.symm.subset hid) with hactive | hcompleted
  · exact .inl ⟨hactive, fun hcompleted => hdisjoint id hactive id hcompleted rfl⟩
  · exact .inr ⟨hcompleted, fun hactive => hdisjoint id hactive id hcompleted rfl⟩

/-- Between two calls the books agree as long as nothing was ever accepted: the queue
still has what was. -/
theorem consistent_iff (h : HandlersSound s) (hquiet : s.Quiescent) :
    s.Consistent ↔ s.accepted = [] := by
  have ⟨hactive, hfinal⟩ := h.of_quiescent hquiet
  constructor
  · intro hbooks
    have hstats := hbooks.stats_agree
    simp only [ManagerObjects.getReallocationStats, hactive, h.queue_eq, List.countP_nil] at hstats
    exact List.length_eq_zero_iff.mp hstats
  · intro hnone
    constructor
    case one_table => exact fun id hid => one_table h hid
    case active_status => simp [hactive]
    case completed_status => exact h.completed
    case queue_iff => simp [h.queue_eq, hnone, hactive]
    case stats_agree =>
      simp [ManagerObjects.getReallocationStats, h.queue_eq, hnone, hactive]

/-- A step accepts nothing if and only if it submits nothing. -/
theorem next_accepted_iff (h : HandlersSound s) (step : HandlerStep α) :
    (s.next step).accepted = [] ↔ s.accepted = [] ∧ s.SubmitsNothing step := by
  have heff := next_effect h.motion step
  generalize s.next step = t at heff ⊢
  have hother : s.submission step = none → t.accepted = s.accepted →
      (t.accepted = [] ↔ s.accepted = [] ∧ s.SubmitsNothing step) := by
    intro hnone haccepted
    rw [haccepted]
    refine (and_iff_left fun thread reqs hreqs => ?_).symm
    rw [hnone] at hreqs
    simp at hreqs
  cases heff with
  | idles hnone => exact hother hnone rfl
  | @submits _ thread reqs hreqs _ _ =>
      have haccepted : s.accepted ++ reqs.map (·.1.requestId) = [] ↔ s.accepted = [] ∧ reqs = [] := by
        rw [List.append_eq_nil_iff, List.map_eq_nil_iff]
      refine haccepted.trans (and_congr_right fun _ => ?_)
      constructor
      · intro hnil thread' reqs' hreqs'
        rw [hreqs, Option.some.injEq, Prod.mk.injEq] at hreqs'
        rw [← hreqs'.2]
        exact hnil
      · exact fun hnothing => hnothing thread reqs hreqs
  | processes => exact hother rfl rfl
  | records => exact hother rfl rfl
  | files => exact hother rfl rfl
  | cancels => exact hother rfl rfl

theorem run_accepted_iff (h : HandlersSound s) (steps : List (HandlerStep α)) :
    (s.run steps).accepted = [] ↔ s.accepted = [] ∧ EachStep next SubmitsNothing s steps := by
  induction steps generalizing s with
  | nil => simp [run, EachStep]
  | cons step steps ih =>
      have hrest := ih (h.next step)
      rw [next_accepted_iff h step] at hrest
      simp only [EachStep, ← and_assoc]
      exact hrest

end Books

section Cancel

variable {s}

/-- A cancellation that is answered `True` is undone by the time all calls have returned. -/
theorem not_cancelFinal (h : HandlersSound s) {id : String}
    (hcancel : id ∈ s.manager.activeRequests ∧ s.manager.hasStatus id .pending = true)
    {steps : List (HandlerStep α)} (hquiet : (s.run (.cancelRequest id :: steps)).Quiescent) :
    ¬ s.CancelFinal (.cancelRequest id :: steps) := by
  intro hfinal
  have hanswer : (s.manager.cancelRequest id).2 = true := by
    rw [ManagerObjects.cancelRequest, if_pos hcancel]
  have hlast := (hfinal.1 id rfl hanswer).last
  have hsound : HandlersSound (s.run (.cancelRequest id :: steps)) :=
    foldl_preserves (fun _ step _ h => h.next step) h
  have haccepted : id ∈ (s.run (.cancelRequest id :: steps)).accepted := by
    have hkept : HandlersSound (s.run (.cancelRequest id :: steps)) ∧
        id ∈ (s.run (.cancelRequest id :: steps)).accepted :=
      foldl_preserves (I := fun t => HandlersSound t ∧ id ∈ t.accepted)
        (fun _ step _ ht => ⟨ht.1.next step, (next_effect ht.1.motion step).accepted ht.2⟩)
        ⟨h, h.mem_accepted hcancel.1⟩
    exact hkept.2
  obtain ⟨r, hr, hstatus⟩ := (hsound.of_quiescent hquiet).2 id haccepted
  obtain ⟨r', hr', hcancelled⟩ := ManagerObjects.hasStatus_iff.mp hlast.1
  have heq : r = r' := Option.some.inj (hr.symm.trans hr')
  rw [heq, hcancelled] at hstatus
  simp at hstatus

/-- Where no cancellation is answered `True` there is nothing to keep. -/
theorem cancelFinal_of_cancelsNothing {steps : List (HandlerStep α)}
    (h : EachStep next CancelsNothing s steps) : s.CancelFinal steps := by
  induction steps generalizing s with
  | nil => trivial
  | cons step steps ih =>
      refine ⟨fun id hstep hanswer => ?_, ih h.2⟩
      subst hstep
      rw [ManagerObjects.cancelRequest, if_neg h.1] at hanswer
      simp at hanswer

/-- When all calls have returned, cancellation was final only if nothing was cancelled. -/
theorem cancelsNothing_of_cancelFinal (h : HandlersSound s) {steps : List (HandlerStep α)}
    (hquiet : (s.run steps).Quiescent) (hfinal : s.CancelFinal steps) :
    EachStep next CancelsNothing s steps := by
  induction steps generalizing s with
  | nil => trivial
  | cons step steps ih =>
      refine ⟨?_, ih (h.next step) hquiet hfinal.2⟩
      cases step with
      | cancelRequest id => exact fun hcancel => not_cancelFinal h hcancel hquiet hfinal
      | _ => trivial

end Cancel

end HandlerSystem

/-- At no moment of a run two requests for one expert are in flight if and only if every
submission of the run is alone with its experts. -/
theorem handlerRun_oneInFlight_iff (mover : MoverState cfg α) (steps : List (HandlerStep α)) :
    Always HandlerSystem.next HandlerSystem.OneInFlight (.start mover) steps ↔
      EachStep HandlerSystem.next HandlerSystem.SubmitsAlone (.start mover) steps := by
  refine always_iff_eachStep (J := HandlersSound) (fun _ step h => h.next step)
    (fun _ step h hone => HandlerSystem.next_oneInFlight_iff h hone step)
    (HandlersSound.start mover) ⟨?_, ?_⟩ steps
  · intro id id' key hid
    simp [HandlerSystem.InFlight, HandlerSystem.start] at hid
  · simp [HandlerSystem.start]

/-- The engine of the smallest configuration. -/
def smallMover : MoverState (EngineConfig.small 1 Nat.one_pos) ℕ :=
  .start _ ⟨fun _ => 0, fun _ => 0, fun _ => 0, 0, 0, fun _ => none⟩

/-- A request for expert 0 of layer 0. -/
def smallItem (requestId : String) : BatchItem ℕ where
  layerId := 0
  expertId := 0
  action := "move_to_cpu"
  requestId := requestId
  env := .calm fun _ => 0

/-- One call from its beginning to its end, with other steps after the submission. -/
def smallCall (others : List (HandlerStep ℕ)) : List (HandlerStep ℕ) :=
  .requestExpertReallocation 0 (smallItem "a") :: others ++ [.process 0, .setStatus 0, .file 0]

/-- Two handlers submit a request for the same expert. -/
theorem handlerRun_oneInFlight_fails :
    ¬ ∀ steps, Always HandlerSystem.next HandlerSystem.OneInFlight (.start smallMover) steps := by
  intro h
  have hone := (h [.requestExpertReallocation 0 (smallItem "a"),
    .requestExpertReallocation 1 (smallItem "b")]).2.2
  have hboth := hone.unique "a" "b" (0, 0)
    ⟨by decide +kernel, ⟨"a", 0, 0, .moveToCpu, 0, .pending, none⟩, by decide +kernel, not_false, rfl⟩
    ⟨by decide +kernel, ⟨"b", 0, 0, .moveToCpu, 0, .pending, none⟩, by decide +kernel, not_false, rfl⟩
  exact absurd hboth (by decide)

/-- Between two calls the books agree if and only if no call of the run has submitted a
request. -/
theorem handlerRun_consistent_iff (mover : MoverState cfg α) (steps : List (HandlerStep α))
    (hquiet : ((HandlerSystem.start mover).run steps).Quiescent) :
    ((HandlerSystem.start mover).run steps).Consistent ↔
      EachStep HandlerSystem.next HandlerSystem.SubmitsNothing (.start mover) steps := by
  have hstart := HandlersSound.start mover
  rw [HandlerSystem.consistent_iff (.run mover steps) hquiet,
    HandlerSystem.run_accepted_iff hstart steps]
  exact and_iff_right rfl

theorem handlerRun_consistent_iff_small :
    ((HandlerSystem.start smallMover).run (smallCall [])).Consistent ↔
      EachStep HandlerSystem.next HandlerSystem.SubmitsNothing (.start smallMover) (smallCall []) :=
  handlerRun_consistent_iff smallMover (smallCall [])
    ((HandlersSound.run smallMover _).quiescent_of_active (by decide +kernel))

/-- After one call the queue still holds its request. -/
theorem handlerRun_consistent_fails :
    ¬ ∀ steps, ((HandlerSystem.start smallMover).run steps).Quiescent →
      ((HandlerSystem.start smallMover).run steps).Consistent := by
  intro h
  have hbooks := h (smallCall [])
    ((HandlersSound.run smallMover _).quiescent_of_active (by decide +kernel))
  exact absurd hbooks.stats_agree (by decide +kernel)

/-- In a run in which nothing is cancelled that is pending, cancellation is final; and when
all calls have returned, in no other. -/
theorem handlerRun_cancelFinal (mover : MoverState cfg α) (steps : List (HandlerStep α)) :
    (EachStep HandlerSystem.next HandlerSystem.CancelsNothing (.start mover) steps →
      (HandlerSystem.start mover).CancelFinal steps) ∧
    (((HandlerSystem.start mover).run steps).Quiescent →
      (HandlerSystem.start mover).CancelFinal steps →
        EachStep HandlerSystem.next HandlerSystem.CancelsNothing (.start mover) steps) :=
  ⟨HandlerSystem.cancelFinal_of_cancelsNothing,
    fun hquiet => HandlerSystem.cancelsNothing_of_cancelFinal (.start mover) hquiet⟩

/-- A request is cancelled before it is carried out, and completes. -/
theorem handlerRun_cancelFinal_fails :
    ¬ ∀ steps, (HandlerSystem.start smallMover).CancelFinal steps := by
  intro h
  have hkept := (h (smallCall [.cancelRequest "a"])).2.1 "a" rfl (by decide +kernel)
  have hstatus := hkept.last.1
  exact absurd hstatus (by decide +kernel)

end HarvestMoE
