import HarvestMoE.Lib.Run
import Mathlib.Logic.Function.Basic
import Mathlib.Data.List.Basic

/-!
# Responses and the calls that wait for them

`TokenizerManager` keeps an object for every request that is sent, in a dictionary by the
id of the request. `handle_loop` looks up the id of every result and puts the result into
the object it finds; the calls of `generate_request` wait for the events of objects and
remove the ids again. Ids come from the clients. Between two awaits nothing else runs.

## Main definitions

* `TokenizerManager` — the dictionary, the objects, the calls, and the requests in flight.
* `generateRequest` — a call up to its first await.
* `receive` — a message, taken by `handle_loop`.
* `resumeCall` — a call goes on, from one await to the next.
* `managerStep` — all interleavings.
-/

namespace HarvestMoE

open Lib

variable {ω : Type*}

/-- The `rid` of a request, which is not checked to be a string for a single text. -/
inductive RidArg
  | str (rid : String)
  | list (rids : List String)
  deriving DecidableEq, Repr

structure ReqState (ω : Type*) where
  outList : List ω
  finished : Bool
  event : Bool

/-- Where a call of `generate_request` is. Objects are named after the request they are made
for; `own` is the request of `rid`, and those of `rest` come after it. -/
inductive CallState (ω : Type*)
  /-- A single text, at `await event.wait()`. Without `stream` only the first item is asked for. -/
  | waiting (rid : String) (own : ℕ) (stream : Bool)
  /-- A stream, at its `yield`. -/
  | suspended (rid : String) (own : ℕ)
  /-- A list of texts, waiting for the event of the object `state`. -/
  | visiting (rid : String) (state : ℕ) (rest : List String) (own : ℕ) (outputList : List ω)
  | yielded (outputList : List ω)
  | raised
  | closed
  deriving DecidableEq

inductive LoopState
  | toCreate
  | running
  | dead
  deriving DecidableEq, Repr

/-- What `handle_loop` did with a result: the request it answers, and the object it got. -/
structure Delivery (ω : Type*) where
  request : ℕ
  object : ℕ
  out : ω

structure TokenizerManager (ω : Type*) where
  loop : LoopState
  ridToState : String → Option ℕ
  states : ℕ → ReqState ω
  calls : ℕ → CallState ω
  nextCall : ℕ
  /-- Requests sent to the router, their ids, and which are not yet answered. -/
  numSent : ℕ
  rids : ℕ → RidArg
  outstanding : ℕ → Bool
  delivered : List (Delivery ω)

/-- A new manager. -/
def TokenizerManager.init : TokenizerManager ω where
  loop := .toCreate
  ridToState := fun _ => none
  states := fun _ => ⟨[], false, false⟩
  calls := fun _ => .closed
  nextCall := 0
  numSent := 0
  rids := fun _ => .list []
  outstanding := fun _ => false
  delivered := []

/-- A call of `generate_request`, after `post_init`. What is prepared before a request is sent
may raise: for a list of texts without `batch`, after some of them. -/
inductive GenerateCall
  | single (rid : RidArg) (stream prepared : Bool)
  | batch (rids : List String) (numTexts : ℕ) (prepared : Bool)
  | list (rids : List String) (numTexts prepared : ℕ)

/-- One entry of a `BatchStrOut`. -/
structure Answer (ω : Type*) where
  request : ℕ
  out : ω
  finished : Bool

namespace TokenizerManager

variable (m : TokenizerManager ω)

/-- `create_handle_loop`, in the first call. -/
@[simps]
def createLoop : TokenizerManager ω :=
  { m with loop := if m.loop = .toCreate then .running else m.loop }

/-- A request is sent. -/
@[simps]
def send (rid : RidArg) : TokenizerManager ω :=
  { m with
    numSent := m.numSent + 1
    rids := Function.update m.rids m.numSent rid
    outstanding := Function.update m.outstanding m.numSent true }

/-- A request is sent, and an object made for it. -/
@[simps]
def register (rid : String) : TokenizerManager ω :=
  { m.send (.str rid) with
    states := Function.update m.states m.numSent ⟨[], false, false⟩
    ridToState := Function.update m.ridToState rid (some m.numSent) }

@[simps]
def setCall (c : ℕ) (call : CallState ω) : TokenizerManager ω :=
  { m with calls := Function.update m.calls c call }

/-- `del self.rid_to_state[rid]` -/
@[simps]
def remove (rid : String) : TokenizerManager ω :=
  { m with ridToState := Function.update m.ridToState rid none }

@[simps]
def setState (q : ℕ) (state : ReqState ω) : TokenizerManager ω :=
  { m with states := Function.update m.states q state }

/-- The call of a list of texts takes the result it waited for; nothing where it raises. -/
def visit (rid : String) (state : ℕ) : Option (TokenizerManager ω × ω) :=
  match (m.states state).outList.getLast? with
  | none => none
  | some out =>
      if (m.states state).finished ∧ (m.ridToState rid).isSome then some (m.remove rid, out) else none

theorem visit_eq_some {m t : TokenizerManager ω} {rid : String} {q : ℕ} {out : ω} :
    m.visit rid q = some (t, out) ↔ (m.states q).outList.getLast? = some out ∧
      (m.states q).finished = true ∧ (m.ridToState rid).isSome = true ∧ t = m.remove rid := by
  unfold visit
  cases (m.states q).outList.getLast? with
  | none => simp
  | some out' =>
      by_cases hdone : (m.states q).finished = true ∧ (m.ridToState rid).isSome = true
      · simp [hdone, and_comm, eq_comm]
      · simp [hdone]
        tauto

/-- The loop of `generate_request` over the ids, up to an event that is not set. -/
def collect : List String → ℕ → List ω → TokenizerManager ω → TokenizerManager ω × CallState ω
  | [], _, outputList, m => (m, .yielded outputList)
  | rid :: rest, own, outputList, m =>
      match m.ridToState rid with
      | none => (m, .raised)
      | some state =>
          if (m.states state).event then
            match m.visit rid state with
            | none => (m, .raised)
            | some (m, out) => collect rest (own + 1) (outputList ++ [out]) m
          else (m, .visiting rid state rest own outputList)

/-- The loop only removes ids: what that keeps, the loop keeps. -/
theorem collect_preserves {I : TokenizerManager ω → Prop} {rids : List String} {own : ℕ}
    {outputList : List ω} (hremove : ∀ m, ∀ rid ∈ rids, I m → I (m.remove rid)) (hm : I m) :
    I (collect rids own outputList m).1 := by
  induction rids generalizing own outputList m with
  | nil => exact hm
  | cons rid rest ih =>
      cases hentry : m.ridToState rid with
      | none => simpa [collect, hentry] using hm
      | some state =>
          cases hev : (m.states state).event with
          | false => simpa [collect, hentry, hev] using hm
          | true =>
              cases hvisit : m.visit rid state with
              | none => simpa [collect, hentry, hev, hvisit] using hm
              | some r =>
                  rcases visit_eq_some.mp hvisit with ⟨-, -, -, hr⟩
                  simp only [collect, hentry, hev, hvisit, if_true]
                  refine ih r.1 (fun m r hr => hremove m r (by simp [hr])) ?_
                  exact hr ▸ hremove m rid (by simp) hm

theorem collect_frame (rids : List String) (own : ℕ) (outputList : List ω) :
    (collect rids own outputList m).1 =
      { m with ridToState := (collect rids own outputList m).1.ridToState } := by
  refine collect_preserves m (I := fun t => t = { m with ridToState := t.ridToState }) ?_ rfl
  intro t rid _ ht
  rw [ht]
  rfl

section Collect

variable (rids : List String) (own : ℕ) (outputList : List ω)

@[simp] theorem collect_loop : (collect rids own outputList m).1.loop = m.loop := by
  rw [collect_frame]

@[simp] theorem collect_states : (collect rids own outputList m).1.states = m.states := by
  rw [collect_frame]

@[simp] theorem collect_calls : (collect rids own outputList m).1.calls = m.calls := by
  rw [collect_frame]

@[simp] theorem collect_nextCall : (collect rids own outputList m).1.nextCall = m.nextCall := by
  rw [collect_frame]

@[simp] theorem collect_numSent : (collect rids own outputList m).1.numSent = m.numSent := by
  rw [collect_frame]

@[simp] theorem collect_rids : (collect rids own outputList m).1.rids = m.rids := by
  rw [collect_frame]

@[simp] theorem collect_delivered :
    (collect rids own outputList m).1.delivered = m.delivered := by
  rw [collect_frame]

@[simp] theorem collect_outstanding :
    (collect rids own outputList m).1.outstanding = m.outstanding := by
  rw [collect_frame]

end Collect

/-- A new call, where it first stops. -/
@[simps]
def start (call : CallState ω) : TokenizerManager ω :=
  { m.setCall m.nextCall call with nextCall := m.nextCall + 1 }

/-- The call of a list of texts, once the requests of `rids` are sent. It raises at the first
text without an id, or that could not be prepared. -/
def startList (rids : List String) (numTexts : ℕ) : TokenizerManager ω :=
  let sent := rids.foldl register m
  if rids.length < numTexts then sent.start .raised
  else
    let (m, call) := collect rids m.numSent [] sent
    m.start call

@[simp] theorem foldl_register_calls (rids : List String) :
    (rids.foldl register m).calls = m.calls := by
  induction rids generalizing m with
  | nil => rfl
  | cons rid rest ih => exact ih (m.register rid)

@[simp] theorem foldl_register_nextCall (rids : List String) :
    (rids.foldl register m).nextCall = m.nextCall := by
  induction rids generalizing m with
  | nil => rfl
  | cons rid rest ih => exact ih (m.register rid)

@[simp] theorem foldl_register_delivered (rids : List String) :
    (rids.foldl register m).delivered = m.delivered := by
  induction rids generalizing m with
  | nil => rfl
  | cons rid rest ih => exact ih (m.register rid)

@[simp] theorem foldl_register_numSent (rids : List String) :
    (rids.foldl register m).numSent = m.numSent + rids.length := by
  induction rids generalizing m with
  | nil => rfl
  | cons rid rest ih =>
      rw [List.foldl_cons, ih, List.length_cons]
      simp only [register_numSent, send_numSent]
      omega

/-- `generate_request` -/
def generateRequest : GenerateCall → TokenizerManager ω
  | .single rid stream prepared =>
      let m := m.createLoop
      if prepared then
        match rid with
        | .str rid => (m.register rid).start (.waiting rid m.numSent stream)
        -- A list is no key of a dictionary; the request is on its way.
        | .list _ => (m.send rid).start .raised
      else m.start .raised
  | .batch rids numTexts prepared =>
      if prepared then m.createLoop.startList (rids.take numTexts) numTexts
      else m.createLoop.start .raised
  | .list rids numTexts prepared =>
      m.createLoop.startList (rids.take (min numTexts prepared)) numTexts

/-- `handle_loop` on one result of a request that is not answered yet. -/
def deliver (a : Answer ω) : Option (TokenizerManager ω) :=
  if m.outstanding a.request then
    let m := { m with outstanding := Function.update m.outstanding a.request !a.finished }
    if m.loop = .running then
      match m.rids a.request with
      | .list _ => some { m with loop := .dead }
      | .str rid =>
          match m.ridToState rid with
          | none => some { m with loop := .dead }
          | some q => some
              { m.setState q ⟨(m.states q).outList ++ [a.out], a.finished, true⟩ with
                delivered := m.delivered ++ [⟨a.request, q, a.out⟩] }
    else some m
  else none

/-- `handle_loop` puts a result into the object that it finds, or does not take it. -/
theorem deliver_cases {m t : TokenizerManager ω} {a : Answer ω} (ht : m.deliver a = some t) :
    m.outstanding a.request = true ∧
      ((∃ loop, t = { m with
          loop := loop
          outstanding := Function.update m.outstanding a.request !a.finished }) ∨
      ∃ rid q, m.rids a.request = .str rid ∧ m.ridToState rid = some q ∧
        t = { m.setState q ⟨(m.states q).outList ++ [a.out], a.finished, true⟩ with
          outstanding := Function.update m.outstanding a.request !a.finished
          delivered := m.delivered ++ [⟨a.request, q, a.out⟩] }) := by
  unfold deliver at ht
  by_cases hout : m.outstanding a.request = true
  · rw [if_pos hout] at ht
    refine ⟨hout, ?_⟩
    by_cases hrun : m.loop = .running
    · rw [if_pos hrun] at ht
      cases hrid : m.rids a.request with
      | list rids =>
          simp only [hrid, Option.some.injEq] at ht
          exact Or.inl ⟨.dead, ht.symm⟩
      | str rid =>
          cases hentry : m.ridToState rid with
          | none =>
              simp only [hrid, hentry, Option.some.injEq] at ht
              exact Or.inl ⟨.dead, ht.symm⟩
          | some q =>
              simp only [hrid, hentry, Option.some.injEq] at ht
              exact Or.inr ⟨rid, q, rfl, hentry, ht.symm⟩
    · rw [if_neg hrun] at ht
      exact Or.inl ⟨m.loop, (Option.some.inj ht).symm⟩
  · rw [if_neg hout] at ht
    cases ht

/-- A `BatchStrOut` arrives. -/
def receive (answers : List (Answer ω)) : Option (TokenizerManager ω) := exec deliver m answers

/-- A call goes on: its event is set, or the next item of the stream is asked for. -/
def resumeCall (c : ℕ) : Option (TokenizerManager ω) :=
  match m.calls c with
  | .waiting rid own stream =>
      if (m.states own).event then
        match (m.states own).outList.getLast? with
        | none => some (m.setCall c .raised)
        | some out => some (m.setCall c (if stream then .suspended rid own else .yielded [out]))
      else none
  | .suspended rid own =>
      let state := m.states own
      if state.finished then
        let m := m.setState own { state with outList := [] }
        match m.ridToState rid with
        | none => some (m.setCall c .raised)
        | some _ => some ((m.remove rid).setCall c .closed)
      else some ((m.setState own { state with outList := [], event := false }).setCall c
        (.waiting rid own true))
  | .visiting rid state rest own outputList =>
      if (m.states state).event then
        match m.visit rid state with
        | none => some (m.setCall c .raised)
        | some (m, out) =>
            let (m, call) := collect rest (own + 1) (outputList ++ [out]) m
            some (m.setCall c call)
      else none
  | _ => none

/-- What a call does that goes on. -/
inductive Resumed (m : TokenizerManager ω) (c : ℕ) : TokenizerManager ω → Prop
  | raised : Resumed m c (m.setCall c .raised)
  | awake {rid : String} {own : ℕ} {stream : Bool} (out : ω)
      (hcall : m.calls c = .waiting rid own stream) :
      Resumed m c (m.setCall c (if stream then .suspended rid own else .yielded [out]))
  | ended {rid : String} {own : ℕ} (hcall : m.calls c = .suspended rid own)
      (hfin : (m.states own).finished = true) :
      Resumed m c
        (((m.setState own { m.states own with outList := [] }).remove rid).setCall c .closed)
  | lost {rid : String} {own : ℕ} (hcall : m.calls c = .suspended rid own)
      (hentry : m.ridToState rid = none) :
      Resumed m c ((m.setState own { m.states own with outList := [] }).setCall c .raised)
  | emptied {rid : String} {own : ℕ} (hcall : m.calls c = .suspended rid own)
      (hfin : ¬ (m.states own).finished = true) :
      Resumed m c ((m.setState own { m.states own with outList := [], event := false }).setCall c
        (.waiting rid own true))
  | collected {rid : String} {state : ℕ} {rest : List String} {own : ℕ} {outputList : List ω}
      {u : TokenizerManager ω} {out : ω} (hcall : m.calls c = .visiting rid state rest own outputList)
      (hvisit : m.visit rid state = some (u, out)) :
      Resumed m c ((collect rest (own + 1) (outputList ++ [out]) u).1.setCall c
        (collect rest (own + 1) (outputList ++ [out]) u).2)

theorem resumed_of_resumeCall {m t : TokenizerManager ω} {c : ℕ} (ht : m.resumeCall c = some t) :
    Resumed m c t := by
  cases hcall : m.calls c with
  | waiting rid own stream =>
      cases hev : (m.states own).event with
      | false => simp [resumeCall, hcall, hev] at ht
      | true =>
          simp only [resumeCall, hcall, hev, if_true] at ht
          cases hlast : (m.states own).outList.getLast? with
          | none =>
              simp only [hlast, Option.some.injEq] at ht
              exact ht ▸ .raised
          | some out =>
              simp only [hlast, Option.some.injEq] at ht
              exact ht ▸ .awake out hcall
  | suspended rid own =>
      simp only [resumeCall, hcall] at ht
      by_cases hfin : (m.states own).finished = true
      · rw [if_pos hfin] at ht
        cases hentry : m.ridToState rid with
        | none =>
            simp only [setState_ridToState, hentry, Option.some.injEq] at ht
            exact ht ▸ .lost hcall hentry
        | some q =>
            simp only [setState_ridToState, hentry, Option.some.injEq] at ht
            exact ht ▸ .ended hcall hfin
      · rw [if_neg hfin, Option.some.injEq] at ht
        exact ht ▸ .emptied hcall hfin
  | visiting rid state rest own outputList =>
      cases hev : (m.states state).event with
      | false => simp [resumeCall, hcall, hev] at ht
      | true =>
          simp only [resumeCall, hcall, hev, if_true] at ht
          cases hvisit : m.visit rid state with
          | none =>
              simp only [hvisit, Option.some.injEq] at ht
              exact ht ▸ .raised
          | some r =>
              simp only [hvisit, Option.some.injEq] at ht
              exact ht ▸ .collected hcall hvisit
  | yielded outputList => simp [resumeCall, hcall] at ht
  | raised => simp [resumeCall, hcall] at ht
  | closed => simp [resumeCall, hcall] at ht

/-- The client goes away. -/
def closeCall (c : ℕ) : Option (TokenizerManager ω) :=
  match m.calls c with
  | .waiting _ _ _ | .suspended _ _ | .visiting _ _ _ _ _ => some (m.setCall c .closed)
  | _ => none

theorem closeCall_eq {m t : TokenizerManager ω} {c : ℕ} (ht : m.closeCall c = some t) :
    t = m.setCall c .closed := by
  unfold closeCall at ht
  split at ht
  · exact (Option.some.inj ht).symm
  · exact (Option.some.inj ht).symm
  · exact (Option.some.inj ht).symm
  · cases ht

end TokenizerManager

inductive ManagerStep (ω : Type*)
  | generate (call : GenerateCall)
  | receive (answers : List (Answer ω))
  | resume (c : ℕ)
  | close (c : ℕ)

/-- A step of the manager or of its surroundings; nothing where it cannot be. -/
def managerStep (m : TokenizerManager ω) : ManagerStep ω → Option (TokenizerManager ω)
  | .generate call => some (m.generateRequest call)
  | .receive answers => m.receive answers
  | .resume c => m.resumeCall c
  | .close c => m.closeCall c

end HarvestMoE
