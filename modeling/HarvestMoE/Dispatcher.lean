import HarvestMoE.TokenizerManager
import Mathlib.Data.List.Nodup

/-!
# Every result reaches the call that waits for it

The dictionary leads from the id of a request in flight to the object made for it, and from
every id a call still has to look up or to remove to that call's own object. Both are kept
as long as a call does not bring an id that is in flight, or that another call still uses.

## Main definitions

* `CallState.pending` — ids a call still looks up or removes.
* `Routing` — the invariant.
* `Fresh` — the ids that a call may bring.
* `Dispatches` — `handle_loop` lives, and nothing goes astray.
-/

namespace HarvestMoE

open Lib TokenizerManager

variable {ω : Type*}

/-- The ids that a call still looks up or removes, with the requests they were sent for. -/
def CallState.pending : CallState ω → List (String × ℕ)
  | .waiting rid own stream => if stream then [(rid, own)] else []
  | .suspended rid own => [(rid, own)]
  | .visiting rid _ rest own _ => (rid :: rest).zipIdx own
  | _ => []

/-- A call that waits for an object and the request it waits for. -/
def CallState.awaits : CallState ω → Option (ℕ × ℕ)
  | .waiting _ own _ => some (own, own)
  | .visiting _ state _ own _ => some (state, own)
  | _ => none

/-- `handle_loop` has found an object for every id. Every result went to the object of its
request, and a call that waits does so for its own request, whose result is still to come
or has set the event. -/
structure Dispatches (m : TokenizerManager ω) : Prop where
  alive : m.loop ≠ .dead
  delivered_own : ∀ d ∈ m.delivered, d.object = d.request
  woken : ∀ c state own, (m.calls c).awaits = some (state, own) → state = own ∧
    (m.outstanding own = true ∨ (m.states own).event = true)

/-- No request in flight has this id, and no call still uses it. -/
def Free (m : TokenizerManager ω) (rid : String) : Prop :=
  (∀ q, m.outstanding q = true → m.rids q ≠ .str rid) ∧
    ∀ c, rid ∉ (m.calls c).pending.map Prod.fst

/-- The ids of the requests that a call sends. -/
def GenerateCall.sentRids : GenerateCall → List RidArg
  | .single rid _ prepared => if prepared then [rid] else []
  | .batch rids numTexts prepared => if prepared then (rids.take numTexts).map .str else []
  | .list rids numTexts prepared => (rids.take (min numTexts prepared)).map .str

/-- A call brings strings, no two the same and none in use. -/
def Fresh (m : TokenizerManager ω) : ManagerStep ω → Prop
  | .generate call => call.sentRids.Nodup ∧ ∀ rid ∈ call.sentRids, ∃ r, rid = .str r ∧ Free m r
  | _ => True

/-- Who has which id. -/
structure Routing (m : TokenizerManager ω) (pending : ℕ → List (String × ℕ)) : Prop where
  running : m.loop = .running ∨ m.loop = .toCreate ∧ m.numSent = 0
  outstanding_lt : ∀ q, m.outstanding q = true → q < m.numSent
  outstanding_own : ∀ q, m.outstanding q = true →
    ∃ rid, m.rids q = .str rid ∧ m.ridToState rid = some q
  unanswered : ∀ q, m.outstanding q = true → (m.states q).finished = false
  answered : ∀ q < m.numSent, m.outstanding q = false →
    (m.states q).finished = true ∧ (m.states q).event = true
  pending_own : ∀ c, ∀ x ∈ pending c, m.ridToState x.1 = some x.2 ∧ x.2 < m.numSent
  pending_nodup : ∀ c, ((pending c).map Prod.fst).Nodup
  pending_apart : ∀ c c' x x', x ∈ pending c → x' ∈ pending c' → x.1 = x'.1 → c = c'
  delivered_own : ∀ d ∈ m.delivered, d.object = d.request

/-- A call that waits for the object of its own request. -/
theorem awaits_self {own numSent : ℕ} (hlt : own < numSent) (state q : ℕ)
    (h : some (own, own) = some (state, q)) : state = q ∧ q < numSent := by
  cases h
  exact ⟨rfl, hlt⟩

namespace Routing

variable {m : TokenizerManager ω} {pending : ℕ → List (String × ℕ)} {c : ℕ}
variable {L : List (String × ℕ)}

/-- A call comes to use other ids, which no other call does. -/
theorem replace (h : Routing m pending) (hown : ∀ x ∈ L, m.ridToState x.1 = some x.2 ∧ x.2 < m.numSent)
    (hnodup : (L.map Prod.fst).Nodup)
    (happart : ∀ c' ≠ c, ∀ x ∈ L, ∀ x' ∈ pending c', x.1 ≠ x'.1) :
    Routing m (Function.update pending c L) := by
  refine { h with pending_own := ?_, pending_nodup := ?_, pending_apart := ?_ }
  · intro c' x hx
    by_cases hc : c' = c
    · subst hc
      exact hown x (by simpa using hx)
    · exact h.pending_own c' x (by simpa [hc] using hx)
  · intro c'
    by_cases hc : c' = c
    · subst hc
      simpa using hnodup
    · simpa [hc] using h.pending_nodup c'
  · intro a b x x' hx hx' heq
    by_cases ha : a = c <;> by_cases hb : b = c
    · rw [ha, hb]
    · subst ha
      exact absurd heq (happart b hb x (by simpa using hx) x' (by simpa [hb] using hx'))
    · subst hb
      exact absurd heq.symm (happart a ha x' (by simpa using hx') x (by simpa [ha] using hx))
    · exact h.pending_apart a b x x' (by simpa [ha] using hx) (by simpa [hb] using hx') heq

/-- A call comes to use fewer ids. -/
theorem shrink (h : Routing m pending) (hsub : L.Sublist (pending c)) :
    Routing m (Function.update pending c L) := by
  refine h.replace (fun x hx => h.pending_own c x (hsub.subset hx))
    ((hsub.map Prod.fst).nodup (h.pending_nodup c)) fun c' hc x hx x' hx' heq => ?_
  exact hc (h.pending_apart c c' x x' (hsub.subset hx) hx' heq).symm

theorem not_outstanding (h : Routing m pending) {q : ℕ} (hfin : (m.states q).finished = true) :
    m.outstanding q = false := by
  by_contra hout
  have hun := h.unanswered q (by simpa using hout)
  rw [hfin] at hun
  cases hun

/-- **A result goes to the object of its request.** -/
theorem deliver (h : Routing m pending) {a : Answer ω} {t : TokenizerManager ω}
    (ht : m.deliver a = some t) :
    Routing t pending ∧ t.calls = m.calls ∧ t.numSent = m.numSent := by
  cases hout : m.outstanding a.request with
  | false => simp [TokenizerManager.deliver, hout] at ht
  | true =>
      rcases h.outstanding_own a.request hout with ⟨rid, hrid, hentry⟩
      have hlt := h.outstanding_lt a.request hout
      have hrun : m.loop = .running := by
        rcases h.running with hrun | ⟨-, hzero⟩
        · exact hrun
        · omega
      simp only [TokenizerManager.deliver, hout, hrun, hrid, hentry, if_true, Option.some.injEq] at ht
      subst ht
      refine ⟨⟨Or.inl rfl, ?_, ?_, ?_, ?_, h.pending_own, h.pending_nodup, h.pending_apart, ?_⟩,
        rfl, rfl⟩
      · intro q hq
        by_cases hqa : q = a.request
        · rw [hqa]
          exact hlt
        · exact h.outstanding_lt q (by simpa [hqa] using hq)
      · intro q hq
        by_cases hqa : q = a.request
        · rw [hqa]
          exact ⟨rid, hrid, hentry⟩
        · exact h.outstanding_own q (by simpa [hqa] using hq)
      · intro q hq
        by_cases hqa : q = a.request
        · subst hqa
          simpa [TokenizerManager.setState] using hq
        · simpa [TokenizerManager.setState, hqa] using h.unanswered q (by simpa [hqa] using hq)
      · intro q hq hdone
        by_cases hqa : q = a.request
        · subst hqa
          simpa [TokenizerManager.setState] using hdone
        · simpa [TokenizerManager.setState, hqa] using h.answered q hq (by simpa [hqa] using hdone)
      · intro d hd
        rcases List.mem_append.mp hd with hd | hd
        · exact h.delivered_own d hd
        · rw [List.mem_singleton.mp hd]

/-- A message goes to the objects of its requests. -/
theorem receive (h : Routing m pending) {answers : List (Answer ω)} {t : TokenizerManager ω}
    (ht : m.receive answers = some t) :
    Routing t pending ∧ t.calls = m.calls ∧ t.numSent = m.numSent := by
  refine exec_preserves (I := fun t => Routing t pending ∧ t.calls = m.calls ∧ t.numSent = m.numSent)
    ?_ ⟨h, rfl, rfl⟩ ht
  intro s a _ u hs hu
  have hstep := hs.1.deliver hu
  exact ⟨hstep.1, hstep.2.1.trans hs.2.1, hstep.2.2.trans hs.2.2⟩

/-- The invariant says nothing about where the calls are. -/
theorem withCalls (h : Routing m pending) (calls : ℕ → CallState ω) (nextCall : ℕ) :
    Routing { m with calls := calls, nextCall := nextCall } pending :=
  { h with }

theorem createLoop (h : Routing m pending) :
    Routing m.createLoop pending ∧ m.createLoop.loop = .running := by
  have hloop : m.createLoop.loop = .running := by
    rcases h.running with hrun | ⟨hnew, -⟩
    · simp [hrun]
    · simp [hnew]
  exact ⟨{ h with running := Or.inl hloop }, hloop⟩

/-- A request with an id that nobody uses. -/
theorem register (h : Routing m pending) (hloop : m.loop = .running) {rid : String}
    (hflight : ∀ q, m.outstanding q = true → m.rids q ≠ .str rid)
    (hpending : ∀ c, rid ∉ (pending c).map Prod.fst) :
    Routing (m.register rid)
      (Function.update pending c (pending c ++ [(rid, m.numSent)])) := by
  have hentry : ∀ c, ∀ x ∈ pending c, x.1 ≠ rid := by
    intro c x hx heq
    exact hpending c (List.mem_map.mpr ⟨x, hx, heq⟩)
  have hsent : Routing (m.register rid) pending := by
    constructor
    · exact Or.inl hloop
    · intro q hq
      by_cases hqn : q = m.numSent
      · simp [hqn]
      · have hlt := h.outstanding_lt q (by simpa [hqn] using hq)
        simp only [register_numSent, send_numSent]
        omega
    · intro q hq
      by_cases hqn : q = m.numSent
      · exact ⟨rid, by simp [hqn], by simp [hqn]⟩
      · have hq' : m.outstanding q = true := by simpa [hqn] using hq
        rcases h.outstanding_own q hq' with ⟨rid', hrid', hown⟩
        have hne : rid' ≠ rid := fun heq => hflight q hq' (heq ▸ hrid')
        exact ⟨rid', by simpa [hqn] using hrid', by simpa [hne] using hown⟩
    · intro q hq
      by_cases hqn : q = m.numSent
      · simp [hqn]
      · simpa [hqn] using h.unanswered q (by simpa [hqn] using hq)
    · intro q hq hdone
      by_cases hqn : q = m.numSent
      · simp [hqn] at hdone
      · simp only [register_numSent, send_numSent] at hq
        simpa [hqn] using h.answered q (by omega) (by simpa [hqn] using hdone)
    · intro c x hx
      have hown := h.pending_own c x hx
      refine ⟨by simpa [hentry c x hx] using hown.1, ?_⟩
      simp only [register_numSent, send_numSent]
      omega
    · exact h.pending_nodup
    · exact h.pending_apart
    · exact h.delivered_own
  refine hsent.replace ?_ ?_ ?_
  · intro x hx
    rcases List.mem_append.mp hx with hx | hx
    · exact hsent.pending_own c x hx
    · rw [List.mem_singleton.mp hx]
      simp
  · rw [List.map_append, List.nodup_append]
    refine ⟨h.pending_nodup c, by simp, ?_⟩
    intro r hr r' hr' heq
    have hrid : r = rid := heq.trans (List.mem_singleton.mp hr')
    rw [hrid] at hr
    exact hpending c hr
  · intro c' hc x hx x' hx' heq
    rcases List.mem_append.mp hx with hx | hx
    · exact hc (h.pending_apart c c' x x' hx hx' heq).symm
    · rw [List.mem_singleton.mp hx] at heq
      exact hentry c' x' hx' heq.symm

/-- A list of requests, one after the other. -/
theorem registerAll (h : Routing m pending) (hloop : m.loop = .running) {rids : List String}
    (hnodup : rids.Nodup) (hflight : ∀ rid ∈ rids, ∀ q, m.outstanding q = true → m.rids q ≠ .str rid)
    (hpending : ∀ rid ∈ rids, ∀ c, rid ∉ (pending c).map Prod.fst) :
    Routing (rids.foldl TokenizerManager.register m)
      (Function.update pending c (pending c ++ rids.zipIdx m.numSent)) := by
  induction rids generalizing m pending with
  | nil => simpa using h
  | cons rid rest ih =>
      have hrest := List.nodup_cons.mp hnodup
      have hne : ∀ r ∈ rest, r ≠ rid := fun r hr heq => hrest.1 (heq ▸ hr)
      have hfirst := h.register (c := c) hloop (hflight rid (by simp)) (hpending rid (by simp))
      have hnext := ih hfirst hloop hrest.2 ?_ ?_
      · simpa [List.zipIdx_cons] using hnext
      · intro r hr q hq
        by_cases hqn : q = m.numSent
        · simpa [hqn] using (hne r hr).symm
        · simpa [hqn] using hflight r (by simp [hr]) q (by simpa [hqn] using hq)
      · intro r hr c'
        have hold := hpending r (by simp [hr]) c'
        by_cases hc : c' = c
        · subst hc
          simp only [Function.update_self, List.map_append, List.mem_append, not_or]
          exact ⟨hold, by simpa using hne r hr⟩
        · simpa [hc] using hold

/-- An id whose request is answered is removed, by the call that uses it. -/
theorem remove (h : Routing m pending) {rid : String} {own : ℕ} (hmem : (rid, own) ∈ pending c)
    (hdone : m.outstanding own = false) (hL : ((rid, own) :: L).Sublist (pending c)) :
    Routing (m.remove rid) (Function.update pending c L) := by
  have hsub : L.Sublist (pending c) := (List.sublist_cons_self _ _).trans hL
  have hfst : rid ∉ L.map Prod.fst := by
    have hnodup := (hL.map Prod.fst).nodup (h.pending_nodup c)
    exact (List.nodup_cons.mp hnodup).1
  have hs := h.shrink hsub
  refine { hs with outstanding_own := ?_, pending_own := ?_ }
  · intro q hq
    rcases h.outstanding_own q hq with ⟨rid', hrid', hown⟩
    have hne : rid' ≠ rid := by
      intro heq
      have hentry : m.ridToState rid = some own := (h.pending_own c _ hmem).1
      have hqo : q = own := by
        rw [heq, hentry] at hown
        exact (Option.some.inj hown).symm
      rw [hqo, remove_outstanding, hdone] at hq
      exact Bool.false_ne_true hq
    exact ⟨rid', hrid', by simpa [hne] using hown⟩
  · intro c' x hx
    have hne : x.1 ≠ rid := by
      intro heq
      by_cases hc : c' = c
      · subst hc
        rw [Function.update_self] at hx
        exact hfst (List.mem_map.mpr ⟨x, hx, heq⟩)
      · have hx' : x ∈ pending c' := by simpa [hc] using hx
        exact hc (h.pending_apart c' c x _ hx' hmem heq)
    have hown := hs.pending_own c' x hx
    exact ⟨by simpa [hne] using hown.1, hown.2⟩

/-- A stream takes what its object has. -/
theorem setState (h : Routing m pending) {q : ℕ} {state : ReqState ω}
    (hfin : state.finished = (m.states q).finished)
    (hev : m.outstanding q = false → state.event = true) :
    Routing (m.setState q state) pending := by
  refine { h with unanswered := ?_, answered := ?_ }
  · intro q' hq'
    by_cases hq : q' = q
    · subst hq
      simpa [hfin] using h.unanswered q' hq'
    · simpa [hq] using h.unanswered q' hq'
  · intro q' hlt hq'
    have hdone := h.answered q' hlt hq'
    by_cases hq : q' = q
    · subst hq
      exact ⟨by simpa [hfin] using hdone.1, by simpa using hev hq'⟩
    · simpa [hq] using hdone

/-- The call of a list of texts takes a result. -/
theorem visit (h : Routing m pending) {rid : String} {own : ℕ} {out : ω} {t : TokenizerManager ω}
    (hL : pending c = (rid, own) :: L) (ht : m.visit rid own = some (t, out)) :
    Routing t (Function.update pending c L) ∧ t.calls = m.calls ∧ t.numSent = m.numSent := by
  rcases visit_eq_some.mp ht with ⟨-, hfin, -, rfl⟩
  have hmem : (rid, own) ∈ pending c := by simp [hL]
  exact ⟨h.remove hmem (h.not_outstanding hfin) (by rw [hL]), rfl, rfl⟩

/-- The loop over the ids of a list of texts. -/
theorem collect (h : Routing m pending) {rids : List String} {own : ℕ}
    (hL : pending c = rids.zipIdx own) (outputList : List ω) :
    Routing (collect rids own outputList m).1
        (Function.update pending c (collect rids own outputList m).2.pending) ∧
      ∀ state q, (collect rids own outputList m).2.awaits = some (state, q) →
        state = q ∧ q < m.numSent := by
  induction rids generalizing m pending own outputList with
  | nil => exact ⟨h.shrink (List.nil_sublist _), by simp [TokenizerManager.collect, CallState.awaits]⟩
  | cons rid rest ih =>
      have hhead := h.pending_own c (rid, own) (by simp [hL])
      have hentry : m.ridToState rid = some own := hhead.1
      simp only [TokenizerManager.collect, hentry]
      by_cases hev : (m.states own).event = true
      · simp only [hev, if_true]
        cases hvisit : m.visit rid own with
        | none => exact ⟨h.shrink (List.nil_sublist _), by simp [CallState.awaits]⟩
        | some r =>
            rcases h.visit (L := rest.zipIdx (own + 1)) hL hvisit with ⟨hr, -, hnum⟩
            have hrest := ih hr (Function.update_self ..) (outputList ++ [r.2])
            rwa [Function.update_idem, hnum] at hrest
      · -- The call waits for the object of its own request.
        simp only [hev, if_false, Bool.false_eq_true]
        refine ⟨?_, ?_⟩
        · rw [show CallState.pending (.visiting rid own rest own outputList) = pending c from hL.symm,
            Function.update_eq_self]
          exact h
        · exact awaits_self hhead.2

end Routing

/-- The ids that the calls of a manager use. -/
def TokenizerManager.pending (m : TokenizerManager ω) (c : ℕ) : List (String × ℕ) :=
  (m.calls c).pending

/-- The invariant of the manager: no call waits for the object of another request. -/
structure Routes (m : TokenizerManager ω) : Prop where
  routing : Routing m m.pending
  awaits_own : ∀ c state own, (m.calls c).awaits = some (state, own) → state = own ∧ own < m.numSent

namespace Routes

variable {m : TokenizerManager ω}

theorem init : Routes (.init : TokenizerManager ω) where
  routing := by
    constructor <;> simp [TokenizerManager.init, TokenizerManager.pending, CallState.pending]
  awaits_own := by simp [TokenizerManager.init, CallState.awaits]

theorem dispatches (h : Routes m) : Dispatches m where
  alive := by
    rcases h.routing.running with hrun | ⟨hnew, -⟩
    · simp [hrun]
    · simp [hnew]
  delivered_own := h.routing.delivered_own
  woken := by
    intro c state own hawaits
    have hown := h.awaits_own c state own hawaits
    refine ⟨hown.1, ?_⟩
    cases hout : m.outstanding own with
    | true => exact Or.inl rfl
    | false => exact Or.inr (h.routing.answered own hown.2 hout).2

/-- A call has come to its next await, or to its end. -/
theorem setCall (h : Routes m) {t : TokenizerManager ω} {c : ℕ} {call : CallState ω}
    (ht : Routing t (Function.update m.pending c call.pending)) (hcalls : t.calls = m.calls)
    (hnum : m.numSent ≤ t.numSent)
    (hcall : ∀ state own, call.awaits = some (state, own) → state = own ∧ own < t.numSent)
    (nextCall : ℕ) :
    Routes { t with calls := Function.update t.calls c call, nextCall := nextCall } where
  routing := by
    have hpending : TokenizerManager.pending
        { t with calls := Function.update t.calls c call, nextCall := nextCall } =
          Function.update m.pending c call.pending := by
      ext1 c'
      by_cases hc : c' = c
      · subst hc
        simp [TokenizerManager.pending]
      · simp [TokenizerManager.pending, hc, hcalls]
    rw [hpending]
    exact ht.withCalls _ _
  awaits_own := by
    intro c' state own hawaits
    by_cases hc : c' = c
    · subst hc
      exact hcall state own (by simpa using hawaits)
    · have hown := h.awaits_own c' state own (by simpa [hc, hcalls] using hawaits)
      exact ⟨hown.1, hown.2.trans_le hnum⟩

/-- A call ends. -/
theorem endCall (h : Routes m) {t : TokenizerManager ω} {c : ℕ} {call : CallState ω}
    (ht : Routing t (Function.update m.pending c [])) (hcalls : t.calls = m.calls)
    (hnum : m.numSent ≤ t.numSent) (hcall : call.pending = []) (hawaits : call.awaits = none)
    (nextCall : ℕ) :
    Routes { t with calls := Function.update t.calls c call, nextCall := nextCall } :=
  h.setCall (by rwa [hcall]) hcalls hnum (by simp [hawaits]) nextCall

/-- **A call that goes on** takes its own result, and removes its own id. -/
theorem resumeCall (h : Routes m) {c : ℕ} {t : TokenizerManager ω} (ht : m.resumeCall c = some t) :
    Routes t := by
  cases resumed_of_resumeCall ht with
  | raised => exact h.endCall (h.routing.shrink (List.nil_sublist _)) rfl le_rfl rfl rfl _
  | @awake rid own stream out hcall =>
      cases stream with
      | false => exact h.endCall (h.routing.shrink (List.nil_sublist _)) rfl le_rfl rfl rfl _
      | true =>
          have hsub : (CallState.suspended (ω := ω) rid own).pending.Sublist (m.pending c) := by
            simp [TokenizerManager.pending, hcall, CallState.pending]
          exact h.setCall (h.routing.shrink hsub) rfl le_rfl (by simp [CallState.awaits]) _
  | @ended rid own hcall hfin =>
      -- The last item: the entry of the id is its own, and nothing is on its way any more.
      have hpending : m.pending c = [(rid, own)] := by
        simp [TokenizerManager.pending, hcall, CallState.pending]
      have hown := h.routing.pending_own c (rid, own) (by simp [hpending])
      have hdone := h.routing.not_outstanding hfin
      have hstate : Routing (m.setState own { m.states own with outList := [] }) m.pending :=
        h.routing.setState rfl fun _ => (h.routing.answered own hown.2 hdone).2
      have hmem : (rid, own) ∈ m.pending c := by simp [hpending]
      have hremove := hstate.remove (L := []) hmem hdone (by simp [hpending])
      exact h.endCall hremove rfl le_rfl rfl rfl _
  | @lost rid own hcall hentry =>
      have hown := h.routing.pending_own c (rid, own)
        (by simp [TokenizerManager.pending, hcall, CallState.pending])
      rw [hentry] at hown
      cases hown.1
  | @emptied rid own hcall hfin =>
      -- The event is cleared while the request is still to be answered.
      have hpending : m.pending c = [(rid, own)] := by
        simp [TokenizerManager.pending, hcall, CallState.pending]
      have hown := h.routing.pending_own c (rid, own) (by simp [hpending])
      have hstate : Routing (m.setState own { m.states own with outList := [], event := false })
          m.pending :=
        h.routing.setState rfl fun hdone => absurd (h.routing.answered own hown.2 hdone).1 hfin
      have hsub : (CallState.waiting (ω := ω) rid own true).pending.Sublist (m.pending c) := by
        simp [hpending, CallState.pending]
      exact h.setCall (hstate.shrink hsub) rfl le_rfl (awaits_self hown.2) _
  | @collected rid state rest own outputList u out hcall hvisit =>
      have hstate : state = own := (h.awaits_own c state own (by simp [hcall, CallState.awaits])).1
      have hpending : m.pending c = (rid, own) :: rest.zipIdx (own + 1) := by
        simp [TokenizerManager.pending, hcall, CallState.pending]
      rw [hstate] at hvisit
      rcases h.routing.visit hpending hvisit with ⟨hr, hcalls, hnum⟩
      rcases hr.collect (Function.update_self ..) (outputList ++ [out]) with ⟨hrouting, hawaits⟩
      rw [Function.update_idem] at hrouting
      exact h.setCall hrouting (by rw [collect_calls, hcalls]) (by rw [collect_numSent, hnum])
        (by rwa [collect_numSent]) _

theorem closeCall (h : Routes m) {c : ℕ} {t : TokenizerManager ω} (ht : m.closeCall c = some t) :
    Routes t := by
  rw [closeCall_eq ht]
  exact h.endCall (h.routing.shrink (List.nil_sublist _)) rfl le_rfl rfl rfl m.nextCall

theorem receive (h : Routes m) {answers : List (Answer ω)} {t : TokenizerManager ω}
    (ht : m.receive answers = some t) : Routes t := by
  rcases h.routing.receive ht with ⟨hrouting, hcalls, hnum⟩
  constructor
  · have hpending : t.pending = m.pending := by
      ext1 c
      simp [TokenizerManager.pending, hcalls]
    rw [hpending]
    exact hrouting
  · rw [hcalls, hnum]
    exact h.awaits_own

theorem createLoop (h : Routes m) : Routes m.createLoop where
  routing := h.routing.createLoop.1
  awaits_own := h.awaits_own

/-- A call that sends nothing more, and ends. -/
theorem startRaised (h : Routes m) : Routes (m.start .raised) :=
  h.endCall (h.routing.shrink (List.nil_sublist _)) rfl le_rfl rfl rfl _

/-- The requests of a new call are sent. -/
theorem sent (h : Routes m) (hloop : m.loop = .running) {rids : List String} (hnodup : rids.Nodup)
    (hfree : ∀ rid ∈ rids, Free m rid) :
    Routing (rids.foldl register m)
      (Function.update m.pending m.nextCall (rids.zipIdx m.numSent)) := by
  have hnone := h.routing.shrink (c := m.nextCall) (L := []) (List.nil_sublist _)
  have hsent := hnone.registerAll (c := m.nextCall) hloop hnodup (fun rid hr => (hfree rid hr).1) ?_
  · simpa using hsent
  · intro rid hr c hmem
    by_cases hc : c = m.nextCall
    · subst hc
      simp at hmem
    · exact (hfree rid hr).2 c (by simpa [hc, TokenizerManager.pending] using hmem)

theorem startList (h : Routes m) (hloop : m.loop = .running) {rids : List String}
    (hnodup : rids.Nodup) (hfree : ∀ rid ∈ rids, Free m rid) (numTexts : ℕ) :
    Routes (m.startList rids numTexts) := by
  have hsent := h.sent hloop hnodup hfree
  unfold TokenizerManager.startList
  split_ifs with hlen
  · have hnone := hsent.shrink (c := m.nextCall) (L := []) (List.nil_sublist _)
    rw [Function.update_idem, ← foldl_register_nextCall m rids] at hnone
    exact h.endCall hnone (by simp) (by simp) rfl rfl _
  · rcases hsent.collect (c := m.nextCall) (Function.update_self ..) [] with
      ⟨hrouting, hawaits⟩
    rw [Function.update_idem, ← foldl_register_nextCall m rids, ← collect_nextCall] at hrouting
    exact h.setCall hrouting (by simp) (by simp) (by rwa [collect_numSent]) _

/-- A single text is sent. -/
theorem startSingle (h : Routes m) (hloop : m.loop = .running) {rid : String} (hfree : Free m rid)
    (stream : Bool) : Routes ((m.register rid).start (.waiting rid m.numSent stream)) := by
  have hsent := h.sent hloop (List.nodup_singleton rid) (by simpa using hfree)
  have hrouting : Routing (m.register rid) (Function.update m.pending m.nextCall
      (CallState.waiting (ω := ω) rid m.numSent stream).pending) := by
    cases stream with
    | true => exact hsent
    | false => simpa [CallState.pending] using hsent.shrink (c := m.nextCall) (List.nil_sublist _)
  exact h.setCall hrouting rfl (by simp) (awaits_self (by simp)) _

/-- **A call that brings fresh ids.** -/
theorem generateRequest (h : Routes m) {call : GenerateCall} (hfresh : Fresh m (.generate call)) :
    Routes (m.generateRequest call) := by
  have hcreated := h.createLoop
  have hloop := h.routing.createLoop.2
  rcases hfresh with ⟨hnodup, hfree⟩
  have hstart : ∀ (rids : List String) (numTexts : ℕ), call.sentRids = rids.map .str →
      Routes (m.createLoop.startList rids numTexts) := by
    intro rids numTexts hsent
    rw [hsent] at hnodup hfree
    refine hcreated.startList hloop (hnodup.of_map _) ?_ numTexts
    intro rid hr
    rcases hfree (.str rid) (List.mem_map_of_mem hr) with ⟨r, heq, hr⟩
    cases heq
    exact hr
  cases call with
  | single rid stream prepared =>
      cases prepared with
      | false => exact hcreated.startRaised
      | true =>
          rcases hfree rid (by simp [GenerateCall.sentRids]) with ⟨r, rfl, hr⟩
          exact hcreated.startSingle hloop hr stream
  | batch rids numTexts prepared =>
      cases prepared with
      | false => exact hcreated.startRaised
      | true => exact hstart (rids.take numTexts) numTexts rfl
  | list rids numTexts prepared => exact hstart (rids.take (min numTexts prepared)) numTexts rfl

/-- Every step keeps the invariant. -/
theorem step (h : Routes m) {a : ManagerStep ω} {t : TokenizerManager ω} (hfresh : Fresh m a)
    (ht : managerStep m a = some t) : Routes t := by
  cases a with
  | generate call => exact Option.some.inj ht ▸ h.generateRequest hfresh
  | receive answers => exact h.receive ht
  | resume c => exact h.resumeCall ht
  | close c => exact h.closeCall ht

end Routes

theorem Routes.exec {m t : TokenizerManager ω} {steps : List (ManagerStep ω)} (h : Routes m)
    (hfresh : Along managerStep Fresh m steps) (ht : exec managerStep m steps = some t) :
    Routes t := by
  induction steps generalizing m with
  | nil =>
      cases ht
      exact h
  | cons a steps ih =>
      rcases Option.bind_eq_some_iff.mp ht with ⟨u, hu, ht⟩
      exact ih (h.step hfresh.1 hu) (hfresh.2 u hu) ht

/-- **Fresh ids keep the dispatcher alive.** In every run whose calls bring ids that are not
in use, every result finds the object of its request, and every call that waits is woken by
its own. -/
theorem managerRun_dispatches {steps : List (ManagerStep ω)} {m : TokenizerManager ω}
    (hfresh : Along managerStep Fresh .init steps) (hm : exec managerStep .init steps = some m) :
    Dispatches m :=
  (Routes.init.exec hfresh hm).dispatches

/-- Two clients, a list of texts and a stream. -/
def twoClients : List (ManagerStep String) :=
  [.generate (.batch ["a", "b"] 2 true), .generate (.single (.str "c") true true),
    .receive [⟨1, "y", true⟩, ⟨2, "z", false⟩], .resume 1, .receive [⟨0, "x", true⟩], .resume 0]

theorem managerRun_dispatches_twoClients :
    ∃ m, exec managerStep .init twoClients = some m ∧ Dispatches m := by
  refine ⟨_, rfl, managerRun_dispatches (?_ : Along managerStep Fresh .init twoClients) rfl⟩
  refine ⟨⟨by decide, ?_⟩, ?_⟩
  · intro rid hr
    have hrid : rid = .str "a" ∨ rid = .str "b" := by simpa [GenerateCall.sentRids] using hr
    rcases hrid with rfl | rfl
    · exact ⟨"a", rfl, by simp [Free, TokenizerManager.init, CallState.pending]⟩
    · exact ⟨"b", rfl, by simp [Free, TokenizerManager.init, CallState.pending]⟩
  · intro t ht
    cases ht
    refine ⟨⟨by decide, ?_⟩, ?_⟩
    · intro rid hr
      have hrid : rid = .str "c" := by simpa [GenerateCall.sentRids] using hr
      refine ⟨"c", hrid, ?_, ?_⟩
      · intro q _
        match q with
        | 0 => decide
        | 1 => decide
        | q + 2 =>
            simp [TokenizerManager.generateRequest, TokenizerManager.startList,
              TokenizerManager.init]
      · intro c
        by_cases hc : c = 0
        · subst hc
          decide
        · simp [TokenizerManager.generateRequest, TokenizerManager.startList, TokenizerManager.init,
            CallState.pending, hc]
    · intro t _
      simp [Fresh]

/-- One list of texts with an id twice. The first answer reaches the object of the second
request, and the second answer finds none. -/
theorem managerRun_dispatches_sameRid :
    ¬ ∀ (steps : List (ManagerStep String)) (m : TokenizerManager String),
      exec managerStep .init steps = some m → Dispatches m := by
  intro h
  have hrun : exec managerStep .init [.generate (.batch ["a", "a"] 2 true), .receive [⟨0, "x", true⟩],
      .resume 0, .receive [⟨1, "y", true⟩]] = some (_ : TokenizerManager String) := rfl
  exact (h _ _ hrun).alive rfl

end HarvestMoE
