import HarvestMoE.RegisteredRequests
import HarvestMoE.StreamChunks

/-!
# Results keep their ids

`handle_loop` puts a result into the object it finds under the id, and a call takes results from
the objects it finds under its own ids. So whatever is known of every result and the id of its
request holds of what the calls give out and their ids, also where ids are used twice
(`ServedOwn.step`).

## Main definitions

* `ResultsOwn` — the results in the objects are of their ids.
* `CallOwn` — what a call has collected is of its ids.
* `ServedOwn` — both, for all calls.
-/

namespace HarvestMoE

open Lib TokenizerManager

variable {ω : Type*} {P : String → ω → Prop}

/-- The results in the object of a request are of the id it was sent with. -/
structure ResultsOwn (P : String → ω → Prop) (m : TokenizerManager ω) : Prop where
  known : Known m
  out_own : ∀ rid q, m.Sent rid q → ∀ out ∈ (m.states q).outList, P rid out
  unsent_nil : ∀ q, m.numSent ≤ q → (m.states q).outList = []

/-- A call has one result for each id that it has passed, and waits for the object of a request
with the next one. -/
def CallOwn (P : String → ω → Prop) (m : TokenizerManager ω) (rids : List String) :
    CallState ω → Prop
  | .waiting rid own _ | .suspended rid own => rids = [rid] ∧ m.Sent rid own
  | .visiting rid state rest _ outputList =>
      m.Sent rid state ∧ ∃ passed, rids = passed ++ rid :: rest ∧ List.Forall₂ P passed outputList
  | .yielded outputList => List.Forall₂ P rids outputList
  | .raised | .closed => True

section Manager

variable {m t : TokenizerManager ω} {rids : List String}

theorem CallOwn.mono {state : CallState ω} (h : CallOwn P m rids state)
    (hsent : ∀ rid q, m.Sent rid q → t.Sent rid q) : CallOwn P t rids state := by
  cases state with
  | waiting rid own stream => exact ⟨h.1, hsent _ _ h.2⟩
  | suspended rid own => exact ⟨h.1, hsent _ _ h.2⟩
  | visiting rid state rest own outputList => exact ⟨hsent _ _ h.1, h.2⟩
  | yielded outputList => exact h
  | raised => trivial
  | closed => trivial

namespace ResultsOwn

theorem createLoop (h : ResultsOwn P m) : ResultsOwn P m.createLoop :=
  ⟨(GoesOn.refl h.known).createLoop.known, h.out_own, h.unsent_nil⟩

/-- A new request has an object without results. -/
theorem send (h : ResultsOwn P m) (rid : RidArg) : ResultsOwn P (m.send rid) := by
  refine ⟨((GoesOn.refl h.known).send rid).known, fun r q hq out hout => ?_, fun q hq => ?_⟩
  · by_cases hqn : q = m.numSent
    · rw [send_states, h.unsent_nil q hqn.ge] at hout
      cases hout
    · have hlt : q < m.numSent := lt_of_le_of_ne (Nat.lt_succ_iff.mp (by simpa using hq.1)) hqn
      exact h.out_own r q ⟨hlt, by simpa [hqn] using hq.2⟩ out hout
  · exact h.unsent_nil q (Nat.le_of_succ_le (by simpa using hq))

theorem register (h : ResultsOwn P m) (rid : String) : ResultsOwn P (m.register rid) := by
  have hsend := h.send (.str rid)
  refine ⟨((GoesOn.refl h.known).register rid).known, fun r q hq out hout => ?_, fun q hq => ?_⟩
  · by_cases hqn : q = m.numSent
    · simp [hqn] at hout
    · exact hsend.out_own r q hq out (by simpa [hqn] using hout)
  · have hqn : q ≠ m.numSent := (Nat.lt_of_succ_le (by simpa using hq)).ne'
    simpa [hqn] using hsend.unsent_nil q hq

theorem registerAll (h : ResultsOwn P m) (rids : List String) :
    ResultsOwn P (rids.foldl TokenizerManager.register m) := by
  induction rids generalizing m with
  | nil => exact h
  | cons rid rest ih => exact ih (h.register rid)

theorem remove (h : ResultsOwn P m) (rid : String) : ResultsOwn P (m.remove rid) :=
  ⟨((GoesOn.refl h.known).remove rid).known, h.out_own, h.unsent_nil⟩

theorem setCall (h : ResultsOwn P m) (calls : ℕ → CallState ω) (nextCall : ℕ) :
    ResultsOwn P { m with calls := calls, nextCall := nextCall } :=
  ⟨⟨h.known.entries, h.known.outstanding_lt, h.known.delivered_lt⟩, h.out_own, h.unsent_nil⟩

/-- A stream empties its object. -/
theorem empty (h : ResultsOwn P m) (q : ℕ) (state : ReqState ω) (hnil : state.outList = []) :
    ResultsOwn P (m.setState q state) := by
  refine ⟨((GoesOn.refl h.known).setState q state).known, fun r p hp out hout => ?_, fun p hp => ?_⟩
  · by_cases hpq : p = q
    · simp [hpq, hnil] at hout
    · exact h.out_own r p hp out (by simpa [hpq] using hout)
  · by_cases hpq : p = q
    · simp [hpq, hnil]
    · simpa [hpq] using h.unsent_nil p hp

/-- A result comes into an object of its id. -/
theorem deliver (h : ResultsOwn P m) {a : Answer ω}
    (hown : ∀ rid, m.rids a.request = .str rid → P rid a.out) (ht : m.deliver a = some t) :
    ResultsOwn P t ∧ t.rids = m.rids := by
  have hknown := h.known.deliver ht
  rcases deliver_cases ht with ⟨-, ⟨loop, rfl⟩ | ⟨rid, q, hrid, hentry, rfl⟩⟩
  · exact ⟨⟨hknown, h.out_own, h.unsent_nil⟩, rfl⟩
  · have hsent := h.known.entries rid q hentry
    refine ⟨⟨hknown, fun r p hp out hout => ?_, fun p hp => ?_⟩, rfl⟩
    · by_cases hpq : p = q
      · subst hpq
        obtain rfl : r = rid := RidArg.str.inj (hp.2.symm.trans hsent.2)
        rw [setState_states, Function.update_self] at hout
        rcases List.mem_append.mp hout with hout | hout
        · exact h.out_own r p hsent out hout
        · obtain rfl := List.mem_singleton.mp hout
          exact hown r hrid
      · exact h.out_own r p hp out (by simpa [hpq] using hout)
    · have hpq : p ≠ q := (hsent.1.trans_le hp).ne'
      simpa [hpq] using h.unsent_nil p hp

theorem receive (h : ResultsOwn P m) {answers : List (Answer ω)}
    (hown : ∀ a ∈ answers, ∀ rid, m.rids a.request = .str rid → P rid a.out)
    (ht : m.receive answers = some t) : ResultsOwn P t := by
  refine (exec_preserves (I := fun u => ResultsOwn P u ∧ u.rids = m.rids)
    (fun u a ha v hu hv => ?_) ⟨h, rfl⟩ ht).1
  have hv := hu.1.deliver (fun rid hrid => hown a ha rid (hu.2 ▸ hrid)) hv
  exact ⟨hv.1, hv.2.trans hu.2⟩

/-- **The loop over the ids takes results of its ids.** -/
theorem collect (h : ResultsOwn P m) {passed : List String} {outputList : List ω}
    (houtput : List.Forall₂ P passed outputList) (rest : List String) (own : ℕ) :
    ResultsOwn P (collect rest own outputList m).1 ∧
      CallOwn P (collect rest own outputList m).1 (passed ++ rest)
        (collect rest own outputList m).2 := by
  induction rest generalizing m passed outputList own with
  | nil =>
      rw [List.append_nil]
      exact ⟨h, houtput⟩
  | cons rid rest ih =>
      cases hentry : m.ridToState rid with
      | none =>
          simp only [TokenizerManager.collect, hentry]
          exact ⟨h, trivial⟩
      | some state =>
          have hsent := h.known.entries rid state hentry
          cases hev : (m.states state).event with
          | false =>
              simp only [TokenizerManager.collect, hentry, hev, Bool.false_eq_true, if_false]
              exact ⟨h, hsent, passed, rfl, houtput⟩
          | true =>
              cases hvisit : m.visit rid state with
              | none =>
                  simp only [TokenizerManager.collect, hentry, hev, hvisit, if_true]
                  exact ⟨h, trivial⟩
              | some r =>
                  simp only [TokenizerManager.collect, hentry, hev, hvisit, if_true]
                  rcases visit_eq_some.mp hvisit with ⟨hlast, -, -, hr⟩
                  have hout := h.out_own rid state hsent r.2 (List.mem_of_getLast? hlast)
                  have hpassed : List.Forall₂ P (passed ++ [rid]) (outputList ++ [r.2]) :=
                    List.rel_append houtput (.cons hout .nil)
                  have hrest := ih (hr ▸ h.remove rid) hpassed (own + 1)
                  rwa [List.append_assoc, List.singleton_append] at hrest

/-- The call that is started. -/
theorem start_self {u : TokenizerManager ω} (hnext : u.nextCall = m.nextCall)
    (call : CallState ω) : (u.start call).calls m.nextCall = call := by
  simp [← hnext]

/-- A call starts with its own ids. -/
theorem generateRequest (h : ResultsOwn P m) (call : GenerateCall) :
    ResultsOwn P (m.generateRequest call) ∧ ∀ rids, call.sentRids = rids.map .str →
      CallOwn P (m.generateRequest call) rids ((m.generateRequest call).calls m.nextCall) := by
  have hraised : ∀ {u : TokenizerManager ω}, ResultsOwn P u → u.nextCall = m.nextCall →
      ResultsOwn P (u.start .raised) ∧ ∀ rids, call.sentRids = rids.map .str →
        CallOwn P (u.start .raised) rids ((u.start .raised).calls m.nextCall) := by
    intro u hu hnext
    refine ⟨hu.setCall _ _, fun rids _ => ?_⟩
    rw [start_self hnext]
    trivial
  have hlist : ∀ sent : List String, call.sentRids = sent.map .str → ∀ numTexts,
      ResultsOwn P (m.createLoop.startList sent numTexts) ∧
        ∀ rids, call.sentRids = rids.map .str →
          CallOwn P (m.createLoop.startList sent numTexts) rids
            ((m.createLoop.startList sent numTexts).calls m.nextCall) := by
    intro sent hsent numTexts
    have hu := h.createLoop.registerAll sent
    unfold TokenizerManager.startList
    split_ifs with hlen
    · exact hraised hu (by simp)
    · have hcollect := hu.collect .nil sent m.createLoop.numSent
      refine ⟨hcollect.1.setCall _ _, fun rids hrids => ?_⟩
      obtain rfl : sent = rids :=
        List.map_injective_iff.mpr (fun _ _ => RidArg.str.inj) (hsent.symm.trans hrids)
      rw [start_self (by simp)]
      exact hcollect.2.mono fun _ _ hq => hq
  cases call with
  | single arg stream prepared =>
      cases prepared with
      | false => exact hraised h.createLoop rfl
      | true =>
          cases arg with
          | list l => exact hraised (h.createLoop.send _) rfl
          | str rid =>
              refine ⟨(h.createLoop.register rid).setCall _ _, fun rids hrids => ?_⟩
              obtain rfl : [rid] = rids :=
                List.map_injective_iff.mpr (fun _ _ => RidArg.str.inj) hrids
              simp [TokenizerManager.generateRequest, CallOwn, TokenizerManager.Sent]
  | batch sent numTexts prepared =>
      cases prepared with
      | false => exact hraised h.createLoop rfl
      | true => exact hlist _ rfl numTexts
  | list sent numTexts prepared => exact hlist _ rfl numTexts

omit P in
/-- A call that wakes takes a result of its object. -/
theorem resumeCall_waiting {c : ℕ} {rid : String} {own : ℕ} {stream : Bool}
    (hat : m.calls c = .waiting rid own stream) (ht : m.resumeCall c = some t) :
    t = m.setCall c .raised ∨ ∃ out ∈ (m.states own).outList,
      t = m.setCall c (if stream then .suspended rid own else .yielded [out]) := by
  cases hev : (m.states own).event with
  | false => simp [TokenizerManager.resumeCall, hat, hev] at ht
  | true =>
      simp only [TokenizerManager.resumeCall, hat, hev, if_true] at ht
      cases hlast : (m.states own).outList.getLast? with
      | none =>
          simp only [hlast, Option.some.injEq] at ht
          exact Or.inl ht.symm
      | some out =>
          simp only [hlast, Option.some.injEq] at ht
          exact Or.inr ⟨out, List.mem_of_getLast? hlast, ht.symm⟩

/-- A call that goes on moves no results. -/
theorem resumeCall (h : ResultsOwn P m) {c : ℕ} (ht : m.resumeCall c = some t) :
    ResultsOwn P t := by
  cases resumed_of_resumeCall ht with
  | raised => exact h.setCall _ _
  | awake out hat => exact h.setCall _ _
  | ended hat hfin => exact ((h.empty _ _ rfl).remove _).setCall _ _
  | lost hat hentry => exact (h.empty _ _ rfl).setCall _ _
  | emptied hat hfin => exact (h.empty _ _ rfl).setCall _ _
  | collected hat hvisit =>
      rcases visit_eq_some.mp hvisit with ⟨-, -, -, rfl⟩
      exact (collect_preserves _ (fun _ rid _ hu => hu.remove rid) (h.remove _)).setCall _ _

/-- It keeps to its ids. -/
theorem resumeCall_own (h : ResultsOwn P m) {c : ℕ} (hcall : CallOwn P m rids (m.calls c))
    (ht : m.resumeCall c = some t) : CallOwn P t rids (t.calls c) := by
  have hstop : ∀ {u : TokenizerManager ω} {next : CallState ω}, CallOwn P u rids next →
      CallOwn P (u.setCall c next) rids ((u.setCall c next).calls c) := by
    intro u next hnext
    rw [setCall_calls, Function.update_self]
    exact hnext.mono fun _ _ hq => hq
  cases resumed_of_resumeCall ht with
  | raised => exact hstop trivial
  | @awake rid own stream out hat =>
      rw [hat] at hcall
      rcases resumeCall_waiting hat ht with heq | ⟨out', hout, heq⟩
      · rw [heq]
        exact hstop trivial
      · rw [heq]
        cases stream with
        | true => exact hstop hcall
        | false =>
            have hown := h.out_own rid own hcall.2 out' hout
            exact hstop (hcall.1 ▸ .cons hown .nil)
  | ended hat hfin => exact hstop trivial
  | lost hat hentry => exact hstop trivial
  | @emptied rid own hat hfin =>
      rw [hat] at hcall
      have hwaits : CallOwn P (m.setState own { m.states own with outList := [], event := false })
          rids (.waiting rid own true) := hcall
      exact hstop hwaits
  | @collected rid state rest own outputList u out hat hvisit =>
      rw [hat] at hcall
      obtain ⟨hsent, passed, rfl, houtput⟩ := hcall
      rcases visit_eq_some.mp hvisit with ⟨hlast, -, -, rfl⟩
      have hout := h.out_own rid state hsent out (List.mem_of_getLast? hlast)
      have hpassed : List.Forall₂ P (passed ++ [rid]) (outputList ++ [out]) :=
        List.rel_append houtput (.cons hout .nil)
      have hcollect := (h.remove rid).collect hpassed rest (own + 1)
      rw [List.append_assoc, List.singleton_append] at hcollect
      exact hstop hcollect.2

end ResultsOwn

end Manager

section Run

/-- All results and all calls are of their ids. -/
structure ServedOwn (P : String → ω → Prop) (s : Served ω) : Prop where
  results_own : ResultsOwn P s.manager
  call_own : ∀ c call, s.calls c = some call → ∀ rids, call.sentRids = rids.map .str →
    CallOwn P s.manager rids (s.manager.calls c)

/-- Results come with what is known of the ids of their requests. -/
def BringsOwn (P : String → ω → Prop) (m : TokenizerManager ω) : ManagerStep ω → Prop
  | .receive answers => ∀ a ∈ answers, ∀ rid, m.rids a.request = .str rid → P rid a.out
  | _ => True

namespace ServedOwn

theorem init : ServedOwn P (.init : Served ω) where
  results_own := ⟨Tracked.init.known, by simp [Served.init, TokenizerManager.init],
    by simp [Served.init, TokenizerManager.init]⟩
  call_own := fun _ _ h => by cases h

variable {s t : Served ω}

/-- **What a step preserves.** -/
theorem step (h : ServedOwn P s) {a : ManagerStep ω} (hown : BringsOwn P s.manager a)
    (ht : servedStep s a = some t) : ServedOwn P t := by
  have hknown := h.results_own.known
  obtain ⟨m, hm, rfl⟩ := Option.map_eq_some_iff.mp ht
  cases a with
  | generate call =>
      obtain rfl := Option.some.inj hm
      have hnew := h.results_own.generateRequest call
      refine ⟨hnew.1, fun c call' hc rids hrids => ?_⟩
      by_cases hne : c = s.manager.nextCall
      · subst hne
        obtain rfl : call = call' := by simpa using hc
        exact hnew.2 rids hrids
      · have hold := h.call_own c call' (by simpa [hne] using hc) rids hrids
        rw [← (generateRequest_starts s.manager call).calls c hne] at hold
        refine hold.mono fun rid q hq => ?_
        obtain ⟨u, next, hu, hsends⟩ := generateRequest_cases s.manager call
        dsimp only
        rw [hu]
        exact (hsends.goesOn hknown).sent rid q hq
  | receive answers =>
      refine ⟨h.results_own.receive hown hm, fun c call hc rids hrids => ?_⟩
      have hold := h.call_own c call hc rids hrids
      rcases receive_frame hm with ⟨loop, states, outstanding, delivered, rfl⟩
      exact hold.mono fun _ _ hq => hq
  | resume c =>
      refine ⟨h.results_own.resumeCall hm, fun c' call hc rids hrids => ?_⟩
      have hold := h.call_own c' call hc rids hrids
      by_cases hne : c' = c
      · subst hne
        exact h.results_own.resumeCall_own hold hm
      · rcases resumeCall_cases hm with ⟨u, next, rfl, htakes⟩
        have hgoes := htakes.goesOn hknown
        have hkeep := hold.mono (t := u.setCall c next) fun rid q hq => hgoes.sent rid q hq
        simpa [hne, hgoes.calls] using hkeep
  | close c =>
      rcases closeCall_eq hm with rfl
      refine ⟨h.results_own.setCall _ _, fun c' call hc rids hrids => ?_⟩
      have hold := h.call_own c' call hc rids hrids
      by_cases hne : c' = c
      · simp [hne, CallOwn]
      · have hkeep := hold.mono (t := s.manager.setCall c .closed) fun _ _ hq => hq
        simpa [hne] using hkeep

/-- What a stream gives out next is of its id. -/
theorem chunk_own (h : ServedOwn P s) {c : ℕ} {call : GenerateCall} (hcall : s.calls c = some call)
    {rids : List String} (hrids : call.sentRids = rids.map .str) {out : ω}
    (hchunk : s.manager.chunk c = some out) : List.Forall₂ P rids [out] := by
  have hown := h.call_own c call hcall rids hrids
  unfold TokenizerManager.chunk at hchunk
  split at hchunk
  · rename_i rid own stream hat
    rw [hat] at hown
    have hout := h.results_own.out_own rid own hown.2 out (List.mem_of_getLast? hchunk)
    exact hown.1 ▸ .cons hout .nil
  · cases hchunk

/-- What a call yields is one result for each of its ids, of this id. -/
theorem yielded_own (h : ServedOwn P s) {c : ℕ} {call : GenerateCall}
    (hcall : s.calls c = some call) {rids : List String} (hrids : call.sentRids = rids.map .str)
    {outputList : List ω} (hyielded : s.manager.calls c = .yielded outputList) :
    List.Forall₂ P rids outputList := by
  have hown := h.call_own c call hcall rids hrids
  rwa [hyielded] at hown

end ServedOwn

end Run

end HarvestMoE
