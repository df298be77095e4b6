import HarvestMoE.Footprint
import Mathlib.Algebra.GroupWithZero.Nat
import Mathlib.Data.List.Perm.Subperm

/-!
# Requests that stay registered

`generate_request` removes the id of a single text behind its `yield`. A stream is asked for
items to the end and gets there. Without `stream` the endpoint asks for one item only, so the
id stays in `rid_to_state` when the response has long been sent. The ids of a list of texts are
removed before the `yield`. So what stays registered of the answered calls are the ids of single
texts without `stream` (`answered_unregistered_iff`).

## Main definitions

* `Served`, `servedStep` — the manager, its calls by their numbers, and which are answered.
* `GenerateCall.asksOnce` — a single text without `stream`.
* `BringsNewRids` — a call brings ids that no call before it brought.
* `NoneRegistered` — answered calls have no id in the dictionary.
* `Settled`, `Accounted` — the ids that calls still have there.
-/

namespace HarvestMoE

open Lib TokenizerManager

variable {ω : Type*}

/-- The ids of a call, also those that it does not come to send. -/
def GenerateCall.allRids : GenerateCall → List String
  | .single (.str rid) _ _ => [rid]
  | .single (.list rids) _ _ | .batch rids _ _ | .list rids _ _ => rids

/-- The endpoint asks for the first item only. -/
def GenerateCall.asksOnce : GenerateCall → Bool
  | .single _ stream _ => !stream
  | _ => false

theorem GenerateCall.mem_allRids {call : GenerateCall} {rid : String}
    (h : .str rid ∈ call.sentRids) : rid ∈ call.allRids := by
  cases call with
  | single arg stream prepared =>
      cases prepared with
      | false => cases h
      | true =>
          obtain rfl : RidArg.str rid = arg := by simpa [GenerateCall.sentRids] using h
          exact List.mem_singleton_self rid
  | batch rids numTexts prepared =>
      cases prepared with
      | false => cases h
      | true =>
          simp only [GenerateCall.sentRids, if_true, List.mem_map, RidArg.str.injEq,
            exists_eq_right] at h
          exact List.mem_of_mem_take h
  | list rids numTexts prepared =>
      simp only [GenerateCall.sentRids, List.mem_map, RidArg.str.injEq, exists_eq_right] at h
      exact List.mem_of_mem_take h

/-- The item that the endpoint returns is there, or the stream has ended. -/
def CallState.responded : CallState ω → Bool
  | .yielded _ | .closed => true
  | _ => false

/-- The manager with its calls by their numbers. A stream that the client left is not answered. -/
structure Served (ω : Type*) where
  manager : TokenizerManager ω
  calls : ℕ → Option GenerateCall
  answered : ℕ → Bool

def Served.init : Served ω := ⟨.init, fun _ => none, fun _ => false⟩

/-- A step, and what it answers. -/
def servedStep (s : Served ω) (a : ManagerStep ω) : Option (Served ω) :=
  (managerStep s.manager a).map fun m =>
    match a with
    | .generate call =>
        let c := s.manager.nextCall
        { manager := m
          calls := Function.update s.calls c (some call)
          answered := Function.update s.answered c (m.calls c).responded }
    | .resume c =>
        { s with
          manager := m
          answered := Function.update s.answered c (m.calls c).responded }
    | _ => { s with manager := m }

/-- No call before has brought one of the ids. -/
def BringsNewRids (s : Served ω) : ManagerStep ω → Prop
  | .generate call => ∀ c call', s.calls c = some call' →
      ∀ rid ∈ call.allRids, rid ∉ call'.allRids
  | _ => True

/-- No id of an answered call is in the dictionary. -/
def NoneRegistered (s : Served ω) : Prop :=
  ∀ c call, s.calls c = some call → s.answered c = true →
    ∀ rid ∈ call.allRids, s.manager.ridToState rid = none

/-- The requests of the calls that are not answered. -/
def Served.numUnanswered (s : Served ω) : ℕ :=
  (((List.range s.manager.nextCall).filter fun c => !s.answered c).map fun c =>
    ((s.calls c).map fun call => call.sentRids.length).getD 0).sum

/-- The call has not raised, nor has its client left. -/
def CallState.Live (answered : Bool) : CallState ω → Prop
  | .raised => False
  | .closed => answered = true
  | _ => True

theorem CallState.pending_of_responded {state : CallState ω} (h : state.responded = true) :
    state.pending = [] := by
  cases state <;> simp [CallState.responded, CallState.pending] at h ⊢

/-- The ids of a call that are in the dictionary: where the endpoint asks once the id stays, and
else they are those that the call still uses. -/
structure Settled (entry : String → Option ℕ) (call : GenerateCall) (state : CallState ω)
    (answered : Bool) : Prop where
  pending : ∀ x ∈ state.pending, .str x.1 ∈ call.sentRids
  final : answered = true → state.responded = true
  once : call.asksOnce = true → state.pending = [] ∧ (state.Live answered →
    ∃ rid, call = .single (.str rid) false true ∧ (entry rid).isSome = true)
  others : call.asksOnce = false → state.Live answered →
    ∀ rid, .str rid ∈ call.sentRids → (entry rid).isSome = true → rid ∈ state.pending.map Prod.fst

section Settled

variable {entry entry' : String → Option ℕ} {call : GenerateCall} {state : CallState ω}
  {answered : Bool}

theorem Settled.congr (h : Settled entry call state answered)
    (hentry : ∀ rid, .str rid ∈ call.sentRids → entry' rid = entry rid) :
    Settled entry' call state answered where
  pending := h.pending
  final := h.final
  once := by
    intro honce
    refine ⟨(h.once honce).1, fun hlive => ?_⟩
    have ⟨rid, hcall, hsome⟩ := (h.once honce).2 hlive
    have hsent : .str rid ∈ call.sentRids := by simp [hcall, GenerateCall.sentRids]
    exact ⟨rid, hcall, by rwa [hentry rid hsent]⟩
  others := by
    intro honce hlive rid hsent hsome
    rw [hentry rid hsent] at hsome
    exact h.others honce hlive rid hsent hsome

/-- An answered call has not raised, nor has its client left it. -/
theorem Settled.live (h : Settled entry call state answered) (hans : answered = true) :
    state.Live answered := by
  have hfinal := h.final hans
  cases state <;> simp_all [CallState.responded, CallState.Live]

/-- A call that failed has given its ids up. -/
theorem settled_of_not_live (hlive : ¬ state.Live answered) (hpending : state.pending = [])
    (hfinal : answered = true → state.responded = true) : Settled entry call state answered where
  pending := by simp [hpending]
  final := hfinal
  once := fun _ => ⟨hpending, fun h => absurd h hlive⟩
  others := fun _ h => absurd h hlive

theorem settled_raised :
    Settled entry call (.raised : CallState ω) (CallState.raised : CallState ω).responded :=
  settled_of_not_live id rfl id

end Settled

section Collect

variable {m : TokenizerManager ω}

/-- The loop over the ids enters none. -/
theorem collect_entry_le (rids : List String) (own : ℕ) (outputList : List ω) {rid : String}
    (h : ((collect rids own outputList m).1.ridToState rid).isSome = true) :
    (m.ridToState rid).isSome = true := by
  revert h
  refine collect_preserves m (I := fun t => (t.ridToState rid).isSome = true →
    (m.ridToState rid).isSome = true) ?_ id
  intro t r _ ht h
  apply ht
  by_cases hr : rid = r
  · simp [hr] at h
  · simpa [hr] using h

/-- Unless it raises, it removes the ids that it does not still use. -/
theorem collect_uses (rids : List String) (own : ℕ) (outputList : List ω)
    (m : TokenizerManager ω) : (collect rids own outputList m).2 = .raised ∨
      ∀ rid ∈ rids, ((collect rids own outputList m).1.ridToState rid).isSome = true →
        rid ∈ (collect rids own outputList m).2.pending.map Prod.fst := by
  induction rids generalizing own outputList m with
  | nil => exact Or.inr (by simp)
  | cons r rest ih =>
      cases hentry : m.ridToState r with
      | none => exact Or.inl (by simp [TokenizerManager.collect, hentry])
      | some state =>
          cases hev : (m.states state).event with
          | false =>
              right
              intro rid hrid _
              simp only [TokenizerManager.collect, hentry, hev, Bool.false_eq_true, if_false,
                CallState.pending, List.zipIdx_map_fst]
              exact hrid
          | true =>
              cases hvisit : m.visit r state with
              | none => exact Or.inl (by simp [TokenizerManager.collect, hentry, hev, hvisit])
              | some v =>
                  simp only [TokenizerManager.collect, hentry, hev, hvisit, if_true]
                  rcases ih (own + 1) (outputList ++ [v.2]) v.1 with hraised | huses
                  · exact Or.inl hraised
                  · right
                    intro rid hrid hsome
                    rcases List.mem_cons.mp hrid with rfl | hrest
                    · -- The id has been removed, and does not come back.
                      have hle := collect_entry_le rest (own + 1) (outputList ++ [v.2]) hsome
                      obtain ⟨_, _, _, hv⟩ := visit_eq_some.mp hvisit
                      simp [hv] at hle
                    · exact huses rid hrest hsome

end Collect

section Calls

variable {m t : TokenizerManager ω} {call : GenerateCall} {c : ℕ} {answered : Bool}

/-- A call that removes its ids itself, at a place where it still uses those that are left. -/
theorem settled_of_uses {entry : String → Option ℕ} {state : CallState ω}
    (honce : call.asksOnce = false) (hpending : ∀ x ∈ state.pending, .str x.1 ∈ call.sentRids)
    (huses : state.Live state.responded → ∀ rid, .str rid ∈ call.sentRids →
      (entry rid).isSome = true → rid ∈ state.pending.map Prod.fst) :
    Settled entry call state state.responded where
  pending := hpending
  final := id
  once := by simp [honce]
  others := fun _ => huses

theorem Settled.asksOnce_eq_false {entry : String → Option ℕ} {state : CallState ω}
    (h : Settled entry call state answered) (hne : state.pending ≠ []) : call.asksOnce = false := by
  by_contra honce
  exact hne (h.once (by simpa using honce)).1

/-- The loop over the ids that are left, where it next stops. -/
theorem settled_collect {rids : List String} (own : ℕ) (outputList : List ω)
    (honce : call.asksOnce = false) (hmem : ∀ rid ∈ rids, .str rid ∈ call.sentRids)
    (hleft : ∀ rid, .str rid ∈ call.sentRids → (m.ridToState rid).isSome = true → rid ∈ rids) :
    Settled (collect rids own outputList m).1.ridToState call (collect rids own outputList m).2
      (collect rids own outputList m).2.responded := by
  have hcollect := collect_call rids own outputList m
  refine settled_of_uses honce (fun x hx => hmem x.1 (hcollect.1 x hx)) ?_
  intro hlive rid hrid hsome
  have hin := hleft rid hrid (collect_entry_le rids own outputList hsome)
  rcases collect_uses rids own outputList m with hraised | huses
  · rw [hraised] at hlive
    exact absurd hlive id
  · exact huses rid hin hsome

theorem settled_startList {rids : List String} (hsent : call.sentRids = rids.map .str)
    (honce : call.asksOnce = false) (numTexts : ℕ) (m : TokenizerManager ω) :
    Settled (m.startList rids numTexts).ridToState call
      ((m.startList rids numTexts).calls m.nextCall)
      ((m.startList rids numTexts).calls m.nextCall).responded := by
  have hmem : ∀ rid, RidArg.str rid ∈ call.sentRids ↔ rid ∈ rids := by simp [hsent]
  unfold TokenizerManager.startList
  split_ifs with hlen
  · simp only [start_calls, setCall_calls, foldl_register_calls, foldl_register_nextCall,
      Function.update_self]
    exact settled_raised
  · simp only [start_calls, setCall_calls, collect_nextCall, foldl_register_nextCall,
      Function.update_self]
    exact settled_collect m.numSent [] honce (fun rid => (hmem rid).mpr)
      fun rid hrid _ => (hmem rid).mp hrid

/-- Where a new call first stops. -/
theorem settled_generateRequest (m : TokenizerManager ω) (call : GenerateCall) :
    Settled (m.generateRequest call).ridToState call
      ((m.generateRequest call).calls m.nextCall)
      ((m.generateRequest call).calls m.nextCall).responded := by
  cases call with
  | single arg stream prepared =>
      cases prepared with
      | false => simpa [generateRequest] using settled_raised
      | true =>
          cases arg with
          | list rids => simpa [generateRequest] using settled_raised
          | str rid =>
              cases stream with
              | true =>
                  refine settled_of_uses rfl ?_ ?_
                  · simp [generateRequest, CallState.pending, GenerateCall.sentRids]
                  · intro _ r hr _
                    simpa [generateRequest, CallState.pending, GenerateCall.sentRids] using hr
              | false =>
                  refine ⟨?_, id, fun _ => ⟨?_, fun _ => ⟨rid, rfl, ?_⟩⟩, ?_⟩
                  · simp [generateRequest, CallState.pending]
                  · simp [generateRequest, CallState.pending]
                  · simp [generateRequest]
                  · intro honce
                    cases honce
  | batch rids numTexts prepared =>
      cases prepared with
      | false => simpa [generateRequest] using settled_raised
      | true => exact settled_startList rfl rfl numTexts m.createLoop
  | list rids numTexts prepared => exact settled_startList rfl rfl numTexts m.createLoop

/-- Where a call next stops. -/
theorem Settled.resumeCall (h : Settled m.ridToState call (m.calls c) answered)
    (ht : m.resumeCall c = some t) :
    Settled t.ridToState call (t.calls c) (t.calls c).responded := by
  cases resumed_of_resumeCall ht with
  | raised => simpa using settled_raised
  | lost hcall hentry => simpa using settled_raised
  | @awake rid own stream out hcall =>
      rw [hcall] at h
      cases stream with
      | false =>
          simp only [setCall_calls, Function.update_self, Bool.false_eq_true, if_false]
          exact ⟨h.pending, id, fun honce => ⟨rfl, fun _ => (h.once honce).2 trivial⟩,
            fun honce _ => h.others honce trivial⟩
      | true =>
          simp only [setCall_calls, Function.update_self, if_true]
          exact settled_of_uses (h.asksOnce_eq_false (by simp [CallState.pending])) h.pending
            fun _ => h.others (h.asksOnce_eq_false (by simp [CallState.pending])) trivial
  | @emptied rid own hcall hfin =>
      rw [hcall] at h
      simp only [setCall_calls, Function.update_self]
      exact settled_of_uses (h.asksOnce_eq_false (by simp [CallState.pending])) h.pending
        fun _ => h.others (h.asksOnce_eq_false (by simp [CallState.pending])) trivial
  | @ended rid own hcall hfin =>
      rw [hcall] at h
      have honce := h.asksOnce_eq_false (by simp [CallState.pending])
      simp only [setCall_calls, Function.update_self]
      refine settled_of_uses honce (by simp [CallState.pending]) fun _ r hr hsome => ?_
      -- Only its own id was left, and that has been removed.
      by_cases heq : r = rid
      · simp [heq] at hsome
      · have hleft := h.others honce trivial r hr (by simpa [heq] using hsome)
        exact absurd (by simpa [CallState.pending] using hleft) heq
  | @collected rid state rest own outputList u out hcall hvisit =>
      rw [hcall] at h
      have honce := h.asksOnce_eq_false (by simp [CallState.pending])
      obtain ⟨_, _, _, hu⟩ := visit_eq_some.mp hvisit
      have hfst : (CallState.visiting rid state rest own outputList).pending.map Prod.fst =
          rid :: rest := by simp [CallState.pending]
      have hmem : ∀ r ∈ rid :: rest, .str r ∈ call.sentRids := by
        intro r hr
        rw [← hfst] at hr
        obtain ⟨x, hx, hxr⟩ := List.mem_map.mp hr
        exact hxr ▸ h.pending x hx
      simp only [setCall_calls, Function.update_self]
      refine settled_collect (own + 1) (outputList ++ [out]) honce
        (fun r hr => hmem r (List.mem_cons_of_mem rid hr)) fun r hr hsome => ?_
      -- The id that has been removed is none of those that are left.
      have hne : r ≠ rid := by
        rintro rfl
        simp [hu] at hsome
      have hleft := h.others honce trivial r hr (by simpa [hu, hne] using hsome)
      rw [hfst] at hleft
      exact (List.mem_cons.mp hleft).resolve_left hne

end Calls

/-- The calls are where they were, and the entries of all ids but those of a request list. -/
structure TouchesOnly (sent : List RidArg) (m u : TokenizerManager ω) : Prop where
  calls : u.calls = m.calls
  nextCall : u.nextCall = m.nextCall
  entry : ∀ rid, RidArg.str rid ∉ sent → u.ridToState rid = m.ridToState rid

section Frames

variable {m u : TokenizerManager ω}

theorem Sends.touchesOnly {call : GenerateCall} {next : CallState ω} (hs : Sends m call u next) :
    TouchesOnly call.sentRids m u := by
  refine hs.keeps _ ⟨rfl, rfl, fun _ _ => rfl⟩ ?_ ?_ ?_
  · exact fun v _ _ hv => ⟨hv.calls, hv.nextCall, hv.entry⟩
  all_goals
    intro v r hr hv
    refine ⟨hv.calls, hv.nextCall, fun rid hrid => ?_⟩
    have hne : rid ≠ r := fun heq => hrid (heq ▸ hr)
    simpa [hne] using hv.entry rid hrid

theorem Takes.touchesOnly {call : GenerateCall} {state next : CallState ω}
    (hs : Takes m state u next) (hpending : ∀ x ∈ state.pending, .str x.1 ∈ call.sentRids) :
    TouchesOnly call.sentRids m u := by
  refine hs.keeps _ ⟨rfl, rfl, fun _ _ => rfl⟩ ?_
    fun v _ _ _ hv => ⟨hv.calls, hv.nextCall, hv.entry⟩
  intro v r hr hv
  have ⟨x, hx, hxr⟩ := List.mem_map.mp hr
  refine ⟨hv.calls, hv.nextCall, fun rid hrid => ?_⟩
  have hne : rid ≠ r := by
    rintro rfl
    exact hrid (hxr ▸ hpending x hx)
  simpa [hne] using hv.entry rid hrid

/-- A new call leaves the other calls where they are, and the entries of other ids. -/
structure StartsCall (m : TokenizerManager ω) (call : GenerateCall) (t : TokenizerManager ω) :
    Prop where
  nextCall : t.nextCall = m.nextCall + 1
  calls : ∀ c, c ≠ m.nextCall → t.calls c = m.calls c
  entry : ∀ rid, RidArg.str rid ∉ call.sentRids → t.ridToState rid = m.ridToState rid

theorem generateRequest_starts (m : TokenizerManager ω) (call : GenerateCall) :
    StartsCall m call (m.generateRequest call) := by
  have ⟨u, next, hu, hsends⟩ := generateRequest_cases m call
  have htouches := hsends.touchesOnly
  rw [hu]
  constructor
  case nextCall => simp [htouches.nextCall]
  case calls =>
    intro c hc
    simp [htouches.nextCall, hc, htouches.calls]
  case entry => exact htouches.entry

/-- A call that goes on enters no id. -/
theorem Takes.entry_le {state next : CallState ω} (hs : Takes m state u next) {rid : String}
    (h : (u.ridToState rid).isSome = true) : (m.ridToState rid).isSome = true := by
  revert h
  refine hs.keeps (fun u => (u.ridToState rid).isSome = true → (m.ridToState rid).isSome = true) id
    ?_ fun _ _ _ _ hv => hv
  intro v r _ hv h
  apply hv
  by_cases heq : rid = r
  · simp [heq] at h
  · simpa [heq] using h

end Frames

/-- A call with new ids is apart from all before it. -/
theorem apart_update {calls : ℕ → Option GenerateCall} {n : ℕ} {call : GenerateCall}
    (hapart : ∀ c c' a a', calls c = some a → calls c' = some a' → c ≠ c' →
      ∀ rid ∈ a.allRids, rid ∉ a'.allRids)
    (hnew : ∀ c a, calls c = some a → ∀ rid ∈ call.allRids, rid ∉ a.allRids) (c c' : ℕ)
    (a a' : GenerateCall) (hc : Function.update calls n (some call) c = some a)
    (hc' : Function.update calls n (some call) c' = some a') (hne : c ≠ c') :
    ∀ rid ∈ a.allRids, rid ∉ a'.allRids := by
  intro rid hrid hrid'
  by_cases h1 : c = n <;> by_cases h2 : c' = n
  · exact hne (h1.trans h2.symm)
  · obtain rfl : call = a := by simpa [h1] using hc
    exact hnew c' a' (by simpa [h2] using hc') rid hrid hrid'
  · obtain rfl : call = a' := by simpa [h2] using hc'
    exact hnew c a (by simpa [h1] using hc) rid hrid' hrid
  · exact hapart c c' a a' (by simpa [h1] using hc) (by simpa [h2] using hc') hne rid hrid hrid'

/-- The ids in the dictionary are those that the calls still have there. -/
structure Accounted (s : Served ω) : Prop where
  unlogged : ∀ c, s.calls c = none → s.manager.calls c = .closed
  logged_lt : ∀ c call, s.calls c = some call → c < s.manager.nextCall
  settled : ∀ c call, s.calls c = some call →
    Settled s.manager.ridToState call (s.manager.calls c) (s.answered c)
  apart : ∀ c c' call call', s.calls c = some call → s.calls c' = some call' → c ≠ c' →
    ∀ rid ∈ call.allRids, rid ∉ call'.allRids
  registered : ∀ rid, (s.manager.ridToState rid).isSome = true →
    ∃ c call, s.calls c = some call ∧ .str rid ∈ call.sentRids

namespace Accounted

variable {s : Served ω} {m : TokenizerManager ω}

theorem init : Accounted (.init : Served ω) where
  unlogged := fun _ _ => rfl
  logged_lt := fun _ _ h => by cases h
  settled := fun _ _ h => by cases h
  apart := fun _ _ _ _ h => by cases h
  registered := fun _ h => by cases h

theorem generate (h : Accounted s) {call : GenerateCall}
    (hnew : BringsNewRids s (.generate call)) {t : Served ω}
    (ht : servedStep s (.generate call) = some t) : Accounted t := by
  obtain rfl := Option.some.inj ht
  have hstarts := generateRequest_starts s.manager call
  constructor
  case unlogged =>
    intro c hc
    have hne : c ≠ s.manager.nextCall := by
      rintro rfl
      simp at hc
    dsimp only
    rw [hstarts.calls c hne]
    exact h.unlogged c (by simpa [hne] using hc)
  case logged_lt =>
    intro c call' hc
    dsimp only
    rw [hstarts.nextCall]
    by_cases hne : c = s.manager.nextCall
    · omega
    · have := h.logged_lt c call' (by simpa [hne] using hc)
      omega
  case settled =>
    intro c call' hc
    by_cases hne : c = s.manager.nextCall
    · subst hne
      obtain rfl : call = call' := by simpa using hc
      simpa using settled_generateRequest s.manager call
    · have hold : s.calls c = some call' := by simpa [hne] using hc
      simp only [hstarts.calls c hne, Function.update_of_ne hne]
      refine (h.settled c call' hold).congr fun rid hrid => hstarts.entry rid fun hsent => ?_
      exact hnew c call' hold rid (GenerateCall.mem_allRids hsent) (GenerateCall.mem_allRids hrid)
  case apart => exact apart_update h.apart hnew
  case registered =>
    intro rid hsome
    by_cases hsent : .str rid ∈ call.sentRids
    · exact ⟨s.manager.nextCall, call, by simp, hsent⟩
    · dsimp only at hsome
      rw [hstarts.entry rid hsent] at hsome
      have ⟨c, call', hc, hrid⟩ := h.registered rid hsome
      have hne : c ≠ s.manager.nextCall := (h.logged_lt c call' hc).ne
      exact ⟨c, call', by simpa [hne] using hc, hrid⟩

/-- A step of a call that was there, or of none. -/
theorem ofCall (h : Accounted s) {t : TokenizerManager ω} {answered : ℕ → Bool}
    (hnext : t.nextCall = s.manager.nextCall)
    (hclosed : ∀ c, s.calls c = none → t.calls c = .closed)
    (hentry : ∀ rid, (t.ridToState rid).isSome = true → (s.manager.ridToState rid).isSome = true)
    (hsettled : ∀ c call, s.calls c = some call →
      Settled t.ridToState call (t.calls c) (answered c)) :
    Accounted { s with manager := t, answered := answered } where
  unlogged := hclosed
  logged_lt := fun c call hc => by
    dsimp only
    rw [hnext]
    exact h.logged_lt c call hc
  settled := hsettled
  apart := h.apart
  registered := fun rid hsome => h.registered rid (hentry rid hsome)

theorem resume (h : Accounted s) {c : ℕ} {t : TokenizerManager ω}
    (ht : s.manager.resumeCall c = some t) :
    Accounted { s with
      manager := t
      answered := Function.update s.answered c (t.calls c).responded } := by
  cases hcall : s.calls c with
  | none => simp [TokenizerManager.resumeCall, h.unlogged c hcall] at ht
  | some call =>
      have hown := h.settled c call hcall
      have hself := hown.resumeCall ht
      obtain ⟨u, next, hu, htakes⟩ := resumeCall_cases ht
      have htouches := htakes.touchesOnly hown.pending
      have hother : ∀ c', c' ≠ c → t.calls c' = s.manager.calls c' := by
        intro c' hc'
        rw [hu, setCall_calls, Function.update_of_ne hc', htouches.calls]
      apply h.ofCall
      case hnext => rw [hu, setCall_nextCall, htouches.nextCall]
      case hclosed =>
        intro c' hc'
        have hne : c' ≠ c := by
          rintro rfl
          simp [hcall] at hc'
        rw [hother c' hne]
        exact h.unlogged c' hc'
      case hentry =>
        intro rid hsome
        rw [hu] at hsome
        exact htakes.entry_le hsome
      case hsettled =>
        intro c' call' hc'
        by_cases hne : c' = c
        · subst hne
          obtain rfl : call = call' := Option.some.inj (hcall.symm.trans hc')
          rwa [Function.update_self]
        · rw [hother c' hne, Function.update_of_ne hne, hu]
          refine (h.settled c' call' hc').congr fun rid hrid => htouches.entry rid fun hsent => ?_
          exact h.apart c c' call call' hcall hc' (fun heq => hne heq.symm) rid
            (GenerateCall.mem_allRids hsent) (GenerateCall.mem_allRids hrid)

theorem receive (h : Accounted s) {answers : List (Answer ω)} {t : TokenizerManager ω}
    (ht : s.manager.receive answers = some t) : Accounted { s with manager := t } := by
  have ⟨loop, states, outstanding, delivered, hframe⟩ := receive_frame ht
  subst hframe
  exact h.ofCall rfl h.unlogged (fun _ => id) h.settled

theorem close (h : Accounted s) {c : ℕ} {t : TokenizerManager ω}
    (ht : s.manager.closeCall c = some t) : Accounted { s with manager := t } := by
  have hframe := closeCall_eq ht
  subst hframe
  apply h.ofCall
  case hnext => rfl
  case hentry => exact fun _ => id
  case hclosed =>
    intro c' hc'
    by_cases hne : c' = c
    · simp [hne]
    · simpa [hne] using h.unlogged c' hc'
  case hsettled =>
    intro c' call hc'
    have hown := h.settled c' call hc'
    by_cases hne : c' = c
    · subst hne
      -- A call that its client leaves has not been answered.
      have hans : s.answered c' = false := by
        by_contra hans
        have hfinal := hown.final (by simpa using hans)
        cases hstate : s.manager.calls c' <;>
          simp [TokenizerManager.closeCall, hstate, CallState.responded] at ht hfinal
      simp only [setCall_calls, Function.update_self]
      exact settled_of_not_live (by simp [CallState.Live, hans]) rfl (by simp [hans])
    · simp only [setCall_calls, Function.update_of_ne hne]
      exact hown

/-- **What a step preserves.** -/
theorem step (h : Accounted s) {a : ManagerStep ω} (hnew : BringsNewRids s a) {t : Served ω}
    (ht : servedStep s a = some t) : Accounted t := by
  have ⟨m, hm, hserved⟩ := Option.map_eq_some_iff.mp ht
  subst hserved
  cases a with
  | generate call => exact h.generate hnew ht
  | receive answers => exact h.receive hm
  | resume c => exact h.resume hm
  | close c => exact h.close hm

theorem exec {t : Served ω} {steps : List (ManagerStep ω)} (h : Accounted s)
    (hnew : Along servedStep BringsNewRids s steps) (ht : exec servedStep s steps = some t) :
    Accounted t := by
  induction steps generalizing s with
  | nil =>
      cases ht
      exact h
  | cons a steps ih =>
      have ⟨u, hu, ht⟩ := Option.bind_eq_some_iff.mp ht
      exact ih (h.step hnew.1 hu) (hnew.2 u hu) ht

/-- An answered call that asked to the end has no id in the dictionary. -/
theorem entry_eq_none (h : Accounted s) {c : ℕ} {call : GenerateCall}
    (hcall : s.calls c = some call) (hans : s.answered c = true) (honce : call.asksOnce = false)
    {rid : String} (hsent : .str rid ∈ call.sentRids) : s.manager.ridToState rid = none := by
  have hown := h.settled c call hcall
  by_contra hsome
  have hleft := hown.others honce (hown.live hans) rid hsent (by simpa [Option.isSome_iff_ne_none])
  rw [CallState.pending_of_responded (hown.final hans)] at hleft
  cases hleft

theorem noneRegistered_iff (h : Accounted s) : NoneRegistered s ↔
    ∀ c call, s.calls c = some call → s.answered c = true → call.asksOnce = false := by
  constructor
  · intro hnone c call hcall hans
    by_contra honce
    have hown := h.settled c call hcall
    have ⟨rid, hsingle, hsome⟩ := (hown.once (by simpa using honce)).2 (hown.live hans)
    have hentry := hnone c call hcall hans rid (by simp [hsingle, GenerateCall.allRids])
    simp [hentry] at hsome
  · intro honce c call hcall hans rid hrid
    by_contra hsome
    have ⟨c', call', hcall', hsent⟩ := h.registered rid (by simpa [Option.isSome_iff_ne_none])
    by_cases hne : c = c'
    · subst hne
      obtain rfl : call = call' := Option.some.inj (hcall.symm.trans hcall')
      exact hsome (h.entry_eq_none hcall hans (honce c call hcall hans) hsent)
    · exact h.apart c c' call call' hcall hcall' hne rid hrid (GenerateCall.mem_allRids hsent)

theorem length_le_numUnanswered (h : Accounted s)
    (honce : ∀ c call, s.calls c = some call → s.answered c = true → call.asksOnce = false)
    {rids : List String} (hnodup : rids.Nodup)
    (hsome : ∀ rid ∈ rids, (s.manager.ridToState rid).isSome = true) :
    rids.length ≤ s.numUnanswered := by
  let unanswered := (List.range s.manager.nextCall).filter fun c => !s.answered c
  let sentBy := fun c => ((s.calls c).map GenerateCall.sentRids).getD []
  have hsub : rids.map RidArg.str ⊆ unanswered.flatMap sentBy := by
    intro x hx
    have ⟨rid, hrid, hxr⟩ := List.mem_map.mp hx
    subst hxr
    have ⟨c, call, hcall, hsent⟩ := h.registered rid (hsome rid hrid)
    have hans : s.answered c = false := by
      by_contra hans
      have hnone := h.entry_eq_none hcall (by simpa using hans)
        (honce c call hcall (by simpa using hans)) hsent
      simpa [hnone] using hsome rid hrid
    refine List.mem_flatMap.mpr ⟨c, ?_, by simpa [sentBy, hcall] using hsent⟩
    simpa [unanswered, hans] using h.logged_lt c call hcall
  have hsum : (unanswered.flatMap sentBy).length = s.numUnanswered := by
    rw [List.length_flatMap, Served.numUnanswered]
    congr 1
    refine List.map_congr_left fun c _ => ?_
    cases hcall : s.calls c <;> simp [sentBy, hcall]
  have hinj : Function.Injective RidArg.str := fun _ _ heq => RidArg.str.inj heq
  have hle := ((hnodup.map hinj).subperm hsub).length_le
  rwa [List.length_map, hsum] at hle

end Accounted

/-- **What stays registered.** In every run of calls with new ids, the ids of the answered calls
are gone just when none of these calls is for a single text without `stream`; and then no more
ids are in the dictionary than there are requests of other calls. -/
theorem answered_unregistered_iff {steps : List (ManagerStep ω)} {s : Served ω}
    (hnew : Along servedStep BringsNewRids .init steps)
    (hs : exec servedStep .init steps = some s) :
    (NoneRegistered s ↔
      ∀ c call, s.calls c = some call → s.answered c = true → call.asksOnce = false) ∧
    (NoneRegistered s → ∀ rids : List String, rids.Nodup →
      (∀ rid ∈ rids, (s.manager.ridToState rid).isSome = true) →
        rids.length ≤ s.numUnanswered) := by
  have h := Accounted.init.exec hnew hs
  refine ⟨h.noneRegistered_iff, fun hnone rids hnodup hsome => ?_⟩
  exact h.length_le_numUnanswered (h.noneRegistered_iff.mp hnone) hnodup hsome

/-- A stream to its end, while a single text waits. -/
def streamToEnd : List (ManagerStep String) :=
  [.generate (.single (.str "a") true true), .generate (.single (.str "b") false true),
    .receive [⟨0, "x", true⟩], .resume 0, .resume 0]

theorem answered_unregistered_stream : ∃ s, exec servedStep .init streamToEnd = some s ∧
    s.answered 0 = true ∧ NoneRegistered s := by
  refine ⟨_, rfl, rfl, (answered_unregistered_iff
    (?_ : Along servedStep BringsNewRids .init streamToEnd) rfl).1.mpr ?_⟩
  · refine ⟨fun c call h => (by cases h), fun t ht => ?_⟩
    cases ht
    refine ⟨fun c call hcall rid hrid => ?_, fun t _ => by simp [BringsNewRids]⟩
    obtain rfl : rid = "b" := by simpa [GenerateCall.allRids] using hrid
    by_cases hc : c = 0
    · subst hc
      cases hcall
      decide
    · simp [TokenizerManager.init, hc, Served.init] at hcall
  · intro c call hcall hans
    by_cases hc : c = 0
    · subst hc
      cases hcall
      rfl
    · exfalso
      revert hans
      simp [TokenizerManager.init, TokenizerManager.generateRequest, hc, Served.init,
        CallState.responded]

/-- A single text without `stream`. Its response is there, and so is its id. -/
theorem answered_registered : ¬ ∀ (steps : List (ManagerStep String)) (s : Served String),
    Along servedStep BringsNewRids .init steps → exec servedStep .init steps = some s →
      NoneRegistered s := by
  intro h
  have hrun : exec servedStep .init [.generate (.single (.str "a") false true),
      .receive [⟨0, "x", true⟩], .resume 0] = some (_ : Served String) := rfl
  have hnone := h _ _ ?_ hrun 0 (.single (.str "a") false true) rfl rfl "a" (by decide)
  · cases hnone
  · exact ⟨fun c call h => (by cases h), fun t _ => by simp [BringsNewRids]⟩

end HarvestMoE
