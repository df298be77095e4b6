import HarvestMoE.Dispatcher

/-!
# What a call leaves alone

A call touches the entries of its own ids and the object of its own stream, and it sends
requests. `Spares` says of two states that nothing is changed that belongs to given ids and
the requests sent for them.

## Main definitions

* `TokenizerManager.Sent` — a request has been sent with an id.
* `Spares` — the entries, the requests and the objects are as they were.
* `generateRequest_cases`, `resumeCall_cases` — what a call does.
* `Tracked` — entries and streams are of requests sent with their ids.
-/

namespace HarvestMoE

open Lib TokenizerManager

variable {ω : Type*}

/-- The request has been sent, with this id. -/
def TokenizerManager.Sent (m : TokenizerManager ω) (rid : String) (q : ℕ) : Prop :=
  q < m.numSent ∧ m.rids q = .str rid

/-- The requests that have been sent are as they were, and so are the entries of the ids and
their objects. None of the ids is sent again. -/
structure Spares (rids : List String) (own : ℕ) (m t : TokenizerManager ω) : Prop where
  numSent : m.numSent ≤ t.numSent
  rids_eq : ∀ q < m.numSent, t.rids q = m.rids q
  outstanding_eq : ∀ q < m.numSent, t.outstanding q = m.outstanding q
  flight : ∀ q, t.outstanding q = true →
    m.outstanding q = true ∧ t.rids q = m.rids q ∨ ∀ rid ∈ rids, t.rids q ≠ .str rid
  entry : ∀ rid ∈ rids, t.ridToState rid = m.ridToState rid
  object : ∀ j < rids.length, t.states (own + j) = m.states (own + j)
  delivered_eq : t.delivered = m.delivered

namespace Spares

variable {rids : List String} {own : ℕ} {m t u : TokenizerManager ω}

theorem refl (m : TokenizerManager ω) : Spares rids own m m where
  numSent := le_rfl
  rids_eq := fun _ _ => rfl
  outstanding_eq := fun _ _ => rfl
  flight := fun _ hq => Or.inl ⟨hq, rfl⟩
  entry := fun _ _ => rfl
  object := fun _ _ => rfl
  delivered_eq := rfl

theorem trans (h : Spares rids own m t) (h' : Spares rids own t u) : Spares rids own m u where
  numSent := h.numSent.trans h'.numSent
  rids_eq := fun q hq => (h'.rids_eq q (hq.trans_le h.numSent)).trans (h.rids_eq q hq)
  outstanding_eq := fun q hq =>
    (h'.outstanding_eq q (hq.trans_le h.numSent)).trans (h.outstanding_eq q hq)
  flight := by
    intro q hq
    rcases h'.flight q hq with ⟨ht, hrids⟩ | hne
    · rcases h.flight q ht with ⟨hm, hrids'⟩ | hne
      · exact Or.inl ⟨hm, hrids.trans hrids'⟩
      · exact Or.inr fun rid hr => by rw [hrids]; exact hne rid hr
    · exact Or.inr hne
  entry := fun rid hr => (h'.entry rid hr).trans (h.entry rid hr)
  object := fun j hj => (h'.object j hj).trans (h.object j hj)
  delivered_eq := h'.delivered_eq.trans h.delivered_eq

theorem sent (h : Spares rids own m t) {rid : String} {q : ℕ} (hq : m.Sent rid q) : t.Sent rid q :=
  ⟨hq.1.trans_le h.numSent, by rw [h.rids_eq q hq.1, hq.2]⟩

theorem createLoop (m : TokenizerManager ω) : Spares rids own m m.createLoop :=
  { refl m with }

theorem setCalls (calls : ℕ → CallState ω) (nextCall : ℕ) :
    Spares rids own m { m with calls := calls, nextCall := nextCall } :=
  { refl m with }

theorem remove {rid : String} (hrid : rid ∉ rids) : Spares rids own m (m.remove rid) :=
  { refl m with
    entry := fun r hr => by
      have hne : r ≠ rid := fun heq => hrid (heq ▸ hr)
      simp [hne] }

theorem setState {q : ℕ} (hq : ∀ j < rids.length, own + j ≠ q) (state : ReqState ω) :
    Spares rids own m (m.setState q state) :=
  { (refl m : Spares rids own m m) with object := fun j hj => by simp [hq j hj] }

theorem send {rid : RidArg} (hrid : ∀ r ∈ rids, rid ≠ .str r) : Spares rids own m (m.send rid) where
  numSent := by simp
  rids_eq := by
    intro q hq
    have hne : q ≠ m.numSent := by omega
    simp [hne]
  outstanding_eq := by
    intro q hq
    have hne : q ≠ m.numSent := by omega
    simp [hne]
  flight := by
    intro q hq
    by_cases hne : q = m.numSent
    · exact Or.inr fun r hr => by simpa [hne] using hrid r hr
    · exact Or.inl ⟨by simpa [hne] using hq, by simp [hne]⟩
  entry := fun _ _ => rfl
  object := fun _ _ => rfl
  delivered_eq := rfl

theorem register {rid : String} (hrid : rid ∉ rids) (hown : own + rids.length ≤ m.numSent) :
    Spares rids own m (m.register rid) := by
  have hsend : Spares rids own m (m.send (.str rid)) := by
    apply send
    intro r hr heq
    cases heq
    exact hrid hr
  have hregister : Spares rids own (m.send (.str rid)) (m.register rid) :=
    { (refl _ : Spares rids own (m.send (.str rid)) _) with
      entry := fun r hr => by
        have hne : r ≠ rid := fun heq => hrid (heq ▸ hr)
        simp [hne]
      object := fun j hj => by
        have hne : own + j ≠ m.numSent := by omega
        simp [hne] }
  exact hsend.trans hregister

/-- Other requests are sent. -/
theorem registerAll {others : List String} (hothers : ∀ rid ∈ others, rid ∉ rids)
    (hown : own + rids.length ≤ m.numSent) :
    Spares rids own m (others.foldl TokenizerManager.register m) := by
  induction others generalizing m with
  | nil => exact refl m
  | cons rid rest ih =>
      have hfirst := register (hothers rid (by simp)) hown
      exact hfirst.trans (ih (fun r hr => hothers r (by simp [hr])) (hown.trans hfirst.numSent))

end Spares


/-- The request whose object a stream empties. -/
def CallState.streams : CallState ω → Option (String × ℕ)
  | .waiting rid own stream => if stream then some (rid, own) else none
  | .suspended rid own => some (rid, own)
  | _ => none

/-- A stream still uses its id. -/
theorem CallState.mem_pending_of_streams {call : CallState ω} {x : String × ℕ}
    (hx : call.streams = some x) : x ∈ call.pending := by
  cases call with
  | waiting rid own stream =>
      cases stream with
      | false => cases hx
      | true => simpa [CallState.streams, CallState.pending, eq_comm] using hx
  | suspended rid own => simpa [CallState.streams, CallState.pending, eq_comm] using hx
  | visiting rid state rest own outputList => cases hx
  | yielded outputList => cases hx
  | raised => cases hx
  | closed => cases hx

variable {m t : TokenizerManager ω}

/-- The loop over the ids goes on with ids of the list, and is no stream. -/
theorem collect_call (rids : List String) (own : ℕ) (outputList : List ω)
    (m : TokenizerManager ω) :
    (∀ x ∈ (collect rids own outputList m).2.pending, x.1 ∈ rids) ∧
      (collect rids own outputList m).2.streams = none := by
  induction rids generalizing own outputList m with
  | nil => simp [TokenizerManager.collect, CallState.pending, CallState.streams]
  | cons rid rest ih =>
      cases hentry : m.ridToState rid with
      | none => simp [TokenizerManager.collect, hentry, CallState.pending, CallState.streams]
      | some state =>
          cases hev : (m.states state).event with
          | false =>
              simp only [TokenizerManager.collect, hentry, hev, Bool.false_eq_true, if_false]
              exact ⟨fun x hx => List.fst_mem_of_mem_zipIdx hx, rfl⟩
          | true =>
              cases hvisit : m.visit rid state with
              | none =>
                  simp [TokenizerManager.collect, hentry, hev, hvisit, CallState.pending,
                    CallState.streams]
              | some r =>
                  simp only [TokenizerManager.collect, hentry, hev, hvisit, if_true]
                  have hrest := ih (own + 1) (outputList ++ [r.2]) r.1
                  exact ⟨fun x hx => List.mem_cons_of_mem _ (hrest.1 x hx), hrest.2⟩

/-- A new call has got from `m` to `u`, where it stops as `next`: it creates the loop, sends
requests, enters their ids and removes some, and may still use those. -/
structure Sends (m : TokenizerManager ω) (call : GenerateCall) (u : TokenizerManager ω)
    (next : CallState ω) : Prop where
  keeps : ∀ I : TokenizerManager ω → Prop, I m.createLoop →
    (∀ u, ∀ rid ∈ call.sentRids, I u → I (u.send rid)) →
    (∀ u rid, .str rid ∈ call.sentRids → I u → I (u.register rid)) →
    (∀ u rid, .str rid ∈ call.sentRids → I u → I (u.remove rid)) → I u
  pending : ∀ x ∈ next.pending, .str x.1 ∈ call.sentRids
  streams : ∀ x, next.streams = some x → u.Sent x.1 x.2

theorem startList_sends {call : GenerateCall} {rids : List String}
    (hsent : call.sentRids = rids.map .str) (numTexts : ℕ) :
    ∃ u next, m.createLoop.startList rids numTexts = u.start next ∧ Sends m call u next := by
  have hmem : ∀ rid ∈ rids, RidArg.str rid ∈ call.sentRids := fun rid hr => by simp [hsent, hr]
  unfold TokenizerManager.startList
  split_ifs with hlen
  · refine ⟨_, _, rfl, ?_, by simp [CallState.pending], by simp [CallState.streams]⟩
    intro I hm _ hregister _
    exact foldl_preserves (fun u rid hr hu => hregister u rid (hmem rid hr) hu) hm
  · have hcall := collect_call rids m.createLoop.numSent [] (rids.foldl register m.createLoop)
    refine ⟨_, _, rfl, ?_, fun x hx => hmem _ (hcall.1 x hx), fun x hx => ?_⟩
    · intro I hm _ hregister hremove
      refine collect_preserves _ (fun u rid hr hu => hremove u rid (hmem rid hr) hu) ?_
      exact foldl_preserves (fun u rid hr hu => hregister u rid (hmem rid hr) hu) hm
    · rw [hcall.2] at hx
      cases hx

theorem createLoop_sends (call : GenerateCall) : Sends m call m.createLoop .raised where
  keeps := fun _ hm _ _ _ => hm
  pending := by simp [CallState.pending]
  streams := by simp [CallState.streams]

theorem generateRequest_cases (m : TokenizerManager ω) (call : GenerateCall) :
    ∃ u next, m.generateRequest call = u.start next ∧ Sends m call u next := by
  cases call with
  | single rid stream prepared =>
      cases prepared with
      | false => exact ⟨_, _, rfl, createLoop_sends _⟩
      | true =>
          have hmem : rid ∈ (GenerateCall.single rid stream true).sentRids := by
            simp [GenerateCall.sentRids]
          cases rid with
          | list rids =>
              exact ⟨_, _, rfl, fun _ hm hsend _ _ => hsend _ _ hmem hm, by simp [CallState.pending],
                by simp [CallState.streams]⟩
          | str rid =>
              refine ⟨_, _, rfl, fun _ hm _ hregister _ => hregister _ _ hmem hm, ?_, ?_⟩
              · cases stream <;> simp [CallState.pending, GenerateCall.sentRids]
              · cases stream <;> simp [CallState.streams, TokenizerManager.Sent]
  | batch rids numTexts prepared =>
      cases prepared with
      | false => exact ⟨_, _, rfl, createLoop_sends _⟩
      | true => exact startList_sends rfl numTexts
  | list rids numTexts prepared => exact startList_sends rfl numTexts

/-- A call that is at `call` has got from `m` to `u`, where it stops as `next`. -/
structure Takes (m : TokenizerManager ω) (call : CallState ω) (u : TokenizerManager ω)
    (next : CallState ω) : Prop where
  keeps : ∀ I : TokenizerManager ω → Prop, I m →
    (∀ u rid, rid ∈ call.pending.map Prod.fst → I u → I (u.remove rid)) →
    (∀ u x state, call.streams = some x → I u → I (u.setState x.2 state)) → I u
  pending : ∀ x ∈ next.pending, x.1 ∈ call.pending.map Prod.fst
  streams : next.streams = none ∨ next.streams = call.streams

/-- **What a call does** that goes on. -/
theorem resumeCall_cases {c : ℕ} (ht : m.resumeCall c = some t) :
    ∃ u next, t = u.setCall c next ∧ Takes m (m.calls c) u next := by
  have hset : ∀ {rid : String} {own : ℕ} (state : ReqState ω) {next : CallState ω},
      m.calls c = .suspended rid own → (∀ x ∈ next.pending, x.1 = rid) →
      (next.streams = none ∨ next.streams = some (rid, own)) →
      Takes m (m.calls c) (m.setState own state) next := by
    intro rid own state next hcall hpending hstreams
    rw [hcall]
    refine ⟨fun I hm _ hstate => hstate _ (rid, own) _ rfl hm, fun x hx => ?_, hstreams⟩
    simp [CallState.pending, hpending x hx]
  cases resumed_of_resumeCall ht with
  | raised => exact ⟨m, _, rfl, fun _ hm _ _ => hm, by simp [CallState.pending], Or.inl rfl⟩
  | @awake rid own stream out hcall =>
      refine ⟨m, _, rfl, fun _ hm _ _ => hm, ?_, ?_⟩
      · cases stream <;> simp [hcall, CallState.pending]
      · cases stream <;> simp [hcall, CallState.streams]
  | @ended rid own hcall hfin =>
      have hstate : Takes m (m.calls c) (m.setState own { m.states own with outList := [] })
          .closed :=
        hset _ hcall (by simp [CallState.pending]) (Or.inl rfl)
      refine ⟨_, _, rfl, fun I hm hremove hset => ?_, hstate.pending, hstate.streams⟩
      exact hremove _ _ (by simp [hcall, CallState.pending]) (hstate.keeps I hm hremove hset)
  | lost hcall hentry =>
      exact ⟨_, _, rfl, hset _ hcall (by simp [CallState.pending]) (Or.inl rfl)⟩
  | emptied hcall hfin =>
      exact ⟨_, _, rfl, hset _ hcall (by simp [CallState.pending]) (Or.inr rfl)⟩
  | @collected rid state rest own outputList u out hcall hvisit =>
      have hfst : (m.calls c).pending.map Prod.fst = rid :: rest := by
        simp [hcall, CallState.pending]
      rcases visit_eq_some.mp hvisit with ⟨-, -, -, rfl⟩
      have hnext := collect_call rest (own + 1) (outputList ++ [out]) (m.remove rid)
      refine ⟨_, _, rfl, fun I hm hremove _ => ?_, fun x hx => ?_, Or.inl hnext.2⟩
      · rw [hfst] at hremove
        refine collect_preserves _ (fun u r hr hu => hremove u r (by simp [hr]) hu) ?_
        exact hremove m rid (by simp) hm
      · rw [hfst]
        exact List.mem_cons_of_mem _ (hnext.1 x hx)

/-- Entries lead to the object of a request that has been sent with their id, and only requests
that have been sent are answered. -/
structure Known (m : TokenizerManager ω) : Prop where
  entries : ∀ rid q, m.ridToState rid = some q → m.Sent rid q
  outstanding_lt : ∀ q, m.outstanding q = true → q < m.numSent
  delivered_lt : ∀ d ∈ m.delivered, d.request < m.numSent

/-- The manager goes on: requests stay sent, and the calls are where they were. -/
structure GoesOn (m u : TokenizerManager ω) : Prop where
  known : Known u
  sent : ∀ rid q, m.Sent rid q → u.Sent rid q
  calls : u.calls = m.calls
  nextCall : u.nextCall = m.nextCall

namespace GoesOn

variable {u : TokenizerManager ω}

theorem refl (h : Known m) : GoesOn m m := ⟨h, fun _ _ => id, rfl, rfl⟩

theorem createLoop (h : GoesOn m u) : GoesOn m u.createLoop :=
  ⟨⟨h.known.entries, h.known.outstanding_lt, h.known.delivered_lt⟩, h.sent, h.calls, h.nextCall⟩

theorem send (h : GoesOn m u) (rid : RidArg) : GoesOn m (u.send rid) := by
  have hkeep : ∀ r q, u.Sent r q → (u.send rid).Sent r q := by
    intro r q hq
    have hne : q ≠ u.numSent := hq.1.ne
    exact ⟨hq.1.trans (by simp), by simpa [hne] using hq.2⟩
  refine ⟨⟨fun r q hq => hkeep r q (h.known.entries r q hq), ?_, ?_⟩,
    fun r q hq => hkeep r q (h.sent r q hq), h.calls, h.nextCall⟩
  · intro q hq
    by_cases hqn : q = u.numSent
    · simp [hqn]
    · exact (h.known.outstanding_lt q (by simpa [hqn] using hq)).trans (by simp)
  · intro d hd
    exact (h.known.delivered_lt d hd).trans (by simp)

theorem register (h : GoesOn m u) (rid : String) : GoesOn m (u.register rid) := by
  have hsend := h.send (.str rid)
  refine ⟨⟨?_, hsend.known.outstanding_lt, hsend.known.delivered_lt⟩, hsend.sent, h.calls, h.nextCall⟩
  intro r q hq
  by_cases hr : r = rid
  · have hqn : u.numSent = q := by simpa [hr] using hq
    exact ⟨by simp [← hqn], by simp [← hqn, hr]⟩
  · exact hsend.known.entries r q (by simpa [hr] using hq)

theorem remove (h : GoesOn m u) (rid : String) : GoesOn m (u.remove rid) := by
  refine ⟨⟨?_, h.known.outstanding_lt, h.known.delivered_lt⟩, h.sent, h.calls, h.nextCall⟩
  intro r q hq
  by_cases hr : r = rid
  · simp [hr] at hq
  · exact h.known.entries r q (by simpa [hr] using hq)

theorem setState (h : GoesOn m u) (q : ℕ) (state : ReqState ω) : GoesOn m (u.setState q state) :=
  ⟨⟨h.known.entries, h.known.outstanding_lt, h.known.delivered_lt⟩, h.sent, h.calls, h.nextCall⟩

end GoesOn

/-- Entries and streams are of requests that have been sent with their ids. -/
structure Tracked (m : TokenizerManager ω) : Prop where
  known : Known m
  streams : ∀ c x, (m.calls c).streams = some x → m.Sent x.1 x.2

theorem Sends.goesOn {call : GenerateCall} {u : TokenizerManager ω} {next : CallState ω}
    (hs : Sends m call u next) (h : Known m) : GoesOn m u :=
  hs.keeps _ (GoesOn.refl h).createLoop (fun _ rid _ hu => hu.send rid)
    (fun _ rid _ hu => hu.register rid) fun _ rid _ hu => hu.remove rid

theorem Takes.goesOn {call : CallState ω} {u : TokenizerManager ω} {next : CallState ω}
    (hs : Takes m call u next) (h : Known m) : GoesOn m u :=
  hs.keeps _ (GoesOn.refl h) (fun _ rid _ hu => hu.remove rid)
    fun _ _ state _ hu => hu.setState _ state

theorem Sends.spares {call : GenerateCall} {u : TokenizerManager ω} {next : CallState ω}
    (hs : Sends m call u next) {rids : List String} {own : ℕ}
    (hapart : ∀ rid ∈ rids, .str rid ∉ call.sentRids) (hown : own + rids.length ≤ m.numSent) :
    Spares rids own m u := by
  have hother : ∀ rid, .str rid ∈ call.sentRids → rid ∉ rids := fun rid hr hmem => hapart rid hmem hr
  refine hs.keeps _ (Spares.createLoop m) ?_ ?_ ?_
  · intro u rid hr hu
    refine hu.trans (Spares.send fun r hmem heq => ?_)
    exact hapart r hmem (heq ▸ hr)
  · intro u rid hr hu
    exact hu.trans (Spares.register (hother rid hr) (hown.trans hu.numSent))
  · intro u rid hr hu
    exact hu.trans (Spares.remove (hother rid hr))

theorem Takes.spares {call : CallState ω} {u : TokenizerManager ω} {next : CallState ω}
    (hs : Takes m call u next) {rids : List String} {own : ℕ}
    (hpending : ∀ x ∈ call.pending, x.1 ∉ rids)
    (hstream : ∀ x, call.streams = some x → ∀ j < rids.length, own + j ≠ x.2) :
    Spares rids own m u := by
  refine hs.keeps _ (Spares.refl m) ?_ ?_
  · intro u rid hr hu
    rcases List.mem_map.mp hr with ⟨x, hx, hrid⟩
    exact hu.trans (Spares.remove (hrid ▸ hpending x hx))
  · intro u x state hx hu
    exact hu.trans (Spares.setState (hstream x hx) state)

/-- A message changes no entry and no call. -/
theorem receive_frame {answers : List (Answer ω)} (ht : m.receive answers = some t) :
    ∃ loop states outstanding delivered, t = { m with
      loop := loop
      states := states
      outstanding := outstanding
      delivered := delivered } := by
  refine exec_preserves (I := fun t => ∃ loop states outstanding delivered, t = { m with
    loop := loop
    states := states
    outstanding := outstanding
    delivered := delivered }) ?_ ⟨_, _, _, _, rfl⟩ ht
  intro u a _ v hu hv
  rcases hu with ⟨loop, states, outstanding, delivered, rfl⟩
  rcases deliver_cases hv with ⟨-, ⟨loop, rfl⟩ | ⟨rid, q, -, -, rfl⟩⟩
  · exact ⟨_, _, _, _, rfl⟩
  · exact ⟨_, _, _, _, rfl⟩

/-- Results answer requests that have been sent. -/
theorem Known.deliver (h : Known m) {a : Answer ω} (ht : m.deliver a = some t) : Known t := by
  have hlt : ∀ q, m.outstanding a.request = true →
      Function.update m.outstanding a.request (!a.finished) q = true → q < m.numSent := by
    intro q hout hq
    by_cases hqa : q = a.request
    · exact hqa ▸ h.outstanding_lt a.request hout
    · exact h.outstanding_lt q (by simpa [hqa] using hq)
  rcases deliver_cases ht with ⟨hout, ⟨loop, rfl⟩ | ⟨rid, q, -, -, rfl⟩⟩
  · exact ⟨h.entries, fun q => hlt q hout, h.delivered_lt⟩
  · refine ⟨h.entries, fun q => hlt q hout, fun d hd => ?_⟩
    rcases List.mem_append.mp hd with hd | hd
    · exact h.delivered_lt d hd
    · rw [List.mem_singleton.mp hd]
      exact h.outstanding_lt a.request hout

theorem Known.receive (h : Known m) {answers : List (Answer ω)} (ht : m.receive answers = some t) :
    Known t :=
  exec_preserves (fun _ _ _ _ hu hv => hu.deliver hv) h ht

namespace Tracked

theorem init : Tracked (.init : TokenizerManager ω) where
  known := by constructor <;> simp [TokenizerManager.init]
  streams := by simp [TokenizerManager.init, CallState.streams]

theorem setCall (h : Tracked m) {u : TokenizerManager ω} (hu : GoesOn m u) {c : ℕ}
    {next : CallState ω} (hnext : ∀ x, next.streams = some x → u.Sent x.1 x.2) (nextCall : ℕ) :
    Tracked { u with calls := Function.update u.calls c next, nextCall := nextCall } where
  known := ⟨hu.known.entries, hu.known.outstanding_lt, hu.known.delivered_lt⟩
  streams := by
    intro c' x hx
    by_cases hc : c' = c
    · subst hc
      exact hnext x (by simpa using hx)
    · exact hu.sent _ _ (h.streams c' x (by simpa [hc, hu.calls] using hx))

/-- **Every step keeps the entries and the streams tracked**, whatever ids it brings. -/
theorem step (h : Tracked m) {a : ManagerStep ω} (ht : managerStep m a = some t) : Tracked t := by
  cases a with
  | generate call =>
      rcases generateRequest_cases m call with ⟨u, next, heq, hs⟩
      cases ht
      rw [heq]
      exact h.setCall (hs.goesOn h.known) hs.streams _
  | receive answers =>
      have hknown := h.known.receive ht
      rcases receive_frame ht with ⟨loop, states, outstanding, delivered, rfl⟩
      exact ⟨hknown, h.streams⟩
  | resume c =>
      rcases resumeCall_cases ht with ⟨u, next, rfl, hs⟩
      have hu := hs.goesOn h.known
      refine h.setCall hu (fun x hx => hu.sent _ _ (h.streams c x ?_)) _
      rcases hs.streams with hnone | hsame
      · simp [hnone] at hx
      · rw [← hsame, hx]
  | close c =>
      rcases closeCall_eq ht with rfl
      exact h.setCall (GoesOn.refl h.known) (by simp [CallState.streams]) _

theorem exec (h : Tracked m) {steps : List (ManagerStep ω)} (ht : exec managerStep m steps = some t) :
    Tracked t :=
  exec_preserves (fun _ _ _ _ hs hstep => hs.step hstep) h ht

end Tracked

end HarvestMoE
