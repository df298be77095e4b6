import HarvestMoE.Footprint

/-!
# A list of texts gets its results in order

The requests of a call on a list of texts are answered in any order and grouping, among
those of other clients, and the call waits for its objects one after the other. `Collecting`
says how far it is: the ids before `i` are removed, and the object of every other text is
as it was made or has that text's result. What other calls do spares all of this as long as
they do not send the same ids, even if it ends `handle_loop`.

## Main definitions

* `Spares` — what a step of another call leaves alone.
* `Collecting` — the call has the results before `i`.
* `Orderly` — the invariant of the manager with the call.
* `Elsewhere` — a step does not send the ids of the call.
* `ResultsOf` — the results are those of the texts.
-/

namespace HarvestMoE

open Lib TokenizerManager

variable {ω : Type*}

variable {rids : List String} {own : ℕ} {result : ℕ → ω} {i : ℕ} {m t : TokenizerManager ω}

/-- The requests of a list of texts, which are numbered from `own` on, when the results before
`i` are taken. -/
structure Collecting (rids : List String) (own : ℕ) (result : ℕ → ω) (i : ℕ)
    (m : TokenizerManager ω) : Prop where
  le : i ≤ rids.length
  sent : ∀ j rid, rids[j]? = some rid → m.Sent rid (own + j)
  flight : ∀ q, m.outstanding q = true → ∀ rid ∈ rids, m.rids q = .str rid →
    own ≤ q ∧ q < own + rids.length
  taken : ∀ j rid, j < i → rids[j]? = some rid →
    m.ridToState rid = none ∧ m.outstanding (own + j) = false
  entry : ∀ j rid, i ≤ j → rids[j]? = some rid → m.ridToState rid = some (own + j)
  object : ∀ j < rids.length, i ≤ j →
    m.states (own + j) = ⟨[], false, false⟩ ∧ (∀ d ∈ m.delivered, d.request ≠ own + j) ∨
      m.states (own + j) = ⟨[result j], true, true⟩ ∧ m.outstanding (own + j) = false

/-- Where the call is, when the results before `i` are taken. -/
def callAt (rids : List String) (own : ℕ) (result : ℕ → ω) (i : ℕ) : CallState ω :=
  match rids.drop i with
  | [] => .yielded ((List.range i).map result)
  | rid :: rest => .visiting rid (own + i) rest (own + i) ((List.range i).map result)

theorem callAt_streams (rids : List String) (own : ℕ) (result : ℕ → ω) (i : ℕ) :
    (callAt rids own result i).streams = none := by
  unfold callAt
  cases rids.drop i with
  | nil => rfl
  | cons rid rest => rfl

namespace Collecting

/-- What spares the requests leaves the call where it was. -/
theorem spared (h : Collecting rids own result i m) (hs : Spares rids own m t) :
    Collecting rids own result i t := by
  have hout : ∀ j < rids.length, t.outstanding (own + j) = m.outstanding (own + j) := by
    intro j hj
    exact hs.outstanding_eq _ (h.sent j _ (List.getElem?_eq_getElem hj)).1
  refine
    { le := h.le
      sent := fun j rid hj => hs.sent (h.sent j rid hj)
      flight := ?_
      taken := ?_
      entry := ?_
      object := ?_ }
  · intro q hq rid hr hrid
    rcases hs.flight q hq with ⟨hm, hrids⟩ | hne
    · exact h.flight q hm rid hr (by rw [← hrids, hrid])
    · exact absurd hrid (hne rid hr)
  · intro j rid hj hrid
    have hlt := List.getElem?_eq_some_iff.mp hrid
    rw [hs.entry rid (List.mem_of_getElem? hrid), hout j hlt.1]
    exact h.taken j rid hj hrid
  · intro j rid hj hrid
    rw [hs.entry rid (List.mem_of_getElem? hrid)]
    exact h.entry j rid hj hrid
  · intro j hj hij
    rw [hs.object j hj, hout j hj, hs.delivered_eq]
    exact h.object j hj hij

/-- The object of a text whose event is set has its result. -/
theorem object_of_event (h : Collecting rids own result i m) {j : ℕ} (hj : j < rids.length)
    (hij : i ≤ j) (hev : (m.states (own + j)).event = true) :
    m.states (own + j) = ⟨[result j], true, true⟩ ∧ m.outstanding (own + j) = false := by
  rcases h.object j hj hij with ⟨hstate, -⟩ | hdone
  · simp [hstate] at hev
  · exact hdone

/-- The call takes the result of text `i`. -/
theorem visit (h : Collecting rids own result i m) (hnodup : rids.Nodup) {rid : String}
    (hrid : rids[i]? = some rid) (hev : (m.states (own + i)).event = true) :
    m.visit rid (own + i) = some (m.remove rid, result i) ∧
      Collecting rids own result (i + 1) (m.remove rid) := by
  have hi := (List.getElem?_eq_some_iff.mp hrid).1
  rcases h.object_of_event hi le_rfl hev with ⟨hstate, hdone⟩
  have hentry := h.entry i rid le_rfl hrid
  have hother : ∀ j r, rids[j]? = some r → j ≠ i → r ≠ rid := by
    intro j r hj hne heq
    have hlt := (List.getElem?_eq_some_iff.mp hj).1
    exact hne ((List.getElem?_inj hlt hnodup).mp (by rw [hj, hrid, heq]))
  refine ⟨visit_eq_some.mpr ⟨by simp [hstate], by simp [hstate], by simp [hentry], rfl⟩, ?_⟩
  refine
    { le := hi
      sent := h.sent
      flight := h.flight
      taken := ?_
      entry := ?_
      object := fun j hj hij => h.object j hj (by omega) }
  · intro j r hj hr
    by_cases hji : j = i
    · subst hji
      rw [hrid] at hr
      cases hr
      exact ⟨by simp, hdone⟩
    · have htaken := h.taken j r (by omega) hr
      exact ⟨by simpa [hother j r hr hji] using htaken.1, htaken.2⟩
  · intro j r hj hr
    simpa [hother j r hr (by omega)] using h.entry j r (by omega) hr

/-- **The loop over the ids** takes the results that are there, and stops at the first text
whose result is not. -/
theorem collect (h : Collecting rids own result i m) (hnodup : rids.Nodup) :
    ∃ k, i ≤ k ∧
      (collect (rids.drop i) (own + i) ((List.range i).map result) m).2 = callAt rids own result k ∧
      Collecting rids own result k
        (collect (rids.drop i) (own + i) ((List.range i).map result) m).1 ∧
      (k < rids.length → (m.states (own + k)).event = false) := by
  generalize hrest : rids.drop i = rest
  induction rest generalizing i m with
  | nil =>
      have hlen : rids.length ≤ i := by simpa using hrest
      exact ⟨i, le_rfl, by simp [TokenizerManager.collect, callAt, hrest], h, by omega⟩
  | cons rid rest ih =>
      have hrid : rids[i]? = some rid := by
        rw [← List.head?_drop, hrest, List.head?_cons]
      have hdrop : rids.drop (i + 1) = rest := by
        rw [← List.tail_drop, hrest, List.tail_cons]
      have hentry := h.entry i rid le_rfl hrid
      cases hev : (m.states (own + i)).event with
      | false =>
          refine ⟨i, le_rfl, ?_, ?_, fun _ => hev⟩
          · simp [TokenizerManager.collect, hentry, hev, callAt, hrest]
          · simpa [TokenizerManager.collect, hentry, hev] using h
      | true =>
          rcases h.visit hnodup hrid hev with ⟨hvisit, hnext⟩
          rcases ih hnext hdrop with ⟨k, hk, hcall, hcollecting, hstop⟩
          refine ⟨k, by omega, ?_, ?_, hstop⟩
          · simp only [TokenizerManager.collect, hentry, hev, hvisit, if_true]
            rw [← hcall, List.range_succ, List.map_append]
            rfl
          · simp only [TokenizerManager.collect, hentry, hev, hvisit, if_true]
            rw [List.range_succ, List.map_append] at hcollecting
            exact hcollecting

/-- A request is answered, which is not that of a text if `handle_loop` takes the answer. -/
theorem answered (h : Collecting rids own result i m) {a : Answer ω} {log : List (Delivery ω)}
    (hout : m.outstanding a.request = true)
    (hlog : ∀ d ∈ log, d ∈ m.delivered ∨ ∀ j < rids.length, d.request ≠ own + j)
    (loop : LoopState) :
    Collecting rids own result i
      { m with
        loop := loop
        outstanding := Function.update m.outstanding a.request !a.finished
        delivered := log } := by
  have hdone : ∀ q, m.outstanding q = false →
      Function.update m.outstanding a.request (!a.finished) q = false := by
    intro q hq
    have hne : q ≠ a.request := by
      intro heq
      rw [heq, hout] at hq
      cases hq
    simpa [hne] using hq
  refine
    { le := h.le
      sent := h.sent
      flight := ?_
      taken := fun j rid hj hrid => ⟨(h.taken j rid hj hrid).1, hdone _ (h.taken j rid hj hrid).2⟩
      entry := h.entry
      object := ?_ }
  · intro q hq
    refine h.flight q ?_
    by_contra hm
    exact Bool.false_ne_true ((hdone q (by simpa using hm)).symm.trans hq)
  · intro j hj hij
    rcases h.object j hj hij with ⟨hstate, hnone⟩ | ⟨hstate, hanswered⟩
    · refine Or.inl ⟨hstate, fun d hd => ?_⟩
      rcases hlog d hd with hold | hother
      · exact hnone d hold
      · exact hother j hj
    · exact Or.inr ⟨hstate, hdone _ hanswered⟩

/-- The result of text `j` comes. -/
theorem delivered (h : Collecting rids own result i m) {j : ℕ} (hij : i ≤ j) (out : ω) :
    Collecting rids own result i
      { m.setState (own + j) ⟨[result j], true, true⟩ with
        outstanding := Function.update m.outstanding (own + j) false
        delivered := m.delivered ++ [⟨own + j, own + j, out⟩] } := by
  refine
    { le := h.le
      sent := h.sent
      flight := ?_
      taken := ?_
      entry := h.entry
      object := ?_ }
  · intro q hq
    by_cases hqj : q = own + j
    · simp [hqj] at hq
    · exact h.flight q (by simpa [hqj] using hq)
  · intro k rid hk hrid
    have hne : k ≠ j := by omega
    simpa [hne] using h.taken k rid hk hrid
  · intro k hk hik
    by_cases hkj : k = j
    · exact Or.inr ⟨by simp [hkj], by simp [hkj]⟩
    · rcases h.object k hk hik with ⟨hstate, hnone⟩ | ⟨hstate, hanswered⟩
      · refine Or.inl ⟨by simpa [hkj] using hstate, fun d hd => ?_⟩
        rcases List.mem_append.mp hd with hd | hd
        · exact hnone d hd
        · rw [List.mem_singleton.mp hd]
          simp [Ne.symm hkj]
      · exact Or.inr ⟨by simpa [hkj] using hstate, by simpa [hkj] using hanswered⟩

/-- **Each result goes to the object of its own text.** -/
theorem deliver (h : Collecting rids own result i m)
    (hknown : Known m) {a : Answer ω}
    (hresult : ∀ j < rids.length, a.request = own + j → a.out = result j ∧ a.finished = true)
    (ht : m.deliver a = some t) : Collecting rids own result i t := by
  rcases deliver_cases ht with ⟨hout, ⟨loop, rfl⟩ | ⟨rid, q, hrid, hentry, rfl⟩⟩
  · exact h.answered hout (fun d hd => Or.inl hd) loop
  · by_cases hmine : ∃ j < rids.length, a.request = own + j
    · rcases hmine with ⟨j, hj, hreq⟩
      have hget := List.getElem?_eq_getElem hj
      have hij : i ≤ j := by
        by_contra hlt
        have htaken := (h.taken j _ (by omega) hget).2
        rw [hreq, htaken] at hout
        cases hout
      have hq : q = own + j := by
        have hsent := (h.sent j _ hget).2
        rw [← hreq, hrid] at hsent
        cases hsent
        have hentry' := h.entry j _ hij hget
        rw [hentry] at hentry'
        exact Option.some.inj hentry'
      have hstate : m.states (own + j) = ⟨[], false, false⟩ := by
        rcases h.object j hj hij with ⟨hstate, -⟩ | ⟨-, hanswered⟩
        · exact hstate
        · rw [hreq, hanswered] at hout
          cases hout
      simpa [hreq, hq, hstate, hresult j hj hreq] using h.delivered hij (result j)
    · have hother : ∀ j < rids.length, own + j ≠ a.request :=
        fun j hj heq => hmine ⟨j, hj, heq.symm⟩
      have hnotin : rid ∉ rids := by
        intro hmem
        have hwithin := h.flight a.request hout rid hmem hrid
        exact hmine ⟨a.request - own, by omega, by omega⟩
      have hobject : ∀ j < rids.length, own + j ≠ q := by
        intro j hj heq
        have hsent := (h.sent j _ (List.getElem?_eq_getElem hj)).2
        rw [heq, (hknown.entries rid q hentry).2] at hsent
        cases hsent
        exact hnotin (List.getElem_mem hj)
      have hlog : ∀ d ∈ m.delivered ++ [⟨a.request, q, a.out⟩],
          d ∈ m.delivered ∨ ∀ j < rids.length, d.request ≠ own + j := by
        intro d hd
        rcases List.mem_append.mp hd with hd | hd
        · exact Or.inl hd
        · rw [List.mem_singleton.mp hd]
          exact Or.inr fun j hj => (hother j hj).symm
      exact (h.answered hout hlog m.loop).spared (Spares.setState hobject _)

/-- The call has come to its first text whose result is not there, and goes on when it is. -/
theorem resumeCall (h : Collecting rids own result i m) (hnodup : rids.Nodup) (hknown : Known m)
    {c : ℕ} (hcall : m.calls c = callAt rids own result i) (hi : i < rids.length)
    (hev : (m.states (own + i)).event = true) :
    ∃ u k, m.resumeCall c = some (u.setCall c (callAt rids own result k)) ∧
      Collecting rids own result k u ∧ GoesOn m u ∧ u.numSent = m.numSent ∧
      (k < rids.length → i ≤ k ∧ (m.states (own + k)).event = false) := by
  have hrid := List.getElem?_eq_getElem hi
  have hat : callAt rids own result i = .visiting rids[i] (own + i) (rids.drop (i + 1)) (own + i)
      ((List.range i).map result) := by
    rw [callAt, List.drop_eq_getElem_cons hi]
  rcases h.visit hnodup hrid hev with ⟨hvisit, hnext⟩
  rcases hnext.collect hnodup with ⟨k, hk, hnextCall, hcollecting, hstop⟩
  rw [List.range_succ, List.map_append] at hnextCall hcollecting
  refine ⟨_, k, ?_, hcollecting, ?_, by simp, fun hlt => ⟨by omega, hstop hlt⟩⟩
  · rw [← hnextCall]
    simp only [TokenizerManager.resumeCall, hcall, hat, hev, hvisit, if_true]
    rfl
  · refine collect_preserves _ (fun u rid _ hu => hu.remove rid) ?_
    exact (GoesOn.refl hknown).remove _

theorem callAt_length (h : Collecting rids own result i m) (hi : ¬ i < rids.length) :
    callAt rids own result i = .yielded ((List.range rids.length).map result) := by
  have hlen : i = rids.length := by
    have hle := h.le
    omega
  subst hlen
  simp [callAt]

end Collecting

/-- The manager while a call on a list of texts is under way. -/
structure Orderly (rids : List String) (own : ℕ) (result : ℕ → ω) (c : ℕ)
    (m : TokenizerManager ω) : Prop where
  tracked : Tracked m
  started : c < m.nextCall
  own_le : own + rids.length ≤ m.numSent
  sent : ∀ j rid, rids[j]? = some rid → m.Sent rid (own + j)
  others : ∀ c' ≠ c, ∀ x ∈ m.pending c', x.1 ∉ rids
  call : m.calls c = .closed ∨
    ∃ i, Collecting rids own result i m ∧ m.calls c = callAt rids own result i

/-- The ids are not sent again. -/
def Elsewhere (rids : List String) : ManagerStep ω → Prop
  | .generate call => ∀ rid ∈ rids, .str rid ∉ call.sentRids
  | _ => True

/-- The results of the texts are finished. -/
def ResultsOf (own numTexts : ℕ) (result : ℕ → ω) : ManagerStep ω → Prop
  | .receive answers => ∀ a ∈ answers, ∀ j < numTexts, a.request = own + j →
      a.out = result j ∧ a.finished = true
  | _ => True

namespace Orderly

variable {c : ℕ}

/-- Another call goes on. -/
theorem spared (h : Orderly rids own result c m) {u : TokenizerManager ω}
    (hs : Spares rids own m u) (hgo : GoesOn m u) {c' : ℕ} (hc : c' ≠ c) {next : CallState ω}
    (hnext : ∀ x ∈ next.pending, x.1 ∉ rids)
    (hstream : ∀ x, next.streams = some x → u.Sent x.1 x.2) {nextCall : ℕ}
    (hle : m.nextCall ≤ nextCall) :
    Orderly rids own result c
      { u with calls := Function.update u.calls c' next, nextCall := nextCall } where
  tracked := h.tracked.setCall hgo hstream nextCall
  started := h.started.trans_le hle
  own_le := h.own_le.trans hs.numSent
  sent := fun j rid hj => hs.sent (h.sent j rid hj)
  others := by
    intro d hd x hx
    by_cases hdc : d = c'
    · subst hdc
      exact hnext x (by simpa [TokenizerManager.pending] using hx)
    · exact h.others d hd x (by simpa [TokenizerManager.pending, hdc, hgo.calls] using hx)
  call := by
    have hcall : Function.update u.calls c' next c = m.calls c := by simp [hc.symm, hgo.calls]
    rcases h.call with hclosed | ⟨i, hi, hat⟩
    · exact Or.inl (hcall.trans hclosed)
    · exact Or.inr ⟨i, (hi.spared hs).spared (Spares.setCalls _ _), hcall.trans hat⟩

/-- The call itself goes on. -/
theorem own_call (h : Orderly rids own result c m) {u : TokenizerManager ω} (hgo : GoesOn m u)
    (hnum : u.numSent = m.numSent) {next : CallState ω} (hstream : next.streams = none)
    (hnext : next = .closed ∨ ∃ i, Collecting rids own result i u ∧ next = callAt rids own result i) :
    Orderly rids own result c (u.setCall c next) where
  tracked := h.tracked.setCall hgo (by simp [hstream]) _
  started := by simpa [hgo.nextCall] using h.started
  own_le := by simpa [hnum] using h.own_le
  sent := fun j rid hj => hgo.sent _ _ (h.sent j rid hj)
  others := by
    intro d hd x hx
    exact h.others d hd x (by simpa [TokenizerManager.pending, hd, hgo.calls] using hx)
  call := by
    rcases hnext with hclosed | ⟨i, hi, hat⟩
    · exact Or.inl (by simp [hclosed])
    · exact Or.inr ⟨i, hi.spared (Spares.setCalls _ _), by simp [hat]⟩

theorem resume_own (h : Orderly rids own result c m) (hnodup : rids.Nodup)
    (ht : m.resumeCall c = some t) :
    ∃ u k, t = u.setCall c (callAt rids own result k) ∧ Collecting rids own result k u ∧ GoesOn m u ∧
      u.numSent = m.numSent := by
  rcases h.call with hclosed | ⟨i, hi, hcall⟩
  · simp [TokenizerManager.resumeCall, hclosed] at ht
  · by_cases hlt : i < rids.length
    · cases hev : (m.states (own + i)).event with
      | false =>
          rw [callAt, List.drop_eq_getElem_cons hlt] at hcall
          simp [TokenizerManager.resumeCall, hcall, hev] at ht
      | true =>
          rcases hi.resumeCall hnodup h.tracked.known hcall hlt hev with ⟨u, k, hu, hk, hgo, hnum, -⟩
          rw [hu] at ht
          exact ⟨u, k, (Option.some.inj ht).symm, hk, hgo, hnum⟩
    · rw [hi.callAt_length hlt] at hcall
      simp [TokenizerManager.resumeCall, hcall] at ht

/-- **Every step keeps the call in order.** -/
theorem step (h : Orderly rids own result c m) (hnodup : rids.Nodup) {a : ManagerStep ω}
    (helse : Elsewhere rids a) (hresult : ResultsOf own rids.length result a)
    (ht : managerStep m a = some t) : Orderly rids own result c t := by
  cases a with
  | generate call =>
      rcases generateRequest_cases m call with ⟨u, next, heq, hs⟩
      cases ht
      rw [heq]
      have hgo := hs.goesOn h.tracked.known
      have hne : u.nextCall ≠ c := by
        have hstarted := h.started
        rw [hgo.nextCall]
        omega
      refine h.spared (hs.spares helse h.own_le) hgo hne ?_ hs.streams (by simp [hgo.nextCall])
      intro x hx hmem
      exact helse x.1 hmem (hs.pending x hx)
  | receive answers =>
      have htracked := h.tracked.step (a := .receive answers) ht
      have hcollecting : ∀ i, Collecting rids own result i m → Collecting rids own result i t := by
        intro i hi
        refine (exec_preserves (I := fun u => Collecting rids own result i u ∧ Known u) ?_
          ⟨hi, h.tracked.known⟩ ht).1
        intro u a ha v hu hv
        exact ⟨hu.1.deliver hu.2 (hresult a ha) hv, hu.2.deliver hv⟩
      rcases receive_frame ht with ⟨loop, states, outstanding, delivered, rfl⟩
      refine
        { tracked := htracked
          started := h.started
          own_le := h.own_le
          sent := h.sent
          others := h.others
          call := ?_ }
      rcases h.call with hclosed | ⟨i, hi, hat⟩
      · exact Or.inl hclosed
      · exact Or.inr ⟨i, hcollecting i hi, hat⟩
  | resume d =>
      by_cases hd : d = c
      · subst hd
        rcases h.resume_own hnodup ht with ⟨u, k, rfl, hk, hgo, hnum⟩
        exact h.own_call hgo hnum (callAt_streams ..) (Or.inr ⟨k, hk, rfl⟩)
      · rcases resumeCall_cases ht with ⟨u, next, rfl, hs⟩
        have hgo := hs.goesOn h.tracked.known
        have hpending := h.others d hd
        have hnext : ∀ x ∈ next.pending, x.1 ∉ rids := by
          intro x hx
          rcases List.mem_map.mp (hs.pending x hx) with ⟨y, hy, hxy⟩
          exact hxy ▸ hpending y hy
        have hobject : ∀ x, (m.calls d).streams = some x → ∀ j < rids.length, own + j ≠ x.2 := by
          intro x hx j hj heq
          have hsent := (h.tracked.streams d x hx).2
          rw [← heq, (h.sent j _ (List.getElem?_eq_getElem hj)).2] at hsent
          have hrid := RidArg.str.inj hsent
          exact hpending x (CallState.mem_pending_of_streams hx) (hrid ▸ List.getElem_mem hj)
        refine h.spared (hs.spares hpending hobject) hgo hd hnext ?_ (by simp [hgo.nextCall])
        intro x hx
        refine hgo.sent _ _ (h.tracked.streams d x ?_)
        rcases hs.streams with hnone | hsame
        · simp [hnone] at hx
        · rw [← hsame, hx]
  | close d =>
      rcases closeCall_eq ht with rfl
      by_cases hd : d = c
      · subst hd
        exact h.own_call (GoesOn.refl h.tracked.known) rfl rfl (Or.inl rfl)
      · exact h.spared (Spares.refl m) (GoesOn.refl h.tracked.known) hd (by simp [CallState.pending])
          (by simp [CallState.streams]) le_rfl

end Orderly

/-- The ids of a list of texts whose requests are all sent. -/
def GenerateCall.listRids : GenerateCall → Option (List String)
  | .single _ _ _ => none
  | .batch rids numTexts prepared =>
      if prepared = true ∧ numTexts ≤ rids.length then some (rids.take numTexts) else none
  | .list rids numTexts prepared =>
      if numTexts ≤ prepared ∧ numTexts ≤ rids.length then some (rids.take numTexts) else none

theorem generateRequest_eq {call : GenerateCall} (hcall : call.listRids = some rids)
    (m : TokenizerManager ω) : m.generateRequest call = m.createLoop.startList rids rids.length := by
  cases call with
  | single rid stream prepared => cases hcall
  | batch rids' numTexts prepared =>
      simp only [GenerateCall.listRids, Option.ite_none_right_eq_some, Option.some.injEq] at hcall
      rcases hcall with ⟨⟨rfl, hlen⟩, rfl⟩
      simp [TokenizerManager.generateRequest, hlen]
  | list rids' numTexts prepared =>
      simp only [GenerateCall.listRids, Option.ite_none_right_eq_some, Option.some.injEq] at hcall
      rcases hcall with ⟨⟨hprepared, hlen⟩, rfl⟩
      simp [TokenizerManager.generateRequest, hlen, Nat.min_eq_left hprepared]

/-- What text `j` has when the requests are sent. -/
theorem foldl_register_getElem? (hnodup : rids.Nodup) {j : ℕ} {rid : String}
    (hj : rids[j]? = some rid) (m : TokenizerManager ω) :
    (rids.foldl register m).Sent rid (m.numSent + j) ∧
      (rids.foldl register m).ridToState rid = some (m.numSent + j) ∧
      (rids.foldl register m).states (m.numSent + j) = ⟨[], false, false⟩ := by
  induction rids generalizing m j with
  | nil => simp at hj
  | cons head rest ih =>
      have hrest := List.nodup_cons.mp hnodup
      cases j with
      | zero =>
          have hhead : head = rid := by simpa using hj
          subst hhead
          have hfirst : (m.register head).Sent head m.numSent := by simp [TokenizerManager.Sent]
          have hs : Spares [head] m.numSent (m.register head)
              (rest.foldl register (m.register head)) := by
            refine Spares.registerAll (fun r hr hmem => ?_) (by simp)
            exact hrest.1 (List.mem_singleton.mp hmem ▸ hr)
          refine ⟨hs.sent hfirst, ?_, ?_⟩
          · simpa using hs.entry head (by simp)
          · simpa using hs.object 0 (by simp)
      | succ j =>
          have hnext := ih hrest.2 (j := j) (by simpa using hj) (m.register head)
          have hnum : (m.register head).numSent + j = m.numSent + (j + 1) := by
            simp only [register_numSent, send_numSent]
            omega
          rwa [hnum] at hnext

/-- The requests that are on their way when those of the texts are sent. -/
theorem foldl_register_flight (rids : List String) (m : TokenizerManager ω) {q : ℕ}
    (hq : (rids.foldl register m).outstanding q = true) :
    m.outstanding q = true ∧ (rids.foldl register m).rids q = m.rids q ∨
      m.numSent ≤ q ∧ q < m.numSent + rids.length := by
  induction rids generalizing m with
  | nil => exact Or.inl ⟨hq, rfl⟩
  | cons head rest ih =>
      simp only [List.length_cons]
      rcases ih (m.register head) hq with ⟨hout, hrids⟩ | hlater
      · by_cases hqn : q = m.numSent
        · exact Or.inr (by omega)
        · refine Or.inl ⟨by simpa [hqn] using hout, ?_⟩
          rw [List.foldl_cons, hrids]
          simp [hqn]
      · simp only [register_numSent, send_numSent] at hlater
        exact Or.inr (by omega)

/-- The requests of the texts are sent, and nothing has come yet. -/
theorem collecting_sent (hnodup : rids.Nodup) (hfree : ∀ rid ∈ rids, Free m rid)
    (hknown : Known m) (result : ℕ → ω) :
    Collecting rids m.numSent result 0 (rids.foldl register m) where
  le := Nat.zero_le _
  sent := fun _ _ hj => (foldl_register_getElem? hnodup hj m).1
  flight := by
    intro q hq rid hr hrid
    rcases foldl_register_flight rids m hq with ⟨hout, hrids⟩ | hwithin
    · exact absurd (hrids.symm.trans hrid) ((hfree rid hr).1 q hout)
    · exact hwithin
  taken := by
    intro j rid hj
    omega
  entry := fun _ _ _ hj => (foldl_register_getElem? hnodup hj m).2.1
  object := by
    intro j hj _
    have hnew := foldl_register_getElem? hnodup (List.getElem?_eq_getElem hj) m
    refine Or.inl ⟨hnew.2.2, fun d hd => ?_⟩
    rw [foldl_register_delivered] at hd
    have hlt := hknown.delivered_lt d hd
    omega

/-- A call on a list of texts, with fresh ids. -/
theorem Tracked.orderly (h : Tracked m) {call : GenerateCall} (hcall : call.listRids = some rids)
    (hnodup : rids.Nodup) (hfree : ∀ rid ∈ rids, Free m rid) (result : ℕ → ω) :
    Orderly rids m.numSent result m.nextCall (m.generateRequest call) := by
  have htracked := h.step (a := .generate call) rfl
  have hknown := (GoesOn.refl h.known).createLoop.known
  have hsent := collecting_sent (m := m.createLoop) hnodup hfree hknown result
  rcases hsent.collect hnodup with ⟨k, -, hat, hcollecting, -⟩
  simp only [List.drop_zero, Nat.add_zero, List.range_zero, List.map_nil] at hat hcollecting
  have hstart : m.generateRequest call =
      (collect rids m.numSent [] (rids.foldl register m.createLoop)).1.start
        (callAt rids m.numSent result k) := by
    rw [generateRequest_eq hcall, ← createLoop_numSent, ← hat]
    simp [TokenizerManager.startList]
  rw [hstart] at htracked ⊢
  refine
    { tracked := htracked
      started := by simp
      own_le := by simp
      sent := fun j rid hj => by
        simpa [TokenizerManager.Sent] using (foldl_register_getElem? hnodup hj m.createLoop).1
      others := ?_
      call := ?_ }
  · intro c hc x hx hmem
    refine (hfree x.1 hmem).2 c (List.mem_map_of_mem ?_)
    simpa [TokenizerManager.pending, hc] using hx
  · refine Or.inr ⟨k, hcollecting.spared (Spares.setCalls _ _), ?_⟩
    simp

namespace Orderly

variable {c : ℕ}

/-- What the call yields is in the order of the texts, and none of its ids is left. -/
theorem yielded (h : Orderly rids own result c t) {outputList : List ω}
    (hcall : t.calls c = .yielded outputList) :
    outputList = (List.range rids.length).map result ∧ ∀ rid ∈ rids, t.ridToState rid = none := by
  rcases h.call with hclosed | ⟨i, hi, hat⟩
  · simp [hclosed] at hcall
  · by_cases hlt : i < rids.length
    · rw [hat, callAt, List.drop_eq_getElem_cons hlt] at hcall
      cases hcall
    · rw [hat, hi.callAt_length hlt] at hcall
      cases hcall
      refine ⟨rfl, fun rid hr => ?_⟩
      rcases List.getElem?_of_mem hr with ⟨j, hj⟩
      have hjlt := (List.getElem?_eq_some_iff.mp hj).1
      exact (hi.taken j rid (by omega) hj).1

/-- When all the results have come, the call yields. -/
theorem yields (h : Orderly rids own result c t) (hnodup : rids.Nodup)
    (harrived : ∀ j < rids.length, ∃ d ∈ t.delivered, d.request = own + j)
    (hopen : t.calls c ≠ .closed) :
    t.calls c = .yielded ((List.range rids.length).map result) ∨
      ∃ u, t.resumeCall c = some u ∧ u.calls c = .yielded ((List.range rids.length).map result) := by
  rcases h.call with hclosed | ⟨i, hi, hat⟩
  · exact absurd hclosed hopen
  · have hset : ∀ j < rids.length, i ≤ j → (t.states (own + j)).event = true := by
      intro j hj hij
      rcases hi.object j hj hij with ⟨-, hnone⟩ | ⟨hstate, -⟩
      · rcases harrived j hj with ⟨d, hd, heq⟩
        exact absurd heq (hnone d hd)
      · simp [hstate]
    by_cases hlt : i < rids.length
    · rcases hi.resumeCall hnodup h.tracked.known hat hlt (hset i hlt le_rfl) with
        ⟨u, k, hu, hk, -, -, hstop⟩
      refine Or.inr ⟨_, hu, ?_⟩
      have hlen : ¬ k < rids.length := by
        intro hklt
        have hev := hset k hklt (hstop hklt).1
        rw [(hstop hklt).2] at hev
        cases hev
      simp [hk.callAt_length hlen]
    · exact Or.inl (by rw [hat, hi.callAt_length hlt])

end Orderly

/-- **Results are yielded in the order of the texts.** A call on a list of texts is made in any
state that is reached, with distinct ids that are not in use. Whatever other calls and messages
come in between, and in whatever order and grouping its own results do, the list it yields has the
result of each text at the text's position, and then none of its ids is in the dictionary. When
all of its results have arrived, it yields unless the client is gone. -/
theorem generateRequest_inOrder {before after : List (ManagerStep ω)} {call : GenerateCall}
    (hm : exec managerStep .init before = some m) (hcall : call.listRids = some rids)
    (hnodup : rids.Nodup) (hfree : ∀ rid ∈ rids, Free m rid)
    (helse : ∀ a ∈ after, Elsewhere rids a)
    (hresult : ∀ a ∈ after, ResultsOf m.numSent rids.length result a)
    (ht : exec managerStep (m.generateRequest call) after = some t) :
    (∀ outputList, t.calls m.nextCall = .yielded outputList →
      outputList = (List.range rids.length).map result ∧ ∀ rid ∈ rids, t.ridToState rid = none) ∧
    ((∀ j < rids.length, ∃ d ∈ t.delivered, d.request = m.numSent + j) →
      t.calls m.nextCall ≠ .closed →
      t.calls m.nextCall = .yielded ((List.range rids.length).map result) ∨
        ∃ u, t.resumeCall m.nextCall = some u ∧
          u.calls m.nextCall = .yielded ((List.range rids.length).map result) ∧
          ∀ rid ∈ rids, u.ridToState rid = none) := by
  have hstart := (Tracked.init.exec hm).orderly hcall hnodup hfree result
  have horderly : Orderly rids m.numSent result m.nextCall t :=
    exec_preserves (fun _ a ha _ hs hstep => hs.step hnodup (helse a ha) (hresult a ha) hstep)
      hstart ht
  refine ⟨fun outputList => horderly.yielded, fun harrived hopen => ?_⟩
  rcases horderly.yields hnodup harrived hopen with hyielded | ⟨u, hu, hyielded⟩
  · exact Or.inl hyielded
  · have hnext := horderly.step (a := .resume m.nextCall) hnodup trivial trivial hu
    exact Or.inr ⟨u, hu, hyielded, (hnext.yielded hyielded).2⟩

/-- A manager with an open stream. -/
def streaming : TokenizerManager String :=
  TokenizerManager.init.generateRequest (.single (.str "c") true true)

/-- The results of two texts come the other way round, and the stream gets one in between. -/
def reversed : List (ManagerStep String) :=
  [.receive [⟨2, "y", true⟩, ⟨0, "z", false⟩], .resume 0, .receive [⟨1, "x", true⟩], .resume 1]

theorem generateRequest_inOrder_reversed :
    ∃ t, exec managerStep (streaming.generateRequest (.batch ["a", "b"] 2 true)) reversed = some t ∧
      t.calls 1 = .yielded ["x", "y"] ∧ ∀ rid ∈ ["a", "b"], t.ridToState rid = none := by
  have hyield : (exec managerStep (streaming.generateRequest (.batch ["a", "b"] 2 true)) reversed).map
      (fun t => t.calls 1) = some (.yielded ["x", "y"]) := rfl
  rcases Option.map_eq_some_iff.mp hyield with ⟨t, ht, hcall⟩
  have hfree : ∀ rid ∈ ["a", "b"], Free streaming rid := by
    intro rid hr
    have hrid : rid ≠ "c" := by
      rcases (by simpa using hr : rid = "a" ∨ rid = "b") with rfl | rfl <;> decide
    constructor
    · intro q _
      cases q with
      | zero =>
          simpa [streaming, TokenizerManager.generateRequest, TokenizerManager.init] using hrid.symm
      | succ q => simp [streaming, TokenizerManager.generateRequest, TokenizerManager.init]
    · intro c
      cases c with
      | zero => simpa [streaming, TokenizerManager.generateRequest, TokenizerManager.init,
          CallState.pending] using hrid
      | succ c => simp [streaming, TokenizerManager.generateRequest, TokenizerManager.init,
          CallState.pending]
  have hresult : ∀ a ∈ reversed, ResultsOf 1 2 (fun j => if j = 0 then "x" else "y") a := by
    simp only [reversed, ResultsOf, List.forall_mem_cons, List.not_mem_nil, false_implies,
      implies_true, and_true, true_and]
    decide
  have hstreaming : exec managerStep .init [.generate (.single (.str "c") true true)] =
      some streaming := rfl
  have hrun := generateRequest_inOrder hstreaming rfl (by decide) hfree (by simp [reversed, Elsewhere])
    hresult ht
  exact ⟨t, ht, hcall, (hrun.1 _ hcall).2⟩

end HarvestMoE
