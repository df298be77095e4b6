import HarvestMoE.Dispatcher

/-!
# The last chunk of a stream

Behind its `yield` a stream empties its list of chunks, whatever has come into it meanwhile, and
ends if the last of them was finished. A last message that comes in while the stream is at its
`yield` is lost, and one that finds it at its `await` is what it gives out next
(`stream_lastChunk_iff`).

## Main definitions

* `Stream`, `streamStep` — the manager, and what the consumer of a stream has received.
* `Streaming` — where a stream can be while messages come.
* `Drains` — the last message is there, and the last chunk is known.
-/

namespace HarvestMoE

open Lib TokenizerManager

variable {ω : Type*}

inductive StreamStep (ω : Type*)
  /-- A `BatchStrOut` for the id. -/
  | message (out : ω) (finished : Bool)
  | resume

structure Stream (ω : Type*) where
  manager : TokenizerManager ω
  received : List ω

/-- The generator has returned or raised. -/
def CallState.ended : CallState ω → Bool
  | .raised | .closed => true
  | _ => false

/-- What a stream yields if it wakes. -/
def TokenizerManager.chunk (m : TokenizerManager ω) (c : ℕ) : Option ω :=
  match m.calls c with
  | .waiting _ own _ => (m.states own).outList.getLast?
  | _ => none

/-- A message for the request `own`, or a step of the call `c`. Messages come also behind one
that says it is finished. -/
def streamStep (own c : ℕ) (s : Stream ω) : StreamStep ω → Option (Stream ω)
  | .message out finished =>
      let m := { s.manager with outstanding := Function.update s.manager.outstanding own true }
      (m.receive [⟨own, out, finished⟩]).map fun m => { s with manager := m }
  | .resume =>
      (s.manager.resumeCall c).map fun m =>
        { manager := m, received := s.received ++ (s.manager.chunk c).toList }

/-- A stream is asked for. -/
def Stream.start (m : TokenizerManager ω) (rid : String) : Stream ω where
  manager := m.generateRequest (.single (.str rid) true true)
  received := []

/-- The stream holds its id and its object: it waits, or is at its `yield`. -/
structure Open (rid : String) (own c : ℕ) (m : TokenizerManager ω) : Prop where
  running : m.loop = .running
  entry : m.ridToState rid = some own
  call : m.calls c = .waiting rid own true ∧
      ((m.states own).event = true → (m.states own).outList ≠ []) ∨
    m.calls c = .suspended rid own

/-- Where a stream can be while messages come. -/
structure Streaming (rid : String) (own c : ℕ) (m : TokenizerManager ω) : Prop where
  rids : m.rids own = .str rid
  phase : Open rid own c m ∨ m.calls c = .closed

section Stream

variable {rid : String} {own c : ℕ} {s t : Stream ω}

/-- A message that reaches the object of its request. -/
structure Appends (own : ℕ) (out : ω) (finished : Bool) (s t : Stream ω) : Prop where
  object : t.manager.states own = ⟨(s.manager.states own).outList ++ [out], finished, true⟩
  loop : t.manager.loop = s.manager.loop
  rids : t.manager.rids = s.manager.rids
  ridToState : t.manager.ridToState = s.manager.ridToState
  calls : t.manager.calls = s.manager.calls
  received : t.received = s.received

/-- `handle_loop` finds the object of an open stream. -/
theorem message_open (hrids : s.manager.rids own = .str rid) (hopen : Open rid own c s.manager)
    (out : ω) (finished : Bool) :
    ∃ t, streamStep own c s (.message out finished) = some t ∧ Appends own out finished s t := by
  simp only [streamStep, receive, deliver, exec_cons, exec_nil, Function.update_self, hopen.running,
    hopen.entry, hrids, if_true, Option.bind_some, Option.map_some, Option.some.injEq,
    exists_eq_left']
  exact ⟨by simp, hopen.running.symm, rfl, rfl, rfl, rfl⟩

/-- A message can come at any time. -/
theorem message_isSome (own c : ℕ) (s : Stream ω) (out : ω) (finished : Bool) :
    ∃ t, streamStep own c s (.message out finished) = some t := by
  simp only [streamStep, receive, deliver, exec_cons, exec_nil, Function.update_self, if_true]
  split_ifs
  · cases s.manager.rids own with
    | list rids => simp
    | str rid => cases hentry : s.manager.ridToState rid <;> simp [hentry]
  · simp

/-- A message leaves the calls where they are. -/
theorem message_frame {out : ω} {finished : Bool}
    (ht : streamStep own c s (.message out finished) = some t) :
    t.manager.rids = s.manager.rids ∧ t.manager.calls = s.manager.calls ∧
      t.received = s.received := by
  have ⟨m, hm, hmt⟩ := Option.map_eq_some_iff.mp ht
  subst hmt
  rcases (deliver_cases (by simpa [receive] using hm)).2 with ⟨loop, hloop⟩ | ⟨rid, q, _, _, hput⟩
  · exact ⟨by rw [hloop], by rw [hloop], rfl⟩
  · exact ⟨by rw [hput]; rfl, by rw [hput]; rfl, rfl⟩

namespace Streaming

theorem start (m : TokenizerManager ω) (hloop : m.loop ≠ .dead) (rid : String) :
    Streaming rid m.numSent m.nextCall (Stream.start m rid).manager := by
  have hrunning : m.createLoop.loop = .running := by
    cases hm : m.loop <;> simp_all
  refine ⟨by simp [Stream.start, generateRequest], Or.inl ⟨?_, ?_, Or.inl ⟨?_, ?_⟩⟩⟩
  · simpa [Stream.start, generateRequest] using hrunning
  all_goals simp [Stream.start, generateRequest]

theorem message (h : Streaming rid own c s.manager) {out : ω} {finished : Bool}
    (ht : streamStep own c s (.message out finished) = some t) :
    Streaming rid own c t.manager := by
  rcases h.phase with hopen | hclosed
  · have ⟨u, hu, happ⟩ := message_open h.rids hopen out finished
    obtain rfl : u = t := Option.some.inj (hu.symm.trans ht)
    refine ⟨by rw [happ.rids, h.rids], Or.inl ⟨?_, ?_, ?_⟩⟩
    · rw [happ.loop, hopen.running]
    · rw [happ.ridToState, hopen.entry]
    · rw [happ.calls, happ.object]
      exact hopen.call.imp (fun hwait => ⟨hwait.1, fun _ => by simp⟩) id
  · have ⟨hrids, hcalls, _⟩ := message_frame ht
    exact ⟨by rw [hrids, h.rids], Or.inr (by rw [hcalls, hclosed])⟩

theorem resume (h : Streaming rid own c s.manager) (ht : streamStep own c s .resume = some t) :
    Streaming rid own c t.manager := by
  obtain ⟨m, hm, hmt⟩ := Option.map_eq_some_iff.mp ht
  subst hmt
  rcases h.phase with hopen | hclosed
  · rcases hopen.call with ⟨hwait, hchunk⟩ | hyield
    · cases hev : (s.manager.states own).event with
      | false => simp [resumeCall, hwait, hev] at hm
      | true =>
          obtain ⟨out, hlast⟩ := Option.ne_none_iff_exists'.mp
            (mt List.getLast?_eq_none_iff.mp (hchunk hev))
          simp only [resumeCall, hwait, hev, hlast, if_true, Option.some.injEq] at hm
          subst hm
          exact ⟨h.rids, Or.inl ⟨hopen.running, hopen.entry, Or.inr (by simp)⟩⟩
    · cases hfin : (s.manager.states own).finished with
      | true =>
          simp only [resumeCall, hyield, hfin, if_true, setState_ridToState, hopen.entry,
            Option.some.injEq] at hm
          subst hm
          exact ⟨h.rids, Or.inr (by simp)⟩
      | false =>
          simp only [resumeCall, hyield, hfin, Bool.false_eq_true, if_false,
            Option.some.injEq] at hm
          subst hm
          exact ⟨h.rids, Or.inl ⟨hopen.running, hopen.entry, Or.inl (by simp)⟩⟩
  · simp [resumeCall, hclosed] at hm

theorem exec {steps : List (StreamStep ω)} (h : Streaming rid own c s.manager)
    (ht : exec (streamStep own c) s steps = some t) : Streaming rid own c t.manager := by
  refine exec_preserves (I := fun s => Streaming rid own c s.manager) ?_ h ht
  intro s a _ t hs hst
  cases a with
  | message out finished => exact hs.message hst
  | resume => exact hs.resume hst

end Streaming

/-- The last message has come. The stream ends when the consumer has gone on `n` times, and
`last` is what it has received last by then. -/
inductive Drains (rid : String) (own c : ℕ) (last : Option ω) (s : Stream ω) : ℕ → Prop
  | waiting (out : ω) (hcall : s.manager.calls c = .waiting rid own true)
      (hentry : s.manager.ridToState rid = some own) (hfin : (s.manager.states own).finished = true)
      (hevent : (s.manager.states own).event = true) (hlast : last = some out)
      (hchunk : (s.manager.states own).outList.getLast? = some out) : Drains rid own c last s 2
  | suspended (hcall : s.manager.calls c = .suspended rid own)
      (hentry : s.manager.ridToState rid = some own) (hfin : (s.manager.states own).finished = true)
      (hlast : s.received.getLast? = last) : Drains rid own c last s 1
  | closed (hcall : s.manager.calls c = .closed) (hlast : s.received.getLast? = last) :
      Drains rid own c last s 0

/-- The last message decides which chunk is the last. -/
theorem Streaming.drains (h : Streaming rid own c s.manager) (out : ω) :
    ∃ t n, streamStep own c s (.message out true) = some t ∧
      Drains rid own c
        (if (s.manager.calls c).awaits.isSome then some out else s.received.getLast?) t n := by
  rcases h.phase with hopen | hclosed
  · obtain ⟨t, ht, happ⟩ := message_open h.rids hopen out true
    have hentry : t.manager.ridToState rid = some own := by rw [happ.ridToState, hopen.entry]
    rcases hopen.call with ⟨hwait, _⟩ | hyield
    · refine ⟨t, 2, ht, .waiting out ?_ hentry ?_ ?_ ?_ ?_⟩
      · rw [happ.calls, hwait]
      · rw [happ.object]
      · rw [happ.object]
      · simp [hwait, CallState.awaits]
      · simp [happ.object]
    · refine ⟨t, 1, ht, .suspended ?_ hentry ?_ ?_⟩
      · rw [happ.calls, hyield]
      · rw [happ.object]
      · simp [hyield, CallState.awaits, happ.received]
  · obtain ⟨t, ht⟩ := message_isSome own c s out true
    obtain ⟨_, hcalls, hreceived⟩ := message_frame ht
    refine ⟨t, 0, ht, .closed ?_ ?_⟩
    · rw [hcalls, hclosed]
    · simp [hclosed, CallState.awaits, hreceived]

namespace Drains

variable {last : Option ω} {n : ℕ}

theorem resume (h : Drains rid own c last s (n + 1)) :
    ∃ t, streamStep own c s .resume = some t ∧ Drains rid own c last t n := by
  cases h with
  | waiting out hcall hentry hfin hevent hlast hchunk =>
      simp only [streamStep, resumeCall, hcall, hevent, hchunk, if_true, Option.map_some,
        Option.some.injEq, exists_eq_left', chunk]
      exact .suspended (by simp) hentry hfin (by simp [hlast])
  | suspended hcall hentry hfin hlast =>
      simp only [streamStep, resumeCall, hcall, hfin, if_true, setState_ridToState, hentry,
        Option.map_some, Option.some.injEq, exists_eq_left', chunk]
      exact .closed (by simp) (by simpa using hlast)

/-- The stream ends. -/
theorem ends (h : Drains rid own c last s n) : ∃ t,
    exec (streamStep own c) s (List.replicate n .resume) = some t ∧
      (t.manager.calls c).ended = true := by
  induction n generalizing s with
  | zero =>
      cases h with
      | closed hcall hlast => exact ⟨s, rfl, by simp [hcall, CallState.ended]⟩
  | succ n ih =>
      have ⟨u, hu, hdrains⟩ := h.resume
      have ⟨t, ht, hended⟩ := ih hdrains
      exact ⟨t, by rw [List.replicate_succ, exec_cons, hu]; exact ht, hended⟩

/-- However often the consumer has gone on when the stream has ended, it has the last chunk. -/
theorem received {k : ℕ} (h : Drains rid own c last s n)
    (ht : exec (streamStep own c) s (List.replicate k .resume) = some t)
    (hended : (t.manager.calls c).ended = true) : t.received.getLast? = last := by
  induction k generalizing s n with
  | zero =>
      obtain rfl : s = t := by simpa using ht
      cases h with
      | waiting out hcall => simp [hcall, CallState.ended] at hended
      | suspended hcall => simp [hcall, CallState.ended] at hended
      | closed hcall hlast => exact hlast
  | succ k ih =>
      obtain ⟨u, hu, ht⟩ := Option.bind_eq_some_iff.mp ht
      cases n with
      | zero =>
          cases h with
          | closed hcall => simp [streamStep, resumeCall, hcall] at hu
      | succ n =>
          obtain ⟨v, hv, hdrains⟩ := h.resume
          obtain rfl : v = u := Option.some.inj (hv.symm.trans hu)
          exact ih hdrains ht

end Drains

end Stream

/-- **When the last chunk arrives.** Messages come and the consumer goes on, in any order, up to
a last message that is finished. The stream then ends, and the consumer has received the output
of the last message last just when the stream was at its `await` as it came, or had given out an
equal chunk before. -/
theorem stream_lastChunk_iff (m : TokenizerManager ω) (hloop : m.loop ≠ .dead) (rid : String)
    (pre : List (StreamStep ω)) (out : ω) {s : Stream ω}
    (hs : exec (streamStep m.numSent m.nextCall) (.start m rid) pre = some s) :
    (∃ n t, exec (streamStep m.numSent m.nextCall) s
        (.message out true :: List.replicate n .resume) = some t ∧
      (t.manager.calls m.nextCall).ended = true) ∧
    ∀ n t, exec (streamStep m.numSent m.nextCall) s
        (.message out true :: List.replicate n .resume) = some t →
      (t.manager.calls m.nextCall).ended = true →
        (t.received.getLast? = some out ↔
          (s.manager.calls m.nextCall).awaits.isSome = true ∨ s.received.getLast? = some out) := by
  have hstreaming := (Streaming.start m hloop rid).exec hs
  have ⟨u, k, hu, hdrains⟩ := hstreaming.drains out
  constructor
  · have ⟨t, ht, hended⟩ := hdrains.ends
    exact ⟨k, t, by rw [exec_cons, hu]; exact ht, hended⟩
  · intro n t ht hended
    rw [exec_cons, hu] at ht
    rw [hdrains.received ht hended]
    cases (s.manager.calls m.nextCall).awaits.isSome with
    | true => simp
    | false => simp

/-- A message, the last message while the stream waits again, and its end. -/
theorem stream_lastChunk_awaited : ∃ t, exec (streamStep 0 0) (.start .init "a")
    [.message "x" false, .resume, .resume, .message "y" true, .resume, .resume] = some t ∧
      t.received.getLast? = some "y" := by
  refine ⟨_, rfl, ((stream_lastChunk_iff .init (by decide) "a"
    [.message "x" false, .resume, .resume] "y" rfl).2 2 _ rfl rfl).mpr (Or.inl rfl)⟩

/-- The last message comes while the stream is at its `yield`. -/
theorem stream_lastChunk_lost : ¬ ∀ (steps : List (StreamStep String)) (out : String) (n : ℕ)
    (t : Stream String), exec (streamStep 0 0) (.start .init "a")
      (steps ++ .message out true :: List.replicate n .resume) = some t →
    (t.manager.calls 0).ended = true → t.received.getLast? = some out := by
  intro h
  have hlast := h [.message "x" false, .resume] "y" 1 _ rfl rfl
  revert hlast
  decide

end HarvestMoE
