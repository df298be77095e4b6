import HarvestMoE.AnsweredOnce

/-!
# The path of a message

A request goes from the tokenizer process to the router process, which collects what has come
while the model was busy and hands it over as one list. The answers go to the detokenizer process
and from there back to the tokenizer process. The processes run at their own pace. In whatever
order they take their steps, and wherever the model raises, no request is answered twice, and the
processes stop once nothing more is sent, with nothing on its way; and while nothing is raised the
answers are those of the requests one after the other, in the order in which they were sent
(`messagePath_answers`).

## Main definitions

* `RouterMsg` — the requests, and the batch that the router makes of a single one.
* `detokenize` — the texts of an answer.
* `MessagePath`, `pathStep` — the processes with the messages between them, and their steps.
* `MessagePath.Quiet` — nothing is on its way.
* `MessagePath.Works`, `MessagePath.stepsLeft` — a step that is no idle turn, and a bound on these.
-/

namespace HarvestMoE

open Lib

variable {κ α : Type*}

section Router

/-- `TokenizedGenerateReqInput` or `BatchTokenizedGenerateReqInput`. -/
inductive RouterMsg
  | single (rid : String) (inputIds : List ℕ) (samplingParams : SamplingParams)
  | batch (req : BatchTokenizedGenerateReqInput)

/-- The batch that `loop_for_forward` makes of a message. -/
def RouterMsg.toBatch : RouterMsg → BatchTokenizedGenerateReqInput
  | .single rid inputIds samplingParams => ⟨[rid], [inputIds], samplingParams⟩
  | .batch req => req

/-- A message, with what the network will compute for it, and the part of its batch in which an
exception will strike, if one does. -/
structure Sent (κ : Type*) where
  msg : RouterMsg
  env : BatchEnv κ
  fault : Option ℕ

/-- What the model server gets of it. -/
def Sent.recvReq (x : Sent κ) : RecvReq κ := .batch x.msg.toBatch x.env x.fault

def Sent.rids (x : Sent κ) : List String := x.msg.toBatch.rid

end Router

section Detokenizer

/-- The tokenizer, as far as the detokenizer process calls it. -/
structure Detokenizer where
  /-- `batch_decode` on one output, by `skip_special_tokens`. -/
  decode : Bool → List ℕ → List Char
  /-- `convert_ids_to_tokens`, where it gives bytes with these decoded. -/
  convertIdsToTokens : ℕ → List Char

/-- `BatchStrOut` -/
structure BatchStrOut where
  rids : List String
  outputStr : List (List Char)
  metaInfo : List MetaInfo
  finished : List Bool
  deriving DecidableEq, Repr

/-- `str.find`, nothing for -1. -/
def findStr (s sub : List Char) : Option ℕ :=
  (List.range (s.length + 1)).find? fun pos => sub.isPrefixOf (s.drop pos)

/-- The text of one output. -/
def outputText (tok : Detokenizer) (skipSpecialTokens : Bool) (tokens : List ℕ)
    (hitStopStr : Option String) : List Char :=
  let text := tok.decode skipSpecialTokens tokens
  let text :=
    match hitStopStr with
    | none => text
    | some stop =>
        match findStr text stop.toList with
        | none => text
        | some pos => text.take pos
  match tokens with
  | [] => text
  | token :: _ => if (tok.convertIdsToTokens token).head? = some '▁' then ' ' :: text else text

/-- The body of `handle_loop` of the detokenizer. It raises on an answer without outputs, or with
fewer stop strings. -/
def detokenize (tok : Detokenizer) (out : BatchTokenIDOut) : Option BatchStrOut :=
  out.skipSpecialTokens.head?.bind fun skip =>
    if out.outputTokens.length ≤ out.hitStopStr.length then
      some
        { rids := out.rids
          outputStr := List.zipWith (outputText tok skip) out.outputTokens out.hitStopStr
          metaInfo := out.metaInfo
          finished := out.finished }
    else none

end Detokenizer

section Path

/-- The processes and the messages between them. -/
structure MessagePath (κ α : Type*) where
  toRouter : List (Sent κ)
  recvReqs : List (Sent κ)
  /-- The list that the model works on, if it does. -/
  nextStepInput : Option (List (RecvReq κ))
  server : Server κ α
  toDetokenizer : List BatchTokenIDOut
  toTokenizer : List BatchStrOut
  /-- What `handle_loop` of the tokenizer process has received. -/
  delivered : List BatchStrOut

/-- The processes as they start. -/
def MessagePath.start (server : Server κ α) : MessagePath κ α where
  toRouter := []
  recvReqs := []
  nextStepInput := none
  server := server
  toDetokenizer := []
  toTokenizer := []
  delivered := []

/-- Nothing is on its way. -/
def MessagePath.Quiet (p : MessagePath κ α) : Prop :=
  p.toRouter = [] ∧ p.recvReqs = [] ∧ p.nextStepInput = none ∧ p.toDetokenizer = [] ∧
    p.toTokenizer = []

instance (p : MessagePath κ α) : Decidable p.Quiet :=
  decidable_of_iff (p.toRouter.isEmpty ∧ p.recvReqs.isEmpty ∧ p.nextStepInput.isNone ∧
    p.toDetokenizer.isEmpty ∧ p.toTokenizer.isEmpty) (by simp [MessagePath.Quiet])

/-- A step of one of the processes. -/
inductive PathAct (κ : Type*)
  /-- `generate_request` sends a message. -/
  | send (x : Sent κ)
  /-- `loop_for_recv_requests` -/
  | recv
  /-- `loop_for_forward`, up to the call of the model. -/
  | take
  /-- The rest of it, behind the call. -/
  | finish
  /-- `handle_loop` of the detokenizer. -/
  | detokenize
  /-- `handle_loop` of the tokenizer process. -/
  | deliver

def pathStep (cfg : ServeConfig) (tok : Detokenizer) (p : MessagePath κ α) :
    PathAct κ → Option (MessagePath κ α)
  | .send x => some { p with toRouter := p.toRouter ++ [x] }
  | .recv =>
      match p.toRouter with
      | [] => none
      | x :: rest => some { p with toRouter := rest, recvReqs := p.recvReqs ++ [x] }
  | .take =>
      match p.nextStepInput with
      | some _ => none
      | none => some { p with nextStepInput := some (p.recvReqs.map Sent.recvReq), recvReqs := [] }
  | .finish =>
      p.nextStepInput.map fun recvReqs =>
        let answered := exposedStep cfg p.server recvReqs
        { p with
          nextStepInput := none
          server := answered.2.1
          toDetokenizer := p.toDetokenizer ++ answered.1 }
  | .detokenize =>
      match p.toDetokenizer with
      | [] => none
      | out :: rest => (detokenize tok out).map fun str =>
          { p with toDetokenizer := rest, toTokenizer := p.toTokenizer ++ [str] }
  | .deliver =>
      match p.toTokenizer with
      | [] => none
      | str :: rest => some { p with toTokenizer := rest, delivered := p.delivered ++ [str] }

/-- The messages of a run, in the order in which they are sent. -/
def sentBy (acts : List (PathAct κ)) : List (Sent κ) :=
  acts.filterMap fun
    | .send x => some x
    | _ => none

/-- Some further steps, none of which sends a message. -/
def Continues (cfg : ServeConfig) (tok : Detokenizer) (p q : MessagePath κ α) : Prop :=
  ∃ acts, sentBy acts = [] ∧ exec (pathStep cfg tok) p acts = some q

@[simp] theorem sentBy_nil : sentBy ([] : List (PathAct κ)) = [] := rfl

theorem sentBy_cons (a : PathAct κ) (acts : List (PathAct κ)) :
    sentBy (a :: acts) = sentBy [a] ++ sentBy acts := by
  cases a <;> rfl

theorem sentBy_append (acts bcts : List (PathAct κ)) :
    sentBy (acts ++ bcts) = sentBy acts ++ sentBy bcts := List.filterMap_append

end Path

section Once

variable {cfg : ServeConfig} {tok : Detokenizer} {p q : MessagePath κ α}

@[simp] theorem recvReq_rids (x : Sent κ) : x.recvReq.rids = x.rids := rfl

theorem detokenize_rids {out : BatchTokenIDOut} {str : BatchStrOut}
    (h : detokenize tok out = some str) : str.rids = out.rids := by
  rcases Option.bind_eq_some_iff.mp h with ⟨skip, -, h⟩
  split_ifs at h
  rw [← Option.some.inj h]

/-- The ids of all messages, those that have been delivered included. -/
def MessagePath.rids (p : MessagePath κ α) : List String :=
  p.delivered.flatMap BatchStrOut.rids ++ p.toTokenizer.flatMap BatchStrOut.rids ++
    p.toDetokenizer.flatMap BatchTokenIDOut.rids ++ p.server.rids ++
      (p.nextStepInput.getD []).flatMap RecvReq.rids ++ p.recvReqs.flatMap Sent.rids ++
        p.toRouter.flatMap Sent.rids

/-- A step makes no id but those it sends. -/
theorem pathStep_rids {a : PathAct κ} (h : pathStep cfg tok p a = some q) :
    q.rids.Subperm (p.rids ++ (sentBy [a]).flatMap Sent.rids) := by
  cases a with
  | send x =>
      obtain rfl := Option.some.inj h
      simp [MessagePath.rids, sentBy, List.Subperm.refl]
  | recv =>
      cases hr : p.toRouter with
      | nil => simp [pathStep, hr] at h
      | cons x rest =>
          simp only [pathStep, hr] at h
          obtain rfl := Option.some.inj h
          simp [MessagePath.rids, sentBy, hr, List.Subperm.refl]
  | take =>
      cases hn : p.nextStepInput with
      | some recvReqs => simp [pathStep, hn] at h
      | none =>
          simp only [pathStep, hn] at h
          obtain rfl := Option.some.inj h
          simp [MessagePath.rids, sentBy, hn, List.flatMap_map, List.Subperm.refl]
  | finish =>
      obtain ⟨recvReqs, hn, rfl⟩ := Option.map_eq_some_iff.mp h
      have hstep := exposedStep_rids cfg p.server recvReqs
      simp only [MessagePath.rids, sentBy, hn, Option.getD_some, Option.getD_none,
        List.flatMap_append, List.flatMap_nil, List.append_nil, List.append_assoc,
        List.filterMap_cons, List.filterMap_nil]
      refine (List.subperm_append_left _).mpr ((List.subperm_append_left _).mpr
        ((List.subperm_append_left _).mpr ?_))
      simpa only [List.append_assoc] using (List.subperm_append_right
        (p.recvReqs.flatMap Sent.rids ++ p.toRouter.flatMap Sent.rids)).mpr hstep
  | detokenize =>
      cases hd : p.toDetokenizer with
      | nil => simp [pathStep, hd] at h
      | cons out rest =>
          simp only [pathStep, hd] at h
          obtain ⟨str, hstr, rfl⟩ := Option.map_eq_some_iff.mp h
          simp [MessagePath.rids, sentBy, hd, detokenize_rids hstr, List.Subperm.refl]
  | deliver =>
      cases ht : p.toTokenizer with
      | nil => simp [pathStep, ht] at h
      | cons str rest =>
          simp only [pathStep, ht] at h
          obtain rfl := Option.some.inj h
          simp [MessagePath.rids, sentBy, ht, List.Subperm.refl]

/-- A run makes no id but those it sends. -/
theorem path_rids {acts : List (PathAct κ)} (h : exec (pathStep cfg tok) p acts = some q) :
    q.rids.Subperm (p.rids ++ (sentBy acts).flatMap Sent.rids) := by
  induction acts generalizing p with
  | nil =>
      obtain rfl : p = q := by simpa using h
      simp [List.Subperm.refl]
  | cons a acts ih =>
      obtain ⟨u, hu, h⟩ := Option.bind_eq_some_iff.mp h
      rw [sentBy_cons, List.flatMap_append, ← List.append_assoc]
      exact (ih h).trans ((List.subperm_append_right _).mpr (pathStep_rids hu))

end Once

section Ready

variable {cfg : ServeConfig} {tok : Detokenizer} {p q : MessagePath κ α}

/-- The answer has outputs, with their ids, and a stop string or none for each of them. -/
structure BatchTokenIDOut.Ready (out : BatchTokenIDOut) : Prop where
  rids : out.rids ≠ []
  skipSpecialTokens : out.skipSpecialTokens ≠ []
  hitStopStr : out.outputTokens.length ≤ out.hitStopStr.length

theorem exists_detokenize (tok : Detokenizer) {out : BatchTokenIDOut} (h : out.Ready) :
    ∃ str, detokenize tok out = some str := by
  obtain ⟨skip, hskip⟩ : ∃ skip, out.skipSpecialTokens.head? = some skip :=
    ⟨_, List.head?_eq_some_head h.skipSpecialTokens⟩
  exact ⟨_, by rw [detokenize, hskip, Option.bind_some, if_pos h.hitStopStr]⟩

/-- An answer is sent for requests that there are. -/
theorem reportFinished_ready {reqs : List Req} {tokens : Req → List ℕ}
    {outs : List BatchTokenIDOut} (h : ∀ out ∈ outs, out.Ready) :
    ∀ out ∈ reportFinished reqs tokens outs, out.Ready := by
  simp only [reportFinished]
  split_ifs with hdone
  · exact h
  · intro out hout
    rcases List.mem_append.mp hout with hout | hout
    · exact h out hout
    · obtain rfl := List.mem_singleton.mp hout
      exact ⟨fun hnil => hdone (List.map_eq_nil_iff.mp hnil),
        fun hnil => hdone (List.map_eq_nil_iff.mp hnil), by simp⟩

theorem serveStep_ready {env : BatchEnv κ} {s t : Server κ α} {c : ServeCall}
    (hs : ∀ out ∈ s.outPyobjs, out.Ready) (h : serveStep cfg env s c = some t) :
    ∀ out ∈ t.outPyobjs, out.Ready := by
  cases c with
  | handleAbortedRequests =>
      obtain rfl := Option.some.inj h
      exact reportFinished_ready hs
  | handleFinishedRequests k =>
      obtain ⟨reqs, -, rfl⟩ := Option.map_eq_some_iff.mp h
      exact reportFinished_ready hs
  | allocCpu => rwa [(serveStep_middle (Or.inl rfl) h).2]
  | prepareForPrefill k => rwa [(serveStep_middle (Or.inr (Or.inl ⟨k, rfl⟩)) h).2]
  | forward c => rwa [(serveStep_middle (Or.inr (Or.inr ⟨c, rfl⟩)) h).2]
  | _ =>
      obtain rfl := Option.some.inj h
      exact hs

/-- Whatever the list raises, its answers can be turned into text. -/
theorem serveLoop_ready (cfg : ServeConfig) {s : Server κ α} (recvReqs : List (RecvReq κ))
    (hs : ∀ out ∈ s.outPyobjs, out.Ready) :
    ∀ out ∈ (serveLoop cfg s recvReqs).1.outPyobjs, out.Ready := by
  induction recvReqs generalizing s with
  | nil => exact hs
  | cons r rest ih =>
      cases r with
      | invalid => exact hs
      | batch recvReq env fault =>
          have hran : ∀ out ∈ (runBatch cfg env fault
              (handleBatchGenerateRequest cfg recvReq s).1).1.outPyobjs, out.Ready := by
            obtain ⟨bs, -, hexec⟩ := runBatch_prefix cfg env fault
              (handleBatchGenerateRequest cfg recvReq s).1
            exact exec_preserves (I := fun t : Server κ α => ∀ out ∈ t.outPyobjs, out.Ready)
              (fun _ _ _ _ ht hu => serveStep_ready ht hu) (show ∀ out ∈
                (handleBatchGenerateRequest cfg recvReq s).1.outPyobjs, out.Ready from hs) hexec
          simp only [serveLoop]
          split_ifs
          · exact hs
          · exact hran
          · exact ih (by rwa [(flushCache_frame _).2.1])

/-- The detokenizer process can work on whatever it is sent. -/
structure MessagePath.Ready (p : MessagePath κ α) : Prop where
  out_ready : ∀ out ∈ p.toDetokenizer, out.Ready
  outPyobjs_eq : p.server.outPyobjs = []

theorem pathStep_ready {a : PathAct κ} (hp : p.Ready) (h : pathStep cfg tok p a = some q) :
    q.Ready := by
  cases a with
  | send x =>
      obtain rfl := Option.some.inj h
      exact ⟨hp.out_ready, hp.outPyobjs_eq⟩
  | recv =>
      simp only [pathStep] at h
      split at h
      · simp at h
      · obtain rfl := Option.some.inj h
        exact ⟨hp.out_ready, hp.outPyobjs_eq⟩
  | take =>
      simp only [pathStep] at h
      split at h
      · simp at h
      · obtain rfl := Option.some.inj h
        exact ⟨hp.out_ready, hp.outPyobjs_eq⟩
  | finish =>
      obtain ⟨recvReqs, -, rfl⟩ := Option.map_eq_some_iff.mp h
      refine ⟨fun out hout => ?_, rfl⟩
      rcases List.mem_append.mp hout with hout | hout
      · exact hp.out_ready out hout
      · exact serveLoop_ready cfg recvReqs (by simp [hp.outPyobjs_eq]) out hout
  | detokenize =>
      simp only [pathStep] at h
      split at h
      · simp at h
      · rename_i out rest hd
        obtain ⟨str, -, rfl⟩ := Option.map_eq_some_iff.mp h
        exact ⟨fun o ho => hp.out_ready o (hd ▸ List.mem_cons_of_mem _ ho), hp.outPyobjs_eq⟩
  | deliver =>
      simp only [pathStep] at h
      split at h
      · simp at h
      · obtain rfl := Option.some.inj h
        exact ⟨hp.out_ready, hp.outPyobjs_eq⟩

theorem path_ready {acts : List (PathAct κ)} (hp : p.Ready)
    (h : exec (pathStep cfg tok) p acts = some q) : q.Ready :=
  exec_preserves (fun _ _ _ _ hu hv => pathStep_ready hu hv) hp h

end Ready

section Quiet

variable {cfg : ServeConfig} {tok : Detokenizer} {p q r : MessagePath κ α}

theorem Continues.refl (p : MessagePath κ α) : Continues cfg tok p p := ⟨[], rfl, rfl⟩

theorem Continues.trans (h₁ : Continues cfg tok p q) (h₂ : Continues cfg tok q r) :
    Continues cfg tok p r := by
  obtain ⟨acts, hacts, hq⟩ := h₁
  obtain ⟨bcts, hbcts, hr⟩ := h₂
  refine ⟨acts ++ bcts, by rw [sentBy_append, hacts, hbcts, List.append_nil], ?_⟩
  rw [exec_append, hq, Option.bind_some, hr]

theorem Continues.step {a : PathAct κ} (ha : sentBy [a] = []) (h : pathStep cfg tok p a = some q) :
    Continues cfg tok p q := ⟨[a], ha, by simp [h]⟩

theorem Continues.ready (hp : p.Ready) (h : Continues cfg tok p q) : q.Ready := by
  obtain ⟨acts, -, hq⟩ := h
  exact path_ready hp hq

/-- The router receives what there is. -/
theorem continues_recv (msgs : List (Sent κ)) (hmsgs : p.toRouter = msgs) :
    Continues cfg tok p { p with toRouter := [], recvReqs := p.recvReqs ++ msgs } := by
  induction msgs generalizing p with
  | nil =>
      rw [List.append_nil, ← hmsgs]
      exact .refl p
  | cons x rest ih =>
      have hstep : pathStep cfg tok p .recv =
          some { p with toRouter := rest, recvReqs := p.recvReqs ++ [x] } := by
        simp only [pathStep, hmsgs]
      have hrest := (Continues.step rfl hstep).trans (ih rfl)
      simpa only [List.append_assoc, List.singleton_append] using hrest

/-- The detokenizer process works off what there is. -/
theorem continues_detokenize (cfg : ServeConfig) (tok : Detokenizer)
    (outs : List BatchTokenIDOut) (houts : p.toDetokenizer = outs)
    (hready : ∀ out ∈ outs, out.Ready) :
    ∃ strs, Continues cfg tok p
      { p with toDetokenizer := [], toTokenizer := p.toTokenizer ++ strs } := by
  induction outs generalizing p with
  | nil =>
      refine ⟨[], ?_⟩
      rw [List.append_nil, ← houts]
      exact .refl p
  | cons out rest ih =>
      obtain ⟨str, hstr⟩ := exists_detokenize tok (hready out (by simp))
      have hstep : pathStep cfg tok p .detokenize =
          some { p with toDetokenizer := rest, toTokenizer := p.toTokenizer ++ [str] } := by
        simp only [pathStep, houts, hstr, Option.map_some]
      obtain ⟨strs, hrest⟩ := ih (p := { p with
        toDetokenizer := rest, toTokenizer := p.toTokenizer ++ [str] }) rfl
          fun o ho => hready o (by simp [ho])
      refine ⟨str :: strs, ?_⟩
      simpa only [List.append_assoc, List.singleton_append] using
        (Continues.step rfl hstep).trans hrest

/-- The tokenizer process receives what there is. -/
theorem continues_deliver (strs : List BatchStrOut) (hstrs : p.toTokenizer = strs) :
    Continues cfg tok p { p with toTokenizer := [], delivered := p.delivered ++ strs } := by
  induction strs generalizing p with
  | nil =>
      rw [List.append_nil, ← hstrs]
      exact .refl p
  | cons str rest ih =>
      have hstep : pathStep cfg tok p .deliver =
          some { p with toTokenizer := rest, delivered := p.delivered ++ [str] } := by
        simp only [pathStep, hstrs]
      have hrest := (Continues.step rfl hstep).trans (ih rfl)
      simpa only [List.append_assoc, List.singleton_append] using hrest

/-- The model server finishes what it works on. -/
theorem continues_finish (cfg : ServeConfig) (tok : Detokenizer) (p : MessagePath κ α) :
    ∃ q, Continues cfg tok p q ∧ q.nextStepInput = none ∧ q.recvReqs = p.recvReqs ∧
      q.toRouter = p.toRouter := by
  cases hn : p.nextStepInput with
  | none => exact ⟨p, .refl p, hn, rfl, rfl⟩
  | some recvReqs =>
      have hstep : ∃ q, pathStep cfg tok p .finish = some q ∧ q.nextStepInput = none ∧
          q.recvReqs = p.recvReqs ∧ q.toRouter = p.toRouter := by
        simp only [pathStep, hn, Option.map_some]
        exact ⟨_, rfl, rfl, rfl, rfl⟩
      obtain ⟨q, hq, hrest⟩ := hstep
      exact ⟨q, .step rfl hq, hrest⟩

/-- The processes can be brought to rest. -/
theorem exists_quiet (hp : p.Ready) : ∃ q, Continues cfg tok p q ∧ q.Quiet := by
  have hrecv : Continues cfg tok p _ := continues_recv p.toRouter rfl
  obtain ⟨u, hu, hnone, -, hrouter⟩ := continues_finish cfg tok
    { p with toRouter := [], recvReqs := p.recvReqs ++ p.toRouter }
  -- What has been received meanwhile is one more list.
  have htake : pathStep cfg tok u .take =
      some { u with nextStepInput := some (u.recvReqs.map Sent.recvReq), recvReqs := [] } := by
    simp only [pathStep, hnone]
  obtain ⟨v, hv, hnone', hreqs, hrouter'⟩ := continues_finish cfg tok
    { u with nextStepInput := some (u.recvReqs.map Sent.recvReq), recvReqs := [] }
  have hpv : Continues cfg tok p v := ((hrecv.trans hu).trans (.step rfl htake)).trans hv
  obtain ⟨strs, hw⟩ := continues_detokenize cfg tok v.toDetokenizer rfl (hpv.ready hp).out_ready
  have hlast := (hpv.trans hw).trans (continues_deliver _ rfl)
  exact ⟨_, hlast, hrouter'.trans hrouter, hreqs, hnone', rfl, rfl⟩

end Quiet

section Work

variable {cfg : ServeConfig} {tok : Detokenizer} {p q : MessagePath κ α}

/-- The step sends nothing, and is no idle turn of `loop_for_forward`. -/
def MessagePath.Works (p : MessagePath κ α) : PathAct κ → Prop
  | .send _ => False
  | .take => p.recvReqs ≠ []
  | _ => True

/-- The ids that are not answered yet. -/
def MessagePath.waitingRids (p : MessagePath κ α) : List String :=
  p.server.rids ++ (p.nextStepInput.getD []).flatMap RecvReq.rids ++
    p.recvReqs.flatMap Sent.rids ++ p.toRouter.flatMap Sent.rids

/-- A bound on the steps until everything is delivered: those of each message to the model and of
each answer from it, of which there are at most as many as ids. -/
def MessagePath.stepsLeft (p : MessagePath κ α) : ℕ :=
  4 * p.toRouter.length + 3 * p.recvReqs.length + p.nextStepInput.elim 0 (fun _ => 1) +
    2 * p.waitingRids.length + 2 * p.toDetokenizer.length + p.toTokenizer.length

/-- An answer has an id. -/
theorem length_le_rids {outs : List BatchTokenIDOut} (h : ∀ out ∈ outs, out.Ready) :
    outs.length ≤ (outs.flatMap BatchTokenIDOut.rids).length := by
  induction outs with
  | nil => exact le_rfl
  | cons out outs ih =>
      have hout := List.length_pos_iff.mpr (h out List.mem_cons_self).rids
      have hrest := ih fun o ho => h o (List.mem_cons_of_mem _ ho)
      rw [List.flatMap_cons, List.length_append, List.length_cons]
      omega

/-- A step that works leaves less to do. -/
theorem pathStep_stepsLeft {a : PathAct κ} (hp : p.Ready) (ha : p.Works a)
    (h : pathStep cfg tok p a = some q) : q.stepsLeft < p.stepsLeft := by
  cases a with
  | send x => exact ha.elim
  | recv =>
      cases hr : p.toRouter with
      | nil => simp [pathStep, hr] at h
      | cons x rest =>
          simp only [pathStep, hr] at h
          obtain rfl := Option.some.inj h
          simp only [MessagePath.stepsLeft, MessagePath.waitingRids, hr, List.length_append,
            List.length_cons, List.length_nil, List.flatMap_append, List.flatMap_cons,
            List.flatMap_nil]
          omega
  | take =>
      cases hn : p.nextStepInput with
      | some recvReqs => simp [pathStep, hn] at h
      | none =>
          simp only [pathStep, hn] at h
          obtain rfl := Option.some.inj h
          have hlen := List.length_pos_iff.mpr ha
          have hrids : (p.recvReqs.map Sent.recvReq).flatMap RecvReq.rids =
              p.recvReqs.flatMap Sent.rids := List.flatMap_map _ _ _
          simp only [MessagePath.stepsLeft, MessagePath.waitingRids, hn, hrids, Option.getD_some,
            Option.getD_none, Option.elim_some, Option.elim_none, List.length_append,
            List.length_nil, List.flatMap_nil]
          omega
  | finish =>
      obtain ⟨recvReqs, hn, rfl⟩ := Option.map_eq_some_iff.mp h
      have hrids := (exposedStep_rids cfg p.server recvReqs).length_le
      have hstart : ∀ out ∈ p.server.outPyobjs, out.Ready := by
        rw [hp.outPyobjs_eq]
        exact fun _ hout => absurd hout List.not_mem_nil
      have hanswers : (exposedStep cfg p.server recvReqs).1.length ≤
          ((exposedStep cfg p.server recvReqs).1.flatMap BatchTokenIDOut.rids).length :=
        length_le_rids (serveLoop_ready cfg recvReqs hstart)
      simp only [List.length_append] at hrids
      simp only [MessagePath.stepsLeft, MessagePath.waitingRids, hn, Option.getD_some,
        Option.getD_none, Option.elim_some, Option.elim_none, List.length_append, List.length_nil,
        List.flatMap_nil]
      omega
  | detokenize =>
      cases hd : p.toDetokenizer with
      | nil => simp [pathStep, hd] at h
      | cons out rest =>
          simp only [pathStep, hd] at h
          obtain ⟨str, -, rfl⟩ := Option.map_eq_some_iff.mp h
          simp only [MessagePath.stepsLeft, MessagePath.waitingRids, hd, List.length_append,
            List.length_cons, List.length_nil]
          omega
  | deliver =>
      cases ht : p.toTokenizer with
      | nil => simp [pathStep, ht] at h
      | cons str rest =>
          simp only [pathStep, ht] at h
          obtain rfl := Option.some.inj h
          simp only [MessagePath.stepsLeft, MessagePath.waitingRids, ht, List.length_cons]
          omega

/-- A run of steps that work is no longer than what there is to do. -/
theorem path_stepsLeft {acts : List (PathAct κ)} (hp : p.Ready)
    (hworks : Along (pathStep cfg tok) MessagePath.Works p acts)
    (h : exec (pathStep cfg tok) p acts = some q) : acts.length + q.stepsLeft ≤ p.stepsLeft := by
  induction acts generalizing p with
  | nil =>
      obtain rfl : p = q := by simpa using h
      simp
  | cons a acts ih =>
      obtain ⟨u, hu, h⟩ := Option.bind_eq_some_iff.mp h
      have hstep := pathStep_stepsLeft hp hworks.1 hu
      have hrest := ih (pathStep_ready hp hu) (hworks.2 u hu) h
      rw [List.length_cons]
      omega

/-- The processes are at rest, or one of them can work. -/
theorem quiet_or_works (cfg : ServeConfig) (tok : Detokenizer) (hp : p.Ready) :
    p.Quiet ∨ ∃ a, p.Works a ∧ (pathStep cfg tok p a).isSome := by
  by_cases hrouter : p.toRouter = []
  · cases hn : p.nextStepInput with
    | some recvReqs => exact Or.inr ⟨.finish, trivial, by simp [pathStep, hn]⟩
    | none =>
        by_cases hreqs : p.recvReqs = []
        · cases hd : p.toDetokenizer with
          | cons out rest =>
              obtain ⟨str, hstr⟩ := exists_detokenize tok
                (hp.out_ready out (hd ▸ List.mem_cons_self))
              exact Or.inr ⟨.detokenize, trivial, by simp [pathStep, hd, hstr]⟩
          | nil =>
              cases ht : p.toTokenizer with
              | cons str rest => exact Or.inr ⟨.deliver, trivial, by simp [pathStep, ht]⟩
              | nil => exact Or.inl ⟨hrouter, hreqs, hn, hd, ht⟩
        · exact Or.inr ⟨.take, hreqs, by simp [pathStep, hn]⟩
  · obtain ⟨x, rest, hr⟩ := List.exists_cons_of_ne_nil hrouter
    exact Or.inr ⟨.recv, trivial, by simp [pathStep, hr]⟩

end Work

section Order

variable {cfg : ServeConfig} {tok : Detokenizer} {s : Server κ α} {p q : MessagePath κ α}
  {total rest : List (RecvReq κ)}

/-- The model server has served the first of the requests, and their answers are on their way;
the others wait, and `rest` are still to be sent. -/
def AnswersInOrder (cfg : ServeConfig) (tok : Detokenizer) (s : Server κ α)
    (total : List (RecvReq κ)) (p : MessagePath κ α) (rest : List (RecvReq κ)) : Prop :=
  ∃ done : List (RecvReq κ),
    done ++ (p.nextStepInput.getD [] ++ (p.recvReqs ++ p.toRouter).map Sent.recvReq ++ rest) =
      total ∧
    p.server = { (serveLoop cfg s done).1 with outPyobjs := [] } ∧
    (p.delivered ++ p.toTokenizer).map some ++ p.toDetokenizer.map (detokenize tok) =
      (serveLoop cfg s done).1.outPyobjs.map (detokenize tok)

/-- What is served last answers last. -/
theorem serveLoop_outPyobjs {as bs : List (RecvReq κ)} (h : Processes cfg s (as ++ bs)) :
    (serveLoop cfg s (as ++ bs)).1 =
      (serveLoop cfg { (serveLoop cfg s as).1 with outPyobjs := [] } bs).1.behind
        (serveLoop cfg s as).1.outPyobjs := by
  have hbehind : (serveLoop cfg s as).1 = Server.behind (serveLoop cfg s as).1.outPyobjs
      { (serveLoop cfg s as).1 with outPyobjs := [] } := by
    simp [Server.behind]
  rw [(serveLoop_append h).2]
  conv_lhs => rw [hbehind, serveLoop_behind]

/-- No step changes the order. -/
theorem pathStep_inOrder {a : PathAct κ} (htotal : Processes cfg s total)
    (hp : AnswersInOrder cfg tok s total p ((sentBy [a]).map Sent.recvReq ++ rest))
    (h : pathStep cfg tok p a = some q) : AnswersInOrder cfg tok s total q rest := by
  obtain ⟨done, hdone, hserver, houts⟩ := hp
  cases a with
  | send x =>
      obtain rfl := Option.some.inj h
      refine ⟨done, ?_, hserver, houts⟩
      rw [← hdone]
      simp [sentBy]
  | recv =>
      cases hr : p.toRouter with
      | nil => simp [pathStep, hr] at h
      | cons x msgs =>
          simp only [pathStep, hr] at h
          obtain rfl := Option.some.inj h
          refine ⟨done, ?_, hserver, houts⟩
          rw [← hdone]
          simp [sentBy, hr]
  | take =>
      cases hn : p.nextStepInput with
      | some recvReqs => simp [pathStep, hn] at h
      | none =>
          simp only [pathStep, hn] at h
          obtain rfl := Option.some.inj h
          refine ⟨done, ?_, hserver, houts⟩
          rw [← hdone]
          simp [sentBy, hn]
  | finish =>
      obtain ⟨recvReqs, hn, rfl⟩ := Option.map_eq_some_iff.mp h
      rw [hn, Option.getD_some] at hdone
      have hserved : Processes cfg s (done ++ recvReqs) := by
        rw [← hdone, List.append_assoc, ← List.append_assoc] at htotal
        exact (serveLoop_append htotal).1
      have hlast := serveLoop_outPyobjs hserved
      refine ⟨done ++ recvReqs, ?_, ?_, ?_⟩
      · rw [← hdone]
        simp [sentBy]
      · rw [hlast, ← hserver]
        rfl
      · rw [hlast, ← hserver]
        simp only [Server.behind, List.map_append, ← houts, List.append_assoc]
        rfl
  | detokenize =>
      cases hd : p.toDetokenizer with
      | nil => simp [pathStep, hd] at h
      | cons out outs =>
          simp only [pathStep, hd] at h
          obtain ⟨str, hstr, rfl⟩ := Option.map_eq_some_iff.mp h
          refine ⟨done, hdone, hserver, ?_⟩
          rw [← houts, hd]
          simp [hstr]
  | deliver =>
      cases ht : p.toTokenizer with
      | nil => simp [pathStep, ht] at h
      | cons str strs =>
          simp only [pathStep, ht] at h
          obtain rfl := Option.some.inj h
          refine ⟨done, hdone, hserver, ?_⟩
          rw [← houts, ht]
          simp

/-- After a run the messages are in the order in which they were sent. -/
theorem path_inOrder {acts : List (PathAct κ)} (htotal : Processes cfg s total)
    (hp : AnswersInOrder cfg tok s total p ((sentBy acts).map Sent.recvReq))
    (h : exec (pathStep cfg tok) p acts = some q) : AnswersInOrder cfg tok s total q [] := by
  induction acts generalizing p with
  | nil =>
      obtain rfl : p = q := by simpa using h
      exact hp
  | cons a acts ih =>
      obtain ⟨u, hu, h⟩ := Option.bind_eq_some_iff.mp h
      rw [sentBy_cons, List.map_append] at hp
      exact ih (pathStep_inOrder htotal hp hu) h

/-- The answers that have been delivered are the first ones, and all of them when nothing is on
its way. -/
theorem AnswersInOrder.delivered (htotal : Processes cfg s total)
    (hp : AnswersInOrder cfg tok s total p []) :
    p.delivered.map some <+: (serveLoop cfg s total).1.outPyobjs.map (detokenize tok) ∧
      (p.Quiet → p.delivered.map some =
        (serveLoop cfg s total).1.outPyobjs.map (detokenize tok)) := by
  obtain ⟨done, hdone, -, houts⟩ := hp
  constructor
  · subst hdone
    rw [serveLoop_outPyobjs htotal, Server.behind, List.map_append, ← houts, List.map_append,
      List.append_assoc, List.append_assoc]
    exact List.prefix_append _ _
  · rintro ⟨hrouter, hrecv, hnext, hdetok, htok⟩
    obtain rfl : done = total := by
      rw [← hdone, hnext, hrecv, hrouter]
      simp
    simpa [hdetok, htok] using houts

/-- The ids of the texts are those of the answers. -/
theorem delivered_rids {strs : List BatchStrOut} {outs : List BatchTokenIDOut}
    (h : strs.map some = outs.map (detokenize tok)) :
    strs.flatMap BatchStrOut.rids = outs.flatMap BatchTokenIDOut.rids := by
  induction strs generalizing outs with
  | nil => simp_all
  | cons str strs ih =>
      cases outs with
      | nil => simp at h
      | cons out outs =>
          obtain ⟨hstr, h⟩ := List.cons_eq_cons.mp h
          rw [List.flatMap_cons, List.flatMap_cons, ih h, detokenize_rids hstr.symm]

/-- From the start of the processes, whatever is raised, no request is answered more often than
it was sent. When nothing more is sent everything can be brought to rest; in whatever order the
processes work, they stop after a bounded number of steps, and at rest. While nothing is raised the
answers are those of the requests one after the other, in the order in which they were sent, and at
rest every request has been answered once if and only if its batch finishes it. -/
theorem messagePath_answers (cfg : ServeConfig) (tok : Detokenizer) (s : Server κ α)
    (hqueue : s.forwardQueue = []) (houts : s.outPyobjs = []) {acts : List (PathAct κ)}
    {p : MessagePath κ α} (h : exec (pathStep cfg tok) (.start s) acts = some p) :
    (p.delivered.flatMap BatchStrOut.rids).Subperm ((sentBy acts).flatMap Sent.rids) ∧
    (∃ q, Continues cfg tok p q ∧ q.Quiet) ∧
    (∀ (more : List (PathAct κ)) (q : MessagePath κ α),
      Along (pathStep cfg tok) MessagePath.Works p more → exec (pathStep cfg tok) p more = some q →
      more.length ≤ p.stepsLeft ∧ (q.Quiet ∨ ∃ a, q.Works a ∧ (pathStep cfg tok q a).isSome)) ∧
    (Processes cfg s ((sentBy acts).map Sent.recvReq) →
      p.delivered.map some <+:
        (serveLoop cfg s ((sentBy acts).map Sent.recvReq)).1.outPyobjs.map (detokenize tok) ∧
      (p.Quiet → p.delivered.map some =
          (serveLoop cfg s ((sentBy acts).map Sent.recvReq)).1.outPyobjs.map (detokenize tok) ∧
        ((p.delivered.flatMap BatchStrOut.rids).Perm
            (queuedRids cfg [] ((sentBy acts).map Sent.recvReq)) ↔
          AllAnswered cfg s.engine.kv.pool.cacheLine [] ((sentBy acts).map Sent.recvReq)))) := by
  have hready : p.Ready := path_ready ⟨by simp [MessagePath.start], houts⟩ h
  refine ⟨?_, exists_quiet hready, fun more q hworks hq => ?_, fun htotal => ?_⟩
  · have hrids := path_rids h
    have hstart : (MessagePath.start s).rids = [] := by
      simp [MessagePath.rids, MessagePath.start, Server.rids, hqueue, houts]
    rw [hstart, List.nil_append] at hrids
    refine (List.Sublist.subperm ?_).trans hrids
    simp only [MessagePath.rids, List.append_assoc]
    exact List.sublist_append_left _ _
  · have hsteps := path_stepsLeft hready hworks hq
    exact ⟨by omega, quiet_or_works cfg tok (path_ready hready hq)⟩
  · have hstart : AnswersInOrder cfg tok s ((sentBy acts).map Sent.recvReq) (.start s)
        ((sentBy acts).map Sent.recvReq) := by
      refine ⟨[], by simp [MessagePath.start], ?_, by simp [MessagePath.start, serveLoop, houts]⟩
      simp [MessagePath.start, serveLoop, ← houts]
    obtain ⟨hfirst, hall⟩ := (path_inOrder htotal hstart h).delivered htotal
    refine ⟨hfirst, fun hquiet => ⟨hall hquiet, ?_⟩⟩
    obtain ⟨answers, hanswers, hsub, hiff⟩ := serveLoop_answers _ s htotal
    rw [houts, List.flatMap_nil, List.nil_append] at hanswers
    rw [hqueue] at hsub hiff
    rw [← hiff, delivered_rids (hall hquiet), hanswers]
    exact ⟨fun hperm => hperm.length_eq.ge, hsub.perm_of_length_le⟩

/-- A request for one token, for which the network samples 1. -/
def Sent.one (rid : String) : Sent ℕ where
  msg := .single rid [5, 6] ⟨1, false, true⟩
  env := ⟨⟨fun _ _ _ _ => 0, fun _ _ _ _ => 0⟩, fun _ _ _ => 1⟩
  fault := none

/-- A letter for each token. -/
def Detokenizer.letters : Detokenizer where
  decode _ tokens := tokens.map fun token => Char.ofNat (96 + token)
  convertIdsToTokens token := ['▁', Char.ofNat (96 + token)]

/-- Two requests, of which the second is sent while the model works on the first. -/
def twoRequests : List (PathAct ℕ) :=
  [.send (.one "a"), .recv, .take, .send (.one "b"), .recv, .finish, .take, .detokenize, .finish,
    .deliver, .detokenize, .deliver]

/-- Nothing is raised, everything comes to rest, and both requests have been answered once. -/
theorem messagePath_answers_two : ∃ p,
    exec (pathStep (.small 3 (by decide)) .letters) (.start (.small 3 (by decide))) twoRequests =
      some p ∧ p.Quiet ∧
    (p.delivered.flatMap BatchStrOut.rids).Subperm ["a", "b"] ∧
    p.delivered.map some = (serveLoop (.small 3 (by decide)) (.small 3 (by decide))
      [(Sent.one "a").recvReq, (Sent.one "b").recvReq]).1.outPyobjs.map
        (detokenize .letters) ∧
    (p.delivered.flatMap BatchStrOut.rids).Perm ["a", "b"] := by
  obtain ⟨p, hp, hquiet⟩ : ∃ p ∈ exec (pathStep (.small 3 (by decide)) .letters)
      (.start (.small 3 (by decide))) twoRequests, p.Quiet := by
    decide +kernel
  have htotal : Processes (.small 3 (by decide)) (.small 3 (by decide))
      [(Sent.one "a").recvReq, (Sent.one "b").recvReq] := by
    unfold Processes
    decide +kernel
  obtain ⟨hsub, -, -, horder⟩ := messagePath_answers _ _ _ rfl rfl hp
  obtain ⟨-, hrest⟩ := horder htotal
  obtain ⟨htexts, hiff⟩ := hrest hquiet
  refine ⟨p, hp, hquiet, hsub, htexts, hiff.mpr ⟨?_, ?_, rfl⟩⟩
  all_goals exact BatchAnswers.of_one _ (by decide +kernel)

end Order

end HarvestMoE
