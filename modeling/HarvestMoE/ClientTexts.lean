import HarvestMoE.OwnPrompt
import HarvestMoE.OwnResults

/-!
# From the client and back

A call of `generate_request` sends its prompts, and the text that it gives its client has gone
through the router, the model and the detokenizer, and through the dictionary of the tokenizer
process. Whatever the other clients do meanwhile, it is the text of a prompt that was sent under the
id of the call's own (`client_texts_own`).

## Main definitions

* `System`, `systemStep` — the tokenizer process with its calls, and the path of the messages.
-/

namespace HarvestMoE

open Lib TokenizerManager

variable {D Q V A L κ α : Type*}

section System

/-- The tokenizer process with its calls, and the path of its messages. -/
structure System (κ α : Type*) where
  served : Served (List Char)
  path : MessagePath κ α

def System.start (s : Server κ α) : System κ α := ⟨.init, .start s⟩

inductive SystemAct (κ : Type*)
  /-- `generate_request` up to its first await, with the messages that it sends. -/
  | generate (call : GenerateCall) (msgs : List (Sent κ))
  /-- A step of the router, the model or the detokenizer. -/
  | path (a : PathAct κ)
  /-- `handle_loop` on one message, with the requests that its results answer. -/
  | handle (requests : List ℕ)
  | resume (c : ℕ)
  | close (c : ℕ)

/-- The results of a message. -/
def BatchStrOut.answers (str : BatchStrOut) (requests : List ℕ) : List (Answer (List Char)) :=
  List.zipWith (fun request out => ⟨request, out.1, out.2⟩) requests
    (str.outputStr.zip str.finished)

/-- The step is one of the other processes. -/
def PathAct.isInner : PathAct κ → Bool
  | .send _ | .deliver => false
  | _ => true

def systemStep (cfg : ServeConfig) (tok : Detokenizer) (s : System κ α) :
    SystemAct κ → Option (System κ α)
  | .generate call msgs =>
      if (msgs.flatMap Sent.prompts).map (fun a => RidArg.str a.1) = call.sentRids then
        (servedStep s.served (.generate call)).map fun served =>
          { served := served
            path := { s.path with toRouter := s.path.toRouter ++ msgs } }
      else none
  | .path a =>
      if a.isInner then (pathStep cfg tok s.path a).map fun path => { s with path := path }
      else none
  | .handle requests =>
      s.path.toTokenizer.head?.bind fun str =>
        if requests.map s.served.manager.rids = str.rids.map .str then
          (servedStep s.served (.receive (str.answers requests))).bind fun served =>
            (pathStep cfg tok s.path .deliver).map fun path => ⟨served, path⟩
        else none
  | .resume c => (servedStep s.served (.resume c)).map fun served => { s with served := served }
  | .close c => (servedStep s.served (.close c)).map fun served => { s with served := served }

/-- The prompts that the calls send, with their ids. -/
def promptsSent (acts : List (SystemAct κ)) : List (String × List ℕ) :=
  acts.flatMap fun
    | .generate _ msgs => msgs.flatMap Sent.prompts
    | _ => []

/-- The list that the model works on is computed with the model. -/
def SystemComputes (m : CausalLM D Q V A L) [Inhabited L] (cfg : ServeConfig) (s : System κ α) :
    SystemAct κ → Prop
  | .path a => ComputesWith m cfg s.path a
  | _ => True

end System

section Texts

variable [Inhabited L] {m : CausalLM D Q V A L} {pick : L → ℕ} {cfg : ServeConfig}
  {tok : Detokenizer} {sent : List (String × List ℕ)} {s t : System κ α}

/-- The messages on their way are for prompts that were sent, and all texts are for their ids. -/
structure System.Own (m : CausalLM D Q V A L) (pick : L → ℕ) (cfg : ServeConfig)
    (tok : Detokenizer) (sent : List (String × List ℕ)) (s : System κ α) : Prop where
  path_own : s.path.Own m pick cfg tok sent
  served_own : ServedOwn (TextFor m pick cfg tok sent) s.served

/-- The results of a message are of the ids of the requests they answer. -/
theorem answers_own {str : BatchStrOut} (hstr : OwnText m pick cfg tok sent str)
    {requests : List ℕ} {rids : ℕ → RidArg} (hrids : requests.map rids = str.rids.map .str) :
    ∀ a ∈ str.answers requests, ∀ rid, rids a.request = .str rid →
      TextFor m pick cfg tok sent rid a.out := by
  intro a ha rid hrid
  obtain ⟨i, hi, rfl⟩ := List.mem_iff_getElem.mp ha
  simp only [BatchStrOut.answers, List.length_zipWith, List.length_zip, lt_min_iff] at hi
  have hlen : requests.length = str.rids.length := by simpa using congrArg List.length hrids
  have hi' : i < str.rids.length := hlen ▸ hi.1
  have hsame : rids requests[i] = .str str.rids[i] := by
    have hget := congrArg (·[i]?) hrids
    simpa [hi.1, hi'] using hget
  simp only [BatchStrOut.answers, List.getElem_zipWith] at hrid
  obtain rfl : str.rids[i] = rid := RidArg.str.inj (hsame.symm.trans hrid)
  have hown := hstr (str.rids[i], str.outputStr[i])
    (List.mem_iff_getElem.mpr ⟨i, by simp [hi', hi], by simp⟩)
  simpa [BatchStrOut.answers] using hown

/-- **No step of the system mixes texts.** -/
theorem systemStep_own (hpick : m.SamplesRows pick) {a : SystemAct κ}
    (hs : s.Own m pick cfg tok sent)
    (hsent : ∀ call msgs, a = .generate call msgs → msgs.flatMap Sent.prompts ⊆ sent)
    (henv : SystemComputes m cfg s a) (h : systemStep cfg tok s a = some t) :
    t.Own m pick cfg tok sent := by
  cases a with
  | generate call msgs =>
      simp only [systemStep] at h
      split_ifs at h
      obtain ⟨served, hserved, rfl⟩ := Option.map_eq_some_iff.mp h
      refine ⟨{ hs.path_own with router_sent := fun x hx => ?_ },
        hs.served_own.step (a := .generate call) trivial hserved⟩
      rcases List.mem_append.mp hx with hx | hx
      · exact hs.path_own.router_sent x hx
      · exact fun y hy => hsent call msgs rfl (List.mem_flatMap.mpr ⟨x, hx, hy⟩)
  | path b =>
      simp only [systemStep] at h
      split_ifs at h with hinner
      obtain ⟨p, hp, rfl⟩ := Option.map_eq_some_iff.mp h
      refine ⟨pathStep_own hpick hs.path_own (fun x hx => ?_) henv hp, hs.served_own⟩
      rw [hx] at hinner
      cases hinner
  | handle requests =>
      obtain ⟨str, hstr, h⟩ := Option.bind_eq_some_iff.mp h
      split_ifs at h with hrids
      obtain ⟨served, hserved, h⟩ := Option.bind_eq_some_iff.mp h
      obtain ⟨p, hp, rfl⟩ := Option.map_eq_some_iff.mp h
      have hown := hs.path_own.str_own str (List.mem_of_head? hstr)
      have hpath : p.Own m pick cfg tok sent := by
        refine pathStep_own hpick hs.path_own (fun x hx => ?_) (fun heq => ?_) hp
        · cases hx
        · cases heq
      exact ⟨hpath, hs.served_own.step (a := .receive _) (answers_own hown hrids) hserved⟩
  | resume c =>
      obtain ⟨served, hserved, rfl⟩ := Option.map_eq_some_iff.mp h
      exact ⟨hs.path_own, hs.served_own.step (a := .resume c) trivial hserved⟩
  | close c =>
      obtain ⟨served, hserved, rfl⟩ := Option.map_eq_some_iff.mp h
      exact ⟨hs.path_own, hs.served_own.step (a := .close c) trivial hserved⟩

/-- **Each client gets the text of its own prompt.** Whatever calls are made, in whatever order all
processes take their steps and wherever an exception strikes: what a call yields is one text for
each of its ids, and this and every chunk of a stream is the text of the tokens that plain
generation gives a prompt sent under the id. -/
theorem client_texts_own (cfg : ServeConfig) (tok : Detokenizer) (m : CausalLM D Q V A L)
    {pick : L → ℕ} (hpick : m.SamplesRows pick) (s : Server κ α) (hqueue : s.forwardQueue = [])
    (habort : s.abortRequests = []) (houts : s.outPyobjs = []) {acts : List (SystemAct κ)}
    (henv : Along (systemStep cfg tok) (SystemComputes m cfg) (.start s) acts) {t : System κ α}
    (h : exec (systemStep cfg tok) (.start s) acts = some t) {c : ℕ} {call : GenerateCall}
    (hcall : t.served.calls c = some call) {rids : List String}
    (hrids : call.sentRids = rids.map .str) :
    (∀ outputList, t.served.manager.calls c = .yielded outputList →
      List.Forall₂ (TextFor m pick cfg tok (promptsSent acts)) rids outputList) ∧
    ∀ text, t.served.manager.chunk c = some text →
      List.Forall₂ (TextFor m pick cfg tok (promptsSent acts)) rids [text] := by
  have hstart : (System.start s).Own m pick cfg tok (promptsSent acts) :=
    ⟨.start hqueue habort houts, .init⟩
  have hsent : ∀ call msgs, .generate call msgs ∈ acts →
      msgs.flatMap Sent.prompts ⊆ promptsSent acts :=
    fun call msgs hmem a ha => List.mem_flatMap.mpr ⟨_, hmem, ha⟩
  have hend := henv.preserves (I := System.Own m pick cfg tok (promptsSent acts))
    (fun u a ha v hu hc hv => systemStep_own hpick hu
      (fun call msgs heq => hsent call msgs (heq ▸ ha)) hc hv) hstart h
  exact ⟨fun outputList hyielded => hend.served_own.yielded_own hcall hrids hyielded,
    fun text hchunk => hend.served_own.chunk_own hcall hrids hchunk⟩

/-- What a step does on the path of the messages. -/
def SystemAct.onPath : SystemAct κ → List (PathAct κ)
  | .generate _ msgs => msgs.map .send
  | .path a => [a]
  | .handle _ => [.deliver]
  | .resume _ | .close _ => []

omit [Inhabited L] in
theorem exec_send (p : MessagePath κ α) (msgs : List (Sent κ)) :
    exec (pathStep cfg tok) p (msgs.map .send) =
      some { p with toRouter := p.toRouter ++ msgs } := by
  induction msgs generalizing p with
  | nil => simp
  | cons x msgs ih =>
      rw [List.map_cons, exec_cons, pathStep, Option.bind_some, ih]
      simp

/-- The system takes the steps of the processes between the router and `handle_loop`. -/
theorem systemStep_path {a : SystemAct κ} (h : systemStep cfg tok s a = some t) :
    exec (pathStep cfg tok) s.path a.onPath = some t.path := by
  cases a with
  | generate call msgs =>
      simp only [systemStep] at h
      split_ifs at h
      obtain ⟨served, -, rfl⟩ := Option.map_eq_some_iff.mp h
      exact exec_send s.path msgs
  | path b =>
      simp only [systemStep] at h
      split_ifs at h
      obtain ⟨p, hp, rfl⟩ := Option.map_eq_some_iff.mp h
      simp [SystemAct.onPath, hp]
  | handle requests =>
      obtain ⟨str, -, h⟩ := Option.bind_eq_some_iff.mp h
      split_ifs at h
      obtain ⟨served, -, h⟩ := Option.bind_eq_some_iff.mp h
      obtain ⟨p, hp, rfl⟩ := Option.map_eq_some_iff.mp h
      simp [SystemAct.onPath, hp]
  | resume c =>
      obtain ⟨served, -, rfl⟩ := Option.map_eq_some_iff.mp h
      rfl
  | close c =>
      obtain ⟨served, -, rfl⟩ := Option.map_eq_some_iff.mp h
      rfl

/-- What the model computes is a matter of the path alone. -/
theorem systemComputes_of_path {acts : List (SystemAct κ)}
    (h : Along (pathStep cfg tok) (ComputesWith m cfg) s.path (acts.flatMap SystemAct.onPath)) :
    Along (systemStep cfg tok) (SystemComputes m cfg) s acts := by
  induction acts generalizing s with
  | nil => trivial
  | cons a acts ih =>
      rw [List.flatMap_cons, along_append] at h
      refine ⟨?_, fun t ht => ih (h.2 t.path (systemStep_path ht))⟩
      cases a with
      | path b => exact h.1.1
      | _ => trivial

/-- A single text of two tokens. -/
def Sent.text (rid : String) (ids : List ℕ) : Sent ℕ :=
  .computed (.single rid ids ⟨2, false, true⟩) [[ids]] none

/-- Three texts of three tokens. -/
def Sent.texts : Sent ℕ :=
  .computed (.batch ⟨["b", "d", "f"], [[8], [4, 2], [2]], ⟨3, false, true⟩⟩)
    [[[4, 2]], [[8]], [[2]]] none

/-- Four clients: the third uses the id of the first again while this one waits, and the last goes
away. -/
def fourClients : List (SystemAct ℕ) :=
  [.generate (.single (.str "a") false true) [.text "a" [5, 6]], .path .recv, .path .take,
    .generate (.batch ["b", "d", "f"] 3 true) [.texts],
    .generate (.single (.str "a") true true) [.text "a" [4]],
    .generate (.single (.str "e") true true) [.text "e" [9]], .close 3, .path .recv, .path .recv,
    .path .recv, .path .finish, .path .take, .path .finish, .path .detokenize, .path .detokenize,
    .handle [0], .path .detokenize, .handle [2], .handle [1], .resume 1, .path .detokenize,
    .handle [3], .path .detokenize, .handle [4], .path .detokenize, .handle [5], .resume 1]

/-- The list gets its three texts, and the stream under the id in use a chunk. -/
theorem client_texts_own_four : ∃ t,
    exec (systemStep (.small 3 (by decide)) .letters) (.start (.small 3 (by decide)))
      fourClients = some t ∧
    t.served.manager.calls 3 = .closed ∧
    List.Forall₂ (TextFor CausalLM.residues (fun row => row % 5 + 1) (.small 3 (by decide)) .letters
        (promptsSent fourClients)) ["b", "d", "f"]
      [[' ', 'e', 'b', 'b'], [' ', 'c', 'd', 'd'], [' ', 'd', 'b', 'e']] ∧
    List.Forall₂ (TextFor CausalLM.residues (fun row => row % 5 + 1) (.small 3 (by decide)) .letters
        (promptsSent fourClients)) ["a"] [[' ', 'a', 'b']] := by
  obtain ⟨t, ht, hclosed, hlist, hyielded, hstream, hchunk⟩ :
      ∃ t ∈ exec (systemStep (.small 3 (by decide)) .letters) (.start (.small 3 (by decide)))
        fourClients, t.served.manager.calls 3 = .closed ∧
        (t.served.calls 1).map GenerateCall.sentRids = some (["b", "d", "f"].map .str) ∧
        t.served.manager.calls 1 = .yielded
          [[' ', 'e', 'b', 'b'], [' ', 'c', 'd', 'd'], [' ', 'd', 'b', 'e']] ∧
        (t.served.calls 2).map GenerateCall.sentRids = some (["a"].map .str) ∧
        t.served.manager.chunk 2 = some [' ', 'a', 'b'] := by
    decide +kernel
  obtain ⟨list, hcalls, hlist⟩ := Option.map_eq_some_iff.mp hlist
  obtain ⟨stream, hcalls', hstream⟩ := Option.map_eq_some_iff.mp hstream
  have hpath : Along (pathStep (.small 3 (by decide)) .letters)
      (ComputesWith CausalLM.residues (.small 3 (by decide))) (.start (.small 3 (by decide)))
      (fourClients.flatMap SystemAct.onPath) := by
    -- The model starts on the first message when the others have come.
    have hfirst : exec (pathStep (.small 3 (by decide)) .letters) (.start (.small 3 (by decide)))
        ((fourClients.take 10).flatMap SystemAct.onPath) = some
          { toRouter := []
            recvReqs := [.texts, .text "a" [4], .text "e" [9]]
            nextStepInput := some [(Sent.text "a" [5, 6]).recvReq]
            server := .small 3 (by decide)
            toDetokenizer := []
            toTokenizer := []
            delivered := [] } := rfl
    rw [← List.take_append_drop 10 fourClients, List.flatMap_append]
    refine (along_append _ _ _).mpr ⟨Along.of_forall fun _ a ha => ?_, fun u hu => ?_⟩
    · rintro rfl
      simp [fourClients, SystemAct.onPath] at ha
    obtain rfl := Option.some.inj (hfirst.symm.trans hu)
    refine ⟨fun _ _ hn => ?_, fun _ h => ?_⟩
    · obtain rfl := Option.some.inj hn
      exact ⟨BatchEnv.computed_generates _ _ _ (by decide +kernel), trivial⟩
    obtain rfl := Option.some.inj h
    refine ⟨nofun, fun _ h => ?_⟩
    obtain rfl := Option.some.inj h
    refine ⟨fun _ _ hn => ?_, fun _ _ => Along.of_forall fun _ a ha => ?_⟩
    · obtain rfl := Option.some.inj hn
      exact ⟨BatchEnv.computed_generates _ _ _ (by decide +kernel),
        BatchEnv.computed_generates _ _ _ (by decide +kernel),
        BatchEnv.computed_generates _ _ _ (by decide +kernel), trivial⟩
    · rintro rfl
      simp [SystemAct.onPath] at ha
  have henv : Along (systemStep (.small 3 (by decide)) .letters)
      (SystemComputes CausalLM.residues (.small 3 (by decide)))
      (System.start (.small 3 (by decide))) fourClients := systemComputes_of_path hpath
  refine ⟨t, ht, hclosed, ?_, ?_⟩
  · exact (client_texts_own _ _ CausalLM.residues samplesRows_residues _ rfl rfl rfl henv ht hcalls
      hlist).1 _ hyielded
  · exact (client_texts_own _ _ CausalLM.residues samplesRows_residues _ rfl rfl rfl henv ht hcalls'
      hstream).2 _ hchunk

end Texts

end HarvestMoE
