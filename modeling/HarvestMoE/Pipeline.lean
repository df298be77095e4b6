import HarvestMoE.DecodeMachine

/-!
# The decode pipeline refines sequential decode

The host executes the decode loop and submits attention jobs to an executor with one
worker, which takes them in order at times of its own; `load_hidden` waits for its job.
Whatever the interleaving, with three or more micro-batches each of them goes through
the acts of a sequential decoder, in their order, so it ends where decoding it alone
would have taken it, and it finds its pinned buffers free on the way.

## Main definitions

* `Pipe`, `PipeStep`, `PipeRun` — the host, the executor and their interleavings.
* `aloneRunActs` — the acts of a micro-batch decoded by itself.
* `decodeCalls`, `decodeStart` — the decode phase, and the state it starts from.
* `PipeInv`, `PipeOk` — where each micro-batch is, and what follows, at any point of
  any interleaving.
* `pipeline_refines` — the pipeline leaves every micro-batch as decoding it alone does.
-/

namespace HarvestMoE

open Lib

variable {τ κ : Type*}

/-- The host with its remaining calls, the jobs of the executor, oldest first, and the
buffers. -/
structure Pipe (τ κ : Type*) where
  calls : List Call
  queue : List Job
  state : DecodeState τ κ

/-- `load_hidden` waits for the future of its micro-batch; the other calls do not wait. -/
def Enabled (queue : List Job) (s : DecodeState τ κ) : Call → Prop
  | .loadHidden _ k => ∀ j, (s.lanes k).attnFuture = some j → j ∉ queue
  | _ => True

/-- The queue after a call: `cpu_attention` submits its job. -/
def submit (queue : List Job) (s : DecodeState τ κ) : Call → List Job
  | .cpuAttention i k => queue ++ [⟨s.decodeStep, i, k⟩]
  | _ => queue

/-- One step of the host or of the worker. -/
inductive PipeStep (net : Network τ κ) (numLayers : ℕ) : Pipe τ κ → Act → Pipe τ κ → Prop
  | host {c : Call} {calls : List Call} {queue : List Job} {s t : DecodeState τ κ}
      (henabled : Enabled queue s c) (h : hostStep net numLayers s c = some t) :
      PipeStep net numLayers ⟨c :: calls, queue, s⟩ (.host c) ⟨calls, submit queue s c, t⟩
  | work {calls : List Call} {j : Job} {queue : List Job} {s t : DecodeState τ κ}
      (h : runJob net s j = some t) :
      PipeStep net numLayers ⟨calls, j :: queue, s⟩ (.work j) ⟨calls, queue, t⟩

/-- An interleaving, with the acts it has executed. -/
inductive PipeRun (net : Network τ κ) (numLayers : ℕ) (p : Pipe τ κ) : List Act → Pipe τ κ → Prop
  | start : PipeRun net numLayers p [] p
  | step {as : List Act} {a : Act} {q r : Pipe τ κ} (h : PipeRun net numLayers p as q)
      (hstep : PipeStep net numLayers q a r) : PipeRun net numLayers p (as ++ [a]) r

section Alone

/-- A layer of a micro-batch by itself, with its job where it is waited for. -/
def aloneLayerActs (d k i : ℕ) : List Act :=
  [.host (.preAttention i k), .host (.offloadQkv i k), .host (.cpuAttention i k),
    .work ⟨d, i, k⟩, .host (.loadHidden i k), .host (.postAttention i 0 k)]

/-- A decode step of a micro-batch by itself, after `d` others. -/
def aloneStepActs (numLayers k d : ℕ) : List Act :=
  .host .prepareForDecode :: (List.range numLayers).flatMap (aloneLayerActs (d + 1) k)

/-- The decode phase of a micro-batch by itself. -/
def aloneRunActs (numLayers k steps : ℕ) : List Act :=
  (List.range steps).flatMap (aloneStepActs numLayers k)

/-- The acts of a list of calls when each job runs as soon as it is submitted, from
decode step `d` on. -/
def expand : ℕ → List Call → List Act
  | _, [] => []
  | d, .prepareForDecode :: cs => .host .prepareForDecode :: expand (d + 1) cs
  | d, .cpuAttention i k :: cs => .host (.cpuAttention i k) :: .work ⟨d, i, k⟩ :: expand d cs
  | d, c :: cs => .host c :: expand d cs

theorem expand_layers (d k n : ℕ) (cs : List Call) :
    expand d ((List.range n).flatMap (aloneLayerCalls k) ++ cs) =
      (List.range n).flatMap (aloneLayerActs d k) ++ expand d cs := by
  induction n generalizing cs with
  | zero => rfl
  | succ n ih =>
      simp only [List.range_succ, List.flatMap_append, List.flatMap_singleton, List.append_assoc]
      rw [ih]
      rfl

theorem expand_alone (numLayers k steps d : ℕ) :
    expand d ((List.range steps).flatMap fun _ => aloneStepCalls numLayers k) =
      (List.range steps).flatMap fun e => aloneStepActs numLayers k (d + e) := by
  induction steps generalizing d with
  | zero => rfl
  | succ steps ih =>
      rw [List.range_succ_eq_map, List.flatMap_cons, List.flatMap_cons, List.flatMap_map,
        List.flatMap_map]
      simp only [aloneStepCalls, List.cons_append, expand, expand_layers]
      have hrest := ih (d + 1)
      simp only [aloneStepCalls] at hrest
      rw [hrest]
      simp [aloneStepActs, Nat.add_comm, Nat.add_left_comm]

/-- Every attention call is followed by the call that waits for it. -/
def Awaited : List Call → Prop
  | [] => True
  | .cpuAttention i k :: cs => (∃ rest, cs = .loadHidden i k :: rest) ∧ Awaited cs
  | _ :: cs => Awaited cs

theorem awaited_layers (k n : ℕ) {cs : List Call} (h : Awaited cs) :
    Awaited ((List.range n).flatMap (aloneLayerCalls k) ++ cs) := by
  induction n generalizing cs with
  | zero => exact h
  | succ n ih =>
      simp only [List.range_succ, List.flatMap_append, List.flatMap_singleton, List.append_assoc]
      exact ih ⟨⟨_, rfl⟩, h⟩

theorem awaited_alone (numLayers k steps : ℕ) :
    Awaited ((List.range steps).flatMap fun _ => aloneStepCalls numLayers k) := by
  induction steps with
  | zero => trivial
  | succ steps ih =>
      rw [List.range_succ_eq_map, List.flatMap_cons, List.flatMap_map]
      exact awaited_layers k numLayers ih

/-- A call taken off the front. -/
theorem Awaited.tail {c : Call} {cs : List Call} (h : Awaited (c :: cs)) : Awaited cs := by
  cases c with
  | cpuAttention i k => exact h.2
  | _ => exact h

variable {net : Network τ κ} {cfg : EngineConfig} {lens : List (List ℕ)} {k d : ℕ}

/-- A laid out state in decode step `d`, with these layers' rows unread in the pinned
buffers of micro-batch `k`. -/
def LaneAt (cfg : EngineConfig) (lens : List (List ℕ)) (k d : ℕ) (qkvUnread hiddenUnread : Option ℕ)
    (extra : Lane τ κ → Prop) (s : DecodeState τ κ) : Prop :=
  Laid cfg lens s ∧ s.decodeStep = d ∧ (s.lanes k).qkvUnread = qkvUnread ∧
    (s.lanes k).hiddenUnread = hiddenUnread ∧ extra (s.lanes k)

/-- A micro-batch by itself gets through a layer. -/
theorem aloneLayer_runs (hadm : Admitted cfg lens) (hd : 0 < d) (numLayers i : ℕ) :
    Runs (actStep net numLayers) (AloneOk cfg) (LaneAt cfg lens k d none none fun _ => True)
      (aloneLayerActs d k i) (LaneAt cfg lens k d none none fun _ => True) := by
  have hpre : Runs (actStep net numLayers) (AloneOk cfg)
      (LaneAt cfg lens k d none none fun _ => True) [.host (.preAttention i k)]
      (LaneAt cfg lens k d none none fun b => b.qkv.isSome ∧ b.residual.isSome) := by
    refine Runs.single fun s hs => ⟨by simp [AloneOk, PinsOk], _, rfl, hs.1.modify rfl, ?_⟩
    simpa using hs.2
  have hoff : Runs (actStep net numLayers) (AloneOk cfg)
      (LaneAt cfg lens k d none none fun b => b.qkv.isSome ∧ b.residual.isSome)
      [.host (.offloadQkv i k)] (LaneAt cfg lens k d (some i) none fun b => b.residual.isSome) := by
    refine Runs.single fun s hs => ?_
    obtain ⟨hlaid, hstep, hqkv, hhid, hsome, hres⟩ := hs
    refine ⟨by simp [AloneOk, PinsOk, hqkv], ?_⟩
    obtain ⟨qkv, hq⟩ := Option.isSome_iff_exists.mp hsome
    have heq : hostStep net numLayers s (.offloadQkv i k) =
        some (s.modify k { s.lanes k with qkvPin := qkv, qkvUnread := some i }) := by
      simp [hostStep, hq]
    exact ⟨_, heq, hlaid.modify rfl, hstep, by simp [hhid, hres]⟩
  have hcpu : Runs (actStep net numLayers) (AloneOk cfg)
      (LaneAt cfg lens k d (some i) none fun b => b.residual.isSome) [.host (.cpuAttention i k)]
      (LaneAt cfg lens k d (some i) none fun b => b.residual.isSome ∧ b.attnFuture.isSome) := by
    refine Runs.single fun s hs => ⟨by simp [AloneOk, PinsOk], _, rfl, hs.1.modify rfl, hs.2.1, ?_⟩
    simpa using hs.2.2
  have hwork : Runs (actStep net numLayers) (AloneOk cfg)
      (LaneAt cfg lens k d (some i) none fun b => b.residual.isSome ∧ b.attnFuture.isSome)
      [.work ⟨d, i, k⟩]
      (LaneAt cfg lens k d none (some i) fun b => b.residual.isSome ∧ b.attnFuture.isSome) := by
    refine Runs.single fun s hs => ?_
    obtain ⟨hlaid, hstep, hqkv, hhid, hres, hfut⟩ := hs
    constructor
    · exact ⟨⟨hqkv, hhid⟩, by simp, fun _ _ => hstep ▸ hd⟩
    · have heq : runJob net s ⟨d, i, k⟩ = _ := runJob_eq hadm hlaid (Or.inl (hstep ▸ hd))
      exact ⟨_, heq, jobState_laid hlaid i k, hstep, by simp [jobState, hres, hfut]⟩
  have hload : Runs (actStep net numLayers) (AloneOk cfg)
      (LaneAt cfg lens k d none (some i) fun b => b.residual.isSome ∧ b.attnFuture.isSome)
      [.host (.loadHidden i k)]
      (LaneAt cfg lens k d none none fun b => b.residual.isSome ∧ b.hiddenStates.isSome) := by
    refine Runs.single fun s hs => ?_
    obtain ⟨hlaid, hstep, hqkv, hhid, hres, hfut⟩ := hs
    refine ⟨by simp [AloneOk, PinsOk, hhid], ?_⟩
    obtain ⟨j, hj⟩ := Option.isSome_iff_exists.mp hfut
    have heq : hostStep net numLayers s (.loadHidden i k) = some (s.modify k
        { s.lanes k with hiddenStates := some (s.lanes k).hiddenPin, hiddenUnread := none }) := by
      simp [hostStep, hj]
    exact ⟨_, heq, hlaid.modify rfl, hstep, by simp [hqkv, hres]⟩
  have hpost : Runs (actStep net numLayers) (AloneOk cfg)
      (LaneAt cfg lens k d none none fun b => b.residual.isSome ∧ b.hiddenStates.isSome)
      [.host (.postAttention i 0 k)] (LaneAt cfg lens k d none none fun _ => True) := by
    refine Runs.single fun s hs => ?_
    obtain ⟨hlaid, hstep, hqkv, hhid, hres, hsome⟩ := hs
    refine ⟨by simp [AloneOk, PinsOk], ?_⟩
    obtain ⟨residual, hresidual⟩ := Option.isSome_iff_exists.mp hres
    obtain ⟨hidden, hhidden⟩ := Option.isSome_iff_exists.mp hsome
    simp only [actStep, hostStep, hresidual, hhidden, Option.map_some, Option.bind_some]
    refine ⟨_, rfl, ?_⟩
    split_ifs
    · exact ⟨hlaid.modify rfl, hstep, by simp [hqkv, hhid]⟩
    · exact ⟨hlaid.modify rfl, hstep, by simp [hqkv, hhid]⟩
  exact hpre.cons (hoff.cons (hcpu.cons (hwork.cons (hload.cons hpost))))

/-- A micro-batch by itself gets through a decode step. -/
theorem aloneStep_runs (hadm : Admitted cfg lens) (numLayers : ℕ) (hlt : d < cfg.genLen) :
    Runs (actStep net numLayers) (AloneOk cfg) (LaneAt cfg lens k d none none fun _ => True)
      (aloneStepActs numLayers k d) (LaneAt cfg lens k (d + 1) none none fun _ => True) := by
  have hprepare : Runs (actStep net numLayers) (AloneOk cfg)
      (LaneAt cfg lens k d none none fun _ => True) [.host .prepareForDecode]
      (LaneAt cfg lens k (d + 1) none none fun _ => True) := by
    refine Runs.single fun s ⟨hlaid, hstep, hqkv, hhid, _⟩ => ⟨?_, s.prepareForDecode, rfl, ?_⟩
    · exact ⟨trivial, fun _ => hstep ▸ hlt, by simp⟩
    · exact ⟨hlaid.prepareForDecode (hstep ▸ hlt), congrArg (· + 1) hstep, hqkv, hhid, trivial⟩
  exact hprepare.cons (Runs.loop numLayers fun i _ => aloneLayer_runs hadm d.succ_pos numLayers i)

/-- A micro-batch by itself gets through its decode phase. -/
theorem aloneRun_runs (net : Network τ κ) (hadm : Admitted cfg lens) (numLayers : ℕ) {steps : ℕ}
    (hsteps : steps ≤ cfg.genLen) :
    Runs (actStep net numLayers) (AloneOk cfg) (LaneAt cfg lens k 0 none none fun _ => True)
      (aloneRunActs numLayers k steps) (LaneAt cfg lens k steps none none fun _ => True) :=
  Runs.loop (I := fun e => LaneAt cfg lens k e none none fun _ => True) steps
    fun _ he => aloneStep_runs hadm numLayers (he.trans_le hsteps)

end Alone

section Frame

variable {net : Network τ κ} {numLayers : ℕ} {s t : DecodeState τ κ} {k : ℕ}

/-- A call that does not belong to a micro-batch leaves its lane, and the step. -/
theorem hostStep_other {c : Call} (hc : c.isOf k = false) (h : hostStep net numLayers s c = some t) :
    t.lanes k = s.lanes k ∧ t.decodeStep = s.decodeStep := by
  cases c with
  | prepareForDecode => simp [Call.isOf] at hc
  | preAttention i k' | cpuAttention i k' =>
      have hne : k ≠ k' := fun heq => by simp [Call.isOf, Call.batch, heq] at hc
      obtain rfl := Option.some.inj h
      exact ⟨DecodeState.modify_other _ hne, rfl⟩
  | offloadQkv i k' | loadHidden i k' =>
      have hne : k ≠ k' := fun heq => by simp [Call.isOf, Call.batch, heq] at hc
      simp only [hostStep] at h
      obtain ⟨x, -, rfl⟩ := Option.map_eq_some_iff.mp h
      exact ⟨DecodeState.modify_other _ hne, rfl⟩
  | postAttention i page k' =>
      have hne : k ≠ k' := fun heq => by simp [Call.isOf, Call.batch, heq] at hc
      simp only [hostStep] at h
      obtain ⟨hidden, -, h⟩ := Option.bind_eq_some_iff.mp h
      obtain ⟨residual, -, rfl⟩ := Option.map_eq_some_iff.mp h
      split_ifs <;> exact ⟨DecodeState.modify_other _ hne, rfl⟩
  | _ =>
      obtain rfl := Option.some.inj h
      exact ⟨rfl, rfl⟩

/-- The decode step is that of the last `prepare_for_decode`. -/
theorem hostStep_decodeStep {c : Call} (hc : c ≠ .prepareForDecode)
    (h : hostStep net numLayers s c = some t) : t.decodeStep = s.decodeStep := by
  cases c with
  | prepareForDecode => exact absurd rfl hc
  | offloadQkv i k' | loadHidden i k' =>
      simp only [hostStep] at h
      obtain ⟨x, -, rfl⟩ := Option.map_eq_some_iff.mp h
      rfl
  | postAttention i page k' =>
      simp only [hostStep] at h
      obtain ⟨hidden, -, h⟩ := Option.bind_eq_some_iff.mp h
      obtain ⟨residual, -, rfl⟩ := Option.map_eq_some_iff.mp h
      split_ifs <;> rfl
  | _ =>
      obtain rfl := Option.some.inj h
      rfl

/-- A job leaves the step and the futures. -/
theorem runJob_frame {j : Job} (h : runJob net s j = some t) :
    t.decodeStep = s.decodeStep ∧ (t.lanes k).attnFuture = (s.lanes k).attnFuture := by
  simp only [runJob] at h
  obtain ⟨pool, -, h⟩ := Option.bind_eq_some_iff.mp h
  obtain ⟨reads, -, rfl⟩ := Option.map_eq_some_iff.mp h
  refine ⟨rfl, ?_⟩
  by_cases hk : k = j.batchId
  · subst hk
    simp
  · simp [DecodeState.modify_other _ hk]

end Frame

section Invariant

/-- The jobs of a micro-batch in the queue. -/
def jobsOf (queue : List Job) (k : ℕ) : List Job := queue.filter fun j => j.batchId = k

/-- Where the micro-batches are: what has been executed for each of them, its job in the
queue and its remaining calls make up the acts of a sequential decoder, and the host does
not get past a job in the queue. -/
structure PipeInv (net : Network τ κ) (numLayers numMb steps : ℕ) (start : DecodeState τ κ)
    (done : List Act) (p : Pipe τ κ) : Prop where
  run : exec (actStep net numLayers) start done = some p.state
  queue_lt : ∀ j ∈ p.queue, j.batchId < numMb
  calls_lt : ∀ c ∈ p.calls, ∀ k, c.batch = some k → k < numMb
  order : ∀ k < numMb, done.filter (Act.isOf k) ++ ((jobsOf p.queue k).map .work ++
    expand p.state.decodeStep (p.calls.filter (Call.isOf k))) = aloneRunActs numLayers k steps
  waits : ∀ k < numMb, jobsOf p.queue k = [] ∨ ∃ i j rest, jobsOf p.queue k = [j] ∧
    (p.state.lanes k).attnFuture = some j ∧
    p.calls.filter (Call.isOf k) = .loadHidden i k :: rest
  awaited : ∀ k < numMb, Awaited (p.calls.filter (Call.isOf k))

variable {net : Network τ κ} {numLayers numMb steps k : ℕ} {s t start : DecodeState τ κ}
  {done : List Act} {c : Call} {cs : List Call} {j : Job} {queue : List Job}

theorem jobsOf_submit_other (hc : c.isOf k = false) :
    jobsOf (submit queue s c) k = jobsOf queue k := by
  cases c with
  | cpuAttention i k' =>
      have hne : k' ≠ k := fun heq => by simp [Call.isOf, Call.batch, heq] at hc
      simp [jobsOf, submit, hne]
  | _ => rfl

/-- A call of an idle micro-batch is the next of its acts, and leaves its job, if it
submits one, before the rest. -/
theorem expand_submit (hc : c.isOf k) (hidle : jobsOf queue k = [])
    (h : hostStep net numLayers s c = some t) :
    expand s.decodeStep (c :: cs) =
      .host c :: ((jobsOf (submit queue s c) k).map .work ++ expand t.decodeStep cs) := by
  cases c with
  | prepareForDecode =>
      obtain rfl := Option.some.inj h
      simp [expand, submit, hidle]
  | cpuAttention i k' =>
      obtain rfl : k' = k := by simpa [Call.isOf, Call.batch] using hc
      obtain rfl := Option.some.inj h
      have hjobs : jobsOf (submit queue s (.cpuAttention i k')) k' = [⟨s.decodeStep, i, k'⟩] := by
        simpa [jobsOf, submit] using hidle
      simp [expand, hjobs]
  | _ =>
      rw [hostStep_decodeStep (by simp) h]
      simp [expand, submit, hidle]

/-- The host gets to a call of a micro-batch only when its jobs are done. -/
theorem PipeInv.idle (h : PipeInv net numLayers numMb steps start done ⟨c :: cs, queue, s⟩)
    (hk : k < numMb) (hc : c.isOf k) (henabled : Enabled queue s c) : jobsOf queue k = [] := by
  rcases h.waits k hk with hidle | ⟨i, j, rest, hjobs, hfuture, hcalls⟩
  · exact hidle
  · have hload : c = .loadHidden i k := by
      rw [List.filter_cons_of_pos hc] at hcalls
      exact (List.cons.inj hcalls).1
    subst hload
    have hmem : j ∈ jobsOf queue k := by
      rw [hjobs]
      exact List.mem_singleton_self j
    exact absurd (List.mem_of_mem_filter hmem) (henabled j hfuture)

/-- A step of the host. -/
theorem PipeInv.host (h : PipeInv net numLayers numMb steps start done ⟨c :: cs, queue, s⟩)
    (henabled : Enabled queue s c) (ht : hostStep net numLayers s c = some t) :
    PipeInv net numLayers numMb steps start (done ++ [.host c]) ⟨cs, submit queue s c, t⟩ where
  run := by
    rw [exec_append, h.run]
    simpa [actStep] using ht
  queue_lt := by
    have hbatch := h.calls_lt c (by simp)
    cases c with
    | cpuAttention i k =>
        intro j hj
        rcases List.mem_append.mp hj with hj | hj
        · exact h.queue_lt j hj
        · obtain rfl := List.mem_singleton.mp hj
          exact hbatch k rfl
    | _ => exact h.queue_lt
  calls_lt := fun c' hc' => h.calls_lt c' (List.mem_cons_of_mem _ hc')
  order := by
    intro k hk
    have horder := h.order k hk
    cases hc : c.isOf k with
    | true =>
        have hidle := h.idle hk hc henabled
        rw [hidle, List.filter_cons_of_pos hc, expand_submit hc hidle ht] at horder
        simpa [Act.isOf, hc] using horder
    | false =>
        obtain ⟨-, hstep⟩ := hostStep_other hc ht
        rw [List.filter_cons_of_neg (by simp [hc])] at horder
        simpa [Act.isOf, hc, jobsOf_submit_other hc, hstep] using horder
  waits := by
    intro k hk
    cases hc : c.isOf k with
    | true =>
        have hidle := h.idle hk hc henabled
        have hawaited := h.awaited k hk
        rw [List.filter_cons_of_pos hc] at hawaited
        cases c with
        | cpuAttention i k' =>
            obtain rfl : k' = k := by simpa [Call.isOf, Call.batch] using hc
            obtain rfl := Option.some.inj ht
            obtain ⟨⟨rest, hrest⟩, -⟩ := hawaited
            refine Or.inr ⟨i, ⟨s.decodeStep, i, k'⟩, rest, ?_, by simp, hrest⟩
            simpa [jobsOf, submit] using hidle
        | _ => exact Or.inl hidle
    | false =>
        obtain ⟨hlane, -⟩ := hostStep_other hc ht
        have hwaits := h.waits k hk
        rw [List.filter_cons_of_neg (by simp [hc])] at hwaits
        simpa [jobsOf_submit_other hc, hlane] using hwaits
  awaited := by
    intro k hk
    have hawaited := h.awaited k hk
    cases hc : c.isOf k with
    | true =>
        rw [List.filter_cons_of_pos hc] at hawaited
        exact hawaited.tail
    | false => rwa [List.filter_cons_of_neg (by simp [hc])] at hawaited

/-- A step of the worker. -/
theorem PipeInv.work (h : PipeInv net numLayers numMb steps start done ⟨cs, j :: queue, s⟩)
    (ht : runJob net s j = some t) :
    PipeInv net numLayers numMb steps start (done ++ [.work j]) ⟨cs, queue, t⟩ where
  run := by
    rw [exec_append, h.run]
    simpa [actStep] using ht
  queue_lt := fun j' hj' => h.queue_lt j' (List.mem_cons_of_mem _ hj')
  calls_lt := h.calls_lt
  order := by
    intro k hk
    have horder := h.order k hk
    obtain ⟨hstep, -⟩ := runJob_frame (k := k) ht
    by_cases hj : j.batchId = k
    · simpa [jobsOf, hj, Act.isOf, hstep] using horder
    · simpa [jobsOf, hj, Act.isOf, hstep] using horder
  waits := by
    intro k hk
    obtain ⟨-, hfuture⟩ := runJob_frame (k := k) ht
    by_cases hj : j.batchId = k
    · -- The queue held at most one job of the micro-batch, and this was it.
      rcases h.waits k hk with hidle | ⟨i, j', rest, hjobs, -, -⟩
      · simp [jobsOf, hj] at hidle
      · have hrest : j = j' ∧ jobsOf queue k = [] := by simpa [jobsOf, hj] using hjobs
        exact Or.inl hrest.2
    · simpa [jobsOf, hj, hfuture] using h.waits k hk
  awaited := h.awaited

/-- Every interleaving keeps the invariant. -/
theorem PipeInv.pipeRun {p q : Pipe τ κ} (hrun : PipeRun net numLayers p done q)
    (h : PipeInv net numLayers numMb steps p.state [] p) :
    PipeInv net numLayers numMb steps p.state done q := by
  induction hrun with
  | start => exact h
  | step _ hstep ih =>
      cases hstep with
      | host henabled ht => exact ih.host henabled ht
      | work ht => exact ih.work ht

/-- The micro-batch of a call of the decode loop is one of the micro-batches. -/
theorem decodeStepCalls_batch_lt (hc : c ∈ decodeStepCalls numLayers 1 numMb)
    (hk : c.batch = some k) : k < numMb := by
  have hattn : ∀ {i k'}, c ∈ attentionCalls i k' → k' = k := by
    intro i k' hmem
    simp only [attentionCalls, List.mem_cons, List.not_mem_nil, or_false] at hmem
    rcases hmem with rfl | rfl | rfl <;> simpa [Call.batch] using hk
  rw [decodeStepCalls, List.mem_cons, decodeBodyCalls, List.mem_append, List.mem_flatMap,
    List.mem_flatMap] at hc
  rcases hc with rfl | ⟨k', hk', hc⟩ | ⟨i, hi, hc⟩
  · simp [Call.batch] at hk
  · have hlt := List.mem_range.mp hk'
    rw [prologueCalls, List.mem_append, List.mem_singleton] at hc
    rcases hc with hc | rfl
    · have := hattn hc
      omega
    · simp [Call.batch] at hk
  · rw [decodeLayerCalls_one, List.mem_flatMap] at hc
    obtain ⟨k', hk', hc⟩ := hc
    have hlt := List.mem_range.mp hk'
    simp only [decodeBatchCalls_one, List.mem_append, List.mem_cons, List.not_mem_nil,
      or_false] at hc
    rcases hc with ((rfl | rfl | rfl) | hc) | hc
    · simp only [Call.batch, Option.some.injEq] at hk
      omega
    · simp [Call.batch] at hk
    · simp only [Call.batch, Option.some.injEq] at hk
      omega
    · obtain ⟨j, k'', -, hk'', hc⟩ := mem_lookAheadCalls hc (List.mem_range.mp hi)
      have := hattn hc
      omega
    · rw [relayCalls] at hc
      split at hc
      · obtain rfl := List.mem_singleton.mp hc
        simp [Call.batch] at hk
      · simp at hc

/-- The invariant holds when the decode phase starts. -/
theorem PipeInv.init (hn : 3 ≤ numMb) (hL : 0 < numLayers) (hstart : start.decodeStep = 0) :
    PipeInv net numLayers numMb steps start []
      ⟨(List.range steps).flatMap fun _ => decodeStepCalls numLayers 1 numMb, [], start⟩ := by
  have hfilter : ∀ k, k < numMb →
      ((List.range steps).flatMap fun _ => decodeStepCalls numLayers 1 numMb).filter (Call.isOf k) =
        (List.range steps).flatMap fun _ => aloneStepCalls numLayers k := by
    intro k hk
    simp only [List.filter_flatMap, decodeStepCalls_of hn hL hk]
  constructor
  · rfl
  · simp
  · intro c hc k hk
    obtain ⟨-, -, hc⟩ := List.mem_flatMap.mp hc
    exact decodeStepCalls_batch_lt hc hk
  · intro k hk
    simp only [hfilter k hk, hstart, jobsOf, List.filter_nil, List.map_nil, List.nil_append]
    simpa [aloneRunActs] using expand_alone numLayers k steps 0
  · exact fun k _ => Or.inl rfl
  · intro k hk
    rw [hfilter k hk]
    exact awaited_alone numLayers k steps

end Invariant

section Refinement

variable {net : Network τ κ} {cfg : EngineConfig} {lens : List (List ℕ)} {steps k : ℕ}
  {start : DecodeState τ κ} {done : List Act} {p : Pipe τ κ}

/-- The state prefill leaves: the layout of `prepare_for_prefill`, and pinned buffers with
nothing to read. Everything else in the lanes and in the memories is arbitrary. -/
def decodeStart (cfg : EngineConfig) (batches : List KvBatch) (pool : TokenToKVPool κ)
    (lanes : ℕ → Lane τ κ) : DecodeState τ κ where
  decodeStep := 0
  lanes := fun k => { lanes k with
    kv := batches[k]?.getD (batchAt cfg 0 k [])
    qkvUnread := none
    hiddenUnread := none }
  pool := pool

theorem decodeStart_laneAt {pool : TokenToKVPool κ} (hline : pool.cacheLine = cfg.cacheLine)
    (hsize : pool.cpuSize = cfg.nUb * cfg.cacheLine) (lanes : ℕ → Lane τ κ) (k : ℕ) :
    LaneAt cfg lens k 0 none none (fun _ => True)
      (decodeStart cfg (lens.mapIdx (batchAt cfg 0)) pool lanes) := by
  refine ⟨⟨hline, hsize, Nat.zero_le _, fun k' => ?_⟩, rfl, rfl, rfl, trivial⟩
  cases hl : lens[k']? with
  | none => simp [decodeStart, lensOf, hl]
  | some l => simp [decodeStart, lensOf, hl]

/-- The pins of a micro-batch are a matter of its lane. -/
theorem PinsOk.of_sameBatch {s u : DecodeState τ κ} {a : Act} (ha : a.isOf k)
    (h : SameBatch cfg lens k s u) (hu : PinsOk u a) : PinsOk s a := by
  cases a with
  | work j =>
      obtain rfl : j.batchId = k := by simpa [Act.isOf] using ha
      simpa [PinsOk, h.lane_eq] using hu
  | host c =>
      cases c with
      | offloadQkv i k' | loadHidden i k' =>
          obtain rfl : k' = k := by simpa [Act.isOf, Call.isOf, Call.batch] using ha
          simpa [PinsOk, h.lane_eq] using hu
      | _ => trivial

/-- A micro-batch that has executed a beginning of its sequential acts is where these
alone take it, and the rest of them would execute. -/
theorem PipeInv.view (hadm : Admitted cfg lens) (hk : k < lens.length) (hsteps : steps ≤ cfg.genLen)
    (hstart : LaneAt cfg lens k 0 none none (fun _ => True) start)
    (h : PipeInv net cfg.numHiddenLayers lens.length steps start done p) {rest : List Act}
    (hrest : done.filter (Act.isOf k) ++ rest = aloneRunActs cfg.numHiddenLayers k steps) :
    ∃ u, exec (actStep net cfg.numHiddenLayers) start (done.filter (Act.isOf k)) = some u ∧
      SameBatch cfg lens k p.state u ∧
      Along (actStep net cfg.numHiddenLayers) (AloneOk cfg) u rest ∧
      ∃ v, exec (actStep net cfg.numHiddenLayers) u rest = some v := by
  obtain ⟨halong, v, hv, -⟩ := aloneRun_runs net hadm cfg.numHiddenLayers hsteps start hstart
  rw [← hrest, along_append] at halong
  rw [← hrest, exec_append] at hv
  obtain ⟨u, hu, hv⟩ := Option.bind_eq_some_iff.mp hv
  have hview := (decode_projects net cfg.numHiddenLayers hadm hk).exec (SameBatch.refl hstart.1 k)
    h.run halong.1 hu
  exact ⟨u, hu, hview, halong.2 u hu, v, hv⟩

/-- The next act of a micro-batch executes, and finds its pinned buffers free. -/
theorem PipeInv.next (hadm : Admitted cfg lens) (hk : k < lens.length) (hsteps : steps ≤ cfg.genLen)
    (hstart : LaneAt cfg lens k 0 none none (fun _ => True) start)
    (h : PipeInv net cfg.numHiddenLayers lens.length steps start done p) {a : Act} {rest : List Act}
    (ha : a.isOf k)
    (hrest : done.filter (Act.isOf k) ++ a :: rest = aloneRunActs cfg.numHiddenLayers k steps) :
    PinsOk p.state a ∧ ∃ t, actStep net cfg.numHiddenLayers p.state a = some t := by
  obtain ⟨u, -, hview, halong, v, hv⟩ := h.view hadm hk hsteps hstart hrest
  obtain ⟨u', hu', -⟩ := Option.bind_eq_some_iff.mp hv
  obtain ⟨t, ht, -⟩ :=
    (decode_projects net cfg.numHiddenLayers hadm hk).own ha halong.1 hview hu'
  exact ⟨halong.1.1.of_sameBatch ha hview, t, ht⟩

/-- The next call of the host, when it does not wait, executes safely. -/
theorem PipeInv.host_ok (hadm : Admitted cfg lens) (hsteps : steps ≤ cfg.genLen)
    (hstart : ∀ k, LaneAt cfg lens k 0 none none (fun _ => True) start) {c : Call}
    {cs : List Call} {queue : List Job} {s : DecodeState τ κ}
    (h : PipeInv net cfg.numHiddenLayers lens.length steps start done ⟨c :: cs, queue, s⟩)
    (henabled : Enabled queue s c) :
    PinsOk s (.host c) ∧ ∃ t, hostStep net cfg.numHiddenLayers s c = some t := by
  have hown : ∀ k, c.batch = some k →
      PinsOk s (.host c) ∧ ∃ t, hostStep net cfg.numHiddenLayers s c = some t := by
    intro k hbatch
    have hc : c.isOf k := by simp [Call.isOf, hbatch]
    have hk := h.calls_lt c (by simp) k hbatch
    have horder := h.order k hk
    rw [h.idle hk hc henabled, List.filter_cons_of_pos hc] at horder
    obtain ⟨rest, hrest⟩ : ∃ rest, expand s.decodeStep (c :: cs.filter (Call.isOf k)) =
        .host c :: rest := by
      cases c <;> exact ⟨_, rfl⟩
    rw [hrest] at horder
    exact h.next hadm hk hsteps (hstart k) hc horder
  cases c with
  | preAttention i k | offloadQkv i k | cpuAttention i k | loadHidden i k => exact hown k rfl
  | postAttention i page k => exact hown k rfl
  | _ => exact ⟨trivial, _, rfl⟩

/-- The next job executes safely. -/
theorem PipeInv.work_ok (hadm : Admitted cfg lens) (hsteps : steps ≤ cfg.genLen)
    (hstart : ∀ k, LaneAt cfg lens k 0 none none (fun _ => True) start) {cs : List Call} {j : Job}
    {queue : List Job} {s : DecodeState τ κ}
    (h : PipeInv net cfg.numHiddenLayers lens.length steps start done ⟨cs, j :: queue, s⟩) :
    PinsOk s (.work j) ∧ ∃ t, runJob net s j = some t := by
  have hk := h.queue_lt j (by simp)
  have horder := h.order j.batchId hk
  have hjobs : jobsOf (j :: queue) j.batchId = j :: jobsOf queue j.batchId := by simp [jobsOf]
  rw [hjobs] at horder
  exact h.next hadm hk hsteps (hstart j.batchId) (by simp [Act.isOf]) horder

/-- What holds at every point of an interleaving. -/
structure PipeOk (net : Network τ κ) (cfg : EngineConfig) (lens : List (List ℕ)) (steps : ℕ)
    (start : DecodeState τ κ) (done : List Act) (p : Pipe τ κ) : Prop where
  /-- A call that does not wait does not raise. -/
  host_ok : ∀ c cs, p.calls = c :: cs → Enabled p.queue p.state c →
    ∃ t, hostStep net cfg.numHiddenLayers p.state c = some t
  work_ok : ∀ j js, p.queue = j :: js → ∃ t, runJob net p.state j = some t
  /-- There is no deadlock. -/
  progress : p.calls = [] ∧ p.queue = [] ∨ ∃ a q, PipeStep net cfg.numHiddenLayers p a q
  /-- No step overwrites a pinned buffer before it is read. -/
  pins : ∀ a q, PipeStep net cfg.numHiddenLayers p a q → PinsOk p.state a
  /-- Each micro-batch has executed a beginning of its sequential acts, and is where
  these alone take it. -/
  refines : ∀ k < lens.length,
    done.filter (Act.isOf k) <+: aloneRunActs cfg.numHiddenLayers k steps ∧
    ∃ u, exec (actStep net cfg.numHiddenLayers) start (done.filter (Act.isOf k)) = some u ∧
      SameBatch cfg lens k p.state u
  /-- At the end it has executed all of them. -/
  finished : p.calls = [] → p.queue = [] → ∀ k < lens.length,
    done.filter (Act.isOf k) = aloneRunActs cfg.numHiddenLayers k steps

theorem PipeInv.ok (hadm : Admitted cfg lens) (hsteps : steps ≤ cfg.genLen)
    (hstart : ∀ k, LaneAt cfg lens k 0 none none (fun _ => True) start)
    (h : PipeInv net cfg.numHiddenLayers lens.length steps start done p) :
    PipeOk net cfg lens steps start done p := by
  obtain ⟨calls, queue, s⟩ := p
  constructor
  · rintro c cs rfl henabled
    exact (h.host_ok hadm hsteps hstart henabled).2
  · rintro j js rfl
    exact (h.work_ok hadm hsteps hstart).2
  · cases queue with
    | cons j js =>
        obtain ⟨-, t, ht⟩ := h.work_ok hadm hsteps hstart
        exact Or.inr ⟨_, _, .work ht⟩
    | nil =>
        cases calls with
        | nil => exact Or.inl ⟨rfl, rfl⟩
        | cons c cs =>
            -- With an empty queue no call waits.
            have henabled : Enabled [] s c := by
              cases c with
              | loadHidden i k => exact fun _ _ => List.not_mem_nil
              | _ => trivial
            obtain ⟨-, t, ht⟩ := h.host_ok hadm hsteps hstart henabled
            exact Or.inr ⟨_, _, .host henabled ht⟩
  · intro a q hstep
    cases hstep with
    | host henabled _ => exact (h.host_ok hadm hsteps hstart henabled).1
    | work _ => exact (h.work_ok hadm hsteps hstart).1
  · intro k hk
    have horder := h.order k hk
    obtain ⟨u, hu, hview, -⟩ := h.view hadm hk hsteps (hstart k) horder
    exact ⟨⟨_, horder⟩, u, hu, hview⟩
  · rintro rfl rfl k hk
    simpa [jobsOf, expand] using h.order k hk

/-- Every step uses up a call or a job, and a call leaves at most one job. -/
theorem PipeRun.length_le {numLayers : ℕ} {q : Pipe τ κ} (h : PipeRun net numLayers p done q) :
    done.length + (2 * q.calls.length + q.queue.length) ≤
      2 * p.calls.length + p.queue.length := by
  induction h with
  | start => simp
  | step _ hstep ih =>
      cases hstep with
      | @host c calls queue s t _ _ =>
          have hsubmit : (submit queue s c).length ≤ queue.length + 1 := by
            cases c <;> simp [submit]
          simp only [List.length_append, List.length_cons, List.length_nil] at ih ⊢
          omega
      | work _ =>
          simp only [List.length_append, List.length_cons, List.length_nil] at ih ⊢
          omega

/-- The decode phase of `forwardCalls`. -/
def decodeCalls (cfg : EngineConfig) (numMb steps : ℕ) : List Call :=
  (List.range steps).flatMap fun _ =>
    decodeStepCalls cfg.numHiddenLayers cfg.weightsPrefetchNumPagesCpu numMb

/-- With three or more micro-batches the decode phase refines sequential decode: from
the layout of `prepare_for_prefill`, at every point of every interleaving of the host
with its worker, nothing raises or deadlocks, no pinned buffer is overwritten before it
is read, and every micro-batch is where its sequential acts alone take it; the phase
ends, with all of these executed, and a decode step has every call of every layer of
every micro-batch once. -/
theorem pipeline_refines (net : Network τ κ) (cfg : EngineConfig) {lens : List (List ℕ)}
    (hadm : Admitted cfg lens) (hn : 3 ≤ lens.length) {steps : ℕ} (hsteps : steps ≤ cfg.genLen)
    (gpu : ℕ → κ) (cpu mem : ℕ → ℕ → κ) (lanes : ℕ → Lane τ κ) :
    (∃ batches pool, prepareForPrefill cfg.genLen
        (TokenToKVPool.new cfg.gpuTokenBufferSize cfg.cpuTokenPoolSize gpu cpu).clear lens =
          some (batches, pool) ∧
      ∀ done p, PipeRun net cfg.numHiddenLayers ⟨decodeCalls cfg lens.length steps, [],
          decodeStart cfg batches { pool with kvDataCpu := mem } lanes⟩ done p →
        PipeOk net cfg lens steps (decodeStart cfg batches { pool with kvDataCpu := mem } lanes)
          done p ∧
        done.length + (2 * p.calls.length + p.queue.length) ≤
          2 * (decodeCalls cfg lens.length steps).length) ∧
      ∀ i < cfg.numHiddenLayers, ∀ k < lens.length, ∀ c ∈ aloneLayerCalls k i,
        (decodeBodyCalls cfg.numHiddenLayers cfg.weightsPrefetchNumPagesCpu lens.length).count c = 1 := by
  refine ⟨⟨_, _, prepareForPrefill_new hadm.nonempty gpu cpu, fun done p hrun => ?_⟩, ?_⟩
  · rw [decodeCalls, cfg.weightsPrefetchNumPagesCpu_eq] at hrun ⊢
    have hinv := PipeInv.pipeRun hrun (PipeInv.init hn cfg.layers_pos rfl)
    exact ⟨hinv.ok hadm hsteps (decodeStart_laneAt rfl rfl lanes), hrun.length_le⟩
  · intro i hi k hk c hc
    rw [cfg.weightsPrefetchNumPagesCpu_eq]
    exact decodeBodyCalls_count hn hi hk hc

/-- A network on numbers. -/
def Network.sum : Network ℕ ℕ where
  preAttn layerId inputIds hidden residual positions :=
    (layerId + inputIds.sum + hidden.getD 0, residual.getD 0 + positions.sum)
  kvRow qkv i := qkv + i
  attention layerId qkv rows := layerId + qkv + (rows.map List.sum).sum
  postAttn _ layerId _ hidden residual := (layerId + hidden, residual + hidden)
  logits _ _ hidden residual := hidden + residual
  sample _ _ logits := [logits]

/-- A micro-batch of one request, after prefill. -/
def Lane.fresh (token : ℕ) : Lane ℕ ℕ where
  kv := ⟨[], 0, 0, [], 0⟩
  inputIds := []
  lastIds := [token]
  hiddenStates := none
  residual := none
  qkv := none
  qkvPin := 0
  hiddenPin := 0
  attnFuture := none
  qkvUnread := none
  hiddenUnread := none
  log := []

/-- Three micro-batches of one prompt each, for one decode step. -/
theorem pipeline_refines_three :
    (∃ batches pool, prepareForPrefill 2
        (TokenToKVPool.new (EngineConfig.small 2 (by decide)).gpuTokenBufferSize
          (EngineConfig.small 2 (by decide)).cpuTokenPoolSize (fun _ => 0) fun _ _ => 0).clear
        [[1], [2], [1]] = some (batches, pool) ∧
      ∀ done p, PipeRun Network.sum 2 ⟨decodeCalls (EngineConfig.small 2 (by decide)) 3 1, [],
          decodeStart (EngineConfig.small 2 (by decide)) batches
            { pool with kvDataCpu := fun _ _ => 1 } Lane.fresh⟩ done p →
        PipeOk Network.sum (EngineConfig.small 2 (by decide)) [[1], [2], [1]] 1
          (decodeStart (EngineConfig.small 2 (by decide)) batches
            { pool with kvDataCpu := fun _ _ => 1 } Lane.fresh) done p ∧
        done.length + (2 * p.calls.length + p.queue.length) ≤
          2 * (decodeCalls (EngineConfig.small 2 (by decide)) 3 1).length) ∧
      ∀ i < 2, ∀ k < 3, ∀ c ∈ aloneLayerCalls k i,
        (decodeBodyCalls 2 (EngineConfig.small 2 (by decide)).weightsPrefetchNumPagesCpu 3).count
          c = 1 :=
  pipeline_refines Network.sum (EngineConfig.small 2 (by decide))
    (⟨by decide, by decide, by decide⟩ : Admitted _ [[1], [2], [1]]) (by decide)
    (show 1 ≤ 2 by decide) _ _ _ _

end Refinement

end HarvestMoE
