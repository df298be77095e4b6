import HarvestMoE.KvContract
import HarvestMoE.Lib.Projection
import HarvestMoE.Lookahead

/-!
# The decode machine

The host calls of decode and the jobs of the CPU executor, on the buffers they share:
the hidden states, residuals and query-key-value rows of the micro-batches, the pinned
relay buffers, and the lines of the KV pool. The network itself is a parameter: its
functions see what the source passes them, and may differ by decode step, layer and
micro-batch where the source leaves that open (expert weights, sampling).

## Main definitions

* `Network` — the functions of the model.
* `Lane`, `DecodeState` — the buffers of a micro-batch, and the machine.
* `hostStep`, `runJob` — the effect of a host call and of an executor job.
* `Act`, `actStep` — both, as one alphabet.
* `PinsOk` — no pinned buffer is overwritten before it is read.
* `SameBatch` — two states agree on a micro-batch.
-/

namespace HarvestMoE

open Lib

variable {τ κ : Type*}

/-- The model, over tensors `τ` and key-value rows `κ`. -/
structure Network (τ κ : Type*) where
  /-- Query, key and value rows and the residual, from the layer, the input ids, the
  hidden states, the residual and the positions. -/
  preAttn : ℕ → List ℕ → Option τ → Option τ → List ℕ → τ × τ
  /-- The key and the value of a sequence in the rows of `preAttn`. -/
  kvRow : τ → ℕ → κ
  /-- The attention output of a layer, from the pinned rows and the rows of the pool. -/
  attention : ℕ → τ → List (List κ) → τ
  /-- Hidden states and residual, by decode step, layer and micro-batch. -/
  postAttn : ℕ → ℕ → ℕ → τ → τ → τ × τ
  /-- The logits of the last layer, by decode step and micro-batch. -/
  logits : ℕ → ℕ → τ → τ → τ
  /-- The sampled tokens, by decode step and micro-batch. -/
  sample : ℕ → ℕ → τ → List ℕ

/-- What a micro-batch leaves behind on the way. -/
inductive Event (τ κ : Type*)
  | kvWrite (layerId : ℕ) (rows : List κ)
  | hidden (layerId : ℕ) (hiddenStates residual : τ)
  | logits (values : τ)

/-- An executor job, named by the decode step, layer and micro-batch it is for. -/
structure Job where
  step : ℕ
  layerId : ℕ
  batchId : ℕ
  deriving DecidableEq, Repr

/-- A micro-batch with its pinned buffers and its attention future. -/
structure Lane (τ κ : Type*) where
  kv : KvBatch
  inputIds : List ℕ
  /-- The last output token of every request. -/
  lastIds : List ℕ
  hiddenStates : Option τ
  residual : Option τ
  qkv : Option τ
  qkvPin : τ
  hiddenPin : τ
  attnFuture : Option Job
  /-- The layer whose rows are in the pinned buffers and have not been read. -/
  qkvUnread : Option ℕ
  hiddenUnread : Option ℕ
  log : List (Event τ κ)

structure DecodeState (τ κ : Type*) where
  /-- Decode steps started. -/
  decodeStep : ℕ
  lanes : ℕ → Lane τ κ
  pool : TokenToKVPool κ

/-- Change one lane. -/
def DecodeState.modify (s : DecodeState τ κ) (k : ℕ) (lane : Lane τ κ) : DecodeState τ κ :=
  { s with lanes := Function.update s.lanes k lane }

/-- `Batch.prepare_for_decode`. -/
def Lane.prepareForDecode (b : Lane τ κ) : Lane τ κ :=
  { b with inputIds := b.lastIds, kv := b.kv.prepareForDecode }

section Step

variable (net : Network τ κ) (numLayers : ℕ)

/-- The effect of a host call. `cpu_attention` submits a job and keeps its future. A
missing tensor or future raises. -/
def hostStep (s : DecodeState τ κ) : Call → Option (DecodeState τ κ)
  | .prepareForDecode =>
      some { s with
        decodeStep := s.decodeStep + 1
        lanes := fun k => (s.lanes k).prepareForDecode }
  | .preAttention i k =>
      let b := s.lanes k
      let out := net.preAttn i b.inputIds b.hiddenStates b.residual (b.kv.seqs.map SeqKv.seqLen)
      some (s.modify k { b with qkv := some out.1, residual := some out.2 })
  | .offloadQkv i k =>
      let b := s.lanes k
      b.qkv.map fun qkv => s.modify k { b with qkvPin := qkv, qkvUnread := some i }
  | .cpuAttention i k =>
      some (s.modify k { s.lanes k with attnFuture := some ⟨s.decodeStep, i, k⟩ })
  | .loadHidden _ k =>
      let b := s.lanes k
      b.attnFuture.map fun _ =>
        s.modify k { b with hiddenStates := some b.hiddenPin, hiddenUnread := none }
  | .postAttention i _ k =>
      let b := s.lanes k
      b.hiddenStates.bind fun hidden => b.residual.map fun residual =>
        if i < numLayers - 1 then
          let out := net.postAttn s.decodeStep i k hidden residual
          s.modify k { b with
            hiddenStates := some out.1
            residual := some out.2
            log := b.log ++ [.hidden i out.1 out.2] }
        else
          let logits := net.logits s.decodeStep k hidden residual
          s.modify k { b with
            hiddenStates := none
            residual := none
            lastIds := net.sample s.decodeStep k logits
            log := b.log ++ [.logits logits] }
  | _ => some s

/-- `cpu_attetion_func`: store the key and value rows of the pinned buffer, attend over
the line, and leave the output in pinned memory. -/
def runJob (s : DecodeState τ κ) (j : Job) : Option (DecodeState τ κ) :=
  let b := s.lanes j.batchId
  let rows := (List.range b.kv.seqs.length).map (net.kvRow b.qkvPin)
  (storeKvCacheCpu s.pool b.kv j.layerId rows).bind fun pool =>
    (tokenAttentionCpu pool b.kv j.layerId).map fun reads =>
      { s.modify j.batchId { b with
          hiddenPin := net.attention j.layerId b.qkvPin reads
          qkvUnread := none
          hiddenUnread := some j.layerId
          log := b.log ++ [.kvWrite j.layerId rows] } with
        pool := pool }

end Step

/-- A call of the host, or a job of the executor. -/
inductive Act
  | host (c : Call)
  | work (j : Job)
  deriving DecidableEq, Repr

def actStep (net : Network τ κ) (numLayers : ℕ) (s : DecodeState τ κ) :
    Act → Option (DecodeState τ κ)
  | .host c => hostStep net numLayers s c
  | .work j => runJob net s j

/-- Whether an act belongs to the decoding of micro-batch `k`. -/
def Act.isOf (k : ℕ) : Act → Bool
  | .host c => c.isOf k
  | .work j => j.batchId = k

/-- No pinned buffer is overwritten before it is read: `offload_qkv` finds its buffer
read, a job finds the rows of its layer and a hidden buffer that has been read, and
`load_hidden` finds the output of its layer. -/
def PinsOk (s : DecodeState τ κ) : Act → Prop
  | .host (.offloadQkv _ k) => (s.lanes k).qkvUnread = none
  | .host (.loadHidden i k) => (s.lanes k).hiddenUnread = some i
  | .work j => (s.lanes j.batchId).qkvUnread = some j.layerId ∧
      (s.lanes j.batchId).hiddenUnread = none
  | _ => True

section Frame

variable {net : Network τ κ} {cfg : EngineConfig} {lens : List (List ℕ)} {s t u : DecodeState τ κ}
  {k : ℕ}

@[simp] theorem DecodeState.modify_decodeStep (b : Lane τ κ) :
    (s.modify k b).decodeStep = s.decodeStep := rfl

@[simp] theorem DecodeState.modify_pool (b : Lane τ κ) : (s.modify k b).pool = s.pool := rfl

@[simp] theorem DecodeState.modify_self (b : Lane τ κ) : (s.modify k b).lanes k = b := by
  simp [modify]

theorem DecodeState.modify_other {k' : ℕ} (b : Lane τ κ) (h : k' ≠ k) :
    (s.modify k b).lanes k' = s.lanes k' := by
  simp [modify, h]

/-- The prompt lengths of a micro-batch, none past the last one. -/
def lensOf (lens : List (List ℕ)) (k : ℕ) : List ℕ := lens[k]?.getD []

/-- The lanes are laid out as `batchAt` says, in lines of the pool, with room for the
steps to come. -/
structure Laid (cfg : EngineConfig) (lens : List (List ℕ)) (s : DecodeState τ κ) : Prop where
  line_eq : s.pool.cacheLine = cfg.cacheLine
  size_eq : s.pool.cpuSize = cfg.nUb * cfg.cacheLine
  step_le : s.decodeStep ≤ cfg.genLen
  kv_eq : ∀ k, (s.lanes k).kv = batchAt cfg s.decodeStep k (lensOf lens k)

/-- Two laid out states agree on micro-batch `k`: on its lane, and on its line of the
pool at every layer. -/
structure SameBatch (cfg : EngineConfig) (lens : List (List ℕ)) (k : ℕ) (s u : DecodeState τ κ) :
    Prop where
  laid : Laid cfg lens s
  laid' : Laid cfg lens u
  step_eq : s.decodeStep = u.decodeStep
  lane_eq : s.lanes k = u.lanes k
  row_eq : ∀ layerId r, k * cfg.cacheLine ≤ r → r < k * cfg.cacheLine + cfg.cacheLine →
    s.pool.kvDataCpu layerId r = u.pool.kvDataCpu layerId r

theorem SameBatch.refl (h : Laid cfg lens s) (k : ℕ) : SameBatch cfg lens k s s :=
  ⟨h, h, rfl, rfl, fun _ _ _ _ => rfl⟩

/-- A change of a lane that leaves its index tensors. -/
theorem Laid.modify (h : Laid cfg lens s) {b : Lane τ κ} (hb : b.kv = (s.lanes k).kv) :
    Laid cfg lens (s.modify k b) := by
  refine ⟨h.line_eq, h.size_eq, h.step_le, fun k' => ?_⟩
  by_cases hk : k' = k
  · subst hk
    rw [DecodeState.modify_self, hb]
    exact h.kv_eq k'
  · rw [DecodeState.modify_other b hk]
    exact h.kv_eq k'

/-- The same change of the same lane keeps two states in agreement. -/
theorem SameBatch.modify_self (h : SameBatch cfg lens k s u) {b : Lane τ κ}
    (hb : b.kv = (u.lanes k).kv) : SameBatch cfg lens k (s.modify k b) (u.modify k b) :=
  ⟨h.laid.modify (hb.trans (congrArg Lane.kv h.lane_eq).symm), h.laid'.modify hb, h.step_eq,
    by simp, h.row_eq⟩

/-- A change of another lane is not seen. -/
theorem SameBatch.modify_other (h : SameBatch cfg lens k s u) {k' : ℕ} (hne : k ≠ k')
    {b : Lane τ κ} (hb : b.kv = (s.lanes k').kv) : SameBatch cfg lens k (s.modify k' b) u :=
  ⟨h.laid.modify hb, h.laid', h.step_eq, (DecodeState.modify_other b hne).trans h.lane_eq, h.row_eq⟩

/-- The rows that the next job of a lane writes are in its line. -/
theorem Laid.stepRows_line (hadm : Admitted cfg lens) (h : Laid cfg lens s)
    (hd : 0 < s.decodeStep ∨ lensOf lens k = []) {r : ℕ} (hr : r ∈ stepRows cfg s.decodeStep k (lensOf lens k)) :
    k * cfg.cacheLine ≤ r ∧ r < k * cfg.cacheLine + cfg.cacheLine := by
  rcases hd with hd | hnil
  · cases hl : lens[k]? with
    | none => simp [lensOf, hl, stepRows] at hr
    | some l =>
        rw [lensOf, hl, Option.getD_some] at hr
        exact hadm.stepRows_line hd h.step_le hl hr
  · simp [hnil, stepRows] at hr

/-- The state after a job of a lane. -/
def jobState (net : Network τ κ) (cfg : EngineConfig) (lens : List (List ℕ)) (s : DecodeState τ κ)
    (layerId k : ℕ) : DecodeState τ κ :=
  let b := s.lanes k
  let rows := (List.range (lensOf lens k).length).map (net.kvRow b.qkvPin)
  let mem := scatter (s.pool.kvDataCpu layerId) (stepRows cfg s.decodeStep k (lensOf lens k)) rows
  let reads := (lensOf lens k).mapIdx fun i n =>
    gather mem (k * cfg.cacheLine + offset (cfg.seqCaps (lensOf lens k)) i) (n + s.decodeStep)
  { s.modify k { b with
      hiddenPin := net.attention layerId b.qkvPin reads
      qkvUnread := none
      hiddenUnread := some layerId
      log := b.log ++ [.kvWrite layerId rows] } with
    pool := { s.pool with kvDataCpu := Function.update s.pool.kvDataCpu layerId mem } }

/-- In a laid out state a job runs, once a decode step has started or when there is
nothing to attend to. -/
theorem runJob_eq (hadm : Admitted cfg lens) (h : Laid cfg lens s) {j : Job}
    (hd : 0 < s.decodeStep ∨ lensOf lens j.batchId = []) :
    runJob net s j = some (jobState net cfg lens s j.layerId j.batchId) := by
  have hseqs : (batchAt cfg s.decodeStep j.batchId (lensOf lens j.batchId)).seqs.length =
      (lensOf lens j.batchId).length := by
    simp [batchAt]
  by_cases hnil : lensOf lens j.batchId = []
  · simp [runJob, jobState, h.kv_eq j.batchId, hnil, storeKvCacheCpu, indexPut, batchAt, stepRows,
      tokenAttentionCpu]
  · cases hl : lens[j.batchId]? with
    | none => simp [lensOf, hl] at hnil
    | some l =>
        have hof : lensOf lens j.batchId = l := by simp [lensOf, hl]
        have hpos := hd.resolve_right hnil
        have hrows : ((List.range l.length).map (net.kvRow (s.lanes j.batchId).qkvPin)).length =
            l.length := by simp
        rw [hof] at hseqs
        simp only [runJob, h.kv_eq j.batchId, hof, hseqs]
        rw [storeKvCacheCpu_eq hadm h.size_eq hpos h.step_le j.layerId hl hrows, Option.bind_some,
          tokenAttentionCpu_eq _ hpos, Option.map_some]
        simp only [jobState, h.kv_eq j.batchId, hof, Function.update_self]

/-- Before the first decode step, attention of a micro-batch with sequences raises. -/
theorem runJob_zero (h : Laid cfg lens s) (hd : s.decodeStep = 0) {j : Job}
    (ht : runJob net s j = some t) : lensOf lens j.batchId = [] := by
  by_contra hne
  obtain ⟨n, l, hl⟩ := List.exists_cons_of_ne_nil hne
  have hnone : ∀ pool : TokenToKVPool κ,
      tokenAttentionCpu pool (batchAt cfg 0 j.batchId (n :: l)) j.layerId = none := by
    intro pool
    simp [tokenAttentionCpu, batchAt, seqAt, List.mapIdx_cons, List.mapM_cons]
  simp only [runJob, h.kv_eq j.batchId, hd, hl, hnone, Option.map_none] at ht
  exact absurd ht (by simp)

theorem jobState_laid (h : Laid cfg lens s) (layerId k : ℕ) :
    Laid cfg lens (jobState net cfg lens s layerId k) := by
  refine ⟨h.line_eq, h.size_eq, h.step_le, fun k' => ?_⟩
  by_cases hk : k' = k
  · subst hk
    simpa [jobState] using h.kv_eq k'
  · simpa [jobState, DecodeState.modify_other _ hk] using h.kv_eq k'

/-- A job depends on its own lane and line. -/
theorem SameBatch.job_self (hadm : Admitted cfg lens) (h : SameBatch cfg lens k s u)
    (hk : k < lens.length) (layerId : ℕ) :
    SameBatch cfg lens k (jobState net cfg lens s layerId k) (jobState net cfg lens u layerId k) := by
  obtain ⟨hs, hu, hstep, hlane, hrow⟩ := h
  have hl : lens[k]? = some (lensOf lens k) := by
    rw [lensOf, List.getElem?_eq_getElem hk, Option.getD_some]
  -- The memories after the write agree on the line, and so do the reads.
  have hmem : ∀ r, k * cfg.cacheLine ≤ r → r < k * cfg.cacheLine + cfg.cacheLine →
      ∀ values, scatter (s.pool.kvDataCpu layerId) (stepRows cfg u.decodeStep k (lensOf lens k)) values r =
        scatter (u.pool.kvDataCpu layerId) (stepRows cfg u.decodeStep k (lensOf lens k)) values r :=
    fun r h1 h2 values => scatter_congr _ values (hrow layerId r h1 h2)
  refine ⟨jobState_laid hs layerId k, jobState_laid hu layerId k, hstep, ?_, ?_⟩
  · simp only [jobState, DecodeState.modify_self, hstep, hlane]
    congr 2
    apply List.ext_getElem?
    intro i
    cases hi : (lensOf lens k)[i]? with
    | none => simp [hi]
    | some n =>
        have hin := hadm.offset_le hl hi
        have hle := hu.step_le
        simp only [List.getElem?_mapIdx, hi, Option.map_some, gather]
        congr 1
        refine List.map_congr_left fun t ht => hmem _ ?_ ?_ _
        · omega
        · have := List.mem_range.mp ht
          omega
  · intro layerId' r h1 h2
    by_cases hlayer : layerId' = layerId
    · subst hlayer
      simp only [jobState, Function.update_self, hstep, hlane]
      exact hmem r h1 h2 _
    · simpa [jobState, Function.update_of_ne hlayer] using hrow layerId' r h1 h2

/-- A job of another lane writes in its own line. -/
theorem SameBatch.job_other (hadm : Admitted cfg lens) (h : SameBatch cfg lens k s u) {k' : ℕ}
    (hd : 0 < s.decodeStep ∨ lensOf lens k' = []) (hne : k ≠ k') (layerId : ℕ) :
    SameBatch cfg lens k (jobState net cfg lens s layerId k') u := by
  refine ⟨jobState_laid h.laid layerId k', h.laid', h.step_eq, ?_, ?_⟩
  · simpa [jobState, DecodeState.modify_other _ hne] using h.lane_eq
  · intro layerId' r h1 h2
    by_cases hlayer : layerId' = layerId
    · subst hlayer
      simp only [jobState, Function.update_self]
      rw [scatter_of_notMem]
      · exact h.row_eq layerId' r h1 h2
      · intro hr
        obtain ⟨h3, h4⟩ := h.laid.stepRows_line hadm hd hr
        obtain ⟨x, rfl⟩ := Nat.exists_eq_add_of_le h1
        obtain ⟨y, hy⟩ := Nat.exists_eq_add_of_le h3
        exact hne (line_unique (show x < cfg.cacheLine by omega) (show y < cfg.cacheLine by omega) hy).1
    · simpa [jobState, Function.update_of_ne hlayer] using h.row_eq layerId' r h1 h2

/-- The machine after `prepare_for_decode`. -/
def DecodeState.prepareForDecode (s : DecodeState τ κ) : DecodeState τ κ :=
  { s with
    decodeStep := s.decodeStep + 1
    lanes := fun k => (s.lanes k).prepareForDecode }

theorem Laid.prepareForDecode (h : Laid cfg lens s) (hlt : s.decodeStep < cfg.genLen) :
    Laid cfg lens s.prepareForDecode := by
  refine ⟨h.line_eq, h.size_eq, hlt, fun k => ?_⟩
  simp only [DecodeState.prepareForDecode, Lane.prepareForDecode, h.kv_eq k]
  exact prepareForDecode_batch _ _ _

theorem SameBatch.prepareForDecode (h : SameBatch cfg lens k s u) (hlt : u.decodeStep < cfg.genLen) :
    SameBatch cfg lens k s.prepareForDecode u.prepareForDecode := by
  refine ⟨h.laid.prepareForDecode (h.step_eq ▸ hlt), h.laid'.prepareForDecode hlt, ?_, ?_, h.row_eq⟩
  · simp [DecodeState.prepareForDecode, h.step_eq]
  · simp [DecodeState.prepareForDecode, h.lane_eq]

/-- What a micro-batch decoded by itself meets at each act: its pinned buffers are free,
a step to come has room, and a job comes within a step. -/
def AloneOk (cfg : EngineConfig) (s : DecodeState τ κ) (a : Act) : Prop :=
  PinsOk s a ∧ (a = .host .prepareForDecode → s.decodeStep < cfg.genLen) ∧
    ∀ j, a = .work j → 0 < s.decodeStep

/-- A call of the lane does the same to both, once a step to come has room. -/
theorem SameBatch.host_own (net : Network τ κ) (numLayers : ℕ) {u' : DecodeState τ κ}
    (h : SameBatch cfg lens k s u) {c : Call} (hc : c.isOf k)
    (hroom : c = .prepareForDecode → u.decodeStep < cfg.genLen)
    (hu : hostStep net numLayers u c = some u') :
    ∃ s', hostStep net numLayers s c = some s' ∧ SameBatch cfg lens k s' u' := by
  cases c with
  | prepareForDecode =>
      obtain rfl := Option.some.inj hu
      exact ⟨_, rfl, h.prepareForDecode (hroom rfl)⟩
  | preAttention i k' =>
      obtain rfl : k' = k := by simpa [Call.isOf, Call.batch] using hc
      obtain rfl := Option.some.inj hu
      simp only [hostStep, h.lane_eq]
      exact ⟨_, rfl, h.modify_self rfl⟩
  | cpuAttention i k' =>
      obtain rfl : k' = k := by simpa [Call.isOf, Call.batch] using hc
      obtain rfl := Option.some.inj hu
      simp only [hostStep, h.lane_eq, h.step_eq]
      exact ⟨_, rfl, h.modify_self rfl⟩
  | offloadQkv i k' =>
      obtain rfl : k' = k := by simpa [Call.isOf, Call.batch] using hc
      simp only [hostStep] at hu
      obtain ⟨qkv, hqkv, rfl⟩ := Option.map_eq_some_iff.mp hu
      simp only [hostStep, h.lane_eq, hqkv]
      exact ⟨_, rfl, h.modify_self rfl⟩
  | loadHidden i k' =>
      obtain rfl : k' = k := by simpa [Call.isOf, Call.batch] using hc
      simp only [hostStep] at hu
      obtain ⟨j, hj, rfl⟩ := Option.map_eq_some_iff.mp hu
      simp only [hostStep, h.lane_eq, hj]
      exact ⟨_, rfl, h.modify_self rfl⟩
  | postAttention i page k' =>
      obtain rfl : k' = k := by simpa [Call.isOf, Call.batch] using hc
      simp only [hostStep] at hu
      obtain ⟨hidden, hhidden, hu⟩ := Option.bind_eq_some_iff.mp hu
      obtain ⟨residual, hresidual, rfl⟩ := Option.map_eq_some_iff.mp hu
      simp only [hostStep, h.lane_eq, hhidden, hresidual, h.step_eq]
      refine ⟨_, rfl, ?_⟩
      split_ifs <;> exact h.modify_self rfl
  | _ => simp [Call.isOf, Call.batch] at hc

/-- A call of another lane is not seen. -/
theorem SameBatch.host_other (net : Network τ κ) (numLayers : ℕ) {s' : DecodeState τ κ}
    (h : SameBatch cfg lens k s u) {c : Call} (hc : ¬ c.isOf k)
    (hs : hostStep net numLayers s c = some s') : SameBatch cfg lens k s' u := by
  cases c with
  | prepareForDecode => simp [Call.isOf] at hc
  | preAttention i k' | cpuAttention i k' =>
      have hne : k ≠ k' := fun heq => hc (by simp [Call.isOf, Call.batch, heq])
      obtain rfl := Option.some.inj hs
      exact h.modify_other hne rfl
  | offloadQkv i k' | loadHidden i k' =>
      have hne : k ≠ k' := fun heq => hc (by simp [Call.isOf, Call.batch, heq])
      simp only [hostStep] at hs
      obtain ⟨x, -, rfl⟩ := Option.map_eq_some_iff.mp hs
      exact h.modify_other hne rfl
  | postAttention i page k' =>
      have hne : k ≠ k' := fun heq => hc (by simp [Call.isOf, Call.batch, heq])
      simp only [hostStep] at hs
      obtain ⟨hidden, -, hs⟩ := Option.bind_eq_some_iff.mp hs
      obtain ⟨residual, -, rfl⟩ := Option.map_eq_some_iff.mp hs
      split_ifs <;> exact h.modify_other hne rfl
  | _ =>
      obtain rfl := Option.some.inj hs
      exact h

/-- Decoding projects to each micro-batch: its calls and jobs depend on its lane and its
line of the pool, and the others leave these alone. -/
theorem decode_projects (net : Network τ κ) (numLayers : ℕ) (hadm : Admitted cfg lens)
    (hk : k < lens.length) :
    Projects (actStep net numLayers) (Act.isOf k) (SameBatch cfg lens k) (AloneOk cfg) where
  own := by
    intro s u a u' ha hok h hu
    cases a with
    | work j =>
        obtain rfl : j.batchId = k := by simpa [Act.isOf] using ha
        have hd := hok.2.2 j rfl
        rw [actStep, runJob_eq hadm h.laid' (Or.inl hd)] at hu
        obtain rfl := Option.some.inj hu
        exact ⟨_, runJob_eq hadm h.laid (Or.inl (h.step_eq ▸ hd)), h.job_self hadm hk _⟩
    | host c => exact h.host_own net numLayers ha (fun hc => hok.2.1 (congrArg Act.host hc)) hu
  other := by
    intro s u a s' ha h hs
    cases a with
    | work j =>
        have hne : k ≠ j.batchId := fun heq => ha (by simp [Act.isOf, heq])
        have hd : 0 < s.decodeStep ∨ lensOf lens j.batchId = [] :=
          (Nat.eq_zero_or_pos s.decodeStep).symm.imp_right fun h0 => runJob_zero h.laid h0 hs
        rw [actStep, runJob_eq hadm h.laid hd] at hs
        obtain rfl := Option.some.inj hs
        exact h.job_other hadm hd hne _
    | host c => exact h.host_other net numLayers ha hs

end Frame

end HarvestMoE
