import HarvestMoE.CausalLM
import HarvestMoE.Pipeline

/-!
# Generation with the cache and the pipeline

Prefill computes the prompts of all micro-batches and brings their keys and values to the pool.
Decode feeds one token a step to each sequence and takes the rest from the pool, and the host
and its worker interleave the micro-batches. What comes out are the tokens of plain generation:
the whole sequence goes through the model for each new token, alone (`generation_exact`). The
reason is that no row of a layer depends on the rows behind it (`stage_append`).

## Main definitions

* `CausalLM.stage` — the hidden states of a sequence at a layer.
* `CausalLM.generated` — plain generation.
* `CausalLM.prefillRows`, `CausalLM.prefilledLane` — what prefill leaves.
* `InStep`, `BetweenSteps` — a micro-batch on its way through a decode step.
-/

namespace HarvestMoE

open Lib

namespace CausalLM

variable {D Q V A L : Type*} (m : CausalLM D Q V A L)

/-- The hidden states of a sequence by itself, where layer `i` begins. -/
def stage (i : ℕ) (ids : List ℕ) : List (D × Option D) :=
  ((List.range i).map m.prefillLayer).foldl (fun hs layer => layer.alone hs)
    (ids.map m.prefillNet.embedTokens)

/-- The row of a new token behind a sequence. -/
def lastRow : ℕ → List ℕ → ℕ → D × Option D
  | 0, _, t => m.prefillNet.embedTokens t
  | i + 1, ids, t =>
      let layer := m.prefillLayer i
      let x := lastRow i ids t
      layer.post x (layer.attend x ids.length
        ((m.stage i ids ++ [x]).mapIdx fun n y => layer.kv y n))

/-- The logits behind a sequence. -/
def logitsOf [Inhabited L] (ids : List ℕ) : L :=
  ((m.prefillNet.alone ids).getLast?.map fun x => m.lmHead x.1).getD default

/-- Plain generation for micro-batch `k`: the sequences after some tokens. -/
def generated [Inhabited L] (k : ℕ) (prompts : List (List ℕ)) : ℕ → List (List ℕ)
  | 0 => prompts
  | d + 1 =>
      let seqs := generated k prompts d
      List.zipWith (fun ids t => ids ++ [t]) seqs (m.sample d k (seqs.map m.logitsOf))

/-- The tokens that follow. -/
def nextTokens [Inhabited L] (k : ℕ) (prompts : List (List ℕ)) (d : ℕ) : List ℕ :=
  m.sample d k ((m.generated k prompts d).map m.logitsOf)

/-- The logits on the way, one decode step after another. -/
def generatedLogits [Inhabited L] (k : ℕ) (prompts : List (List ℕ)) (steps : ℕ) :
    List (Rows D Q V A L) :=
  (List.range steps).map fun e => .logits ((m.generated k prompts (e + 1)).map m.logitsOf)

/-- The rows of the new tokens, `f` of each sequence and its token. -/
def newRows {α : Type*} [Inhabited L] (k : ℕ) (prompts : List (List ℕ)) (d : ℕ)
    (f : List ℕ → ℕ → α) : List α :=
  List.zipWith f (m.generated k prompts d) (m.nextTokens k prompts d)

/-- The requests of a micro-batch, none of them with log-probabilities. -/
def reqsOf (prompts : List (List ℕ)) : List (PromptReq ℕ) := prompts.map fun ids => ⟨ids, false⟩

/-- The keys and values that prefill computes. -/
def prefillRows [Inhabited V] (prompts : List (List (List ℕ))) : KvRows V where
  prefill i k q p :=
    let reqs := reqsOf (prompts[k]?.getD [])
    let b := PrefillBatch.prepare reqs
    let row := promptStart reqs q + p
    (m.prefillLayer i).kv (m.prefillStage b i row) (b.positions.getD row 0)
  decode _ _ _ _ := default

/-- A micro-batch behind prefill. -/
def prefilledLane (prompts : List (List (List ℕ))) (lanes : ℕ → Lane (Rows D Q V A L) V) (k : ℕ) :
    Lane (Rows D Q V A L) V :=
  { lanes k with
    lastIds := m.sample 0 k ((m.prefillLogits (reqsOf (prompts[k]?.getD []))).getD [])
    hiddenStates := none
    residual := none
    log := [] }

end CausalLM

/-- The logits in a log. -/
def loggedLogits {τ κ : Type*} (log : List (Event τ κ)) : List τ :=
  log.filterMap fun
    | .logits values => some values
    | _ => none

section Causal

variable {H V A : Type*}

/-- **A layer adds a row for a new row, and leaves the rows before it.** -/
theorem PrefillLayer.alone_append (layer : PrefillLayer H V A) (hs : List H) (h : H) :
    layer.alone (hs ++ [h]) = layer.alone hs ++
      [layer.post h (layer.attend h hs.length ((hs ++ [h]).mapIdx fun n y => layer.kv y n))] := by
  have htake : ∀ n, n < hs.length → (hs ++ [h]).take (n + 1) = hs.take (n + 1) := fun n hn =>
    List.take_append_of_le_length hn
  rw [alone, alone, List.mapIdx_append]
  congr 1
  · refine List.ext_getElem? fun n => ?_
    rw [List.getElem?_mapIdx, List.getElem?_mapIdx]
    cases hn : hs[n]? with
    | none => rfl
    | some x => rw [Option.map_some, Option.map_some, htake n (List.getElem?_eq_some_iff.mp hn).1]
  · have hall : (hs ++ [h]).take (hs.length + 1) = hs ++ [h] := List.take_of_length_le (by simp)
    simp only [List.mapIdx_cons, List.mapIdx_nil, Nat.zero_add, hall]

variable {D Q L : Type*} {m : CausalLM D Q V A L}

namespace CausalLM

theorem stage_succ (i : ℕ) (ids : List ℕ) :
    m.stage (i + 1) ids = (m.prefillLayer i).alone (m.stage i ids) := by
  rw [stage, List.range_succ, List.map_append, List.foldl_append]
  rfl

theorem length_stage (i : ℕ) (ids : List ℕ) : (m.stage i ids).length = ids.length := by
  induction i with
  | zero => simp [stage]
  | succ i ih => rw [stage_succ, PrefillLayer.length_alone, ih]

/-- **The rows of a sequence stay when it grows.** -/
theorem stage_append (i : ℕ) (ids : List ℕ) (t : ℕ) :
    m.stage i (ids ++ [t]) = m.stage i ids ++ [m.lastRow i ids t] := by
  induction i with
  | zero => simp [stage, lastRow]
  | succ i ih =>
      rw [stage_succ, ih, PrefillLayer.alone_append, stage_succ, length_stage]
      rfl

theorem stage_isPrefix (i : ℕ) (ids more : List ℕ) : m.stage i ids <+: m.stage i (ids ++ more) := by
  induction more generalizing ids with
  | nil => simp
  | cons t more ih =>
      rw [List.append_cons]
      exact (stage_append i ids t ▸ List.prefix_append _ _).trans (ih (ids ++ [t]))

theorem alone_eq_stage (ids : List ℕ) :
    m.prefillNet.alone ids = (m.stage m.numHiddenLayers ids).map m.prefillNet.norm := rfl

theorem logitsOf_append [Inhabited L] (ids : List ℕ) (t : ℕ) :
    m.logitsOf (ids ++ [t]) =
      m.lmHead (m.prefillNet.norm (m.lastRow m.numHiddenLayers ids t)).1 := by
  rw [logitsOf, alone_eq_stage, stage_append]
  simp

/-- The key and the value of position `p` of a sequence. -/
def kvAt [Inhabited V] (m : CausalLM D Q V A L) (i : ℕ) (ids : List ℕ) (p : ℕ) : V :=
  ((m.stage i ids)[p]?.map fun x => (m.prefillLayer i).kv x p).getD default

variable [Inhabited V]

theorem kvAt_append {i p : ℕ} {ids : List ℕ} (hp : p < ids.length) (more : List ℕ) :
    m.kvAt i (ids ++ more) p = m.kvAt i ids p := by
  have hp : p < (m.stage i ids).length := by rwa [length_stage]
  rw [kvAt, kvAt, List.prefix_iff_getElem?.mp (stage_isPrefix i ids more) p hp,
    List.getElem?_eq_getElem hp]

theorem kvAt_last (i : ℕ) (ids : List ℕ) (t : ℕ) :
    m.kvAt i (ids ++ [t]) ids.length = (m.prefillLayer i).kv (m.lastRow i ids t) ids.length := by
  rw [kvAt, stage_append, ← length_stage (m := m) i ids, List.getElem?_concat_length]
  rfl

/-- The keys and values that a new token attends to. -/
theorem map_kvAt (i : ℕ) (ids : List ℕ) :
    (List.range ids.length).map (m.kvAt i ids) =
      (m.stage i ids).mapIdx fun n x => (m.prefillLayer i).kv x n := by
  refine List.ext_getElem? fun n => ?_
  rw [List.getElem?_map, List.getElem?_mapIdx]
  by_cases hn : n < ids.length
  · have hn' : n < (m.stage i ids).length := by rwa [length_stage]
    rw [List.getElem?_range hn, Option.map_some, kvAt, List.getElem?_eq_getElem hn',
      Option.map_some]
    rfl
  · rw [List.getElem?_eq_none (by simpa using hn),
      List.getElem?_eq_none (by simpa [length_stage] using hn)]
    rfl

end CausalLM

end Causal

section Plain

/-- Each list gets one element more. -/
theorem map_length_zipWith {α : Type*} {xss : List (List α)} {ys : List α}
    (h : ys.length = xss.length) :
    (List.zipWith (fun xs y => xs ++ [y]) xss ys).map List.length =
      (xss.map List.length).map (· + 1) := by
  induction xss generalizing ys with
  | nil => rfl
  | cons xs xss ih =>
      cases ys with
      | nil => simp at h
      | cons y ys =>
          rw [List.zipWith_cons_cons, List.map_cons, ih (Nat.succ.inj h), List.length_append]
          rfl

namespace CausalLM

variable {D Q V A L : Type*} [Inhabited L] {m : CausalLM D Q V A L} {k q : ℕ}
  {prompts : List (List ℕ)} {p : List ℕ}

/-- Sampling gives a token for each row. -/
def SamplesEach (m : CausalLM D Q V A L) : Prop :=
  ∀ d k logits, (m.sample d k logits).length = logits.length

theorem generated_succ (d : ℕ) : m.generated k prompts (d + 1) =
    m.newRows k prompts d fun ids t => ids ++ [t] := rfl

theorem length_nextTokens (hsample : m.SamplesEach) (d : ℕ) :
    (m.nextTokens k prompts d).length = (m.generated k prompts d).length := by
  rw [nextTokens, hsample, List.length_map]

/-- A sequence has one token more for each step, behind those it had. -/
theorem generated_at (hsample : m.SamplesEach) (hq : prompts[q]? = some p) (d : ℕ) :
    ∃ ids, (m.generated k prompts d)[q]? = some ids ∧ ids.length = p.length + d ∧
      ∀ e, ∃ more, (m.generated k prompts (d + e))[q]? = some (ids ++ more) := by
  have hnext : ∀ d ids, (m.generated k prompts d)[q]? = some ids →
      ∃ t, (m.generated k prompts (d + 1))[q]? = some (ids ++ [t]) := by
    intro d ids hids
    have hlt := (List.getElem?_eq_some_iff.mp hids).1
    rw [← length_nextTokens hsample] at hlt
    refine ⟨(m.nextTokens k prompts d)[q], ?_⟩
    rw [generated_succ, newRows, List.getElem?_zipWith, hids, List.getElem?_eq_getElem hlt]
  have hgrows : ∀ d ids, (m.generated k prompts d)[q]? = some ids → ∀ e, ∃ more,
      (m.generated k prompts (d + e))[q]? = some (ids ++ more) := by
    intro d ids hids e
    induction e with
    | zero => exact ⟨[], by rwa [List.append_nil]⟩
    | succ e ih =>
        rcases ih with ⟨more, hmore⟩
        rcases hnext _ _ hmore with ⟨t, ht⟩
        exact ⟨more ++ [t], by rw [← List.append_assoc]; exact ht⟩
  induction d with
  | zero => exact ⟨p, hq, rfl, hgrows 0 p hq⟩
  | succ d ih =>
      rcases ih with ⟨ids, hids, hlen, -⟩
      rcases hnext d ids hids with ⟨t, ht⟩
      exact ⟨ids ++ [t], ht, by simp [hlen, Nat.add_assoc], hgrows _ _ ht⟩

/-- The lengths in a decode step. -/
theorem map_length_generated (hsample : m.SamplesEach) (k : ℕ) (prompts : List (List ℕ)) (d : ℕ) :
    (m.generated k prompts d).map List.length = prompts.map fun p => p.length + d := by
  induction d with
  | zero => simp [generated]
  | succ d ih =>
      rw [generated_succ, newRows, map_length_zipWith (length_nextTokens hsample d), ih,
        List.map_map]
      rfl

end CausalLM

end Plain

section Prefill

namespace CausalLM

variable {D Q V A L : Type*} {m : CausalLM D Q V A L} {prompts : List (List (List ℕ))} {k q : ℕ}
  {ps : List (List ℕ)} {ids : List ℕ}

/-- Prefill of a micro-batch has the rows of each prompt by itself, at every layer. -/
theorem prefillStage_row (i : ℕ) (hq : ps[q]? = some ids) {p : ℕ} (hp : p < ids.length) :
    (m.stage i ids)[p]? = some (m.prefillStage (PrefillBatch.prepare (reqsOf ps)) i
      (promptStart (reqsOf ps) q + p)) := by
  -- The first layers are a net of their own.
  let net : PrefillNet ℕ (D × Option D) V A :=
    { embedTokens := m.prefillNet.embedTokens
      layers := (List.range i).map m.prefillLayer
      norm := id }
  have hreq : (reqsOf ps)[q]? = some ⟨ids, false⟩ := by rw [reqsOf, List.getElem?_map, hq]; rfl
  have hrows := (rowsAre_prefillHidden net (reqsOf ps) q _ hreq).2 p hp
  change ((m.stage i ids).map id)[p]? = _ at hrows
  rwa [List.map_id] at hrows

theorem prefillRows_eq [Inhabited V] (hk : prompts[k]? = some ps) (hq : ps[q]? = some ids) (i : ℕ)
    {p : ℕ} (hp : p < ids.length) : (m.prefillRows prompts).prefill i k q p = m.kvAt i ids p := by
  have hreq : (reqsOf ps)[q]? = some ⟨ids, false⟩ := by rw [reqsOf, List.getElem?_map, hq]; rfl
  have hposition : (PrefillBatch.prepare (reqsOf ps)).positions.getD
      (promptStart (reqsOf ps) q + p) 0 = p := by
    rw [List.getD_eq_getElem?_getD, getElem?_positions hreq hp, Option.getD_some]
  simp only [prefillRows, hk, Option.getD_some, hposition]
  rw [kvAt, prefillStage_row i hq hp]
  rfl

/-- Prefill samples from the last rows of the prompts. -/
theorem prefillLogits_eq [Inhabited L] (hne : ps ≠ []) (hps : ∀ ids ∈ ps, ids ≠ []) :
    m.prefillLogits (reqsOf ps) = some (ps.map m.logitsOf) := by
  have hflat : (reqsOf ps).flatMap PromptReq.inputIds ≠ [] := by
    cases ps with
    | nil => exact absurd rfl hne
    | cons ids ps => simp [reqsOf, hps ids List.mem_cons_self]
  have hlog : ∀ r ∈ reqsOf ps, r.returnLogprob = false := by
    intro r hr
    rcases List.mem_map.mp hr with ⟨ids, -, rfl⟩
    rfl
  rw [prefillLogits, lastHidden_eq _ hlog hflat, Option.map_some, List.map_map]
  congr 1
  refine List.ext_getElem? fun q => ?_
  rw [List.getElem?_map, List.getElem?_map]
  cases hq : ps[q]? with
  | none => rw [List.getElem?_eq_none (by simpa [reqsOf] using hq)]; rfl
  | some ids =>
      have hlt : q < (reqsOf ps).length := by
        simpa [reqsOf] using (List.getElem?_eq_some_iff.mp hq).1
      have hreq : (reqsOf ps)[q]? = some ⟨ids, false⟩ := by rw [reqsOf, List.getElem?_map, hq]; rfl
      have hlast : (m.prefillNet.alone ids).getLast? = _ :=
        prefillHidden_selectedRow hreq (hps ids (List.mem_of_getElem? hq))
      rw [List.getElem?_range hlt, Option.map_some, Option.map_some, logitsOf, hlast]
      rfl

variable [Inhabited L] [Inhabited V]

/-- A sequence after the last decode step. -/
def finalIds (m : CausalLM D Q V A L) (prompts : List (List (List ℕ))) (steps k q : ℕ) : List ℕ :=
  (m.generated k (prompts[k]?.getD []) steps)[q]?.getD []

/-- The keys and values of plain generation. -/
def generationRows (m : CausalLM D Q V A L) (prompts : List (List (List ℕ))) (steps : ℕ) :
    KvRows V where
  prefill i k q p := m.kvAt i (m.finalIds prompts steps k q) p
  decode d i k q :=
    m.kvAt i (m.finalIds prompts steps k q) (((prompts[k]?.getD [])[q]?.getD []).length + d - 1)

/-- The row of a token is that of its position, whether it was in the prompt or not. -/
theorem generationRows_own (steps i : ℕ) (hk : prompts[k]? = some ps) (hq : ps[q]? = some ids)
    (p : ℕ) :
    (m.generationRows prompts steps).own i k q ids.length p =
      m.kvAt i (m.finalIds prompts steps k q) p := by
  rw [KvRows.own]
  split_ifs with hp
  · rfl
  · simp only [generationRows, hk, hq, Option.getD_some]
    congr 1
    omega

/-- Up to a decode step the positions have the rows of the sequence so far. -/
theorem kvAt_finalIds (hsample : m.SamplesEach) {steps d : ℕ} (hd : d ≤ steps)
    (hk : prompts[k]? = some ps) (hq : ps[q]? = some ids) {seq : List ℕ}
    (hseq : (m.generated k ps d)[q]? = some seq) (i : ℕ) {p : ℕ} (hp : p < seq.length) :
    m.kvAt i (m.finalIds prompts steps k q) p = m.kvAt i seq p := by
  rcases generated_at (k := k) hsample hq d with ⟨seq', hseq', -, hmore⟩
  obtain rfl : seq = seq' := Option.some.inj (hseq.symm.trans hseq')
  rcases hmore (steps - d) with ⟨more, hmore⟩
  rw [Nat.add_sub_cancel' hd] at hmore
  rw [finalIds, hk, Option.getD_some, hmore, Option.getD_some, kvAt_append hp]

/-- The lengths of the prompts. -/
def promptLens (prompts : List (List (List ℕ))) : List (List ℕ) :=
  prompts.map fun ps => ps.map List.length

@[simp] theorem length_promptLens (prompts : List (List (List ℕ))) :
    (promptLens prompts).length = prompts.length := by
  simp [promptLens]

theorem getElem?_promptLens {l : List ℕ} (hl : (promptLens prompts)[k]? = some l) :
    ∃ ps, prompts[k]? = some ps ∧ l = ps.map List.length := by
  rw [promptLens, List.getElem?_map] at hl
  rcases Option.map_eq_some_iff.mp hl with ⟨ps, hps, rfl⟩
  exact ⟨ps, hps, rfl⟩

/-- What prefill brings to the pool is what plain generation has there. -/
theorem holds_generationRows {cfg : EngineConfig} (hsample : m.SamplesEach) (steps i : ℕ)
    {s : KvState V} (h : Holds cfg (m.prefillRows prompts) (promptLens prompts) i k 0 s) :
    Holds cfg (m.generationRows prompts steps) (promptLens prompts) i k 0 s := by
  intro l hl q n hn p hp
  rcases getElem?_promptLens hl with ⟨ps, hk, rfl⟩
  rw [List.getElem?_map] at hn
  rcases Option.map_eq_some_iff.mp hn with ⟨ids, hq, rfl⟩
  rw [Nat.add_zero] at hp
  have hprompt : (m.generated k ps 0)[q]? = some ids := hq
  rw [h _ hl q _ (by rw [List.getElem?_map, hq]; rfl) p hp, generationRows_own steps i hk hq,
    kvAt_finalIds hsample (Nat.zero_le steps) hk hq hprompt i hp, KvRows.own, if_pos hp,
    prefillRows_eq hk hq i hp]

end CausalLM

end Prefill

section Job

variable {τ κ : Type*} {net : Network τ κ} {cfg : EngineConfig} {lens : List (List ℕ)}
  {rows : KvRows κ} {s : DecodeState τ κ} {i k : ℕ}

/-- The KV side of the machine. -/
def DecodeState.kvState (cfg : EngineConfig) (lens : List (List ℕ)) (s : DecodeState τ κ) :
    KvState κ :=
  ⟨s.pool, lens.mapIdx (batchAt cfg s.decodeStep), s.decodeStep⟩

theorem Laid.kvAt (h : Laid cfg lens s) : KvAt cfg lens s.decodeStep (s.kvState cfg lens) :=
  ⟨h.line_eq, h.size_eq, rfl, rfl⟩

/-- A job whose rows are those of its step brings them to the pool, and attends to all rows of
its sequences so far. -/
theorem runJob_holds (hadm : Admitted cfg lens) (hs : Laid cfg lens s) (hd : 0 < s.decodeStep)
    {l : List ℕ} (hl : lens[k]? = some l)
    (hrows : ∀ q < l.length, net.kvRow (s.lanes k).qkvPin q = rows.decode s.decodeStep i k q)
    (hheld : Holds cfg rows lens i k (s.decodeStep - 1) (s.kvState cfg lens)) (d : ℕ) :
    ∃ t, runJob net s ⟨d, i, k⟩ = some t ∧ Laid cfg lens t ∧ t.decodeStep = s.decodeStep ∧
      (∃ written, t.lanes k = { s.lanes k with
        hiddenPin := net.attention i (s.lanes k).qkvPin
          (l.mapIdx fun q n => (List.range (n + s.decodeStep)).map (rows.own i k q n))
        qkvUnread := none
        hiddenUnread := some i
        log := (s.lanes k).log ++ [.kvWrite i written] }) ∧
      Holds cfg rows lens i k s.decodeStep (t.kvState cfg lens) ∧
      ∀ j d', d' ≤ cfg.genLen → Holds cfg rows lens j k d' (s.kvState cfg lens) →
        Holds cfg rows lens j k d' (t.kvState cfg lens) := by
  have hkv : (s.lanes k).kv = batchAt cfg s.decodeStep k l := by
    rw [hs.kv_eq k, lensOf, hl, Option.getD_some]
  rcases cpuAttention_holds rows hadm hs.kvAt hd hs.step_le i hl with ⟨t, ht, hat, hnew, hkeep⟩
  simp only [kvStep, hs.kvAt.getElem? hl, Option.bind_some] at ht
  rcases Option.map_eq_some_iff.mp ht with ⟨pool, hpool, rfl⟩
  have hvalues : (List.range (batchAt cfg s.decodeStep k l).seqs.length).map
        (net.kvRow (s.lanes k).qkvPin) =
      rows.step s.decodeStep i k (batchAt cfg s.decodeStep k l) := by
    refine List.ext_getElem? fun q => ?_
    simp only [KvRows.step, batchAt, List.getElem?_map, List.length_mapIdx]
    by_cases hq : q < l.length
    · simp [List.getElem?_range hq, hrows q hq, List.getElem?_eq_getElem hq]
    · simp [Nat.le_of_not_lt hq]
  have hreads : tokenAttentionCpu pool (batchAt cfg s.decodeStep k l) i =
      some (l.mapIdx fun q n => (List.range (n + s.decodeStep)).map (rows.own i k q n)) := by
    refine ((hnew hheld).reads hd hl).trans (congrArg some ?_)
    simp only [batchAt, List.mapIdx_mapIdx]
    rfl
  let lane : Lane τ κ := { s.lanes k with
    hiddenPin := net.attention i (s.lanes k).qkvPin
      (l.mapIdx fun q n => (List.range (n + s.decodeStep)).map (rows.own i k q n))
    qkvUnread := none
    hiddenUnread := some i
    log := (s.lanes k).log ++
      [.kvWrite i (rows.step s.decodeStep i k (batchAt cfg s.decodeStep k l))] }
  have hrun : runJob net s ⟨d, i, k⟩ = some { s.modify k lane with pool := pool } := by
    simp only [runJob, hkv, hvalues]
    rw [show storeKvCacheCpu s.pool (batchAt cfg s.decodeStep k l) i
      (rows.step s.decodeStep i k (batchAt cfg s.decodeStep k l)) = some pool from hpool,
      Option.bind_some, hreads, Option.map_some]
    simp only [lane, hkv]
  refine ⟨_, hrun, ⟨hat.line_eq, hat.size_eq, hs.step_le, fun k' => ?_⟩, rfl,
    ⟨_, DecodeState.modify_self lane⟩, hnew hheld, fun j d' hd' => hkeep j k d' hd'⟩
  have hlane : lane.kv = (s.lanes k).kv := rfl
  exact (hs.modify hlane).kv_eq k'

end Job

section Decode

variable {D Q V A L : Type*} [Inhabited L] [Inhabited V]

/-- Between two decode steps a micro-batch is behind the tokens of plain generation. -/
structure BetweenSteps (m : CausalLM D Q V A L) (cfg : EngineConfig)
    (prompts : List (List (List ℕ))) (steps k : ℕ) (ps : List (List ℕ)) (d : ℕ)
    (s : DecodeState (Rows D Q V A L) V) : Prop where
  laid : Laid cfg (CausalLM.promptLens prompts) s
  step_eq : s.decodeStep = d
  hiddenStates : (s.lanes k).hiddenStates = none
  lastIds : (s.lanes k).lastIds = m.nextTokens k ps d
  held : ∀ i < m.numHiddenLayers, Holds cfg (m.generationRows prompts steps)
    (CausalLM.promptLens prompts) i k d (s.kvState cfg (CausalLM.promptLens prompts))
  logits : loggedLogits (s.lanes k).log = m.generatedLogits k ps d

/-- A decode step after `d` others, where layer `i` begins. -/
structure InStep (m : CausalLM D Q V A L) (cfg : EngineConfig)
    (prompts : List (List (List ℕ))) (steps k : ℕ) (ps : List (List ℕ)) (d i : ℕ)
    (s : DecodeState (Rows D Q V A L) V) : Prop where
  laid : Laid cfg (CausalLM.promptLens prompts) s
  step_eq : s.decodeStep = d + 1
  rowsIn : m.rowsIn (s.lanes k).inputIds (s.lanes k).hiddenStates (s.lanes k).residual =
    m.newRows k ps d (m.lastRow i)
  held : ∀ j < m.numHiddenLayers, Holds cfg (m.generationRows prompts steps)
    (CausalLM.promptLens prompts) j k (if j < i then d + 1 else d)
    (s.kvState cfg (CausalLM.promptLens prompts))
  logits : loggedLogits (s.lanes k).log = m.generatedLogits k ps d

variable {m : CausalLM D Q V A L} {cfg : EngineConfig} {prompts : List (List (List ℕ))}
  {steps k d i : ℕ} {ps : List (List ℕ)} {s : DecodeState (Rows D Q V A L) V}

/-- Rows of sequences and their new tokens, combined with other rows of these. -/
theorem zipWith_zipWith_zipWith {α β γ δ ε : Type*} (f : γ → δ → ε) (g : α → β → γ) (h : α → β → δ)
    (xs : List α) (ys : List β) :
    List.zipWith f (List.zipWith g xs ys) (List.zipWith h xs ys) =
      List.zipWith (fun x y => f (g x y) (h x y)) xs ys := by
  induction xs generalizing ys with
  | nil => rfl
  | cons x xs ih =>
      cases ys with
      | nil => rfl
      | cons y ys => simp only [List.zipWith_cons_cons, ih]

theorem zipWith_zipWith_map {α β γ δ ε : Type*} (f : γ → δ → ε) (g : α → β → γ) (h : α → δ)
    (xs : List α) (ys : List β) :
    List.zipWith f (List.zipWith g xs ys) (xs.map h) =
      List.zipWith (fun x y => f (g x y) (h x)) xs ys := by
  induction xs generalizing ys with
  | nil => rfl
  | cons x xs ih =>
      cases ys with
      | nil => rfl
      | cons y ys => simp only [List.zipWith_cons_cons, List.map_cons, ih]

theorem zipWith_right {α β γ : Type*} {f : β → γ} {xs : List α} {ys : List β}
    (h : ys.length ≤ xs.length) : List.zipWith (fun _ y => f y) xs ys = ys.map f := by
  rw [← List.map_uncurry_zip_eq_zipWith]
  conv_rhs => rw [← List.map_snd_zip h, List.map_map]
  rfl

/-- The lengths that a decode step sees are those of the sequences with their new tokens. -/
theorem InStep.seqLens (hsample : m.SamplesEach) (hk : prompts[k]? = some ps)
    (h : InStep m cfg prompts steps k ps d i s) :
    (s.lanes k).kv.seqs.map SeqKv.seqLen = (m.generated k ps d).map fun ids => ids.length + 1 := by
  have hlens : lensOf (CausalLM.promptLens prompts) k = ps.map List.length := by
    simp [lensOf, CausalLM.promptLens, hk]
  have hgen := congrArg (List.map (· + 1))
    (CausalLM.map_length_generated hsample k ps d)
  rw [List.map_map, List.map_map] at hgen
  rw [h.laid.kv_eq k, h.step_eq, hlens]
  refine Eq.trans ?_ hgen.symm
  refine List.ext_getElem? fun q => ?_
  simp only [batchAt, List.getElem?_map, List.getElem?_mapIdx]
  cases ps[q]? <;> rfl

namespace CausalLM

/-- The row of a new token up to attention, and what attention makes of it. -/
def newRow (m : CausalLM D Q V A L) (i : ℕ) (ids : List ℕ) (t : ℕ) : (Q × V) × D :=
  m.preAttn i (m.lastRow i ids t) ids.length

def newAttn (m : CausalLM D Q V A L) (i : ℕ) (ids : List ℕ) (t : ℕ) : A :=
  (m.layers i).attn (m.newRow i ids t).1.1
    ((List.range (ids.length + 1)).map (m.kvAt i (ids ++ [t])))

omit [Inhabited L] in
/-- The rest of the layer gives the row that enters the next one. -/
theorem lastRow_succ (i : ℕ) (ids : List ℕ) (t : ℕ) :
    m.lastRow (i + 1) ids t =
      ((m.postAttn i (m.newAttn i ids t) (m.newRow i ids t).2).1,
        some (m.postAttn i (m.newAttn i ids t) (m.newRow i ids t).2).2) := by
  have hkv := map_kvAt (m := m) i (ids ++ [t])
  rw [List.length_append, List.length_singleton, stage_append] at hkv
  rw [newAttn, hkv]
  rfl

/-- The new token of a sequence, and the rows of plain generation up to it. -/
theorem generationRows_new (hsample : m.SamplesEach) (hd : d < steps) (hk : prompts[k]? = some ps)
    {q : ℕ} {p : List ℕ} (hq : ps[q]? = some p) :
    ∃ ids t, (m.generated k ps d)[q]? = some ids ∧ (m.nextTokens k ps d)[q]? = some t ∧
      ids.length = p.length + d ∧
      ∀ i, (∀ x < ids.length + 1, (m.generationRows prompts steps).own i k q p.length x =
          m.kvAt i (ids ++ [t]) x) ∧
        (m.generationRows prompts steps).decode (d + 1) i k q = (m.newRow i ids t).1.2 := by
  rcases generated_at (k := k) hsample hq d with ⟨ids, hids, hlen, -⟩
  have hlt : q < (m.nextTokens k ps d).length := by
    rw [length_nextTokens hsample]
    exact (List.getElem?_eq_some_iff.mp hids).1
  have hnext : (m.generated k ps (d + 1))[q]? = some (ids ++ [(m.nextTokens k ps d)[q]]) := by
    rw [generated_succ, newRows, List.getElem?_zipWith, hids, List.getElem?_eq_getElem hlt]
  have hfinal : ∀ i, ∀ x < ids.length + 1, m.kvAt i (m.finalIds prompts steps k q) x =
      m.kvAt i (ids ++ [(m.nextTokens k ps d)[q]]) x := fun i x hx =>
    kvAt_finalIds hsample hd hk hq hnext i (by simpa using hx)
  refine ⟨ids, _, hids, List.getElem?_eq_getElem hlt, hlen, fun i => ⟨fun x hx => ?_, ?_⟩⟩
  · rw [generationRows_own steps i hk hq, hfinal i x hx]
  · have hpos : p.length + (d + 1) - 1 = ids.length := by omega
    simp only [generationRows, hk, hq, Option.getD_some, hpos]
    rw [hfinal i _ ids.length.lt_succ_self, kvAt_last]
    rfl

/-- The queries, keys and values of the new tokens, as decode passes them. -/
def newQkv (m : CausalLM D Q V A L) (k : ℕ) (ps : List (List ℕ)) (d i : ℕ) : Rows D Q V A L :=
  .qkv (m.newRows k ps d fun ids t => (m.newRow i ids t).1)

/-- The key and the value that a job finds for a sequence are those of plain generation. -/
theorem kvRow_newQkv (hsample : m.SamplesEach) (hd : d < steps) (hk : prompts[k]? = some ps) (i : ℕ)
    {q : ℕ} (hq : q < ps.length) :
    m.network.kvRow (m.newQkv k ps d i) q =
      (m.generationRows prompts steps).decode (d + 1) i k q := by
  rcases generationRows_new hsample hd hk (List.getElem?_eq_getElem hq) with
    ⟨ids, t, hids, ht, -, hrow⟩
  rw [(hrow i).2]
  simp [network, newQkv, newRows, Rows.asQkv, List.getElem?_zipWith, hids, ht]

/-- The rows of the pool are those of the sequences with their new tokens. -/
theorem mapIdx_own (hsample : m.SamplesEach) (hd : d < steps) (hk : prompts[k]? = some ps) (i : ℕ) :
    (ps.map List.length).mapIdx (fun q n => (List.range (n + (d + 1))).map
        ((m.generationRows prompts steps).own i k q n)) =
      m.newRows k ps d fun ids t => (List.range (ids.length + 1)).map (m.kvAt i (ids ++ [t])) := by
  refine List.ext_getElem? fun q => ?_
  rw [List.getElem?_mapIdx, List.getElem?_map, newRows, List.getElem?_zipWith]
  cases hq : ps[q]? with
  | none =>
      have hlen := congrArg List.length (map_length_generated hsample k ps d)
      rw [List.length_map, List.length_map] at hlen
      rw [List.getElem?_eq_none (hlen ▸ List.getElem?_eq_none_iff.mp hq)]
      rfl
  | some p =>
      rcases generationRows_new hsample hd hk hq with ⟨ids, t, hids, ht, hlen, hrow⟩
      have hnum : p.length + (d + 1) = ids.length + 1 := by omega
      simp only [hids, ht, Option.map_some, hnum]
      exact congrArg some (List.map_congr_left fun x hx => (hrow i).1 x (List.mem_range.mp hx))

end CausalLM

/-- The rows up to attention are those of the new tokens. -/
theorem InStep.preAttn_eq (hsample : m.SamplesEach) (hk : prompts[k]? = some ps)
    (h : InStep m cfg prompts steps k ps d i s) :
    m.network.preAttn i (s.lanes k).inputIds (s.lanes k).hiddenStates (s.lanes k).residual
        ((s.lanes k).kv.seqs.map SeqKv.seqLen) =
      (m.newQkv k ps d i, .hidden (m.newRows k ps d fun ids t => (m.newRow i ids t).2)) := by
  simp only [CausalLM.network, h.rowsIn, h.seqLens hsample hk, CausalLM.newRows,
    zipWith_zipWith_map, Nat.add_sub_cancel, List.map_zipWith]
  rfl

/-- Attention of a decode step has the rows of the new tokens, and leaves theirs in the pool. -/
theorem InStep.attends (hadm : Admitted cfg (CausalLM.promptLens prompts)) (hsample : m.SamplesEach)
    (hd : d < steps) (hk : prompts[k]? = some ps) (hi : i < m.numHiddenLayers)
    (h : InStep m cfg prompts steps k ps d i s) :
    ∃ t, exec (actStep m.network m.numHiddenLayers) s [.host (.preAttention i k),
        .host (.offloadQkv i k), .host (.cpuAttention i k), .work ⟨d + 1, i, k⟩] = some t ∧
      Laid cfg (CausalLM.promptLens prompts) t ∧ t.decodeStep = d + 1 ∧
      (t.lanes k).hiddenPin = .attn (m.newRows k ps d (m.newAttn i)) ∧
      (t.lanes k).residual = some (.hidden (m.newRows k ps d fun ids t => (m.newRow i ids t).2)) ∧
      (t.lanes k).attnFuture = some ⟨d + 1, i, k⟩ ∧
      (∀ j < m.numHiddenLayers, Holds cfg (m.generationRows prompts steps)
        (CausalLM.promptLens prompts) j k (if j < i + 1 then d + 1 else d)
        (t.kvState cfg (CausalLM.promptLens prompts))) ∧
      loggedLogits (t.lanes k).log = loggedLogits (s.lanes k).log := by
  have hl : (CausalLM.promptLens prompts)[k]? = some (ps.map List.length) := by
    rw [CausalLM.promptLens, List.getElem?_map, hk]
    rfl
  let lane : Lane (Rows D Q V A L) V := { s.lanes k with
    qkv := some (m.newQkv k ps d i)
    residual := some (.hidden (m.newRows k ps d fun ids t => (m.newRow i ids t).2))
    qkvPin := m.newQkv k ps d i
    qkvUnread := some i
    attnFuture := some ⟨d + 1, i, k⟩ }
  have hcalls : exec (actStep m.network m.numHiddenLayers) s
      [.host (.preAttention i k), .host (.offloadQkv i k), .host (.cpuAttention i k)] =
      some (s.modify k lane) := by
    simp [exec, actStep, hostStep, h.preAttn_eq hsample hk, lane, DecodeState.modify, h.step_eq]
  have hlaid : Laid cfg (CausalLM.promptLens prompts) (s.modify k lane) := h.laid.modify rfl
  have hstep : (s.modify k lane).decodeStep = d + 1 := h.step_eq
  have hheld : Holds cfg (m.generationRows prompts steps) (CausalLM.promptLens prompts) i k
      ((s.modify k lane).decodeStep - 1)
      ((s.modify k lane).kvState cfg (CausalLM.promptLens prompts)) := by
    have hi := h.held i hi
    rw [if_neg (lt_irrefl i)] at hi
    rwa [hstep]
  have hnew : ∀ q < (ps.map List.length).length,
      m.network.kvRow ((s.modify k lane).lanes k).qkvPin q =
        (m.generationRows prompts steps).decode (s.modify k lane).decodeStep i k q := by
    intro q hq
    rw [List.length_map] at hq
    rw [hstep, DecodeState.modify_self]
    exact CausalLM.kvRow_newQkv hsample hd hk i hq
  rcases runJob_holds hadm hlaid (by omega) hl hnew hheld (d + 1) with
    ⟨t, ht, htlaid, htstep, ⟨written, hlane⟩, htheld, hkeep⟩
  rw [hstep, CausalLM.mapIdx_own hsample hd hk, DecodeState.modify_self] at hlane
  have hrun : exec (actStep m.network m.numHiddenLayers) s ([.host (.preAttention i k),
      .host (.offloadQkv i k), .host (.cpuAttention i k)] ++ [.work ⟨d + 1, i, k⟩]) = some t := by
    rw [exec_append, hcalls, Option.bind_some, exec_cons]
    simp only [actStep, ht, Option.bind_some, exec_nil]
  refine ⟨t, hrun, htlaid, htstep.trans hstep, ?_, ?_, ?_, fun j hj => ?_, ?_⟩
  · rw [hlane]
    exact congrArg Rows.attn (zipWith_zipWith_zipWith _ _ _ _ _)
  · rw [hlane]
  · rw [hlane]
  · have hkept := h.held j hj
    have hle := h.laid.step_le
    rw [h.step_eq] at hle
    rcases Nat.lt_trichotomy j i with hji | rfl | hji
    · rw [if_pos hji] at hkept
      rw [if_pos (by omega)]
      exact hkeep j _ hle hkept
    · rw [if_pos j.lt_succ_self]
      rwa [hstep] at htheld
    · rw [if_neg (by omega)] at hkept
      rw [if_neg (by omega)]
      exact hkeep j _ (by omega) hkept
  · rw [hlane]
    simp [loggedLogits, lane]

/-- Where the micro-batch is when layer `i` of the step is done. -/
def AfterLayer (m : CausalLM D Q V A L) (cfg : EngineConfig) (prompts : List (List (List ℕ)))
    (steps k : ℕ) (ps : List (List ℕ)) (d i : ℕ) (s : DecodeState (Rows D Q V A L) V) : Prop :=
  if i < m.numHiddenLayers then InStep m cfg prompts steps k ps d i s
  else BetweenSteps m cfg prompts steps k ps (d + 1) s

/-- **A layer takes the rows of the new tokens to the next layer, and the last one takes the
sequences to the next tokens.** -/
theorem InStep.layer (hadm : Admitted cfg (CausalLM.promptLens prompts)) (hsample : m.SamplesEach)
    (hd : d < steps) (hk : prompts[k]? = some ps) (hi : i < m.numHiddenLayers)
    (h : InStep m cfg prompts steps k ps d i s) :
    ∃ t, exec (actStep m.network m.numHiddenLayers) s (aloneLayerActs (d + 1) k i) = some t ∧
      AfterLayer m cfg prompts steps k ps d (i + 1) t := by
  rcases h.attends hadm hsample hd hk hi with
    ⟨t, ht, hlaid, hstep, hpin, hres, hfuture, hheld, hlog⟩
  have hrest : exec (actStep m.network m.numHiddenLayers) s (aloneLayerActs (d + 1) k i) =
      exec (actStep m.network m.numHiddenLayers) t
        [.host (.loadHidden i k), .host (.postAttention i 0 k)] := by
    rw [show aloneLayerActs (d + 1) k i = [.host (.preAttention i k), .host (.offloadQkv i k),
      .host (.cpuAttention i k), .work ⟨d + 1, i, k⟩] ++
        [.host (.loadHidden i k), .host (.postAttention i 0 k)] from rfl, exec_append, ht,
      Option.bind_some]
  have hnextRow : m.lastRow (i + 1) = fun ids x =>
      ((m.postAttn i (m.newAttn i ids x) (m.newRow i ids x).2).1,
        some (m.postAttn i (m.newAttn i ids x) (m.newRow i ids x).2).2) :=
    funext₂ fun ids x => CausalLM.lastRow_succ i ids x
  rw [hrest]
  let loaded : Lane (Rows D Q V A L) V :=
    { t.lanes k with
      hiddenStates := some (t.lanes k).hiddenPin
      hiddenUnread := none }
  have hload : hostStep m.network m.numHiddenLayers t (.loadHidden i k) =
      some (t.modify k loaded) := by
    simp [hostStep, hfuture, loaded]
  have hloaded : Laid cfg (CausalLM.promptLens prompts) (t.modify k loaded) := hlaid.modify rfl
  rw [exec_cons, actStep, hload, Option.bind_some, exec_cons, actStep]
  by_cases hlast : i < m.numHiddenLayers - 1
  · have hnext : i + 1 < m.numHiddenLayers := by omega
    let out := m.network.postAttn (d + 1) i k (t.lanes k).hiddenPin
      (.hidden (m.newRows k ps d fun ids x => (m.newRow i ids x).2))
    let lane : Lane (Rows D Q V A L) V :=
      { loaded with
        hiddenStates := some out.1
        residual := some out.2
        log := (t.lanes k).log ++ [.hidden i out.1 out.2] }
    have hstepped : hostStep m.network m.numHiddenLayers (t.modify k loaded)
        (.postAttention i 0 k) = some ((t.modify k loaded).modify k lane) := by
      simp [hostStep, hlast, loaded, hres, hstep, lane, out]
    refine ⟨_, by rw [hstepped]; rfl, ?_⟩
    rw [AfterLayer, if_pos hnext]
    refine ⟨hloaded.modify (by simp [lane, loaded]), hstep, ?_, hheld, ?_⟩
    · rw [DecodeState.modify_self]
      simp only [CausalLM.rowsIn, lane, out, CausalLM.network, hpin, Rows.asAttn, Rows.asHidden,
        CausalLM.newRows, List.map_zipWith, zipWith_zipWith_zipWith, hnextRow]
    · simpa [loggedLogits, lane, loaded] using hlog.trans h.logits
  · have hnext : ¬ i + 1 < m.numHiddenLayers := by omega
    have hlayer : m.numHiddenLayers = i + 1 := by omega
    let logits : Rows D Q V A L := .logits ((m.generated k ps (d + 1)).map m.logitsOf)
    have hlogits : m.network.logits (d + 1) k (t.lanes k).hiddenPin
        (.hidden (m.newRows k ps d fun ids x => (m.newRow i ids x).2)) = logits := by
      simp only [CausalLM.network, hlayer, hpin, Rows.asAttn, Rows.asHidden, logits,
        CausalLM.newRows, List.map_zipWith, zipWith_zipWith_zipWith, CausalLM.generated_succ,
        CausalLM.logitsOf_append, hnextRow, Nat.add_sub_cancel]
      rfl
    let lane : Lane (Rows D Q V A L) V :=
      { loaded with
        hiddenStates := none
        residual := none
        lastIds := m.network.sample (d + 1) k logits
        log := (t.lanes k).log ++ [.logits logits] }
    have hstepped : hostStep m.network m.numHiddenLayers (t.modify k loaded)
        (.postAttention i 0 k) = some ((t.modify k loaded).modify k lane) := by
      simp [hostStep, hlast, loaded, hres, hstep, lane, hlogits]
    refine ⟨_, by rw [hstepped]; rfl, ?_⟩
    rw [AfterLayer, if_neg hnext]
    refine ⟨hloaded.modify (by simp [lane, loaded]), hstep, by simp [lane], ?_, fun j hj => ?_, ?_⟩
    · rw [DecodeState.modify_self]
      rfl
    · have hall := hheld j hj
      rwa [if_pos (by omega)] at hall
    · rw [DecodeState.modify_self, CausalLM.generatedLogits, List.range_succ, List.map_append,
        ← CausalLM.generatedLogits, ← h.logits, ← hlog]
      simp [loggedLogits, lane, logits]

/-- **A decode step takes the sequences from a token to the next.** -/
theorem BetweenSteps.step (hadm : Admitted cfg (CausalLM.promptLens prompts))
    (hsample : m.SamplesEach) (hgen : steps ≤ cfg.genLen) (hd : d < steps)
    (hk : prompts[k]? = some ps) (hL : 0 < m.numHiddenLayers) :
    Runs (actStep m.network m.numHiddenLayers) (fun _ _ => True)
      (BetweenSteps m cfg prompts steps k ps d) (aloneStepActs m.numHiddenLayers k d)
      (BetweenSteps m cfg prompts steps k ps (d + 1)) := by
  have hprepare : Runs (actStep m.network m.numHiddenLayers) (fun _ _ => True)
      (BetweenSteps m cfg prompts steps k ps d) [.host .prepareForDecode]
      (AfterLayer m cfg prompts steps k ps d 0) := by
    refine Runs.single fun s h => ⟨trivial, s.prepareForDecode, rfl, ?_⟩
    rw [AfterLayer, if_pos hL]
    have hlt : s.decodeStep < cfg.genLen := by rw [h.step_eq]; omega
    refine ⟨h.laid.prepareForDecode hlt, congrArg (· + 1) h.step_eq, ?_, h.held, h.logits⟩
    simp only [DecodeState.prepareForDecode, Lane.prepareForDecode, CausalLM.rowsIn, h.hiddenStates,
      h.lastIds]
    exact (zipWith_right (CausalLM.length_nextTokens hsample d).le).symm
  have hlayers := Runs.loop (P := fun _ _ => True) m.numHiddenLayers fun i hi =>
    (show Runs (actStep m.network m.numHiddenLayers) (fun _ _ => True)
      (AfterLayer m cfg prompts steps k ps d i) (aloneLayerActs (d + 1) k i)
      (AfterLayer m cfg prompts steps k ps d (i + 1)) by
        intro s hs
        rw [AfterLayer, if_pos hi] at hs
        exact ⟨Along.of_forall fun _ _ _ => trivial, hs.layer hadm hsample hd hk hi⟩)
  refine hprepare.cons (hlayers.conseq (fun _ h => h) fun s hs => ?_)
  rwa [AfterLayer, if_neg (lt_irrefl _)] at hs

end Decode

section Generation

variable {D Q V A L : Type*} [Inhabited L] [Inhabited V]

/-- A log only becomes longer. -/
theorem log_isPrefix {τ κ : Type*} {net : Network τ κ} {numLayers k : ℕ} {s t : DecodeState τ κ}
    {a : Act} (h : actStep net numLayers s a = some t) : (s.lanes k).log <+: (t.lanes k).log := by
  have hmodify : ∀ k' lane, (s.lanes k').log <+: lane.log →
      (s.lanes k).log <+: ((s.modify k' lane).lanes k).log := by
    intro k' lane hlog
    by_cases hk : k = k'
    · subst hk
      rwa [DecodeState.modify_self]
    · simp [DecodeState.modify_other lane hk]
  cases a with
  | work j =>
      simp only [actStep, runJob] at h
      obtain ⟨pool, -, h⟩ := Option.bind_eq_some_iff.mp h
      obtain ⟨reads, -, rfl⟩ := Option.map_eq_some_iff.mp h
      exact hmodify _ _ (List.prefix_append _ _)
  | host c =>
      cases c with
      | preAttention i k' | cpuAttention i k' =>
          obtain rfl := Option.some.inj h
          exact hmodify _ _ (List.prefix_refl _)
      | offloadQkv i k' | loadHidden i k' =>
          simp only [actStep, hostStep] at h
          obtain ⟨x, -, rfl⟩ := Option.map_eq_some_iff.mp h
          exact hmodify _ _ (List.prefix_refl _)
      | postAttention i page k' =>
          simp only [actStep, hostStep] at h
          obtain ⟨hidden, -, h⟩ := Option.bind_eq_some_iff.mp h
          obtain ⟨residual, -, rfl⟩ := Option.map_eq_some_iff.mp h
          split_ifs <;> exact hmodify _ _ (List.prefix_append _ _)
      | _ =>
          obtain rfl := Option.some.inj h
          exact List.prefix_refl _

variable {m : CausalLM D Q V A L} {cfg : EngineConfig} {prompts : List (List (List ℕ))}
  {steps k : ℕ} {ps : List (List ℕ)}

/-- Prefill brings the keys and values of plain generation to the pool, and its first tokens. -/
theorem betweenSteps_decodeStart (hsample : m.SamplesEach)
    (hlayers : m.numHiddenLayers = cfg.numHiddenLayers)
    (hadm : Admitted cfg (CausalLM.promptLens prompts))
    (hprompts : ∀ ps ∈ prompts, ∀ ids ∈ ps, ids ≠ []) (hk : prompts[k]? = some ps) (steps : ℕ)
    {t : KvState V}
    (ht : KvPrefillAt cfg (m.prefillRows prompts) (CausalLM.promptLens prompts)
      {p | p.1 < cfg.numHiddenLayers ∧ p.2 < (CausalLM.promptLens prompts).length} t)
    (lanes : ℕ → Lane (Rows D Q V A L) V) :
    BetweenSteps m cfg prompts steps k ps 0
      (decodeStart cfg ((CausalLM.promptLens prompts).mapIdx (batchAt cfg 0)) t.pool
        (m.prefilledLane prompts lanes)) := by
  have hk' : k < (CausalLM.promptLens prompts).length := by
    simpa using (List.getElem?_eq_some_iff.mp hk).1
  have hne : ps ≠ [] := by
    intro hnil
    refine hadm.nonempty [] (List.mem_of_getElem? (i := k) ?_) rfl
    rw [CausalLM.promptLens, List.getElem?_map, hk, hnil]
    rfl
  refine ⟨(decodeStart_laneAt ht.1.line_eq ht.1.size_eq (m.prefilledLane prompts lanes) k).1, rfl,
    rfl, ?_, fun i hi => ?_, rfl⟩
  · have hlogits := CausalLM.prefillLogits_eq (m := m) hne (hprompts ps (List.mem_of_getElem? hk))
    simp only [decodeStart, CausalLM.prefilledLane, hk, Option.getD_some, hlogits]
    rfl
  · exact CausalLM.holds_generationRows hsample steps i (ht.2 (i, k) ⟨hlayers ▸ hi, hk'⟩)

/-- What a micro-batch decoded by itself goes through. -/
theorem BetweenSteps.run (hadm : Admitted cfg (CausalLM.promptLens prompts))
    (hsample : m.SamplesEach) (hgen : steps ≤ cfg.genLen) (hk : prompts[k]? = some ps)
    (hL : 0 < m.numHiddenLayers) :
    Runs (actStep m.network m.numHiddenLayers) (fun _ _ => True)
      (BetweenSteps m cfg prompts steps k ps 0) (aloneRunActs m.numHiddenLayers k steps)
      (BetweenSteps m cfg prompts steps k ps steps) :=
  Runs.loop steps fun _ hd => BetweenSteps.step hadm hsample hgen hd hk hL

/-- At any time of any interleaving a micro-batch is where its own acts take it, so its logits are
a beginning of those of plain generation. -/
theorem PipeInv.generates (hadm : Admitted cfg (CausalLM.promptLens prompts))
    (hsample : m.SamplesEach) (hlayers : m.numHiddenLayers = cfg.numHiddenLayers)
    (hgen : steps ≤ cfg.genLen) (hk : prompts[k]? = some ps)
    {start : DecodeState (Rows D Q V A L) V} {done : List Act} {p : Pipe (Rows D Q V A L) V}
    (hstart : ∀ k, LaneAt cfg (CausalLM.promptLens prompts) k 0 none none (fun _ => True) start)
    (hbetween : BetweenSteps m cfg prompts steps k ps 0 start)
    (h : PipeInv m.network cfg.numHiddenLayers (CausalLM.promptLens prompts).length steps start
      done p) :
    loggedLogits (p.state.lanes k).log <+: m.generatedLogits k ps steps ∧
      (p.calls = [] → p.queue = [] →
        loggedLogits (p.state.lanes k).log = m.generatedLogits k ps steps ∧
        (p.state.lanes k).lastIds = m.nextTokens k ps steps) := by
  have hk' : k < (CausalLM.promptLens prompts).length := by
    simpa using (List.getElem?_eq_some_iff.mp hk).1
  have hok := h.ok hadm hgen hstart
  rcases BetweenSteps.run hadm hsample hgen hk (hlayers ▸ cfg.layers_pos) _ hbetween with
    ⟨-, v, hv, hend⟩
  rw [hlayers] at hv
  rcases hok.refines k hk' with ⟨⟨rest, hrest⟩, u, hu, hsame⟩
  constructor
  · -- The rest of its acts only makes the log longer.
    rw [← hrest, exec_append, hu, Option.bind_some] at hv
    have hgrow : (u.lanes k).log <+: (v.lanes k).log :=
      exec_preserves (I := fun w => (u.lanes k).log <+: (w.lanes k).log)
        (fun s a _ t hs ht => hs.trans (log_isPrefix ht)) (List.prefix_refl _) hv
    rw [hsame.lane_eq, ← hend.logits]
    exact hgrow.filterMap _
  · intro hcalls hqueue
    rw [hok.finished hcalls hqueue k hk'] at hu
    obtain rfl : u = v := Option.some.inj (hu.symm.trans hv)
    rw [hsame.lane_eq]
    exact ⟨hend.logits, hend.lastIds⟩

omit [Inhabited L] in
/-- Prefill comes to its end, with the keys and values in the pool. -/
theorem exists_prefilled (m : CausalLM D Q V A L)
    (hadm : Admitted cfg (CausalLM.promptLens prompts)) (gpu : ℕ → V) (cpu : ℕ → ℕ → V) : ∃ pool t,
      prepareForPrefill cfg.genLen
          (TokenToKVPool.new cfg.gpuTokenBufferSize cfg.cpuTokenPoolSize gpu cpu).clear
          (CausalLM.promptLens prompts) =
        some ((CausalLM.promptLens prompts).mapIdx (batchAt cfg 0), pool) ∧
      exec (kvStep (m.prefillRows prompts))
          ⟨pool, (CausalLM.promptLens prompts).mapIdx (batchAt cfg 0), 0⟩
          (prefillCalls cfg.numHiddenLayers cfg.weightsPrefetchNumPagesCpu prompts.length) =
        some t ∧
      KvPrefillAt cfg (m.prefillRows prompts) (CausalLM.promptLens prompts)
        {p | p.1 < cfg.numHiddenLayers ∧ p.2 < (CausalLM.promptLens prompts).length} t := by
  obtain ⟨pool, hprepare, hline, hsize⟩ : ∃ pool, prepareForPrefill cfg.genLen
        (TokenToKVPool.new cfg.gpuTokenBufferSize cfg.cpuTokenPoolSize gpu cpu).clear
        (CausalLM.promptLens prompts) =
      some ((CausalLM.promptLens prompts).mapIdx (batchAt cfg 0), pool) ∧
      pool.cacheLine = cfg.cacheLine ∧ pool.cpuSize = cfg.nUb * cfg.cacheLine :=
    ⟨_, prepareForPrefill_new hadm.nonempty gpu cpu, rfl, rfl⟩
  have hprefill : Runs (kvStep (m.prefillRows prompts)) _ _ _ _ := kvPrefill_runs hadm
  rcases hprefill ⟨pool, _, 0⟩ ⟨hline, hsize, rfl, rfl⟩ with ⟨-, t, ht, hheld⟩
  rw [CausalLM.length_promptLens, ← cfg.weightsPrefetchNumPagesCpu_eq] at ht
  exact ⟨pool, t, hprepare, ht, hheld⟩

/-- A run of the pipeline behind prefill generates. -/
theorem prefilled_generates (hsample : m.SamplesEach)
    (hlayers : m.numHiddenLayers = cfg.numHiddenLayers)
    (hprompts : ∀ ps ∈ prompts, ∀ ids ∈ ps, ids ≠ [])
    (hadm : Admitted cfg (CausalLM.promptLens prompts)) (hn : 3 ≤ prompts.length)
    (hsteps : steps ≤ cfg.genLen) {gpu : ℕ → V} {cpu : ℕ → ℕ → V} {batches : List KvBatch}
    {pool : TokenToKVPool V} {t : KvState V}
    (hprepare : prepareForPrefill cfg.genLen
      (TokenToKVPool.new cfg.gpuTokenBufferSize cfg.cpuTokenPoolSize gpu cpu).clear
      (CausalLM.promptLens prompts) = some (batches, pool))
    (ht : exec (kvStep (m.prefillRows prompts)) ⟨pool, batches, 0⟩
      (prefillCalls cfg.numHiddenLayers cfg.weightsPrefetchNumPagesCpu prompts.length) = some t)
    (lanes : ℕ → Lane (Rows D Q V A L) V) {done : List Act} {p : Pipe (Rows D Q V A L) V}
    (hrun : PipeRun m.network cfg.numHiddenLayers
      ⟨decodeCalls cfg prompts.length steps, [],
        decodeStart cfg batches t.pool (m.prefilledLane prompts lanes)⟩ done p)
    (hk : prompts[k]? = some ps) :
    loggedLogits (p.state.lanes k).log <+: m.generatedLogits k ps steps ∧
      (p.calls = [] → p.queue = [] →
        loggedLogits (p.state.lanes k).log = m.generatedLogits k ps steps ∧
        (p.state.lanes k).lastIds = m.nextTokens k ps steps) := by
  obtain ⟨pool', u, hprepare', hu, hheld⟩ := exists_prefilled m hadm gpu cpu
  obtain ⟨rfl, rfl⟩ := Prod.mk.inj (Option.some.inj (hprepare.symm.trans hprepare'))
  obtain rfl : t = u := Option.some.inj (ht.symm.trans hu)
  rw [← CausalLM.length_promptLens] at hn
  rw [decodeCalls, cfg.weightsPrefetchNumPagesCpu_eq, ← CausalLM.length_promptLens] at hrun
  have hinv := PipeInv.pipeRun hrun (PipeInv.init hn cfg.layers_pos rfl)
  exact hinv.generates hadm hsample hlayers hsteps hk
    (decodeStart_laneAt hheld.1.line_eq hheld.1.size_eq (m.prefilledLane prompts lanes))
    (betweenSteps_decodeStart hsample hlayers hadm hprompts hk steps hheld lanes)

/-- A model of two layers on numbers, that samples the logits. -/
def CausalLM.sum : CausalLM ℕ ℕ ℕ ℕ ℕ where
  embedTokens id := id
  add := (· + ·)
  layers i :=
    { inputLayernorm := (· + i)
      qkvProj := fun x position => (x, x + position)
      attn := fun q kvs => q + kvs.sum
      oProj := id
      postAttentionLayernorm := (· + 1)
      blockSparseMoe := id }
  numHiddenLayers := 2
  norm := id
  lmHead := id
  emptyLike _ := 0
  sample _ _ logits := logits

end Generation

end HarvestMoE
