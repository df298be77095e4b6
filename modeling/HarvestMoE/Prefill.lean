import HarvestMoE.EngineStreams

/-!
# Hidden states through prefill

A micro-batch goes through the layers one call of `layer` at a time, and with several
micro-batches its hidden states wait on the CPU in between: they are copied out after
each layer and copied back when the micro-batch before it has been computed. The model
embeds the tokens whenever it sees no hidden states, so a buffer that is empty at the
wrong time would start the micro-batch over. The residual stays on the GPU throughout.

## Main definitions

* `MixtralModel` — the model, with its layers left abstract; `MixtralModel.forward` runs
  some layers.
* `HiddenBuffers`, `hiddenStep` — the buffers of a micro-batch, in host order.
* `buffersBefore` — what a micro-batch has in its buffers between two layers.
* `SameInput` — a layer sees what it sees when the micro-batch runs alone.
* `Seen` — what the host looks at while it enqueues is what the buffers hold.
* `prefill_refines` — prefill gives every layer the input of a plain run.
-/

namespace HarvestMoE

open Lib

variable {μ τ : Type*}

/-- What the model computes of a micro-batch: its embedding, and for each layer the new
hidden states and residual. -/
structure MixtralModel (μ τ : Type*) where
  embedTokens : μ → τ
  decoderLayer : ℕ → μ → τ → Option τ → τ × τ

namespace MixtralModel

variable (model : MixtralModel μ τ) (mb : μ)

/-- The tokens are embedded when there are no hidden states, and the residual is dropped. -/
def embed (hiddenStates residual : Option τ) : τ × Option τ :=
  match hiddenStates with
  | none => (model.embedTokens mb, none)
  | some hiddenStates => (hiddenStates, residual)

/-- One layer of the loop. -/
def runLayer (x : τ × Option τ) (layerId : ℕ) : τ × Option τ :=
  let y := model.decoderLayer layerId mb x.1 x.2
  (y.1, some y.2)

/-- `forward` over `cur_layers`. -/
def forward (hiddenStates residual : Option τ) (curLayers : List ℕ) : τ × Option τ :=
  curLayers.foldl (model.runLayer mb) (model.embed mb hiddenStates residual)

/-- What layer `i` sees when the micro-batch runs alone. -/
def input (i : ℕ) : τ × Option τ := model.forward mb none none (List.range i)

@[simp] theorem input_zero : model.input mb 0 = (model.embedTokens mb, none) := rfl

theorem input_succ (i : ℕ) : model.input mb (i + 1) = model.runLayer mb (model.input mb i) i := by
  rw [input, forward, List.range_succ, List.foldl_append]
  rfl

end MixtralModel

/-- The hidden states of a micro-batch, on the GPU and on the CPU, and its residual. -/
@[ext]
structure HiddenBuffers (τ : Type*) where
  hiddenStates : Option τ
  hiddenStatesCpu : Option τ
  residual : Option τ
  deriving DecidableEq, Repr

/-- All three are `None`. -/
def HiddenBuffers.empty : HiddenBuffers τ := ⟨none, none, none⟩

section Machine

variable (model : MixtralModel μ τ) (mbs : List μ) (numLayers : ℕ)

/-- `layer`: the last layer samples, and clears the buffers. -/
def HiddenBuffers.layer (layerId : ℕ) (mb : μ) (h : HiddenBuffers τ) : HiddenBuffers τ :=
  if layerId < numLayers - 1 then
    let y := model.forward mb h.hiddenStates h.residual [layerId]
    { h with hiddenStates := some y.1, residual := y.2 }
  else .empty

def HiddenBuffers.offloadHiddenPrefill (h : HiddenBuffers τ) : HiddenBuffers τ :=
  match h.hiddenStates with
  | some hiddenStates => { h with hiddenStatesCpu := some hiddenStates, hiddenStates := none }
  | none => h

def HiddenBuffers.loadHiddenPrefill (h : HiddenBuffers τ) : HiddenBuffers τ :=
  match h.hiddenStatesCpu with
  | some hiddenStatesCpu => { h with hiddenStates := some hiddenStatesCpu }
  | none => h

/-- A call of prefill moves the buffers of its micro-batch, which has to exist. -/
def hiddenStep (s : ℕ → HiddenBuffers τ) : Call → Option (ℕ → HiddenBuffers τ)
  | .layer layerId _ batchId =>
      mbs[batchId]?.map fun mb =>
        Function.update s batchId ((s batchId).layer model numLayers layerId mb)
  | .offloadHiddenPrefill batchId =>
      mbs[batchId]?.map fun _ => Function.update s batchId (s batchId).offloadHiddenPrefill
  | .loadHiddenPrefill batchId =>
      mbs[batchId]?.map fun _ => Function.update s batchId (s batchId).loadHiddenPrefill
  | _ => some s

/-- A layer sees what it sees when the micro-batch runs alone, and embeds the tokens only
at layer 0. -/
def SameInput (s : ℕ → HiddenBuffers τ) : Call → Prop
  | .layer layerId _ batchId => ∀ mb, mbs[batchId]? = some mb →
      model.embed mb (s batchId).hiddenStates (s batchId).residual = model.input mb layerId ∧
        ((s batchId).hiddenStates = none ↔ layerId = 0)
  | _ => True

/-- The calls execute, and every layer sees the input of a plain run. -/
abbrev PrefillRuns : ((ℕ → HiddenBuffers τ) → Prop) → List Call →
    ((ℕ → HiddenBuffers τ) → Prop) → Prop :=
  Runs (hiddenStep model mbs numLayers) (SameInput model mbs)

/-- The buffers of a micro-batch before layer `i`, with the hidden states loaded to the
GPU or not: nothing before the first layer and after the last. A single micro-batch has
no copy on the CPU. -/
def buffersBefore (mb : μ) (i : ℕ) (loaded : Bool) : HiddenBuffers τ :=
  if i = 0 ∨ numLayers ≤ i then .empty
  else
    { hiddenStates := if loaded then some (model.input mb i).1 else none
      hiddenStatesCpu := if mbs.length > 1 then some (model.input mb i).1 else none
      residual := (model.input mb i).2 }

/-- Micro-batch `k` of layer `i` is next, and has its hidden states loaded. -/
def PrefillAtBatch (i k : ℕ) (s : ℕ → HiddenBuffers τ) : Prop :=
  ∀ j mb, mbs[j]? = some mb →
    s j = buffersBefore model mbs numLayers mb (if j < k then i + 1 else i)
      (decide (j = k % mbs.length))

end Machine

section Batch

variable {model : MixtralModel μ τ} {mbs : List μ} {numLayers i k : ℕ} {mb : μ}

theorem buffersBefore_clear (h : i = 0 ∨ numLayers ≤ i) (loaded : Bool) :
    buffersBefore model mbs numLayers mb i loaded = .empty :=
  if_pos h

theorem buffersBefore_mid (h0 : i ≠ 0) (hi : i < numLayers) (loaded : Bool) :
    buffersBefore model mbs numLayers mb i loaded =
      ⟨if loaded then some (model.input mb i).1 else none,
        if mbs.length > 1 then some (model.input mb i).1 else none, (model.input mb i).2⟩ :=
  if_neg (by omega)

theorem embed_buffersBefore (hi : i < numLayers) :
    let h := buffersBefore model mbs numLayers mb i true
    model.embed mb h.hiddenStates h.residual = model.input mb i ∧ (h.hiddenStates = none ↔ i = 0) := by
  by_cases h0 : i = 0
  · subst h0
    simp [buffersBefore_clear, HiddenBuffers.empty, MixtralModel.embed]
  · simp [buffersBefore_mid h0 hi, h0, MixtralModel.embed]

/-- The layer of the plain run, unless it is the last. -/
theorem layer_buffersBefore (hi : i < numLayers) :
    (buffersBefore model mbs numLayers mb i true).layer model numLayers i mb =
      if i + 1 < numLayers then
        ⟨some (model.input mb (i + 1)).1, (buffersBefore model mbs numLayers mb i true).hiddenStatesCpu,
          (model.input mb (i + 1)).2⟩
      else .empty := by
  have hforward : ∀ h r, model.forward mb h r [i] = model.runLayer mb (model.embed mb h r) i :=
    fun _ _ => rfl
  have hlast : i < numLayers - 1 ↔ i + 1 < numLayers := by omega
  rw [HiddenBuffers.layer, hforward, (embed_buffersBefore hi).1, ← model.input_succ]
  simp only [hlast]

/-- A single micro-batch keeps its hidden states on the GPU. -/
theorem layer_single (hn : ¬ 1 < mbs.length) (hi : i < numLayers) :
    (buffersBefore model mbs numLayers mb i true).layer model numLayers i mb =
      buffersBefore model mbs numLayers mb (i + 1) true := by
  rw [layer_buffersBefore hi]
  by_cases hlast : i + 1 < numLayers
  · have hnone : (buffersBefore model mbs numLayers mb i true).hiddenStatesCpu = none := by
      by_cases h0 : i = 0
      · rw [buffersBefore_clear (Or.inl h0)]
        rfl
      · simp [buffersBefore_mid h0 hi, hn]
    rw [if_pos hlast, hnone, buffersBefore_mid (by omega) hlast]
    simp [hn]
  · rw [if_neg hlast, buffersBefore_clear (by omega)]

/-- With several, they are copied out after the layer. -/
theorem offload_layer (hn : 1 < mbs.length) (hi : i < numLayers) :
    ((buffersBefore model mbs numLayers mb i true).layer model numLayers i mb).offloadHiddenPrefill =
      buffersBefore model mbs numLayers mb (i + 1) false := by
  rw [layer_buffersBefore hi]
  by_cases hlast : i + 1 < numLayers
  · rw [if_pos hlast, buffersBefore_mid (by omega) hlast]
    simp [HiddenBuffers.offloadHiddenPrefill, hn]
  · rw [if_neg hlast, buffersBefore_clear (by omega)]
    rfl

/-- What was copied out is copied back. -/
theorem load_buffersBefore (hn : 1 < mbs.length) (i : ℕ) (loaded : Bool) :
    (buffersBefore model mbs numLayers mb i loaded).loadHiddenPrefill =
      buffersBefore model mbs numLayers mb i true := by
  by_cases hclear : i = 0 ∨ numLayers ≤ i
  · rw [buffersBefore_clear hclear, buffersBefore_clear hclear]
    rfl
  · rw [buffersBefore_mid (by omega) (by omega), buffersBefore_mid (by omega) (by omega)]
    simp [HiddenBuffers.loadHiddenPrefill, hn]

/-- Several micro-batches: after micro-batch `k` the next one is loaded, that of the next
layer after the last one. -/
theorem PrefillAtBatch.swap (hn : 1 < mbs.length) (hi : i < numLayers) (hk : k < mbs.length)
    {s : ℕ → HiddenBuffers τ} (hs : PrefillAtBatch model mbs numLayers i k s) {mb : μ}
    (hmb : mbs[k]? = some mb) :
    let t := Function.update s k ((s k).layer model numLayers i mb).offloadHiddenPrefill
    PrefillAtBatch model mbs numLayers i (k + 1)
      (Function.update t ((k + 1) % mbs.length) (t ((k + 1) % mbs.length)).loadHiddenPrefill) := by
  intro t j mb' hmb'
  have hj : j < mbs.length := (List.getElem?_eq_some_iff.mp hmb').1
  have ht : t j = buffersBefore model mbs numLayers mb' (if j < k + 1 then i + 1 else i) false := by
    by_cases hjk : j = k
    · subst hjk
      obtain rfl : mb = mb' := Option.some.inj (hmb.symm.trans hmb')
      have hready : s j = buffersBefore model mbs numLayers mb i true := by
        simpa [Nat.mod_eq_of_lt hk] using hs j mb hmb
      simp only [t, Function.update_self, hready, offload_layer hn hi]
      rw [if_pos (by omega)]
    · have hother : j < k + 1 ↔ j < k := by omega
      simp [t, hs j mb' hmb', hother, Nat.mod_eq_of_lt hk, hjk]
  by_cases hjn : j = (k + 1) % mbs.length
  · subst hjn
    rw [Function.update_self, ht, load_buffersBefore hn]
    simp
  · rw [Function.update_of_ne hjn, ht]
    simp [hjn]

/-- A micro-batch goes through its layer, and the next one is made ready. -/
theorem PrefillAtBatch.batch (hi : i < numLayers) (hk : k < mbs.length) :
    PrefillRuns model mbs numLayers (PrefillAtBatch model mbs numLayers i k)
      (prefillBatchCalls mbs.length i 0 k) (PrefillAtBatch model mbs numLayers i (k + 1)) := by
  intro s hs
  obtain ⟨mb, hmb⟩ : ∃ mb, mbs[k]? = some mb := ⟨_, List.getElem?_eq_getElem hk⟩
  have hready : s k = buffersBefore model mbs numLayers mb i true := by
    simpa [Nat.mod_eq_of_lt hk] using hs k mb hmb
  have hinput : SameInput model mbs s (.layer i 0 k) := by
    intro mb' hmb'
    obtain rfl : mb = mb' := Option.some.inj (hmb.symm.trans hmb')
    rw [hready]
    exact embed_buffersBefore hi
  by_cases hn : 1 < mbs.length
  · have hnext : (k + 1) % mbs.length < mbs.length := Nat.mod_lt _ (by omega)
    have hmb' := List.getElem?_eq_getElem hnext
    refine ⟨?_, _, ?_, hs.swap hn hi hk hmb⟩
    · simpa [prefillBatchCalls, hn, SameInput] using hinput
    · simp [prefillBatchCalls, hn, hiddenStep, hmb, hmb']
  · obtain rfl : k = 0 := by omega
    refine ⟨?_, Function.update s 0 ((s 0).layer model numLayers i mb), ?_, fun j mb' hmb' => ?_⟩
    · simpa [prefillBatchCalls, hn, SameInput] using hinput
    · simp [prefillBatchCalls, hn, hiddenStep, hmb]
    · have hj : j < mbs.length := (List.getElem?_eq_some_iff.mp hmb').1
      obtain rfl : j = 0 := by omega
      obtain rfl : mb = mb' := Option.some.inj (hmb.symm.trans hmb')
      rw [Function.update_self, hready, layer_single hn hi]
      have hone : mbs.length = 1 := by omega
      simp [hone]

/-- The end of a layer is the start of the next one. -/
theorem PrefillAtBatch.nextLayer {s : ℕ → HiddenBuffers τ}
    (hs : PrefillAtBatch model mbs numLayers i mbs.length s) :
    PrefillAtBatch model mbs numLayers (i + 1) 0 s := by
  intro j mb hmb
  have hj : j < mbs.length := (List.getElem?_eq_some_iff.mp hmb).1
  rw [hs j mb hmb, if_pos hj, if_neg (Nat.not_lt_zero j), Nat.mod_self, Nat.zero_mod]

theorem PrefillAtBatch.prefillCalls :
    PrefillRuns model mbs numLayers (PrefillAtBatch model mbs numLayers 0 0)
      (prefillCalls numLayers 1 mbs.length) (PrefillAtBatch model mbs numLayers numLayers 0) := by
  have hskip : ∀ (l i : ℕ), PrefillRuns model mbs numLayers (PrefillAtBatch model mbs numLayers i 0)
      [.prefetchExperts l 0 0 .prefill] (PrefillAtBatch model mbs numLayers i 0) :=
    fun _ _ => Runs.single fun s hs => ⟨trivial, s, rfl, hs⟩
  refine Runs.cons (hskip 0 0) (Runs.loop numLayers
    (I := fun i => PrefillAtBatch model mbs numLayers i 0) fun i hi => ?_)
  rw [prefillLayerCalls_one]
  exact ((Runs.loop mbs.length (I := fun k => PrefillAtBatch model mbs numLayers i k)
    fun k hk => PrefillAtBatch.batch hi hk).conseq (fun _ => id)
      fun _ => PrefillAtBatch.nextLayer).append (hskip _ (i + 1))

end Batch

section Enqueue

variable {model : MixtralModel μ τ} {mbs : List μ} {numLayers numMb : ℕ}

/-- The host sees which buffers are there. -/
def Seen (h : EnqueueState) (s : ℕ → HiddenBuffers τ) : Prop :=
  ∀ k, h.hiddenStates k = (s k).hiddenStates.isSome ∧
    h.hiddenStatesCpu k = (s k).hiddenStatesCpu.isSome

theorem Seen.update {h : EnqueueState} {s : ℕ → HiddenBuffers τ} (hs : Seen h s) {k : ℕ}
    {b : HiddenBuffers τ} {h' : EnqueueState}
    (hother : ∀ j, j ≠ k → h'.hiddenStates j = h.hiddenStates j ∧
      h'.hiddenStatesCpu j = h.hiddenStatesCpu j)
    (hself : h'.hiddenStates k = b.hiddenStates.isSome ∧
      h'.hiddenStatesCpu k = b.hiddenStatesCpu.isSome) : Seen h' (Function.update s k b) := by
  intro j
  by_cases hj : j = k
  · subst hj
    rwa [Function.update_self]
  · rw [Function.update_of_ne hj, (hother j hj).1, (hother j hj).2]
    exact hs j

/-- What the host enqueues in prefill depends on the buffers as they are. -/
theorem Seen.step {h : EnqueueState} {s t : ℕ → HiddenBuffers τ} (hs : Seen h s) {c : Call}
    (hc : c ∈ prefillCalls numLayers 1 numMb) (ht : hiddenStep model mbs numLayers s c = some t) :
    Seen (enqueueStep numLayers numMb h c) t := by
  rcases mem_prefillCalls hc with ⟨l, rfl⟩ | ⟨i, k, -, -, hbatch⟩
  · obtain rfl : s = t := Option.some.inj ht
    exact hs
  · rcases mem_prefillBatchCalls hbatch with rfl | rfl | ⟨-, rfl | rfl⟩
    · obtain ⟨mb, -, rfl⟩ := Option.map_eq_some_iff.mp ht
      refine hs.update (fun j hj => ?_) ?_
      · simp only [enqueueStep]
        split_ifs <;> simp [Function.update_of_ne hj]
      · simp only [enqueueStep, HiddenBuffers.layer]
        split_ifs with hi <;> simp [hi, HiddenBuffers.empty, (hs k).2]
    · obtain rfl : s = t := Option.some.inj ht
      exact hs
    · obtain ⟨mb, -, rfl⟩ := Option.map_eq_some_iff.mp ht
      refine hs.update (fun j hj => ?_) ?_
      · simp only [enqueueStep]
        split_ifs <;> simp [Function.update_of_ne hj]
      · simp only [enqueueStep, HiddenBuffers.offloadHiddenPrefill, (hs k).1]
        cases hgpu : (s k).hiddenStates <;> simp [hgpu, (hs k).2]
    · obtain ⟨mb, -, rfl⟩ := Option.map_eq_some_iff.mp ht
      refine hs.update (fun j hj => ?_) ?_
      · simp only [enqueueStep]
        split_ifs <;> simp [Function.update_of_ne hj]
      · simp only [enqueueStep, HiddenBuffers.loadHiddenPrefill, (hs _).2]
        cases hcpu : (s ((k + 1) % numMb)).hiddenStatesCpu <;> simp [hcpu, (hs _).1]

theorem Seen.run {h : EnqueueState} {s t : ℕ → HiddenBuffers τ} (hs : Seen h s) {cs : List Call}
    (hcs : ∀ c ∈ cs, c ∈ prefillCalls numLayers 1 numMb)
    (ht : exec (hiddenStep model mbs numLayers) s cs = some t) :
    Seen (cs.foldl (enqueueStep numLayers numMb) h) t := by
  induction cs generalizing h s with
  | nil =>
      obtain rfl : s = t := Option.some.inj ht
      exact hs
  | cons c cs ih =>
      obtain ⟨u, hu, ht⟩ := Option.bind_eq_some_iff.mp ht
      exact ih (hs.step (hcs c (by simp)) hu) (fun c hc => hcs c (by simp [hc])) ht

end Enqueue

section Layers

/-- A call of `layer`. -/
def Call.isLayer : Call → Bool
  | .layer .. => true
  | _ => false

theorem isLayer_prefillBatchCalls (numMb i k : ℕ) :
    (prefillBatchCalls numMb i 0 k).filter Call.isLayer = [.layer i 0 k] := by
  rw [prefillBatchCalls]
  split_ifs <;> rfl

/-- Prefill computes every layer of every micro-batch once, layer by layer. -/
theorem isLayer_prefillCalls (numLayers numMb : ℕ) :
    (prefillCalls numLayers 1 numMb).filter Call.isLayer =
      (List.range numLayers).flatMap fun i => (List.range numMb).map (.layer i 0) := by
  have hlayer : ∀ i, (prefillLayerCalls numLayers 1 numMb i).filter Call.isLayer =
      (List.range numMb).map (.layer i 0) := by
    intro i
    rw [prefillLayerCalls_one, List.filter_append, List.filter_flatMap]
    simp only [isLayer_prefillBatchCalls, ← List.map_eq_flatMap]
    exact List.append_nil _
  have hprologue : (prefillCalls numLayers 1 numMb).filter Call.isLayer =
      ((List.range numLayers).flatMap (prefillLayerCalls numLayers 1 numMb)).filter Call.isLayer :=
    List.filter_cons_of_neg (by decide)
  simp only [hprologue, List.filter_flatMap, hlayer]

end Layers

/-- Prefill executes, computes every layer of every micro-batch once, gives it the hidden states and
the residual that it has when the micro-batch runs alone, embeds the tokens at layer 0 and nowhere
else, and leaves all buffers empty. -/
theorem prefill_refines (model : MixtralModel μ τ) (numLayers : ℕ) (mbs : List μ) :
    (prefillCalls numLayers 1 mbs.length).filter Call.isLayer =
        (List.range numLayers).flatMap (fun i => (List.range mbs.length).map (.layer i 0)) ∧
      Along (hiddenStep model mbs numLayers) (SameInput model mbs) (fun _ => .empty)
        (prefillCalls numLayers 1 mbs.length) ∧
      ∃ t, exec (hiddenStep model mbs numLayers) (fun _ => .empty)
          (prefillCalls numLayers 1 mbs.length) = some t ∧
        ∀ k, k < mbs.length → t k = .empty := by
  have hstart : PrefillAtBatch model mbs numLayers 0 0 fun _ => .empty :=
    fun _ _ _ => (buffersBefore_clear (by simp) _).symm
  obtain ⟨halong, t, ht, hend⟩ := PrefillAtBatch.prefillCalls _ hstart
  refine ⟨isLayer_prefillCalls numLayers mbs.length, halong, t, ht, fun k hk => ?_⟩
  rw [hend k _ (List.getElem?_eq_getElem hk)]
  exact buffersBefore_clear (Or.inr (by simp)) _

end HarvestMoE
