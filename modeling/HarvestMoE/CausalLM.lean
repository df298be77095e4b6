import HarvestMoE.DecodeMachine
import HarvestMoE.LastToken

/-!
# The model and its decode parts

`MixtralForCausalLMOff.forward` runs one layer at a time, and in decode one part of a layer at a
time: up to the queries, keys and values, then attention on the CPU, then the rest. The rows of
the tokens go through the layer by themselves, but for attention. The norms, the projections,
attention, the experts and the head are parameters.

## Main definitions

* `DecoderLayer`, `CausalLM` — the parameters.
* `CausalLM.preAttn`, `CausalLM.postAttn` — the parts of a layer, on the row of a token.
* `CausalLM.prefillNet` — the whole layers on the rows of a micro-batch.
* `CausalLM.network` — the parts, as decode calls them.
-/

namespace HarvestMoE

/-- The functions of a decoder layer: of rows `D`, queries `Q`, key and value rows `V` and
attention outputs `A`. -/
structure DecoderLayer (D Q V A : Type*) where
  inputLayernorm : D → D
  /-- The projection, with the rotary embedding of the position. -/
  qkvProj : D → ℕ → Q × V
  attn : Q → List V → A
  oProj : A → D
  postAttentionLayernorm : D → D
  blockSparseMoe : D → D

/-- The functions of the model. -/
structure CausalLM (D Q V A L : Type*) where
  embedTokens : ℕ → D
  /-- Adds a row to the residual. -/
  add : D → D → D
  layers : ℕ → DecoderLayer D Q V A
  numHiddenLayers : ℕ
  norm : D → D
  lmHead : D → L
  /-- What the memory of the attention output has before. -/
  emptyLike : ℕ → A
  /-- The sampled tokens of a micro-batch, by decode step and micro-batch. -/
  sample : ℕ → ℕ → List L → List ℕ

/-- The tensors that decode passes between its parts, row by row. -/
inductive Rows (D Q V A L : Type*)
  | hidden (rows : List D)
  | qkv (rows : List (Q × V))
  | attn (rows : List A)
  | logits (rows : List L)

namespace Rows

variable {D Q V A L : Type*}

def asHidden : Rows D Q V A L → List D
  | .hidden rows => rows
  | _ => []

def asQkv : Rows D Q V A L → List (Q × V)
  | .qkv rows => rows
  | _ => []

def asAttn : Rows D Q V A L → List A
  | .attn rows => rows
  | _ => []

def asLogits : Rows D Q V A L → List L
  | .logits rows => rows
  | _ => []

end Rows

namespace CausalLM

variable {D Q V A L : Type*} (m : CausalLM D Q V A L)

/-- A norm on a row and its residual: what it makes of the row, and the residual for what
follows. Without a residual the row becomes it. -/
def normResidual (norm : D → D) (hidden : D) : Option D → D × D
  | none => (norm hidden, hidden)
  | some residual => (norm (m.add hidden residual), m.add hidden residual)

/-- `MixtralDecoderLayer.forward` up to the queries, keys and values. -/
def preAttn (i : ℕ) (x : D × Option D) (position : ℕ) : (Q × V) × D :=
  let (hidden, residual) := m.normResidual (m.layers i).inputLayernorm x.1 x.2
  ((m.layers i).qkvProj hidden position, residual)

/-- The rest of it, behind attention. -/
def postAttn (i : ℕ) (attnOutput : A) (residual : D) : D × D :=
  let (hidden, residual) := m.normResidual (m.layers i).postAttentionLayernorm
    ((m.layers i).oProj attnOutput) (some residual)
  ((m.layers i).blockSparseMoe hidden, residual)

/-- A whole layer, on the rows of prefill. -/
def prefillLayer (i : ℕ) : PrefillLayer (D × Option D) V A where
  kv x position := (m.preAttn i x position).1.2
  attend x position kvs := (m.layers i).attn (m.preAttn i x position).1.1 kvs
  post x attnOutput :=
    let (hidden, residual) := m.postAttn i attnOutput
      (m.normResidual (m.layers i).inputLayernorm x.1 x.2).2
    (hidden, some residual)
  emptyLike := m.emptyLike

/-- `MixtralModel.forward` with all layers. -/
def prefillNet : PrefillNet ℕ (D × Option D) V A where
  embedTokens id := (m.embedTokens id, none)
  layers := (List.range m.numHiddenLayers).map m.prefillLayer
  norm x :=
    let (hidden, residual) := m.normResidual m.norm x.1 x.2
    (hidden, some residual)

/-- The logits of the rows that the logits processor selects in prefill. -/
def prefillLogits (reqs : List (PromptReq ℕ)) : Option (List L) :=
  let b := PrefillBatch.prepare reqs
  (lastHidden b (prefillHidden b m.prefillNet)).map fun rows => rows.map fun x => m.lmHead x.1

/-- The hidden states that enter layer `i` in prefill. -/
def prefillStage (b : PrefillBatch ℕ) (i : ℕ) : ℕ → D × Option D :=
  ((List.range i).map m.prefillLayer).foldl (fun h layer => layer.forward b h)
    fun p => m.prefillNet.embedTokens (b.inputIds.getD p default)

/-- The rows that enter a layer in decode. -/
def rowsIn (inputIds : List ℕ) (hiddenStates residual : Option (Rows D Q V A L)) :
    List (D × Option D) :=
  match hiddenStates, residual with
  | none, _ => inputIds.map fun id => (m.embedTokens id, none)
  | some hidden, none => hidden.asHidden.map fun h => (h, none)
  | some hidden, some residual =>
      List.zipWith (fun h r => (h, some r)) hidden.asHidden residual.asHidden

/-- The parts of a layer as decode calls them. The position of a token is the length of its
sequence less one. -/
def network [Inhabited V] : Network (Rows D Q V A L) V where
  preAttn i inputIds hiddenStates residual seqLens :=
    let out := List.zipWith (fun x seqLen => m.preAttn i x (seqLen - 1))
      (m.rowsIn inputIds hiddenStates residual) seqLens
    (.qkv (out.map Prod.fst), .hidden (out.map Prod.snd))
  kvRow qkv q := (qkv.asQkv[q]?.map Prod.snd).getD default
  attention i qkv reads :=
    .attn (List.zipWith (fun x kvs => (m.layers i).attn x.1 kvs) qkv.asQkv reads)
  postAttn _ i _ hiddenStates residual :=
    let out := List.zipWith (m.postAttn i) hiddenStates.asAttn residual.asHidden
    (.hidden (out.map Prod.fst), .hidden (out.map Prod.snd))
  logits _ _ hiddenStates residual :=
    let out := List.zipWith (m.postAttn (m.numHiddenLayers - 1)) hiddenStates.asAttn
      residual.asHidden
    .logits (out.map fun x => m.lmHead (m.normResidual m.norm x.1 (some x.2)).1)
  sample step k logits := m.sample step k logits.asLogits

end CausalLM

end HarvestMoE
