import HarvestMoE.ExpertPage
import HarvestMoE.Lib.Names

/-!
# Where the tensors of a checkpoint go

`load_weights` of Mixtral looks at every name of the checkpoint. It tries three tables in
order, each entry with a substring test, and the first entry that matches says which
parameter is loaded, and for which layer and which expert. A name with the number of a
layer matches the entry of that layer alone: the number ends at a dot in both.

## Main definitions

* `gateParamsMapping`, `stackedParamsMapping`, `expertParamsMapping` — the tables.
* `loadDispatch` — the call of a weight loader that a name leads to.
* `MoeTensor` — the tensors of the experts and the gates.
* `MoeTensor.loadDispatch_eq` — each leads to its own call.
-/

namespace HarvestMoE

open Lib

/-- `weight_name in name` -/
def nameIn (weightName name : String) : Bool := decide (weightName.toList <:+: name.toList)

/-- `name.replace(weight_name, param_name)` -/
def replaceName (name weightName paramName : String) : String :=
  String.ofList (replaceAll weightName.toList paramName.toList 0 name.toList)

/-- The keys of `params_dict`. The layers share one `block_sparse_moe`. -/
def namedParameters (numHiddenLayers : ℕ) : List String :=
  ["model.embed_tokens.weight", "model.block_sparse_moe.ws",
    "model.block_sparse_moe.gates.weight"] ++
  ((List.range numHiddenLayers).flatMap fun layerId =>
    ["self_attn.qkv_proj.weight", "self_attn.o_proj.weight", "input_layernorm.weight",
      "post_attention_layernorm.weight"].map fun param =>
        "model.layers." ++ toString layerId ++ "." ++ param) ++
  ["model.norm.weight", "lm_head.weight"]

/-- `f"layers.{layer_id}.block_sparse_moe.gate.weight"` -/
def gateName (layerId : ℕ) : String :=
  "layers." ++ toString layerId ++ ".block_sparse_moe.gate.weight"

def stackedParamsMapping : List (String × String × String) :=
  [("qkv_proj", "q_proj", "q"), ("qkv_proj", "k_proj", "k"), ("qkv_proj", "v_proj", "v")]

def expertParamsMapping (numHiddenLayers numLocalExperts : ℕ) :
    List (String × String × ℕ × ℕ) :=
  (List.range numLocalExperts).flatMap fun expertId =>
    [ExpertPart.w1, .w2, .w3].flatMap fun weightName =>
      (List.range numHiddenLayers).map fun layerId =>
        ("block_sparse_moe.ws", mixtralName weightName layerId expertId, expertId, layerId)

def gateParamsMapping (numHiddenLayers : ℕ) : List (String × String × ℕ) :=
  (List.range numHiddenLayers).map fun layerId =>
    ("block_sparse_moe.gates.weight", gateName layerId, layerId)

/-- A call of a weight loader with what it gets beside the tensor. -/
inductive LoaderCall
  | skip
  | gate (param : String) (layerId : ℕ)
  | stacked (param shardId : String)
  | expert (param weightName : String) (expertId layerId : ℕ)
  | plain (param : String)
  deriving DecidableEq

section Dispatch

variable (params : List String)

/-- `params_dict[name]`, where a key that is missing raises. -/
def callOf (name : String) (call : String → LoaderCall) : Option LoaderCall :=
  if name ∈ params then some (call name) else none

/-- The bias of a quantized model has no parameter. -/
def extraBias (name : String) : Bool := endsWith name ".bias" && decide (name ∉ params)

/-- The loop over the stacked parameters: the call of an entry, or the name that is left. -/
def stackedLoop : List (String × String × String) → String → Option LoaderCall ⊕ String
  | [], name => .inr name
  | (paramName, weightName, shardId) :: table, name =>
      if nameIn weightName name then
        let name := replaceName name weightName paramName
        if extraBias params name then stackedLoop table name
        else .inl (callOf params name (.stacked · shardId))
      else stackedLoop table name

/-- The body of the loop of `load_weights` for one name. -/
def loadDispatch (numHiddenLayers numLocalExperts : ℕ) (name : String) : Option LoaderCall :=
  if nameIn "rotary_emb.inv_freq" name then some .skip
  else
    match (gateParamsMapping numHiddenLayers).find? fun entry => nameIn entry.2.1 name with
    | some (paramName, weightName, layerId) =>
        callOf params (replaceName name weightName paramName) (.gate · layerId)
    | none =>
        match stackedLoop params stackedParamsMapping name with
        | .inl call => call
        | .inr name =>
            match (expertParamsMapping numHiddenLayers numLocalExperts).find?
              fun entry => nameIn entry.2.1 name with
            | some (paramName, weightName, expertId, layerId) =>
                callOf params (replaceName name weightName paramName)
                  (.expert · weightName expertId layerId)
            | none => if extraBias params name then some .skip else callOf params name .plain

end Dispatch

/-- The tensors of the experts and the gates. -/
inductive MoeTensor
  | gate (layerId : ℕ)
  | expert (part : ExpertPart) (layerId expertId : ℕ)
  deriving DecidableEq

namespace MoeTensor

/-- What its name has behind `model.`. -/
def weightName : MoeTensor → String
  | gate layerId => gateName layerId
  | expert part layerId expertId => mixtralName part layerId expertId

def name (t : MoeTensor) : String := "model." ++ t.weightName

/-- The call that is meant for it. -/
def call : MoeTensor → LoaderCall
  | gate layerId => .gate "model.block_sparse_moe.gates.weight" layerId
  | expert part layerId expertId =>
      .expert "model.block_sparse_moe.ws" (mixtralName part layerId expertId) expertId layerId

theorem call_gate (l : ℕ) :
    (gate l).call = .gate "model.block_sparse_moe.gates.weight" l := rfl

theorem call_expert (part : ExpertPart) (l e : ℕ) :
    (expert part l e).call =
      .expert "model.block_sparse_moe.ws" (mixtralName part l e) e l := rfl

/-- The tensor of a layer and an expert of the model. -/
def InModel (numHiddenLayers numLocalExperts : ℕ) : MoeTensor → Prop
  | gate layerId => layerId < numHiddenLayers
  | expert _ layerId expertId => layerId < numHiddenLayers ∧ expertId < numLocalExperts

end MoeTensor

section Names

/-- The character list of a name with the number of a layer. -/
def layerChars (layerId : ℕ) (rest : List Char) : List Char :=
  "la".toList ++ 'y' :: ("ers.".toList ++ (Nat.toDigits 10 layerId ++ '.' :: rest))

/-- A name inside another has the same layer, and goes on as the other does. -/
theorem layerChars_inside {l l' : ℕ} {rest rest' : List Char} (hrest : 'y' ∉ rest)
    (h : layerChars l' rest' <:+: "model.".toList ++ layerChars l rest) :
    l' = l ∧ rest' <+: rest := by
  have hsplit : "model.".toList ++ layerChars l rest =
      "model.la".toList ++ 'y' :: ("ers.".toList ++ (Nat.toDigits 10 l ++ '.' :: rest)) := by
    simp [layerChars]
  have hy : 'y' ∉ "ers.".toList ++ (Nat.toDigits 10 l ++ '.' :: rest) := by
    simp [hrest, notMem_toDigits]
  rw [hsplit, layerChars] at h
  have ⟨t, ht⟩ := (infix_at_char (by simp) hy h).2
  simp only [List.append_assoc, List.append_cancel_left_eq, List.cons_append] at ht
  have ⟨hl, hback⟩ := toDigits_append_cons_inj (by decide) ht
  exact ⟨hl, t, hback⟩

/-- `weight_name` of the table of the experts. -/
def partName : ExpertPart → String
  | .w1 => "w1"
  | .w3 => "w3"
  | .w2 => "w2"

theorem mixtralName_eq (part : ExpertPart) (l e : ℕ) :
    mixtralName part l e = "layers." ++ toString l ++ ".block_sparse_moe.experts." ++ toString e ++
      "." ++ partName part ++ ".weight" := by
  cases part <;> rfl

theorem partName_inj {part part' : ExpertPart} {u v : List Char}
    (h : (partName part').toList ++ u <+: (partName part).toList ++ v) : part' = part := by
  cases part <;> cases part' <;> simp [partName] at h ⊢

end Names

namespace MoeTensor

def layerId : MoeTensor → ℕ
  | gate layerId => layerId
  | expert _ layerId _ => layerId

/-- What a name has behind the number of the layer. -/
def rest : MoeTensor → List Char
  | gate _ => "block_sparse_moe.gate.weight".toList
  | expert part _ expertId => "block_sparse_moe.experts.".toList ++
      (Nat.toDigits 10 expertId ++ '.' :: ((partName part).toList ++ ".weight".toList))

theorem rest_gate (l : ℕ) : (gate l).rest = "block_sparse_moe.gate.weight".toList := rfl

theorem rest_expert (part : ExpertPart) (l e : ℕ) :
    (expert part l e).rest = "block_sparse_moe.experts.".toList ++
      (Nat.toDigits 10 e ++ '.' :: ((partName part).toList ++ ".weight".toList)) := rfl

theorem weightName_toList (t : MoeTensor) : t.weightName.toList = layerChars t.layerId t.rest := by
  cases t with
  | gate l =>
      rw [rest_gate]
      change (gateName l).toList = layerChars l _
      simp [gateName, layerChars]
  | expert part l e =>
      rw [rest_expert]
      change (mixtralName part l e).toList = layerChars l _
      rw [mixtralName_eq]
      simp [layerChars]

theorem name_toList (t : MoeTensor) :
    t.name.toList = "model.".toList ++ layerChars t.layerId t.rest := by
  rw [name, String.toList_append, weightName_toList]

/-- The characters of the other tables, and the one that marks the layer, are not behind
it. -/
theorem notMem_rest {c : Char} (hc : c = 'j' ∨ c = 'q' ∨ c = 'y') (t : MoeTensor) : c ∉ t.rest := by
  have hdigit : c.isDigit = false := by
    rcases hc with rfl | rfl | rfl <;> rfl
  cases t with
  | gate l =>
      rw [rest_gate]
      rcases hc with rfl | rfl | rfl <;> simp
  | expert part l e =>
      have hnum := notMem_toDigits hdigit e
      rw [rest_expert]
      rcases hc with rfl | rfl | rfl <;> cases part <;> simp [partName, hnum]

theorem notMem_name {c : Char} (hc : c = 'j' ∨ c = 'q') (t : MoeTensor) : c ∉ t.name.toList := by
  have hrest : c ∉ t.rest := notMem_rest (hc.imp_right Or.inl) t
  have hdigit : c.isDigit = false := by
    rcases hc with rfl | rfl <;> rfl
  have hnum := notMem_toDigits hdigit t.layerId
  rw [name_toList]
  rcases hc with rfl | rfl <;> simp [layerChars, hrest, hnum]

/-- The rest of a name tells the part and the expert. -/
theorem eq_of_rest_starts {t t' : MoeTensor} (hlayer : t'.layerId = t.layerId)
    (h : t'.rest <+: t.rest) : t' = t := by
  cases t with
  | gate l =>
      cases t' with
      | gate l' => exact congrArg gate hlayer
      | expert part' l' e' => simp [rest_gate, rest_expert] at h
  | expert part l e =>
      cases t' with
      | gate l' => simp [rest_gate, rest_expert] at h
      | expert part' l' e' =>
          have ⟨u, hu⟩ := h
          simp only [rest_expert, List.append_assoc, List.append_cancel_left_eq, List.cons_append] at hu
          have ⟨he, hpart⟩ := toDigits_append_cons_inj (by decide) hu
          have hpart' : part' = part := by
            refine partName_inj (u := ".weight".toList) (v := ".weight".toList) ⟨u, ?_⟩
            rw [List.append_assoc, hpart]
          rw [hpart', he, show l' = l from hlayer]

/-- **A tensor matches its own entry and no other.** -/
theorem nameIn_iff (t t' : MoeTensor) : nameIn t'.weightName t.name = true ↔ t' = t := by
  rw [nameIn, decide_eq_true_iff, weightName_toList, name_toList]
  constructor
  · intro h
    have ⟨hlayer, hrest⟩ := layerChars_inside (notMem_rest (Or.inr (Or.inr rfl)) t) h
    exact eq_of_rest_starts hlayer hrest
  · intro h
    rw [h]
    exact (List.suffix_append _ _).isInfix

/-- A text with a character that a name does not have is not in it. -/
theorem nameIn_of_notMem {c : Char} (text : String) (hc : c = 'j' ∨ c = 'q')
    (htext : c ∈ text.toList) (t : MoeTensor) : nameIn text t.name = false := by
  rw [nameIn, decide_eq_false_iff_not]
  exact fun h => notMem_name hc t (h.subset htext)

/-- The parameter takes the place of everything behind `model.`. -/
theorem replaceName_name (t : MoeTensor) (paramName : String) :
    replaceName t.name t.weightName paramName = "model." ++ paramName := by
  have hreplaced : replaceAll (layerChars t.layerId t.rest) paramName.toList 0
      ("model.".toList ++ layerChars t.layerId t.rest) = "model.".toList ++ paramName.toList :=
    replaceAll_suffix (c := 'y') (by simp) (by simp) paramName.toList
  rw [replaceName, name_toList, weightName_toList, hreplaced, String.ofList_append,
    String.ofList_toList, String.ofList_toList]

variable {L E : ℕ}

theorem mem_gateParamsMapping {entry : String × String × ℕ} :
    entry ∈ gateParamsMapping L ↔
      ∃ l < L, ("block_sparse_moe.gates.weight", gateName l, l) = entry := by
  simp only [gateParamsMapping, List.mem_map, List.mem_range]

theorem mem_expertParamsMapping {entry : String × String × ℕ × ℕ} :
    entry ∈ expertParamsMapping L E ↔ ∃ e < E, ∃ part : ExpertPart, ∃ l < L,
      ("block_sparse_moe.ws", mixtralName part l e, e, l) = entry := by
  have hpart : ∀ part : ExpertPart, part ∈ [ExpertPart.w1, .w2, .w3] := by
    intro part
    cases part <;> decide
  simp only [expertParamsMapping, List.mem_flatMap, List.mem_map, List.mem_range, hpart, true_and]

/-- The loop over the stacked parameters leaves the names of these tensors. -/
theorem stackedLoop_name (params : List String) (t : MoeTensor) :
    stackedLoop params stackedParamsMapping t.name = .inr t.name := by
  have hq := t.nameIn_of_notMem "q_proj" (Or.inl rfl) (by simp)
  have hk := t.nameIn_of_notMem "k_proj" (Or.inl rfl) (by simp)
  have hv := t.nameIn_of_notMem "v_proj" (Or.inl rfl) (by simp)
  simp only [stackedParamsMapping, stackedLoop, hq, hk, hv, Bool.false_eq_true, if_false]

/-- A gate entry that matches is that of the tensor. -/
theorem gate_of_nameIn {t : MoeTensor} {entry : String × String × ℕ}
    (hentry : entry ∈ gateParamsMapping L) (hin : nameIn entry.2.1 t.name = true) :
    t = gate entry.2.2 ∧ entry.1 = "block_sparse_moe.gates.weight" ∧
      entry.2.1 = gateName entry.2.2 := by
  have ⟨l, _, heq⟩ := mem_gateParamsMapping.mp hentry
  subst heq
  exact ⟨((nameIn_iff t (gate l)).mp hin).symm, rfl, rfl⟩

/-- An expert entry that matches is that of the tensor. -/
theorem expert_of_nameIn {t : MoeTensor} {entry : String × String × ℕ × ℕ}
    (hentry : entry ∈ expertParamsMapping L E) (hin : nameIn entry.2.1 t.name = true) :
    ∃ part, t = expert part entry.2.2.2 entry.2.2.1 ∧ entry.1 = "block_sparse_moe.ws" ∧
      entry.2.1 = mixtralName part entry.2.2.2 entry.2.2.1 := by
  have ⟨e, _, part, l, _, heq⟩ := mem_expertParamsMapping.mp hentry
  subst heq
  exact ⟨part, ((nameIn_iff t (expert part l e)).mp hin).symm, rfl, rfl⟩

/-- **Every tensor of the model leads to its own call.** -/
theorem loadDispatch_eq {t : MoeTensor} (ht : t.InModel L E) :
    loadDispatch (namedParameters L) L E t.name = some t.call := by
  rw [loadDispatch, nameIn_of_notMem _ (Or.inr rfl) (by simp) t, if_neg Bool.false_ne_true]
  cases t with
  | gate l =>
      have hfind : (gateParamsMapping L).find? (fun entry => nameIn entry.2.1 (gate l).name) =
          some ("block_sparse_moe.gates.weight", gateName l, l) := by
        refine find?_of_unique (mem_gateParamsMapping.mpr ⟨l, ht, rfl⟩)
          ((nameIn_iff (gate l) (gate l)).mpr rfl) fun entry hentry hin => ?_
        have ⟨ht, hparam, hweight⟩ := gate_of_nameIn hentry hin
        have hl := MoeTensor.gate.inj ht
        rw [hl]
        exact Prod.ext hparam (Prod.ext hweight rfl)
      have hname : replaceName (gate l).name (gateName l) "block_sparse_moe.gates.weight" =
          "model.block_sparse_moe.gates.weight" := replaceName_name (gate l) _
      have hkey : "model.block_sparse_moe.gates.weight" ∈ namedParameters L := by
        simp [namedParameters]
      rw [hfind]
      simp only [callOf, hname, if_pos hkey, call_gate]
  | expert part l e =>
      have hgates : (gateParamsMapping L).find?
          (fun entry => nameIn entry.2.1 (expert part l e).name) = none := by
        refine List.find?_eq_none.mpr fun entry hentry hin => ?_
        exact MoeTensor.noConfusion (gate_of_nameIn hentry hin).1
      have hfind : (expertParamsMapping L E).find?
          (fun entry => nameIn entry.2.1 (expert part l e).name) =
            some ("block_sparse_moe.ws", mixtralName part l e, e, l) := by
        refine find?_of_unique (mem_expertParamsMapping.mpr ⟨e, ht.2, part, l, ht.1, rfl⟩)
          ((nameIn_iff (expert part l e) (expert part l e)).mpr rfl) fun entry hentry hin => ?_
        have ⟨part', ht, hparam, hweight⟩ := expert_of_nameIn hentry hin
        have ⟨hpart, hl, he⟩ := MoeTensor.expert.inj ht
        rw [hpart, hl, he]
        exact Prod.ext hparam (Prod.ext hweight rfl)
      have hname : replaceName (expert part l e).name (mixtralName part l e) "block_sparse_moe.ws" =
          "model.block_sparse_moe.ws" := replaceName_name (expert part l e) _
      have hkey : "model.block_sparse_moe.ws" ∈ namedParameters L := by
        simp [namedParameters]
      rw [hgates]
      simp only [stackedLoop_name, hfind, callOf, hname, if_pos hkey, call_expert]

end MoeTensor

end HarvestMoE
