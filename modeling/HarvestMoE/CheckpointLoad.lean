import HarvestMoE.CheckpointDispatch
import HarvestMoE.Lib.Tiles

/-!
# Loading a checkpoint

The names of the checkpoint come in any order. Each leads to one call, the call of a tensor
of an expert assigns one slice of the page of that expert, and the slices of the three
parts are the page. So no entry of `ws` is assigned twice, and none is left out.

## Main definitions

* `weightLoaderWrites`, `LoaderCall.writes` — the entries of `ws` that a call assigns.
* `MoeParams`, `LoaderCall.run`, `loadWeights` — the parameters of the experts and a run.
* `moeTensors`, `wsEntries` — all tensors, and all entries of `ws`.
-/

namespace HarvestMoE

open Lib

/-- The slice of the page that belongs to a part. -/
def partSlice (s : ExpertShape) : ExpertPart → Slice
  | .w1 => ⟨0, some (s.intermediateSize * s.hiddenSize)⟩
  | .w3 => ⟨s.intermediateSize * s.hiddenSize, some (2 * s.intermediateSize * s.hiddenSize)⟩
  | .w2 => ⟨2 * s.intermediateSize * s.hiddenSize, none⟩

/-- The entries that `weight_loader` assigns, with their layer and expert. -/
def weightLoaderWrites (s : ExpertShape) (weightName : String) (expertId layerId : ℕ) :
    List (ℕ × ℕ × ℕ) :=
  [("w1.weight", ExpertPart.w1), ("w3.weight", .w3), ("w2.weight", .w2)].flatMap
    fun (suffix, part) =>
      if endsWith weightName suffix then
        ((partSlice s part).indices s.pageSize).map fun p => (layerId, expertId, p)
      else []

def LoaderCall.writes (s : ExpertShape) : LoaderCall → List (ℕ × ℕ × ℕ)
  | .expert _ weightName expertId layerId => weightLoaderWrites s weightName expertId layerId
  | _ => []

/-- The parameters of the one `block_sparse_moe`. -/
structure MoeParams (R : Type*) where
  ws : ParamData R
  gates : ℕ → Matrix2 R

/-- What a call does to them. The loaders of the two raise without the layer; the other
parameters are not theirs. -/
def LoaderCall.run {R : Type*} (s : ExpertShape) (tpRank : ℕ) (params : MoeParams R)
    (loadedWeight : Matrix2 R) : LoaderCall → Option (MoeParams R)
  | .gate _ layerId =>
      some { params with gates := Function.update params.gates layerId loadedWeight }
  | .expert _ weightName expertId layerId =>
      (weightLoader s tpRank params.ws loadedWeight weightName expertId layerId).map
        fun ws => { params with ws := ws }
  | .plain param =>
      if param ∈ ["model.block_sparse_moe.ws", "model.block_sparse_moe.gates.weight"] then none
      else some params
  | _ => some params

/-- `load_weights` on the names and tensors of a checkpoint. -/
def loadWeights {R : Type*} (numHiddenLayers numLocalExperts : ℕ) (s : ExpertShape) (tpRank : ℕ)
    (params : MoeParams R) (files : List (String × Matrix2 R)) : Option (MoeParams R) :=
  exec (fun params (name, loadedWeight) =>
    (loadDispatch (namedParameters numHiddenLayers) numHiddenLayers numLocalExperts name).bind
      fun call => call.run s tpRank params loadedWeight) params files

/-- The entries of `ws` that `load_weights` assigns, one after the other. -/
def loadWrites (numHiddenLayers numLocalExperts : ℕ) (s : ExpertShape) (names : List String) :
    List (ℕ × ℕ × ℕ) :=
  names.flatMap fun name =>
    match loadDispatch (namedParameters numHiddenLayers) numHiddenLayers numLocalExperts name with
    | some call => call.writes s
    | none => []

def moeTensors (numHiddenLayers numLocalExperts : ℕ) : List MoeTensor :=
  (List.range numHiddenLayers).map MoeTensor.gate ++
  (List.range numHiddenLayers).flatMap fun layerId =>
    (List.range numLocalExperts).flatMap fun expertId =>
      [.expert .w1 layerId expertId, .expert .w2 layerId expertId, .expert .w3 layerId expertId]

/-- `ws` is `torch.empty(num_layers, num_total_experts, page_size)`. -/
def wsEntries (numHiddenLayers numLocalExperts : ℕ) (s : ExpertShape) : List (ℕ × ℕ × ℕ) :=
  List.range numHiddenLayers ×ˢ List.range numLocalExperts ×ˢ List.range s.pageSize

section Writes

variable {R : Type*} {s : ExpertShape} {tpRank l e : ℕ}

/-- An assignment goes to the slice of its part. -/
theorem storePart_slice (s : ExpertShape) (tpRank : ℕ) (part : ExpertPart) (page : ℕ → R)
    (m : Matrix2 R) :
    ∃ src len, storePart s tpRank part page m =
      copySlice 1 page s.pageSize (partSlice s part) src len ⟨0, none⟩ := by
  cases part <;> exact ⟨_, _, rfl⟩

/-- `weight_loader` leaves what it does not assign. -/
theorem weightLoader_of_notMem {param param' : ParamData R} {loadedWeight : Matrix2 R}
    {weightName : String}
    (h : weightLoader s tpRank param loadedWeight weightName e l = some param') {l' e' p : ℕ}
    (hp : (l', e', p) ∉ weightLoaderWrites s weightName e l) : param' l' e' p = param l' e' p := by
  -- One of the three tests, with its assignment.
  have hstore : ∀ suffix part, (suffix, part) ∈ [("w1.weight", ExpertPart.w1),
      ("w3.weight", .w3), ("w2.weight", .w2)] → ∀ param param' : ParamData R,
      (if endsWith weightName suffix then
        (storePart s tpRank part (param l e) loadedWeight).map (setPage param l e)
      else some param) = some param' → param' l' e' p = param l' e' p := by
    intro suffix part hmem param param' hsome
    split_ifs at hsome with hends
    · have ⟨page, hpage, hset⟩ := Option.map_eq_some_iff.mp hsome
      have ⟨src, len, hslice⟩ := storePart_slice s tpRank part (param l e) loadedWeight
      rw [hslice] at hpage
      rw [← hset]
      by_cases hle : l' = l ∧ e' = e
      · rw [hle.1, hle.2, setPage_self]
        refine copySlice_of_notMem hpage fun hrow => hp ?_
        rw [weightLoaderWrites, List.mem_flatMap]
        refine ⟨(suffix, part), hmem, ?_⟩
        simp only [hends, if_true, hle.1, hle.2]
        exact List.mem_map_of_mem (Slice.mem_indices.mpr hrow)
      · rw [setPage_of_ne page hle]
    · rw [Option.some.inj hsome]
  have ⟨param₁, h₁, hrest⟩ := Option.bind_eq_some_iff.mp h
  have ⟨param₂, h₂, h₃⟩ := Option.bind_eq_some_iff.mp hrest
  rw [hstore _ .w2 (by simp) param₂ param' h₃, hstore _ .w3 (by simp) param₁ param₂ h₂,
    hstore _ .w1 (by simp) param param₁ h₁]

/-- The part that an entry of a page belongs to. -/
def partOf (s : ExpertShape) (p : ℕ) : ExpertPart :=
  if p < s.intermediateSize * s.hiddenSize then .w1
  else if p < 2 * (s.intermediateSize * s.hiddenSize) then .w3 else .w2

/-- The slices of the parts are the page. -/
theorem mem_partSlice (part : ExpertPart) (p : ℕ) :
    p ∈ (partSlice s part).indices s.pageSize ↔ p < s.pageSize ∧ partOf s p = part := by
  have hpage := s.pageSize_eq
  have htwo : 2 * s.intermediateSize * s.hiddenSize = 2 * (s.intermediateSize * s.hiddenSize) :=
    Nat.mul_assoc _ _ _
  rw [Slice.indices, List.mem_range'_1, partOf]
  cases part <;> simp only [partSlice, Slice.length, Option.getD_some, Option.getD_none] <;>
    split_ifs <;> simp <;> omega

/-- A tensor of an expert is assigned to the slice of its part. -/
theorem writes_expert (s : ExpertShape) (part : ExpertPart) (l e : ℕ) :
    (MoeTensor.expert part l e).call.writes s =
      ((partSlice s part).indices s.pageSize).map fun p => (l, e, p) := by
  have ⟨h1, h3, h2⟩ := endsWith_mixtralName part l e
  rw [MoeTensor.call_expert, LoaderCall.writes]
  simp only [weightLoaderWrites, List.flatMap_cons, List.flatMap_nil, h1, h3, h2]
  cases part <;> simp

theorem writes_gate (s : ExpertShape) (l : ℕ) : (MoeTensor.gate l).call.writes s = [] := rfl

theorem mem_wsEntries {L E : ℕ} {entry : ℕ × ℕ × ℕ} :
    entry ∈ wsEntries L E s ↔ (entry.1 < L ∧ entry.2.1 < E) ∧ entry.2.2 < s.pageSize := by
  rw [wsEntries, List.mem_product, List.mem_product, List.mem_range, List.mem_range,
    List.mem_range, and_assoc]

theorem mem_moeTensors {L E : ℕ} {t : MoeTensor} : t ∈ moeTensors L E ↔ t.InModel L E := by
  rw [moeTensors, List.mem_append]
  cases t with
  | gate l => simp [MoeTensor.InModel]
  | expert part l e =>
      cases part <;> simp [MoeTensor.InModel, and_assoc, and_comm]

/-- The expert of a tensor that has one. -/
def MoeTensor.expertId : MoeTensor → ℕ
  | gate _ => 0
  | expert _ _ expertId => expertId

/-- Among the tensors of a model there is none twice. -/
theorem moeTensors_nodup (L E : ℕ) : (moeTensors L E).Nodup := by
  have hexpert : ∀ l e, [MoeTensor.expert .w1 l e, .expert .w2 l e, .expert .w3 l e].Nodup := by
    simp
  have hlayer : ∀ l, ((List.range E).flatMap fun e =>
      [MoeTensor.expert .w1 l e, .expert .w2 l e, .expert .w3 l e]).Nodup := by
    intro l
    refine nodup_flatMap_of_tiles id MoeTensor.expertId List.nodup_range (fun _ _ _ _ h => h)
      (fun e _ => hexpert l e) fun e _ t ht => ?_
    simp only [List.mem_cons, List.not_mem_nil, or_false] at ht
    rcases ht with rfl | rfl | rfl <;> rfl
  refine List.nodup_append.mpr ⟨List.nodup_range.map fun l l' h => MoeTensor.gate.inj h, ?_, ?_⟩
  · refine nodup_flatMap_of_tiles id MoeTensor.layerId List.nodup_range (fun _ _ _ _ h => h)
      (fun l _ => hlayer l) fun l _ t ht => ?_
    obtain ⟨e, _, hmem⟩ := List.mem_flatMap.mp ht
    simp only [List.mem_cons, List.not_mem_nil, or_false] at hmem
    rcases hmem with rfl | rfl | rfl <;> rfl
  · intro t ht t' ht'
    obtain ⟨l, _, heq⟩ := List.mem_map.mp ht
    obtain ⟨l', _, hmem⟩ := List.mem_flatMap.mp ht'
    obtain ⟨e', _, hpart⟩ := List.mem_flatMap.mp hmem
    subst heq
    simp only [List.mem_cons, List.not_mem_nil, or_false] at hpart
    rcases hpart with rfl | rfl | rfl <;> exact MoeTensor.noConfusion

/-- **The tensors of the model, in any order, assign every entry of `ws` once.** -/
theorem writes_perm {L E : ℕ} (s : ExpertShape) {tensors : List MoeTensor}
    (horder : tensors.Perm (moeTensors L E)) :
    (tensors.flatMap fun t => t.call.writes s).Perm (wsEntries L E s) := by
  have hmem : ∀ {t}, t ∈ tensors ↔ t.InModel L E := horder.mem_iff.trans mem_moeTensors
  have hentries : (wsEntries L E s).Nodup :=
    List.nodup_range.product (List.nodup_range.product List.nodup_range)
  -- An entry is at home in the tensor of its layer, its expert and its part.
  refine flatMap_perm_of_tiles id
    (fun entry => MoeTensor.expert (partOf s entry.2.2) entry.1 entry.2.1)
    (horder.nodup_iff.mpr (moeTensors_nodup L E)) (fun _ _ _ _ h => h) hentries ?_ ?_ ?_
  · intro t _
    cases t with
    | gate l => exact List.nodup_nil
    | expert part l e =>
        rw [writes_expert]
        exact (List.nodup_range' 1).map fun p p' h => by simpa using h
  · intro t ht entry
    have hin := hmem.mp ht
    rw [mem_wsEntries]
    cases t with
    | gate l => simp [writes_gate]
    | expert part l e =>
        rw [writes_expert, List.mem_map]
        constructor
        · intro h
          have ⟨p, hp, heq⟩ := h
          have ⟨hlt, hpart⟩ := (mem_partSlice part p).mp hp
          subst heq
          exact ⟨⟨hin, hlt⟩, by rw [hpart]; rfl⟩
        · intro h
          have ⟨⟨_, hlt⟩, hhome⟩ := h
          have ⟨hpart, hl, he⟩ := MoeTensor.expert.inj hhome
          exact ⟨entry.2.2, (mem_partSlice part _).mpr ⟨hlt, hpart⟩, by rw [← hl, ← he]⟩
  · intro entry hentry
    have hin : (MoeTensor.expert (partOf s entry.2.2) entry.1 entry.2.1).InModel L E :=
      (mem_wsEntries.mp hentry).1
    exact ⟨_, hmem.mpr hin, rfl⟩

end Writes

namespace MoeTensor

variable {R : Type*} (w : MoeWeights R) (gate₀ : ℕ → Matrix2 R) (s : ExpertShape) (tpRank : ℕ)

/-- What the checkpoint has under the name of a tensor. -/
def matrix : MoeTensor → Matrix2 R
  | gate layerId => gate₀ layerId
  | expert part layerId expertId => w.mixtralMatrix s part layerId expertId

/-- The parameters have the tensor, or the share of the rank of it. -/
def Arrived (t : MoeTensor) (params : MoeParams R) : Prop :=
  match t with
  | gate layerId => params.gates layerId = gate₀ layerId
  | expert part layerId expertId => Loaded w s tpRank (part, layerId, expertId) params.ws

variable {s tpRank}

/-- The call of a tensor brings it, leaves the others, and assigns what it assigns. -/
theorem run_call (hrank : tpRank < s.tpSize) (t : MoeTensor) (params : MoeParams R) :
    ∃ params', t.call.run s tpRank params (t.matrix w gate₀ s) = some params' ∧
      t.Arrived w gate₀ s tpRank params' ∧
      (∀ t' : MoeTensor, t'.Arrived w gate₀ s tpRank params → t'.Arrived w gate₀ s tpRank params') ∧
      ∀ l e p, (l, e, p) ∉ t.call.writes s → params'.ws l e p = params.ws l e p := by
  cases t with
  | gate l =>
      refine ⟨_, rfl, Function.update_self .., fun t' h => ?_, fun _ _ _ _ => rfl⟩
      cases t' with
      | gate l' =>
          by_cases hl : l' = l
          · rw [hl]
            exact Function.update_self ..
          · exact (Function.update_of_ne hl ..).trans h
      | expert part' l' e' => exact h
  | expert part l e =>
      have ⟨ws, hws, hnew, hkeep⟩ :=
        weightLoader_loaded (w := w) hrank params.ws (part, l, e)
      refine ⟨{ params with ws := ws }, ?_, hnew, fun t' h => ?_, fun l' e' p hp => ?_⟩
      · rw [call_expert, LoaderCall.run, matrix, hws, Option.map_some]
      · cases t' with
        | gate l' => exact h
        | expert part' l' e' => exact hkeep (part', l', e') h
      · exact weightLoader_of_notMem hws hp

end MoeTensor

section Load

variable {R : Type*} {s : ExpertShape} {tpRank L E : ℕ}

/-- The names assign what the calls of their tensors assign. -/
theorem loadWrites_eq {tensors : List MoeTensor} (h : ∀ t ∈ tensors, t.InModel L E) :
    loadWrites L E s (tensors.map MoeTensor.name) =
      tensors.flatMap fun t => t.call.writes s := by
  rw [loadWrites, List.flatMap_map]
  refine List.flatMap_congr fun t ht => ?_
  simp only [MoeTensor.loadDispatch_eq (h t ht)]

/-- A run over tensors of the model brings all of them and leaves what is no entry. -/
theorem loadWeights_arrived (w : MoeWeights R) (gate₀ : ℕ → Matrix2 R) (hrank : tpRank < s.tpSize) (params : MoeParams R)
    {tensors : List MoeTensor} (h : ∀ t ∈ tensors, t.InModel L E)
    (hwrites : ∀ t ∈ tensors, ∀ entry ∈ t.call.writes s, entry ∈ wsEntries L E s) :
    ∃ params', loadWeights L E s tpRank params
        (tensors.map fun t => (t.name, t.matrix w gate₀ s)) = some params' ∧
      (∀ t ∈ tensors, t.Arrived w gate₀ s tpRank params') ∧
      ∀ l e p, (l, e, p) ∉ wsEntries L E s → params'.ws l e p = params.ws l e p := by
  -- What a run brings about: the tensors, and that the rest is as it was.
  let fact : Option MoeTensor → MoeParams R → Prop := fun goal params' =>
    match goal with
    | some t => t.Arrived w gate₀ s tpRank params'
    | none => ∀ l e p, (l, e, p) ∉ wsEntries L E s → params'.ws l e p = params.ws l e p
  let step : MoeParams R → MoeTensor → Option (MoeParams R) := fun params t =>
    (loadDispatch (namedParameters L) L E t.name).bind fun call =>
      call.run s tpRank params (t.matrix w gate₀ s)
  have hstep : ∀ t ∈ tensors, ∀ now, ∃ next, step now t = some next ∧
      (∀ goal ∈ ({some t} : Set (Option MoeTensor)), fact goal next) ∧
      ∀ goal, fact goal now → fact goal next := by
    intro t ht now
    have ⟨next, hcall, hnew, hkeep, hrest⟩ := t.run_call w gate₀ hrank now
    refine ⟨next, ?_, ?_, ?_⟩
    · simp only [step, MoeTensor.loadDispatch_eq (h t ht), Option.bind_some, hcall]
    · intro goal hgoal
      rw [Set.mem_singleton_iff.mp hgoal]
      exact hnew
    · intro goal hgoal
      cases goal with
      | some t' => exact hkeep t' hgoal
      | none =>
          intro l e p hp
          rw [hrest l e p fun hmem => hp (hwrites t ht _ hmem)]
          exact hgoal l e p hp
  have ⟨params', hexec, hall, hkept⟩ := exec_accumulates _ params hstep
  refine ⟨params', ?_, fun t ht => hall t ht (some t) rfl, hkept none fun _ _ _ _ => rfl⟩
  rw [loadWeights, exec, List.foldlM_map]
  exact hexec

/-- **The names lead to the tensors' own calls, and these load every entry of `ws` once.** No
entry of a table matches a name but that of its layer, its expert and its part. The
tensors in any order assign each entry of `ws` once; afterwards all of them are in the
parameters, and what is not an entry is as it was. -/
theorem loadWeights_exact (w : MoeWeights R) (gate₀ : ℕ → Matrix2 R) (hrank : tpRank < s.tpSize)
    (params : MoeParams R) {tensors : List MoeTensor} (horder : tensors.Perm (moeTensors L E)) :
    (∀ t : MoeTensor, t.InModel L E →
      loadDispatch (namedParameters L) L E t.name = some t.call ∧
      (∀ entry ∈ stackedParamsMapping, nameIn entry.2.1 t.name = false) ∧
      (∀ entry ∈ gateParamsMapping L, nameIn entry.2.1 t.name = true → t = .gate entry.2.2) ∧
      ∀ entry ∈ expertParamsMapping L E, nameIn entry.2.1 t.name = true →
        ∃ part, t = .expert part entry.2.2.2 entry.2.2.1 ∧
          entry.2.1 = mixtralName part entry.2.2.2 entry.2.2.1) ∧
    (loadWrites L E s (tensors.map MoeTensor.name)).Perm (wsEntries L E s) ∧
    ∃ params', loadWeights L E s tpRank params
        (tensors.map fun t => (t.name, t.matrix w gate₀ s)) = some params' ∧
      (∀ l < L, params'.gates l = gate₀ l ∧
        ∀ e < E, ∀ part, Loaded w s tpRank (part, l, e) params'.ws) ∧
      ∀ l e p, (l, e, p) ∉ wsEntries L E s → params'.ws l e p = params.ws l e p := by
  have hmem : ∀ {t}, t ∈ tensors ↔ t.InModel L E := horder.mem_iff.trans mem_moeTensors
  have hperm := writes_perm s horder
  refine ⟨fun t ht => ⟨MoeTensor.loadDispatch_eq ht, ?_, ?_, ?_⟩, ?_, ?_⟩
  · intro entry hentry
    refine t.nameIn_of_notMem entry.2.1 (Or.inl rfl) ?_
    simp only [stackedParamsMapping, List.mem_cons, List.not_mem_nil, or_false] at hentry
    rcases hentry with rfl | rfl | rfl <;> simp
  · intro entry hentry hin
    exact (MoeTensor.gate_of_nameIn hentry hin).1
  · intro entry hentry hin
    obtain ⟨part, ht, _, hweight⟩ := MoeTensor.expert_of_nameIn hentry hin
    exact ⟨part, ht, hweight⟩
  · rw [loadWrites_eq fun t ht => hmem.mp ht]
    exact hperm
  · have hwrites : ∀ t ∈ tensors, ∀ entry ∈ t.call.writes s, entry ∈ wsEntries L E s :=
      fun t ht entry hentry => hperm.mem_iff.mp (List.mem_flatMap.mpr ⟨t, ht, hentry⟩)
    obtain ⟨params', hrun, harrived, hrest⟩ :=
      loadWeights_arrived w gate₀ hrank params (fun t ht => hmem.mp ht) hwrites
    refine ⟨params', hrun, fun l hl => ⟨?_, fun e he part => ?_⟩, hrest⟩
    · exact harrived (.gate l) (hmem.mpr hl)
    · exact harrived (.expert part l e) (hmem.mpr ⟨hl, he⟩)

/-- Twelve layers of eight experts, on the second rank of two. Layer 11 is not layer 1. -/
theorem loadWeights_exact_twelve :
    loadDispatch (namedParameters 12) 12 8 "model.layers.11.block_sparse_moe.experts.1.w3.weight" =
      some (.expert "model.block_sparse_moe.ws" "layers.11.block_sparse_moe.experts.1.w3.weight"
        1 11) ∧
    (loadWrites 12 8 ⟨1, 2, 2⟩ ((moeTensors 12 8).reverse.map MoeTensor.name)).Perm
      (wsEntries 12 8 ⟨1, 2, 2⟩) := by
  have hname : (MoeTensor.expert .w3 11 1).name =
      "model.layers.11.block_sparse_moe.experts.1.w3.weight" := by decide
  have hweight : mixtralName .w3 11 1 = "layers.11.block_sparse_moe.experts.1.w3.weight" := by
    decide
  let weights : MoeWeights ℕ := ⟨fun _ _ i _ => i, fun _ _ i _ => i, fun _ _ i _ => i⟩
  let gates : ℕ → Matrix2 ℕ := fun _ => ⟨8, 1, fun _ _ => 1⟩
  have ⟨hnames, hwrites, _⟩ := loadWeights_exact (s := ⟨1, 2, 2⟩) weights gates Nat.one_lt_two
    ⟨fun _ _ _ => 0, gates⟩ (moeTensors 12 8).reverse_perm
  have hcall := (hnames (.expert .w3 11 1) ⟨by decide, by decide⟩).1
  rw [hname, MoeTensor.call_expert, hweight] at hcall
  exact ⟨hcall, hwrites⟩

end Load

end HarvestMoE
