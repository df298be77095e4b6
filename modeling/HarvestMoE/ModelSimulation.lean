import HarvestMoE.Generation

/-!
# Models that generate the same tokens

One model may compute on other data than another: on parts of the rows, or with the keys and
values of several ranks. As long as each function of the one does to its data what the
function of the other does to the data they stand for, and the logits are the same, both
generate the same tokens (`Simulates.generated_eq`).

## Main definitions

* `CausalLM.Simulates` — what the functions of a layer and the others have to preserve.
-/

namespace HarvestMoE

/-- Lists of related elements end in related elements. -/
theorem forall₂_getLast? {α β : Type*} {R : α → β → Prop} {xs : List α} {ys : List β}
    (h : List.Forall₂ R xs ys) : Option.Rel R xs.getLast? ys.getLast? := by
  rw [List.getLast?_eq_head?_reverse, List.getLast?_eq_head?_reverse]
  have hreverse := List.forall₂_reverse_iff.mpr h
  revert hreverse
  generalize xs.reverse = xs'
  generalize ys.reverse = ys'
  intro hreverse
  cases hreverse with
  | nil => exact .none
  | cons hxy _ => exact .some hxy

namespace CausalLM

variable {D Q V A D' Q' V' A' L : Type*}

/-- The functions of a layer preserve what the data stand for. -/
structure LayerSimulates (rowRel : D → D' → Prop) (queryRel : Q → Q' → Prop)
    (kvRel : V → V' → Prop) (attnRel : A → A' → Prop) (layer : DecoderLayer D Q V A)
    (layer' : DecoderLayer D' Q' V' A') : Prop where
  inputLayernorm : ∀ {x x'}, rowRel x x' →
    rowRel (layer.inputLayernorm x) (layer'.inputLayernorm x')
  query : ∀ {x x'} position, rowRel x x' →
    queryRel (layer.qkvProj x position).1 (layer'.qkvProj x' position).1
  keyValue : ∀ {x x'} position, rowRel x x' →
    kvRel (layer.qkvProj x position).2 (layer'.qkvProj x' position).2
  attn : ∀ {q q' kvs kvs'}, queryRel q q' → List.Forall₂ kvRel kvs kvs' →
    attnRel (layer.attn q kvs) (layer'.attn q' kvs')
  oProj : ∀ {y y'}, attnRel y y' → rowRel (layer.oProj y) (layer'.oProj y')
  postAttentionLayernorm : ∀ {x x'}, rowRel x x' →
    rowRel (layer.postAttentionLayernorm x) (layer'.postAttentionLayernorm x')
  blockSparseMoe : ∀ {x x'}, rowRel x x' →
    rowRel (layer.blockSparseMoe x) (layer'.blockSparseMoe x')

/-- The functions of a model do, and its logits and samples are those of the other. -/
structure Simulates (rowRel : D → D' → Prop) (queryRel : Q → Q' → Prop) (kvRel : V → V' → Prop)
    (attnRel : A → A' → Prop) (m : CausalLM D Q V A L) (m' : CausalLM D' Q' V' A' L) : Prop where
  numHiddenLayers : m.numHiddenLayers = m'.numHiddenLayers
  embedTokens : ∀ id, rowRel (m.embedTokens id) (m'.embedTokens id)
  add : ∀ {x x' y y'}, rowRel x x' → rowRel y y' → rowRel (m.add x y) (m'.add x' y')
  layers : ∀ i < m.numHiddenLayers,
    LayerSimulates rowRel queryRel kvRel attnRel (m.layers i) (m'.layers i)
  norm : ∀ {x x'}, rowRel x x' → rowRel (m.norm x) (m'.norm x')
  lmHead : ∀ {x x'}, rowRel x x' → m.lmHead x = m'.lmHead x'
  sample : m.sample = m'.sample

/-- A row with its residual stands for another. -/
def StateRel (rowRel : D → D' → Prop) (x : D × Option D) (x' : D' × Option D') : Prop :=
  rowRel x.1 x'.1 ∧ Option.Rel rowRel x.2 x'.2

namespace Simulates

variable {rowRel : D → D' → Prop} {queryRel : Q → Q' → Prop} {kvRel : V → V' → Prop}
  {attnRel : A → A' → Prop} {m : CausalLM D Q V A L} {m' : CausalLM D' Q' V' A' L}

theorem normResidual (h : Simulates rowRel queryRel kvRel attnRel m m') {norm : D → D}
    {norm' : D' → D'} (hnorm : ∀ {x x'}, rowRel x x' → rowRel (norm x) (norm' x'))
    {x : D × Option D} {x' : D' × Option D'} (hx : StateRel rowRel x x') :
    rowRel (m.normResidual norm x.1 x.2).1 (m'.normResidual norm' x'.1 x'.2).1 ∧
      rowRel (m.normResidual norm x.1 x.2).2 (m'.normResidual norm' x'.1 x'.2).2 := by
  rcases x with ⟨hidden, residual⟩
  rcases x' with ⟨hidden', residual'⟩
  obtain ⟨hhidden, hresidual⟩ := hx
  cases hresidual with
  | none => exact ⟨hnorm hhidden, hhidden⟩
  | some hr => exact ⟨hnorm (h.add hhidden hr), h.add hhidden hr⟩

theorem preAttn (h : Simulates rowRel queryRel kvRel attnRel m m') {i : ℕ}
    (hi : i < m.numHiddenLayers) {x : D × Option D} {x' : D' × Option D'}
    (hx : StateRel rowRel x x') (position : ℕ) :
    queryRel (m.preAttn i x position).1.1 (m'.preAttn i x' position).1.1 ∧
      kvRel (m.preAttn i x position).1.2 (m'.preAttn i x' position).1.2 := by
  have hnormed := (h.normResidual (h.layers i hi).inputLayernorm hx).1
  exact ⟨(h.layers i hi).query position hnormed, (h.layers i hi).keyValue position hnormed⟩

theorem post (h : Simulates rowRel queryRel kvRel attnRel m m') {i : ℕ}
    (hi : i < m.numHiddenLayers) {x : D × Option D} {x' : D' × Option D'}
    (hx : StateRel rowRel x x') {y : A} {y' : A'} (hy : attnRel y y') :
    StateRel rowRel ((m.prefillLayer i).post x y) ((m'.prefillLayer i).post x' y') := by
  have hresidual := (h.normResidual (h.layers i hi).inputLayernorm hx).2
  have hprojected : StateRel rowRel
      ((m.layers i).oProj y,
        some (m.normResidual (m.layers i).inputLayernorm x.1 x.2).2)
      ((m'.layers i).oProj y',
        some (m'.normResidual (m'.layers i).inputLayernorm x'.1 x'.2).2) :=
    ⟨(h.layers i hi).oProj hy, .some hresidual⟩
  have hnormed := h.normResidual (h.layers i hi).postAttentionLayernorm hprojected
  exact ⟨(h.layers i hi).blockSparseMoe hnormed.1, .some hnormed.2⟩

/-- A layer on a sequence: the keys and values of the rows stand for each other, so does what
a row attends to, and what is computed of it. -/
theorem alone (h : Simulates rowRel queryRel kvRel attnRel m m') {i : ℕ}
    (hi : i < m.numHiddenLayers) {hs : List (D × Option D)} {hs' : List (D' × Option D')}
    (hrows : List.Forall₂ (StateRel rowRel) hs hs') :
    List.Forall₂ (StateRel rowRel) ((m.prefillLayer i).alone hs)
      ((m'.prefillLayer i).alone hs') := by
  have hlength := hrows.length_eq
  have hrow : ∀ n (hn : n < hs.length) (hn' : n < hs'.length), StateRel rowRel hs[n] hs'[n] :=
    fun n hn hn' => (List.forall₂_iff_get.mp hrows).2 n hn hn'
  refine List.forall₂_iff_get.mpr ⟨?_, fun n hn hn' => ?_⟩
  · simp only [PrefillLayer.alone, List.length_mapIdx, hlength]
  · simp only [PrefillLayer.alone, List.length_mapIdx] at hn hn'
    simp only [PrefillLayer.alone, List.get_eq_getElem, List.getElem_mapIdx]
    refine h.post hi (hrow n hn hn') ((h.layers i hi).attn (h.preAttn hi (hrow n hn hn') n).1 ?_)
    refine List.forall₂_iff_get.mpr ⟨?_, fun u hu hu' => ?_⟩
    · simp only [List.length_mapIdx, List.length_take, hlength]
    · simp only [List.length_mapIdx, List.length_take] at hu hu'
      simp only [List.get_eq_getElem, List.getElem_mapIdx, List.getElem_take]
      exact (h.preAttn hi (hrow u (by omega) (by omega)) u).2

/-- The hidden states of a sequence stand for each other at every layer. -/
theorem stage (h : Simulates rowRel queryRel kvRel attnRel m m') (ids : List ℕ) :
    ∀ i ≤ m.numHiddenLayers, List.Forall₂ (StateRel rowRel) (m.stage i ids) (m'.stage i ids) := by
  intro i
  induction i with
  | zero =>
      intro _
      rw [CausalLM.stage, CausalLM.stage]
      simp only [List.range_zero, List.map_nil, List.foldl_nil]
      rw [List.forall₂_map_left_iff, List.forall₂_map_right_iff]
      exact List.forall₂_same.mpr fun id _ => ⟨h.embedTokens id, .none⟩
  | succ i ih =>
      intro hi
      rw [stage_succ, stage_succ]
      exact h.alone hi (ih (Nat.le_of_succ_le hi))

theorem logitsOf_eq [Inhabited L] (h : Simulates rowRel queryRel kvRel attnRel m m')
    (ids : List ℕ) : m.logitsOf ids = m'.logitsOf ids := by
  have hrows := h.stage ids m.numHiddenLayers le_rfl
  rw [logitsOf, logitsOf, m.alone_eq_stage, m'.alone_eq_stage, ← h.numHiddenLayers,
    List.getLast?_map, List.getLast?_map, Option.map_map, Option.map_map]
  have hlast := forall₂_getLast? hrows
  revert hlast
  generalize (m.stage m.numHiddenLayers ids).getLast? = x
  generalize (m'.stage m.numHiddenLayers ids).getLast? = x'
  intro hlast
  cases hlast with
  | none => rfl
  | some hx => exact h.lmHead (h.normResidual h.norm hx).1

/-- **Both models generate the same tokens.** -/
theorem generated_eq [Inhabited L] (h : Simulates rowRel queryRel kvRel attnRel m m') (k : ℕ)
    (prompts : List (List ℕ)) (d : ℕ) : m.generated k prompts d = m'.generated k prompts d := by
  have hlogits : m.logitsOf = m'.logitsOf := funext h.logitsOf_eq
  induction d with
  | zero => rfl
  | succ d ih => rw [generated, generated, ih, hlogits, h.sample]

end Simulates

end CausalLM

end HarvestMoE
