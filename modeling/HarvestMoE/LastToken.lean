import HarvestMoE.KvPool
import HarvestMoE.Lib.Rows

/-!
# The row a request is sampled from

The prompts of a micro-batch are laid one behind the other. Where each starts and which
position its tokens have are computed in one place, and the rows to sample from in
another, as the places where the prompts end less one. For a prompt without tokens that
is the row before it: the last token of an earlier prompt or, at the front, of the
whole micro-batch.

## Main definitions

* `PrefillNet` — the model, token by token but for attention.
* `PrefillBatch.prepare` — the tensors of a micro-batch.
* `contextAttentionFwd`, `prefillHidden` — prefill on all rows.
* `lastHidden` — the rows the logits processor selects.
* `PrefillNet.alone` — a prompt on its own.
* `SampledFromOwn` — every request gets the row of its last token.
-/

namespace HarvestMoE

open Lib

/-- A layer: keys and values of a token at its position, attention over those up to it,
and what is computed of the result. The memory of the attention output is not cleared. -/
structure PrefillLayer (H V A : Type*) where
  kv : H → ℕ → V
  attend : H → ℕ → List V → A
  post : H → A → H
  emptyLike : ℕ → A

structure PrefillNet (τ H V A : Type*) where
  embedTokens : τ → H
  layers : List (PrefillLayer H V A)
  norm : H → H

/-- A request, as far as prefill uses it. -/
structure PromptReq (τ : Type*) where
  inputIds : List τ
  returnLogprob : Bool
  deriving DecidableEq, Repr

/-- `torch.cumsum` -/
def cumsum : List ℕ → List ℕ
  | [] => []
  | x :: xs => x :: (cumsum xs).map (x + ·)

/-- The tensors of a micro-batch in prefill. -/
structure PrefillBatch (τ : Type*) where
  inputIds : List τ
  seqLens : List ℕ
  startLocGpu : List ℕ
  positions : List ℕ
  returnLogprob : Bool

section Model

variable {τ H V A : Type*}

/-- `Batch.init_new` and `prepare_for_prefill`. -/
def PrefillBatch.prepare (reqs : List (PromptReq τ)) : PrefillBatch τ :=
  let seqLens := reqs.map fun r => r.inputIds.length
  { inputIds := reqs.flatMap PromptReq.inputIds
    seqLens := seqLens
    startLocGpu := if reqs.isEmpty then [] else 0 :: cumsum seqLens.dropLast
    positions := seqLens.flatMap List.range
    returnLogprob := reqs.any PromptReq.returnLogprob }

variable (b : PrefillBatch τ)

/-- The programs of `context_attention_fwd`: each sequence has its rows written, from the
keys and values of the rows before. -/
def contextAttentionFwd (layer : PrefillLayer H V A) (h : ℕ → H) : List (ℕ × A) :=
  let position := fun p => b.positions.getD p 0
  (b.startLocGpu.zip b.seqLens).flatMap fun (start, len) =>
    (List.range len).map fun m =>
      (start + m, layer.attend (h (start + m)) (position (start + m))
        ((List.range (m + 1)).map fun n => layer.kv (h (start + n)) (position (start + n))))

/-- A layer on all rows. -/
def PrefillLayer.forward (layer : PrefillLayer H V A) (h : ℕ → H) : ℕ → H :=
  let o := applyStores layer.emptyLike (contextAttentionFwd b layer h)
  fun p => layer.post (h p) (o p)

/-- The hidden states before the logits. There is no row behind the last token. -/
def prefillHidden [Inhabited τ] (net : PrefillNet τ H V A) : ℕ → H := fun p =>
  net.norm (net.layers.foldl (fun h layer => layer.forward b h)
    (fun p => net.embedTokens (b.inputIds.getD p default)) p)

/-- The branch of `LogitsProcessor.forward` for prefill: the rows it selects, none where
it raises. With log-probabilities it reads a field that the metadata does not have. -/
def lastHidden (hiddenStates : ℕ → H) : Option (List H) :=
  if b.returnLogprob then none
  else
    let lastIndex := (cumsum b.seqLens).map fun c : ℕ => (c : ℤ) - 1
    (lastIndex.mapM (wrapIndex b.inputIds.length)).map fun rows => rows.map hiddenStates

/-- A layer on the hidden states of one prompt. -/
def PrefillLayer.alone (layer : PrefillLayer H V A) (hs : List H) : List H :=
  hs.mapIdx fun m h =>
    layer.post h (layer.attend h m ((hs.take (m + 1)).mapIdx fun n h' => layer.kv h' n))

/-- The hidden states of a prompt on its own. -/
def PrefillNet.alone (net : PrefillNet τ H V A) (ids : List τ) : List H :=
  (net.layers.foldl (fun hs layer => layer.alone hs) (ids.map net.embedTokens)).map net.norm

/-- Prefill selects for every request the row of its last token, as its prompt gives it on
its own. -/
def SampledFromOwn [Inhabited τ] (net : PrefillNet τ H V A) (reqs : List (PromptReq τ)) : Prop :=
  let b := PrefillBatch.prepare reqs
  ∃ rows, lastHidden b (prefillHidden b net) = some rows ∧
    ∀ (i : ℕ) (r : PromptReq τ), reqs[i]? = some r →
      ∃ h, (net.alone r.inputIds).getLast? = some h ∧ rows[i]? = some h

end Model

section Offsets

theorem length_cumsum (ls : List ℕ) : (cumsum ls).length = ls.length := by
  induction ls with
  | nil => rfl
  | cons x xs ih => simp [cumsum, ih]

theorem getElem?_cumsum {ls : List ℕ} {i : ℕ} (hi : i < ls.length) :
    (cumsum ls)[i]? = some (ls.take (i + 1)).sum := by
  induction ls generalizing i with
  | nil => simp at hi
  | cons x xs ih =>
      cases i with
      | zero => simp [cumsum]
      | succ i => simp [cumsum, ih (Nat.lt_of_succ_lt_succ hi)]

/-- A place in the part of one element. -/
theorem getElem?_flatMap {α β : Type*} (f : α → List β) {l : List α} {i : ℕ} {a : α}
    (ha : l[i]? = some a) {m : ℕ} (hm : m < (f a).length) :
    (l.flatMap f)[((l.take i).flatMap f).length + m]? = (f a)[m]? := by
  obtain ⟨hi, rfl⟩ := List.getElem?_eq_some_iff.mp ha
  have hsplit : l.flatMap f =
      (l.take i).flatMap f ++ (f l[i] ++ (l.drop (i + 1)).flatMap f) := by
    conv_lhs => rw [← List.take_append_drop i l, List.drop_eq_getElem_cons hi]
    rw [List.flatMap_append, List.flatMap_cons]
  rw [hsplit, List.getElem?_append_right (Nat.le_add_right _ m), Nat.add_sub_cancel_left,
    List.getElem?_append_left hm]

/-- The place where the part of an element starts. -/
def promptStart {τ : Type*} (reqs : List (PromptReq τ)) (i : ℕ) : ℕ :=
  ((reqs.take i).flatMap PromptReq.inputIds).length

variable {τ : Type*} {reqs : List (PromptReq τ)} {i j m n : ℕ} {r q : PromptReq τ}

theorem promptStart_succ (hr : reqs[i]? = some r) :
    promptStart reqs (i + 1) = promptStart reqs i + r.inputIds.length := by
  rw [promptStart, promptStart, List.take_add_one, hr, List.flatMap_append, List.length_append]
  simp

theorem promptStart_mono (reqs : List (PromptReq τ)) (hij : i ≤ j) :
    promptStart reqs i ≤ promptStart reqs j := by
  rw [promptStart, promptStart, ← List.take_append_drop i (reqs.take j), List.take_take,
    Nat.min_eq_left hij, List.flatMap_append, List.length_append]
  exact Nat.le_add_right _ _

theorem promptStart_le_length : promptStart reqs i ≤ (reqs.flatMap PromptReq.inputIds).length := by
  rw [promptStart]
  conv_rhs => rw [← List.take_append_drop i reqs]
  rw [List.flatMap_append, List.length_append]
  exact Nat.le_add_right _ _

/-- A row belongs to one prompt. -/
theorem promptStart_inj (hr : reqs[i]? = some r) (hq : reqs[j]? = some q)
    (hm : m < r.inputIds.length) (hn : n < q.inputIds.length)
    (h : promptStart reqs i + m = promptStart reqs j + n) : i = j := by
  have hi := promptStart_succ hr
  have hj := promptStart_succ hq
  rcases Nat.lt_trichotomy i j with hlt | heq | hgt
  · have hmono : promptStart reqs (i + 1) ≤ promptStart reqs j := promptStart_mono reqs hlt
    omega
  · exact heq
  · have hmono : promptStart reqs (j + 1) ≤ promptStart reqs i := promptStart_mono reqs hgt
    omega

/-- Cumulative sums of the lengths are where the prompts end. -/
theorem getElem?_cumsum_lengths (hr : reqs[i]? = some r) :
    (cumsum (reqs.map fun r => r.inputIds.length))[i]? = some (promptStart reqs (i + 1)) := by
  have hi := (List.getElem?_eq_some_iff.mp hr).1
  rw [getElem?_cumsum (by simpa using hi), promptStart, List.length_flatMap, List.map_take]

theorem getElem?_startLocGpu (hr : reqs[i]? = some r) :
    (PrefillBatch.prepare reqs).startLocGpu[i]? = some (promptStart reqs i) := by
  have hi := (List.getElem?_eq_some_iff.mp hr).1
  have hne : reqs.isEmpty = false := by
    cases reqs with
    | nil => simp at hi
    | cons _ _ => rfl
  simp only [PrefillBatch.prepare, hne, Bool.false_eq_true, if_false]
  cases i with
  | zero => simp [promptStart]
  | succ i =>
      -- The last length is left out, but the sums before it are the same.
      have htake : (reqs.map fun r => r.inputIds.length).dropLast.take (i + 1) =
          (reqs.map fun r => r.inputIds.length).take (i + 1) := by
        rw [List.dropLast_eq_take, List.take_take, List.length_map]
        congr 1
        omega
      rw [List.getElem?_cons_succ, getElem?_cumsum (by simp; omega), htake, promptStart,
        List.length_flatMap, List.map_take]

theorem getElem?_positions (hr : reqs[i]? = some r) (hm : m < r.inputIds.length) :
    (PrefillBatch.prepare reqs).positions[promptStart reqs i + m]? = some m := by
  have hpositions : (PrefillBatch.prepare reqs).positions =
      reqs.flatMap fun r => List.range r.inputIds.length := List.flatMap_map ..
  have hstart : promptStart reqs i =
      ((reqs.take i).flatMap fun r => List.range r.inputIds.length).length := by
    simp only [promptStart, List.length_flatMap, List.length_range]
  have hm' : m < (List.range r.inputIds.length).length := by simpa using hm
  rw [hpositions, hstart, getElem?_flatMap _ hr hm', List.getElem?_range hm]

theorem getElem?_inputIds (hr : reqs[i]? = some r) (hm : m < r.inputIds.length) :
    (PrefillBatch.prepare reqs).inputIds[promptStart reqs i + m]? = some r.inputIds[m] := by
  rw [← List.getElem?_eq_getElem hm]
  exact getElem?_flatMap _ hr hm

end Offsets

section Rows

variable {τ H V A : Type*} {reqs : List (PromptReq τ)} {i m : ℕ} {r : PromptReq τ}

/-- The rows of every prompt are what some hidden states of its own are. -/
def RowsAre (reqs : List (PromptReq τ)) (h : ℕ → H) (own : PromptReq τ → List H) : Prop :=
  ∀ i r, reqs[i]? = some r → (own r).length = r.inputIds.length ∧
    ∀ m < r.inputIds.length, (own r)[m]? = some (h (promptStart reqs i + m))

theorem PrefillLayer.length_alone (layer : PrefillLayer H V A) (hs : List H) :
    (layer.alone hs).length = hs.length := List.length_mapIdx

/-- What attention writes to a row, from the rows of the prompt up to it. -/
def ownAttention (layer : PrefillLayer H V A) (hs : List H) (m : ℕ) (h : H) : A :=
  layer.attend h m ((hs.take (m + 1)).mapIdx fun n h' => layer.kv h' n)

/-- The programs of a sequence read the rows of its own prompt. -/
theorem attend_row {layer : PrefillLayer H V A} {h : ℕ → H} {own : PromptReq τ → List H}
    (hown : RowsAre reqs h own) (hr : reqs[i]? = some r) (hm : m < r.inputIds.length) :
    let position := fun p => (PrefillBatch.prepare reqs).positions.getD p 0
    layer.attend (h (promptStart reqs i + m)) (position (promptStart reqs i + m))
        ((List.range (m + 1)).map fun n =>
          layer.kv (h (promptStart reqs i + n)) (position (promptStart reqs i + n))) =
      ownAttention layer (own r) m (h (promptStart reqs i + m)) := by
  intro position
  have hposition : ∀ n < r.inputIds.length, position (promptStart reqs i + n) = n := by
    intro n hn
    simp only [position, List.getD_eq_getElem?_getD, getElem?_positions hr hn, Option.getD_some]
  have hkeys : ((List.range (m + 1)).map fun n =>
      layer.kv (h (promptStart reqs i + n)) (position (promptStart reqs i + n))) =
      ((own r).take (m + 1)).mapIdx fun n h' => layer.kv h' n := by
    refine List.ext_getElem? fun n => ?_
    rw [List.getElem?_map, List.getElem?_mapIdx]
    by_cases hn : n < m + 1
    · rw [List.getElem?_range hn, List.getElem?_take_of_lt hn, (hown i r hr).2 n (by omega),
        Option.map_some, Option.map_some, hposition n (by omega)]
    · rw [List.getElem?_eq_none (by simpa using hn), List.getElem?_eq_none (by simp; omega)]
      rfl
  rw [hkeys, hposition m hm, ownAttention]

/-- **Every row of the attention output is written for its own prompt.** -/
theorem attention_row {layer : PrefillLayer H V A} {h : ℕ → H} {own : PromptReq τ → List H}
    (hown : RowsAre reqs h own) (hr : reqs[i]? = some r) (hm : m < r.inputIds.length) :
    applyStores layer.emptyLike (contextAttentionFwd (PrefillBatch.prepare reqs) layer h)
        (promptStart reqs i + m) =
      ownAttention layer (own r) m (h (promptStart reqs i + m)) := by
  have hlens : ∀ {j : ℕ} {q : PromptReq τ}, reqs[j]? = some q →
      (PrefillBatch.prepare reqs).seqLens[j]? = some q.inputIds.length := by
    intro j q hq
    simp only [PrefillBatch.prepare, List.getElem?_map, hq, Option.map_some]
  refine applyStores_eq (fun st hst hrow => ?_) (Or.inr ?_)
  · rcases List.mem_flatMap.mp hst with ⟨⟨start, len⟩, hzip, hst⟩
    rcases List.mem_map.mp hst with ⟨n, hn, rfl⟩
    rcases List.mem_iff_getElem?.mp hzip with ⟨j, hj⟩
    rcases List.getElem?_zip_eq_some.mp hj with ⟨hstart, hlen⟩
    -- The sequence is that of a prompt, and a row belongs to one prompt only.
    cases hq : reqs[j]? with
    | none => simp [PrefillBatch.prepare, hq] at hlen
    | some q =>
        obtain rfl : q.inputIds.length = len := Option.some.inj ((hlens hq).symm.trans hlen)
        obtain rfl : promptStart reqs j = start :=
          Option.some.inj ((getElem?_startLocGpu hq).symm.trans hstart)
        have hn := List.mem_range.mp hn
        obtain rfl := promptStart_inj hq hr hn hm hrow
        obtain rfl : q = r := Option.some.inj (hq.symm.trans hr)
        obtain rfl : n = m := Nat.add_left_cancel hrow
        exact attend_row hown hr hm
  · refine ⟨_, List.mem_flatMap.mpr ⟨(promptStart reqs i, r.inputIds.length), ?_,
      List.mem_map.mpr ⟨m, List.mem_range.mpr hm, rfl⟩⟩, rfl⟩
    exact List.mem_of_getElem? (List.getElem?_zip_eq_some.mpr ⟨getElem?_startLocGpu hr, hlens hr⟩)

/-- A layer on all rows is the layer on each prompt. -/
theorem RowsAre.forward {layer : PrefillLayer H V A} {h : ℕ → H} {own : PromptReq τ → List H}
    (hown : RowsAre reqs h own) :
    RowsAre reqs (layer.forward (PrefillBatch.prepare reqs) h) fun r => layer.alone (own r) := by
  intro i r hr
  rcases hown i r hr with ⟨hlen, hrow⟩
  refine ⟨(layer.length_alone _).trans hlen, fun m hm => ?_⟩
  simp only [PrefillLayer.alone, PrefillLayer.forward, List.getElem?_mapIdx, hrow m hm,
    Option.map_some, attention_row hown hr hm]
  rfl

theorem RowsAre.foldl {layers : List (PrefillLayer H V A)} {h : ℕ → H}
    {own : PromptReq τ → List H} (hown : RowsAre reqs h own) :
    RowsAre reqs (layers.foldl (fun h layer => layer.forward (PrefillBatch.prepare reqs) h) h)
      fun r => layers.foldl (fun hs layer => layer.alone hs) (own r) := by
  induction layers generalizing h own with
  | nil => exact hown
  | cons layer layers ih => exact ih hown.forward

theorem RowsAre.map {h : ℕ → H} {own : PromptReq τ → List H} (hown : RowsAre reqs h own)
    (norm : H → H) : RowsAre reqs (fun p => norm (h p)) fun r => (own r).map norm := by
  intro i r hr
  rcases hown i r hr with ⟨hlen, hrow⟩
  refine ⟨by rw [List.length_map, hlen], fun m hm => ?_⟩
  rw [List.getElem?_map, hrow m hm, Option.map_some]

variable [Inhabited τ] {net : PrefillNet τ H V A}

/-- **Prefill is prefill of every prompt on its own.** -/
theorem rowsAre_prefillHidden (net : PrefillNet τ H V A) (reqs : List (PromptReq τ)) :
    RowsAre reqs (prefillHidden (PrefillBatch.prepare reqs) net) fun r => net.alone r.inputIds := by
  have hembed : RowsAre reqs
      (fun p => net.embedTokens ((PrefillBatch.prepare reqs).inputIds.getD p default))
      fun r => r.inputIds.map net.embedTokens := by
    intro i r hr
    refine ⟨List.length_map _, fun m hm => ?_⟩
    have hid : (PrefillBatch.prepare reqs).inputIds.getD (promptStart reqs i + m) default =
        r.inputIds[m] := by
      rw [List.getD_eq_getElem?_getD, getElem?_inputIds hr hm, Option.getD_some]
    simp only [List.getElem?_map, List.getElem?_eq_getElem hm, Option.map_some, hid]
  exact hembed.foldl.map net.norm

theorem PrefillNet.length_alone (net : PrefillNet τ H V A) (r : PromptReq τ) :
    (net.alone r.inputIds).length = r.inputIds.length :=
  (rowsAre_prefillHidden net [r] 0 r rfl).1

/-- The last row of a prompt on its own is the row before the next prompt. -/
theorem getLast?_alone (hr : reqs[i]? = some r) (hne : r.inputIds ≠ []) :
    (net.alone r.inputIds).getLast? =
      some (prefillHidden (PrefillBatch.prepare reqs) net (promptStart reqs (i + 1) - 1)) := by
  have hpos : 0 < r.inputIds.length := List.length_pos_of_ne_nil hne
  have hrow := (rowsAre_prefillHidden net reqs i r hr).2 (r.inputIds.length - 1) (by omega)
  rw [List.getLast?_eq_getElem?, net.length_alone, hrow, promptStart_succ hr]
  congr 2
  omega

end Rows

section Selection

variable {τ H V A : Type*} {reqs : List (PromptReq τ)} {i : ℕ} {r : PromptReq τ}

/-- The row that is read for a request: the one before the place where its prompt ends, and
at the place 0 the last one. -/
def selectedRow (reqs : List (PromptReq τ)) (i : ℕ) : ℕ :=
  if promptStart reqs (i + 1) = 0 then (reqs.flatMap PromptReq.inputIds).length - 1
  else promptStart reqs (i + 1) - 1

/-- The rows prefill selects, when no request asks for log-probabilities and there is a
token at all. -/
theorem lastHidden_eq (hidden : ℕ → H) (hlog : ∀ r ∈ reqs, r.returnLogprob = false)
    (hne : reqs.flatMap PromptReq.inputIds ≠ []) :
    lastHidden (PrefillBatch.prepare reqs) hidden =
      some ((List.range reqs.length).map fun i => hidden (selectedRow reqs i)) := by
  have hany : (PrefillBatch.prepare reqs).returnLogprob = false := by
    simpa [PrefillBatch.prepare] using hlog
  have hpos : 0 < (reqs.flatMap PromptReq.inputIds).length := List.length_pos_of_ne_nil hne
  have hends : cumsum (PrefillBatch.prepare reqs).seqLens =
      (List.range reqs.length).map fun i => promptStart reqs (i + 1) := by
    refine List.ext_getElem? fun i => ?_
    rw [List.getElem?_map]
    by_cases hi : i < reqs.length
    · rw [List.getElem?_range hi, Option.map_some]
      exact getElem?_cumsum_lengths (List.getElem?_eq_getElem hi)
    · rw [List.getElem?_eq_none (by simpa [length_cumsum, PrefillBatch.prepare] using hi),
        List.getElem?_eq_none (by simpa using hi), Option.map_none]
  have hwrap : ∀ i, wrapIndex (reqs.flatMap PromptReq.inputIds).length
      ((promptStart reqs (i + 1) : ℤ) - 1) = some (selectedRow reqs i) := by
    intro i
    have hle : promptStart reqs (i + 1) ≤ (reqs.flatMap PromptReq.inputIds).length :=
      promptStart_le_length
    simp only [selectedRow, wrapIndex]
    split_ifs <;> first | omega | (congr 1; omega)
  have hrows : (((List.range reqs.length).map fun i => promptStart reqs (i + 1)).map
      fun c : ℕ => (c : ℤ) - 1).mapM (wrapIndex (reqs.flatMap PromptReq.inputIds).length) =
      some ((List.range reqs.length).map (selectedRow reqs)) := by
    rw [List.map_map, List.mapM_map]
    exact mapM_eq_some fun i _ => hwrap i
  simp only [lastHidden, hany, Bool.false_eq_true, if_false, hends]
  rw [show (PrefillBatch.prepare reqs).inputIds = reqs.flatMap PromptReq.inputIds from rfl, hrows,
    Option.map_some, List.map_map]
  rfl

/-- A prompt without tokens is given the row of the prompt before it. -/
theorem selectedRow_succ_of_nil (hr : reqs[i + 1]? = some r) (hnil : r.inputIds = []) :
    selectedRow reqs (i + 1) = selectedRow reqs i := by
  have hend : promptStart reqs (i + 2) = promptStart reqs (i + 1) := by
    rw [promptStart_succ hr, hnil, List.length_nil, Nat.add_zero]
  rw [selectedRow, selectedRow, hend]

variable [Inhabited τ] {net : PrefillNet τ H V A}

theorem prefillHidden_selectedRow (hr : reqs[i]? = some r) (hne : r.inputIds ≠ []) :
    (net.alone r.inputIds).getLast? =
      some (prefillHidden (PrefillBatch.prepare reqs) net (selectedRow reqs i)) := by
  have hpos : 0 < r.inputIds.length := List.length_pos_of_ne_nil hne
  have hend := promptStart_succ hr
  rw [getLast?_alone hr hne, selectedRow, if_neg (by omega)]

/-- Prefill selects for every request the row of its last token exactly when every prompt
has one, and nothing is asked that the metadata cannot answer. -/
theorem sampledFromOwn_iff (net : PrefillNet τ H V A) (reqs : List (PromptReq τ)) :
    SampledFromOwn net reqs ↔ ∀ r ∈ reqs, r.returnLogprob = false ∧ r.inputIds ≠ [] := by
  constructor
  · intro h r hmem
    rcases h with ⟨rows, hrows, hown⟩
    rcases List.getElem?_of_mem hmem with ⟨i, hr⟩
    constructor
    · by_contra hlog
      have hany : (PrefillBatch.prepare reqs).returnLogprob = true :=
        List.any_eq_true.mpr ⟨r, hmem, by simpa using hlog⟩
      simp [lastHidden, hany] at hrows
    · intro hnil
      rcases hown i r hr with ⟨h, hlast, -⟩
      have hlen := net.length_alone r
      rw [hnil, List.length_nil, List.length_eq_zero_iff] at hlen
      simp [hnil, hlen] at hlast
  · intro h
    cases reqs with
    | nil => exact ⟨[], rfl, by simp⟩
    | cons r₀ reqs =>
        have hne : (r₀ :: reqs).flatMap PromptReq.inputIds ≠ [] := by
          have h₀ := (h r₀ (by simp)).2
          simp [h₀]
        refine ⟨_, lastHidden_eq _ (fun r hr => (h r hr).1) hne, fun i r hr => ?_⟩
        have hi := (List.getElem?_eq_some_iff.mp hr).1
        refine ⟨_, prefillHidden_selectedRow hr (h r (List.mem_of_getElem? hr)).2, ?_⟩
        rw [List.getElem?_map, List.getElem?_range hi, Option.map_some]

/-- A net that is its embedding. -/
def embeddingNet : PrefillNet ℕ ℕ ℕ ℕ where
  embedTokens := id
  layers := []
  norm := id

/-- Behind the prompt of another request, a prompt without tokens is given that one's row. -/
theorem sampledFromOwn_emptyPrompt :
    ¬ ∀ reqs : List (PromptReq ℕ), SampledFromOwn embeddingNet reqs := by
  intro h
  rcases h [⟨[5], false⟩, ⟨[], false⟩] with ⟨rows, -, hown⟩
  rcases hown 1 ⟨[], false⟩ rfl with ⟨h, hlast, -⟩
  cases hlast

example (t : ℕ) : lastHidden (PrefillBatch.prepare [⟨[t], false⟩, ⟨[], false⟩])
    (prefillHidden (PrefillBatch.prepare [⟨[t], false⟩, ⟨[], false⟩]) embeddingNet) =
    some [t, t] := rfl

/-- Where all is well, the other prompts of a micro-batch do not matter. -/
theorem SampledFromOwn.independent {reqs' : List (PromptReq τ)} {j : ℕ}
    (h : SampledFromOwn net reqs) (h' : SampledFromOwn net reqs') (hr : reqs[i]? = some r)
    (hr' : reqs'[j]? = some r) :
    ∃ rows rows', lastHidden (PrefillBatch.prepare reqs) (prefillHidden (PrefillBatch.prepare reqs) net) =
        some rows ∧
      lastHidden (PrefillBatch.prepare reqs') (prefillHidden (PrefillBatch.prepare reqs') net) =
        some rows' ∧ rows[i]? = rows'[j]? := by
  rcases h with ⟨rows, hrows, hown⟩
  rcases h' with ⟨rows', hrows', hown'⟩
  refine ⟨rows, rows', hrows, hrows', ?_⟩
  rcases hown i r hr with ⟨a, ha, hi⟩
  rcases hown' j r hr' with ⟨a', ha', hj⟩
  rw [hi, hj, ← ha, ← ha']

end Selection

end HarvestMoE
