import HarvestMoE.Lib.Loops
import HarvestMoE.Lib.Rows
import HarvestMoE.Lib.Run
import Mathlib.Tactic.Ring

/-!
# The page of an expert

The weights of an expert are one flat page: the rows of `w1`, those of `w3`, and behind
them those of `w2`, each for the share of the rank. The loader of Mixtral and Phi gets one
matrix of one expert at a time; that of DBRX gets one matrix of all experts, and `w2`
transposed. Whatever order the matrices come in, both leave the same page.

## Main definitions

* `ExpertShape` — the sizes; `ExpertPart` — the three matrices.
* `MoeWeights` — the weights of a model.
* `weightLoader`, `dbrxWeightLoader` — the loaders, and `loadMixtral`, `loadDbrx` the runs.
* `HoldsPart`, `PageHolds` — a page has the share of a rank.
-/

namespace HarvestMoE

open Lib

/-- The hidden size, the intermediate size of the whole model and the number of ranks. -/
structure ExpertShape where
  hiddenSize : ℕ
  fullIntermediate : ℕ
  tpSize : ℕ

namespace ExpertShape

variable (s : ExpertShape)

/-- `intermediate_size // tp_size` -/
def intermediateSize : ℕ := s.fullIntermediate / s.tpSize

def pageSize : ℕ := 3 * s.intermediateSize * s.hiddenSize

end ExpertShape

/-- `v1` of DBRX is `w3`. -/
inductive ExpertPart
  | w1
  | w3
  | w2
  deriving DecidableEq, Repr

/-- The matrices of the experts of every layer, with a row for each output. -/
structure MoeWeights (R : Type*) where
  w1 : ℕ → ℕ → ℕ → ℕ → R
  w3 : ℕ → ℕ → ℕ → ℕ → R
  w2 : ℕ → ℕ → ℕ → ℕ → R

/-- `name.endswith(suffix)` -/
def endsWith (name suffix : String) : Bool := suffix.toList.isSuffixOf name.toList

/-- A matrix with its sizes. -/
structure Matrix2 (R : Type*) where
  rows : ℕ
  cols : ℕ
  entry : ℕ → ℕ → R

namespace Matrix2

variable {R : Type*} (m : Matrix2 R)

/-- `m[start:stop, :]` -/
def sliceRows (start stop : ℕ) : Matrix2 R :=
  ⟨min stop m.rows - min start m.rows, m.cols, fun i => m.entry (start + i)⟩

/-- `m[:, start:stop]` -/
def sliceCols (start stop : ℕ) : Matrix2 R :=
  ⟨m.rows, min stop m.cols - min start m.cols, fun i j => m.entry i (start + j)⟩

def transpose : Matrix2 R := ⟨m.cols, m.rows, fun i j => m.entry j i⟩

/-- `m.reshape(-1)`: the number of entries, and the entries row by row. -/
def flat : ℕ × (ℕ → R) := (m.rows * m.cols, fun p => m.entry (p / m.cols) (p % m.cols))

end Matrix2

section Loaders

variable {R : Type*}

/-- `page[start:stop] = m.reshape(-1)`, where other sizes raise. -/
def assignFlat (s : ExpertShape) (page : ℕ → R) (start : ℕ) (stop : Option ℕ) (m : Matrix2 R) :
    Option (ℕ → R) :=
  copySlice 1 page s.pageSize ⟨start, stop⟩ m.flat.2 m.flat.1 ⟨0, none⟩

/-- The places of the three matrices in the page, and the share of a rank. -/
def storePart (s : ExpertShape) (tpRank : ℕ) (part : ExpertPart) (page : ℕ → R)
    (loadedWeight : Matrix2 R) : Option (ℕ → R) :=
  let shardSize := s.intermediateSize
  let start := tpRank * shardSize
  let stop := (tpRank + 1) * shardSize
  let w3Offset := shardSize * s.hiddenSize
  let w2Offset := 2 * shardSize * s.hiddenSize
  match part with
  | .w1 => assignFlat s page 0 (some w3Offset) (loadedWeight.sliceRows start stop)
  | .w3 => assignFlat s page w3Offset (some w2Offset) (loadedWeight.sliceRows start stop)
  | .w2 => assignFlat s page w2Offset none (loadedWeight.sliceCols start stop)

/-- The pages of the experts of every layer. -/
abbrev ParamData (R : Type*) := ℕ → ℕ → ℕ → R

/-- Replace the page of one expert. -/
def setPage (param : ParamData R) (layerId expertId : ℕ) (page : ℕ → R) : ParamData R :=
  Function.update param layerId (Function.update (param layerId) expertId page)

/-- `weight_loader` of Mixtral and Phi: three independent tests of the name. -/
def weightLoader (s : ExpertShape) (tpRank : ℕ) (param : ParamData R) (loadedWeight : Matrix2 R)
    (weightName : String) (expertId layerId : ℕ) : Option (ParamData R) := do
  let store := fun (suffix : String) (part : ExpertPart) (param : ParamData R) =>
    if endsWith weightName suffix then
      (storePart s tpRank part (param layerId expertId) loadedWeight).map
        (setPage param layerId expertId)
    else some param
  let param ← store "w1.weight" .w1 param
  let param ← store "w3.weight" .w3 param
  store "w2.weight" .w2 param

/-- A tensor as it comes from a DBRX checkpoint. -/
structure FlatTensor (R : Type*) where
  numel : ℕ
  data : ℕ → R

/-- The matrix of expert `e` after `reshape(-1, rows, cols)`. -/
def FlatTensor.matrix (t : FlatTensor R) (rows cols e : ℕ) : Matrix2 R :=
  ⟨rows, cols, fun i j => t.data ((e * rows + i) * cols + j)⟩

/-- `weight_loader` of DBRX. One tensor has the matrices of all experts; a tensor for
another number of experts does not fit. -/
def dbrxWeightLoader (s : ExpertShape) (numTotalExperts tpRank : ℕ) (param : ParamData R)
    (loadedWeight : FlatTensor R) (weightName : String) (layerId : ℕ) : Option (ParamData R) := do
  let rows := s.intermediateSize * s.tpSize
  let matrix := loadedWeight.matrix rows s.hiddenSize
  let store := fun (suffix : String) (part : ExpertPart) (matrix : ℕ → Matrix2 R)
      (param : ParamData R) =>
    if endsWith weightName suffix then
      if loadedWeight.numel = numTotalExperts * rows * s.hiddenSize then
        (List.range numTotalExperts).foldlM (fun param e =>
          (storePart s tpRank part (param layerId e) (matrix e)).map (setPage param layerId e))
          param
      else none
    else some param
  let param ← store "w1" .w1 matrix param
  let param ← store "v1" .w3 matrix param
  store "w2" .w2 (fun e => (matrix e).transpose) param

end Loaders

namespace ExpertShape

variable {R : Type*} (s : ExpertShape)

/-- Where a matrix starts in the page. All have the same length. -/
def partStart : ExpertPart → ℕ
  | .w1 => 0
  | .w3 => s.intermediateSize * s.hiddenSize
  | .w2 => 2 * s.intermediateSize * s.hiddenSize

/-- The share of a rank, row by row. -/
def partEntry (tpRank : ℕ) (part : ExpertPart) (W : ℕ → ℕ → R) (p : ℕ) : R :=
  match part with
  | .w1 | .w3 => W (tpRank * s.intermediateSize + p / s.hiddenSize) (p % s.hiddenSize)
  | .w2 => W (p / s.intermediateSize) (tpRank * s.intermediateSize + p % s.intermediateSize)

/-- The sizes of a matrix in the checkpoint. -/
def Fits (part : ExpertPart) (m : Matrix2 R) : Prop :=
  match part with
  | .w1 | .w3 => m.rows = s.fullIntermediate ∧ m.cols = s.hiddenSize
  | .w2 => m.rows = s.hiddenSize ∧ m.cols = s.fullIntermediate

end ExpertShape

/-- The page has the share of a rank of one matrix at its place. -/
def HoldsPart {R : Type*} (s : ExpertShape) (tpRank : ℕ) (part : ExpertPart) (W : ℕ → ℕ → R)
    (page : ℕ → R) : Prop :=
  ∀ p < s.intermediateSize * s.hiddenSize, page (s.partStart part + p) = s.partEntry tpRank part W p

section Parts

variable {R : Type*} {s : ExpertShape} {tpRank : ℕ} {part part' : ExpertPart} {page : ℕ → R}
  {m : Matrix2 R} {W : ℕ → ℕ → R}

/-- A slice of a page that is as long as what is assigned to it. -/
theorem assignFlat_eq {start : ℕ} {stop : Option ℕ} (len : ℕ)
    (hslice : (Slice.mk start stop).length s.pageSize = len) (hlen : m.rows * m.cols = len) :
    assignFlat s page start stop m =
      some (copyRows page start (fun p => m.entry (p / m.cols) (p % m.cols)) 0 len) := by
  have hsrc : (Slice.mk 0 none).length m.flat.1 = len := by
    simp only [Slice.length, Option.getD_none, Matrix2.flat, hlen]
    omega
  rw [assignFlat, copySlice_eq hslice hsrc]
  simp only [Nat.mul_one, Matrix2.flat]

theorem ExpertShape.pageSize_eq (s : ExpertShape) :
    s.pageSize = 3 * (s.intermediateSize * s.hiddenSize) := Nat.mul_assoc _ _ _

theorem ExpertShape.partStart_w2 (s : ExpertShape) :
    s.partStart .w2 = 2 * (s.intermediateSize * s.hiddenSize) := Nat.mul_assoc _ _ _

/-- A matrix that fits is stored at its place. -/
theorem storePart_eq (hrank : tpRank < s.tpSize) (hfits : s.Fits part m) :
    storePart s tpRank part page m =
      some (copyRows page (s.partStart part) (s.partEntry tpRank part m.entry) 0
        (s.intermediateSize * s.hiddenSize)) := by
  have hshare : (tpRank + 1) * s.intermediateSize ≤ s.fullIntermediate := by
    exact (Nat.mul_le_mul_right _ hrank).trans (Nat.mul_div_le _ _)
  have hlen : min ((tpRank + 1) * s.intermediateSize) s.fullIntermediate -
      min (tpRank * s.intermediateSize) s.fullIntermediate = s.intermediateSize := by
    rw [Nat.succ_mul] at hshare ⊢
    omega
  have htwo := s.partStart_w2
  simp only [ExpertShape.partStart] at htwo
  cases part with
  | w1 =>
      rcases hfits with ⟨hrows, hcols⟩
      rw [storePart, assignFlat_eq (s.intermediateSize * s.hiddenSize)
        (by simp only [Slice.length, s.pageSize_eq, Option.getD_some]; omega)
        (by simp only [Matrix2.sliceRows, hrows, hlen, hcols])]
      simp only [ExpertShape.partStart, Matrix2.sliceRows, hcols]
      rfl
  | w3 =>
      rcases hfits with ⟨hrows, hcols⟩
      rw [storePart, assignFlat_eq (s.intermediateSize * s.hiddenSize)
        (by simp only [Slice.length, s.pageSize_eq, Option.getD_some]; omega)
        (by simp only [Matrix2.sliceRows, hrows, hlen, hcols])]
      simp only [ExpertShape.partStart, Matrix2.sliceRows, hcols]
      rfl
  | w2 =>
      rcases hfits with ⟨hrows, hcols⟩
      rw [storePart, assignFlat_eq (s.intermediateSize * s.hiddenSize)
        (by simp only [Slice.length, s.pageSize_eq, Option.getD_none]; omega)
        (by simp only [Matrix2.sliceCols, hrows, hcols, hlen, Nat.mul_comm])]
      simp only [ExpertShape.partStart, Matrix2.sliceCols, hcols, hlen]
      rfl

/-- Storing a matrix puts the share in the page and leaves the other matrices. -/
theorem storePart_holds (hrank : tpRank < s.tpSize) (hfits : s.Fits part m) (page : ℕ → R) :
    ∃ page', storePart s tpRank part page m = some page' ∧
      HoldsPart s tpRank part m.entry page' ∧
      ∀ part' ≠ part, ∀ W, HoldsPart s tpRank part' W page → HoldsPart s tpRank part' W page' := by
  refine ⟨_, storePart_eq hrank hfits, fun p hp => ?_, fun part' hne W h p hp => ?_⟩
  · rw [copyRows_add hp, Nat.zero_add]
  · rw [← h p hp]
    -- The places of the three matrices do not overlap.
    have htwo := s.partStart_w2
    simp only [ExpertShape.partStart] at htwo
    cases part <;> cases part'
    all_goals first | exact absurd rfl hne | skip
    all_goals simp only [ExpertShape.partStart]
    all_goals first
      | rw [copyRows_below (by omega)]
      | rw [copyRows_above (by omega)]

end Parts

section Runs

variable {R : Type*}

/-- `f"layers.{layer_id}.block_sparse_moe.experts.{expert_id}.{weight_name}.weight"` -/
def mixtralName (part : ExpertPart) (layerId expertId : ℕ) : String :=
  "layers." ++ toString layerId ++ ".block_sparse_moe.experts." ++ toString expertId ++ "." ++
    (match part with | .w1 => "w1" | .w3 => "w3" | .w2 => "w2") ++ ".weight"

/-- `f"blocks.{layer_id}.ffn.experts.mlp.{weight_name}"` -/
def dbrxName (part : ExpertPart) (layerId : ℕ) : String :=
  "blocks." ++ toString layerId ++ ".ffn.experts.mlp." ++
    (match part with | .w1 => "w1" | .w3 => "v1" | .w2 => "w2")

namespace MoeWeights

variable (w : MoeWeights R) (s : ExpertShape)

def entry (part : ExpertPart) (layerId expertId : ℕ) : ℕ → ℕ → R :=
  match part with
  | .w1 => w.w1 layerId expertId
  | .w3 => w.w3 layerId expertId
  | .w2 => w.w2 layerId expertId

/-- The matrix of an expert in a checkpoint of Mixtral or Phi. -/
def mixtralMatrix (part : ExpertPart) (layerId expertId : ℕ) : Matrix2 R :=
  match part with
  | .w1 | .w3 => ⟨s.fullIntermediate, s.hiddenSize, w.entry part layerId expertId⟩
  | .w2 => ⟨s.hiddenSize, s.fullIntermediate, w.entry part layerId expertId⟩

/-- The tensor of a layer in a checkpoint of DBRX: expert after expert, and `w2`
transposed. -/
def dbrxTensor (numTotalExperts : ℕ) (part : ExpertPart) (layerId : ℕ) : FlatTensor R where
  numel := numTotalExperts * s.fullIntermediate * s.hiddenSize
  data := fun p =>
    let e := p / s.hiddenSize / s.fullIntermediate
    let i := p / s.hiddenSize % s.fullIntermediate
    let d := p % s.hiddenSize
    match part with
    | .w1 | .w3 => w.entry part layerId e i d
    | .w2 => w.entry part layerId e d i

end MoeWeights

/-- Load matrices one by one, in any order. -/
def loadMixtral (w : MoeWeights R) (s : ExpertShape) (tpRank : ℕ) (param : ParamData R)
    (files : List (ExpertPart × ℕ × ℕ)) : Option (ParamData R) :=
  exec (fun param (part, l, e) =>
    weightLoader s tpRank param (w.mixtralMatrix s part l e) (mixtralName part l e) e l) param files

def loadDbrx (w : MoeWeights R) (s : ExpertShape) (numTotalExperts tpRank : ℕ)
    (param : ParamData R) (files : List (ExpertPart × ℕ)) : Option (ParamData R) :=
  exec (fun param (part, l) =>
    dbrxWeightLoader s numTotalExperts tpRank param (w.dbrxTensor s numTotalExperts part l)
      (dbrxName part l) l) param files

end Runs

/-- The matrix of an expert is in its page. -/
def Loaded {R : Type*} (w : MoeWeights R) (s : ExpertShape) (tpRank : ℕ)
    (file : ExpertPart × ℕ × ℕ) (param : ParamData R) : Prop :=
  HoldsPart s tpRank file.1 (w.entry file.1 file.2.1 file.2.2) (param file.2.1 file.2.2)

section Loads

variable {R : Type*} {w : MoeWeights R} {s : ExpertShape} {tpRank : ℕ} {param : ParamData R}

@[simp] theorem setPage_self (l e : ℕ) (page : ℕ → R) : setPage param l e page l e = page := by
  simp [setPage]

theorem setPage_of_ne {l e l' e' : ℕ} (page : ℕ → R) (h : ¬(l' = l ∧ e' = e)) :
    setPage param l e page l' e' = param l' e' := by
  unfold setPage
  by_cases hl : l' = l
  · subst hl
    rw [Function.update_self, Function.update_of_ne fun he => h ⟨rfl, he⟩]
  · rw [Function.update_of_ne hl]

theorem HoldsPart.congr {part : ExpertPart} {W W' : ℕ → ℕ → R} {page : ℕ → R}
    (h : HoldsPart s tpRank part W page)
    (hW : ∀ p < s.intermediateSize * s.hiddenSize,
      s.partEntry tpRank part W p = s.partEntry tpRank part W' p) :
    HoldsPart s tpRank part W' page :=
  fun p hp => (h p hp).trans (hW p hp)

/-- Storing one matrix in its page. -/
theorem storePage_loaded (hrank : tpRank < s.tpSize) (part : ExpertPart) (l e : ℕ)
    {m : Matrix2 R} (hfits : s.Fits part m)
    (hm : ∀ p < s.intermediateSize * s.hiddenSize,
      s.partEntry tpRank part m.entry p = s.partEntry tpRank part (w.entry part l e) p)
    (param : ParamData R) :
    ∃ param', (storePart s tpRank part (param l e) m).map (setPage param l e) = some param' ∧
      Loaded w s tpRank (part, l, e) param' ∧
      ∀ file, Loaded w s tpRank file param → Loaded w s tpRank file param' := by
  rcases storePart_holds hrank hfits (param l e) with ⟨page, hpage, hnew, hkeep⟩
  have hloaded : Loaded w s tpRank (part, l, e) (setPage param l e page) := by
    rw [Loaded, setPage_self]
    exact hnew.congr hm
  refine ⟨setPage param l e page, by rw [hpage, Option.map_some], hloaded, ?_⟩
  rintro ⟨part', l', e'⟩ hfile
  by_cases hle : l' = l ∧ e' = e
  · obtain ⟨rfl, rfl⟩ := hle
    by_cases hpart : part' = part
    · rw [hpart]
      exact hloaded
    · rw [Loaded, setPage_self]
      exact hkeep part' hpart _ hfile
  · rw [Loaded, setPage_of_ne page hle]
    exact hfile

/-- A name ends in what was appended last. -/
theorem endsWith_append {pre a b : String} (h : a.toList.length = b.toList.length) :
    endsWith (pre ++ a) b = decide (a = b) := by
  rw [endsWith, Bool.eq_iff_iff, List.isSuffixOf_iff_suffix, decide_eq_true_iff, String.toList_append]
  constructor
  · rintro ⟨front, hfront⟩
    exact (String.toList_inj.mp (List.append_inj_right' hfront h.symm)).symm
  · rintro rfl
    exact ⟨pre.toList, rfl⟩

/-- Exactly one of the three tests succeeds. -/
theorem endsWith_mixtralName (part : ExpertPart) (l e : ℕ) :
    endsWith (mixtralName part l e) "w1.weight" = decide (part = .w1) ∧
    endsWith (mixtralName part l e) "w3.weight" = decide (part = .w3) ∧
    endsWith (mixtralName part l e) "w2.weight" = decide (part = .w2) := by
  have hname : ∃ pre, mixtralName part l e =
      pre ++ (match part with | .w1 => "w1.weight" | .w3 => "w3.weight" | .w2 => "w2.weight") := by
    cases part <;> exact ⟨_, String.append_assoc⟩
  rcases hname with ⟨pre, hname⟩
  rw [hname]
  cases part <;> exact ⟨(endsWith_append (by decide)).trans (by decide),
    (endsWith_append (by decide)).trans (by decide), (endsWith_append (by decide)).trans (by decide)⟩

theorem endsWith_dbrxName (part : ExpertPart) (l : ℕ) :
    endsWith (dbrxName part l) "w1" = decide (part = .w1) ∧
    endsWith (dbrxName part l) "v1" = decide (part = .w3) ∧
    endsWith (dbrxName part l) "w2" = decide (part = .w2) := by
  cases part <;> exact ⟨(endsWith_append (by decide)).trans (by decide),
    (endsWith_append (by decide)).trans (by decide), (endsWith_append (by decide)).trans (by decide)⟩

/-- One file of Mixtral. -/
theorem weightLoader_loaded (hrank : tpRank < s.tpSize) (param : ParamData R)
    (file : ExpertPart × ℕ × ℕ) :
    ∃ param', weightLoader s tpRank param (w.mixtralMatrix s file.1 file.2.1 file.2.2)
        (mixtralName file.1 file.2.1 file.2.2) file.2.2 file.2.1 = some param' ∧
      Loaded w s tpRank file param' ∧
      ∀ file', Loaded w s tpRank file' param → Loaded w s tpRank file' param' := by
  rcases file with ⟨part, l, e⟩
  have hfits : s.Fits part (w.mixtralMatrix s part l e) := by cases part <;> exact ⟨rfl, rfl⟩
  have hentry : (w.mixtralMatrix s part l e).entry = w.entry part l e := by cases part <;> rfl
  have hstore := storePage_loaded (w := w) hrank part l e hfits (fun p _ => by rw [hentry]) param
  rcases endsWith_mixtralName part l e with ⟨h1, h3, h2⟩
  simp only [weightLoader, h1, h3, h2]
  cases part <;> simpa using hstore

/-- The matrix of an expert in a tensor of DBRX, transposed for `w2`. -/
def dbrxMatrix (w : MoeWeights R) (s : ExpertShape) (numTotalExperts : ℕ) (part : ExpertPart)
    (l e : ℕ) : Matrix2 R :=
  let matrix := (w.dbrxTensor s numTotalExperts part l).matrix
    (s.intermediateSize * s.tpSize) s.hiddenSize e
  match part with
  | .w1 | .w3 => matrix
  | .w2 => matrix.transpose

/-- Its entries are the weights of the expert. -/
theorem dbrxMatrix_entry (hdvd : s.tpSize ∣ s.fullIntermediate) (hrank : tpRank < s.tpSize)
    (numTotalExperts : ℕ) (part : ExpertPart) (l e : ℕ) {p : ℕ}
    (hp : p < s.intermediateSize * s.hiddenSize) :
    s.partEntry tpRank part (dbrxMatrix w s numTotalExperts part l e).entry p =
      s.partEntry tpRank part (w.entry part l e) p := by
  have hfull : s.intermediateSize * s.tpSize = s.fullIntermediate := Nat.div_mul_cancel hdvd
  -- The number of an entry gives back the expert, the row and the column.
  have hindex : ∀ i d, i < s.fullIntermediate → d < s.hiddenSize →
      ((e * s.fullIntermediate + i) * s.hiddenSize + d) / s.hiddenSize = e * s.fullIntermediate + i ∧
      ((e * s.fullIntermediate + i) * s.hiddenSize + d) % s.hiddenSize = d ∧
      (e * s.fullIntermediate + i) / s.fullIntermediate = e ∧
      (e * s.fullIntermediate + i) % s.fullIntermediate = i := by
    intro i d hi hd
    exact ⟨(mul_add_div_mod hd).1, (mul_add_div_mod hd).2, mul_add_div_mod hi⟩
  have hshare : ∀ i < s.intermediateSize, tpRank * s.intermediateSize + i < s.fullIntermediate := by
    intro i hi
    have hle : (tpRank + 1) * s.intermediateSize ≤ s.tpSize * s.intermediateSize :=
      Nat.mul_le_mul_right _ hrank
    rw [Nat.succ_mul, Nat.mul_comm s.tpSize, hfull] at hle
    omega
  have hpos : 0 < s.hiddenSize := Nat.pos_of_mul_pos_left (Nat.zero_lt_of_lt hp)
  have hpos' : 0 < s.intermediateSize := Nat.pos_of_mul_pos_right (Nat.zero_lt_of_lt hp)
  cases part with
  | w1 =>
      have hrow : p / s.hiddenSize < s.intermediateSize := Nat.div_lt_of_lt_mul (by rwa [Nat.mul_comm])
      rcases hindex _ _ (hshare _ hrow) (Nat.mod_lt p hpos) with ⟨h1, h2, h3, h4⟩
      simp only [ExpertShape.partEntry, dbrxMatrix, FlatTensor.matrix, MoeWeights.dbrxTensor, hfull,
        h1, h2, h3, h4]
  | w3 =>
      have hrow : p / s.hiddenSize < s.intermediateSize := Nat.div_lt_of_lt_mul (by rwa [Nat.mul_comm])
      rcases hindex _ _ (hshare _ hrow) (Nat.mod_lt p hpos) with ⟨h1, h2, h3, h4⟩
      simp only [ExpertShape.partEntry, dbrxMatrix, FlatTensor.matrix, MoeWeights.dbrxTensor, hfull,
        h1, h2, h3, h4]
  | w2 =>
      have hrow : p / s.intermediateSize < s.hiddenSize := Nat.div_lt_of_lt_mul hp
      rcases hindex _ _ (hshare _ (Nat.mod_lt p hpos')) hrow with ⟨h1, h2, h3, h4⟩
      simp only [ExpertShape.partEntry, dbrxMatrix, FlatTensor.matrix, MoeWeights.dbrxTensor,
        Matrix2.transpose, hfull, h1, h2, h3, h4]

/-- One file of DBRX, for all experts. -/
theorem dbrxWeightLoader_loaded (hdvd : s.tpSize ∣ s.fullIntermediate) (hrank : tpRank < s.tpSize)
    (numTotalExperts : ℕ) (param : ParamData R) (file : ExpertPart × ℕ) :
    ∃ param', dbrxWeightLoader s numTotalExperts tpRank param
        (w.dbrxTensor s numTotalExperts file.1 file.2) (dbrxName file.1 file.2) file.2 =
          some param' ∧
      (∀ e < numTotalExperts, Loaded w s tpRank (file.1, file.2, e) param') ∧
      ∀ file', Loaded w s tpRank file' param → Loaded w s tpRank file' param' := by
  rcases file with ⟨part, l⟩
  have hfull : s.intermediateSize * s.tpSize = s.fullIntermediate := Nat.div_mul_cancel hdvd
  have hfits : ∀ e, s.Fits part (dbrxMatrix w s numTotalExperts part l e) := by
    intro e
    cases part <;> exact ⟨by first | exact hfull | rfl, by first | exact hfull | rfl⟩
  let step : ParamData R → ℕ → Option (ParamData R) := fun param e =>
    (storePart s tpRank part (param l e) (dbrxMatrix w s numTotalExperts part l e)).map
      (setPage param l e)
  have hstep : ∀ e ∈ List.range numTotalExperts, ∀ param, ∃ param', step param e = some param' ∧
      (∀ file ∈ ({(part, l, e)} : Set (ExpertPart × ℕ × ℕ)), Loaded w s tpRank file param') ∧
      ∀ file, Loaded w s tpRank file param → Loaded w s tpRank file param' := by
    intro e _ param
    rcases storePage_loaded hrank part l e (hfits e)
      (fun p hp => dbrxMatrix_entry hdvd hrank numTotalExperts part l e hp) param with
      ⟨param', hsome, hnew, hkeep⟩
    refine ⟨param', hsome, fun file hfile => ?_, hkeep⟩
    obtain rfl := Set.mem_singleton_iff.mp hfile
    exact hnew
  have hrun := exec_accumulates _ param hstep
  rcases hrun with ⟨param', hexec, hmade, hkeep⟩
  refine ⟨param', ?_, fun e he => hmade e (List.mem_range.mpr he) _ rfl, hkeep⟩
  rcases endsWith_dbrxName part l with ⟨h1, h3, h2⟩
  have hnumel : (w.dbrxTensor s numTotalExperts part l).numel =
      numTotalExperts * (s.intermediateSize * s.tpSize) * s.hiddenSize := by
    rw [hfull]
    rfl
  simp only [dbrxWeightLoader, h1, h3, h2, hnumel]
  cases part <;> simpa [exec, step, dbrxMatrix] using hexec

/-- **A run of the loader puts every matrix that it gets in its page.** -/
theorem loadMixtral_loaded (hrank : tpRank < s.tpSize) (param : ParamData R)
    (files : List (ExpertPart × ℕ × ℕ)) :
    ∃ param', loadMixtral w s tpRank param files = some param' ∧
      ∀ file ∈ files, Loaded w s tpRank file param' := by
  have hrun := exec_accumulates (fun file => {file}) param fun file (_ : file ∈ files) param => by
    rcases weightLoader_loaded (w := w) hrank param file with ⟨param', hsome, hnew, hkeep⟩
    exact ⟨param', hsome, by simpa using hnew, hkeep⟩
  rcases hrun with ⟨param', hrun, hall, -⟩
  exact ⟨param', hrun, fun file hfile => hall file hfile file rfl⟩

theorem loadDbrx_loaded (hdvd : s.tpSize ∣ s.fullIntermediate) (hrank : tpRank < s.tpSize)
    (numTotalExperts : ℕ) (param : ParamData R) (files : List (ExpertPart × ℕ)) :
    ∃ param', loadDbrx w s numTotalExperts tpRank param files = some param' ∧
      ∀ file ∈ files, ∀ e < numTotalExperts, Loaded w s tpRank (file.1, file.2, e) param' := by
  have hrun := exec_accumulates (fun file => {f : ExpertPart × ℕ × ℕ |
      f.1 = file.1 ∧ f.2.1 = file.2 ∧ f.2.2 < numTotalExperts}) param
    fun file (_ : file ∈ files) param => by
      rcases dbrxWeightLoader_loaded (w := w) hdvd hrank numTotalExperts param file with
        ⟨param', hsome, hnew, hkeep⟩
      refine ⟨param', hsome, fun f hf => ?_, hkeep⟩
      rcases f with ⟨part, l, e⟩
      rcases hf with ⟨rfl, rfl, he⟩
      exact hnew e he
  rcases hrun with ⟨param', hrun, hall, -⟩
  exact ⟨param', hrun, fun file hfile e he => hall file hfile _ ⟨rfl, rfl, he⟩⟩

end Loads

/-- The pages of a layer after one of the loaders got all its files, in any order and
among those of other layers. -/
inductive LoadedBy {R : Type*} (w : MoeWeights R) (s : ExpertShape) (numTotalExperts tpRank : ℕ)
    (layerId : ℕ) (param : ParamData R) : Prop
  | mixtral (start : ParamData R) (files : List (ExpertPart × ℕ × ℕ))
      (run : loadMixtral w s tpRank start files = some param)
      (all : ∀ e < numTotalExperts, ∀ part, (part, layerId, e) ∈ files)
  | dbrx (start : ParamData R) (files : List (ExpertPart × ℕ))
      (run : loadDbrx w s numTotalExperts tpRank start files = some param)
      (all : ∀ part, (part, layerId) ∈ files)

/-- Both loaders leave the same pages. -/
theorem LoadedBy.loaded {R : Type*} {w : MoeWeights R} {s : ExpertShape}
    {numTotalExperts tpRank layerId : ℕ} {param : ParamData R}
    (h : LoadedBy w s numTotalExperts tpRank layerId param) (hdvd : s.tpSize ∣ s.fullIntermediate)
    (hrank : tpRank < s.tpSize) {e : ℕ} (he : e < numTotalExperts) (part : ExpertPart) :
    Loaded w s tpRank (part, layerId, e) param := by
  cases h with
  | mixtral start files run all =>
      rcases loadMixtral_loaded (w := w) hrank start files with ⟨param', hrun, hfiles⟩
      obtain rfl : param = param' := Option.some.inj (run.symm.trans hrun)
      exact hfiles _ (all e he part)
  | dbrx start files run all =>
      rcases loadDbrx_loaded (w := w) hdvd hrank numTotalExperts start files with
        ⟨param', hrun, hfiles⟩
      obtain rfl : param = param' := Option.some.inj (run.symm.trans hrun)
      exact hfiles _ (all part) e he

end HarvestMoE
