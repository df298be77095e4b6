import HarvestMoE.Config
import HarvestMoE.Lib.Holdings
import Mathlib.Algebra.BigOperators.Group.List.Basic
import Mathlib.Algebra.Order.BigOperators.Group.List

/-!
# Where every expert is

The tracker is a table from layers and experts to locations. Ids arrive from the API as
integers, and a lookup outside the table finds nothing. The slots that the persistent
experts of a layer hold are `slotOf`; the counts of `can_move_to_gpu` count its owners.

## Main definitions

* `ExpertTracker` — the table, with `getExpertLocation` and `updateExpertLocation`.
* `initExpertTracker` — the table `init_gpu_experts` leaves.
* `ExpertTracker.slotOf` — the cache slot a persistent expert holds.
* `ExpertTracker.layerGpuExperts`, `totalGpuExperts` — the persistent experts, counted.
-/

namespace HarvestMoE

open Lib

inductive MemoryLocation
  | gpuPersistent
  | gpuCache
  | cpuMemory
  | cpuPinned
  | notLoaded
  deriving DecidableEq, Repr

inductive ExpertStatus
  | active
  | cached
  | loading
  | idle
  | notAvailable
  deriving DecidableEq, Repr

/-- Location and status of one expert; device and slot are `-1` off the GPU. -/
structure ExpertLocation where
  location : MemoryLocation
  status : ExpertStatus
  deviceId : ℤ := -1
  cacheSlot : ℤ := -1
  deriving DecidableEq, Repr

structure ExpertTracker where
  numLayers : ℕ
  numExpertsPerLayer : ℕ
  gpuCapacity : ℕ
  cacheSize : ℕ
  layers : ℕ → ℕ → ExpertLocation

namespace ExpertTracker

/-- A tracker of experts that are not loaded. -/
def new (numLayers numExpertsPerLayer numGpuExperts cacheSize : ℕ) : ExpertTracker where
  numLayers := numLayers
  numExpertsPerLayer := numExpertsPerLayer
  gpuCapacity := numGpuExperts
  cacheSize := cacheSize
  layers := fun _ _ => { location := .notLoaded, status := .notAvailable }

variable (t : ExpertTracker)

/-- The ids are keys of the table. -/
def Known (layerId expertId : ℤ) : Prop :=
  0 ≤ layerId ∧ layerId < t.numLayers ∧ 0 ≤ expertId ∧ expertId < t.numExpertsPerLayer

instance (layerId expertId : ℤ) : Decidable (t.Known layerId expertId) :=
  inferInstanceAs (Decidable (_ ∧ _ ∧ _ ∧ _))

def getExpertLocation (layerId expertId : ℤ) : Option ExpertLocation :=
  if t.Known layerId expertId then some (t.layers layerId.toNat expertId.toNat) else none

def updateExpertLocation (layerId expertId : ℤ) (loc : ExpertLocation) : ExpertTracker :=
  if t.Known layerId expertId then
    { t with layers := put t.layers layerId.toNat expertId.toNat loc }
  else t

/-- The slot that a persistent expert holds. -/
def slotOf (layerId expertId : ℕ) : Option ℤ :=
  if (t.layers layerId expertId).location = .gpuPersistent then
    some (t.layers layerId expertId).cacheSlot
  else none

/-- Persistent experts of a layer. -/
def layerGpuExperts (layerId : ℕ) : ℕ :=
  (List.range t.numExpertsPerLayer).countP fun e =>
    (t.layers layerId e).location = .gpuPersistent

/-- Persistent experts of all layers. -/
def totalGpuExperts : ℕ := ((List.range t.numLayers).map t.layerGpuExperts).sum

section Access

variable {t} {l e : ℕ}

theorem known_natCast :
    t.Known l e ↔ l < t.numLayers ∧ e < t.numExpertsPerLayer := by
  simp only [Known]
  omega

/-- The ids of the table are natural numbers. -/
theorem Known.exists_natCast {layerId expertId : ℤ} (h : t.Known layerId expertId) :
    ∃ l e : ℕ, layerId = l ∧ expertId = e ∧ l < t.numLayers ∧ e < t.numExpertsPerLayer := by
  obtain ⟨hl, hl', he, he'⟩ := h
  exact ⟨layerId.toNat, expertId.toNat, by omega, by omega, by omega, by omega⟩

theorem getExpertLocation_natCast (h : t.Known l e) :
    t.getExpertLocation l e = some (t.layers l e) := by
  simp [getExpertLocation, h]

theorem updateExpertLocation_natCast (h : t.Known l e) (loc : ExpertLocation) :
    t.updateExpertLocation l e loc = { t with layers := put t.layers l e loc } := by
  simp [updateExpertLocation, h]

theorem slotOf_isSome :
    (t.slotOf l e).isSome ↔ (t.layers l e).location = .gpuPersistent := by
  simp only [slotOf]
  split_ifs with h <;> simp [h]

theorem slotOf_eq_none : t.slotOf l e = none ↔ (t.layers l e).location ≠ .gpuPersistent := by
  rw [ne_eq, ← slotOf_isSome, Option.isSome_iff_ne_none, not_not]

theorem slotOf_of_gpu (h : (t.layers l e).location = .gpuPersistent) :
    t.slotOf l e = some (t.layers l e).cacheSlot := by
  simp [slotOf, h]

theorem slotOf_eq_some {k : ℤ} : t.slotOf l e = some k ↔
    (t.layers l e).location = .gpuPersistent ∧ (t.layers l e).cacheSlot = k := by
  simp only [slotOf]
  split_ifs with h <;> simp [h]

theorem layerGpuExperts_eq (l : ℕ) :
    t.layerGpuExperts l = (List.range t.numExpertsPerLayer).countP fun e => (t.slotOf l e).isSome := by
  apply List.countP_congr
  intro e _
  simp [slotOf_isSome]

/-- A persistent expert is entered under its slot. -/
theorem slotOf_put_gpu (k : ℤ) (status : ExpertStatus) (device : ℤ) :
    ({ t with layers := put t.layers l e ⟨.gpuPersistent, status, device, k⟩ } :
      ExpertTracker).slotOf = put t.slotOf l e (some k) := by
  ext a b : 2
  by_cases h : a = l ∧ b = e
  · obtain ⟨rfl, rfl⟩ := h
    simp [slotOf]
  · simp [slotOf, h]

/-- Any other location holds no slot. -/
theorem slotOf_put_other {loc : ExpertLocation} (hloc : loc.location ≠ .gpuPersistent) :
    ({ t with layers := put t.layers l e loc } : ExpertTracker).slotOf =
      put t.slotOf l e none := by
  ext a b : 2
  by_cases h : a = l ∧ b = e
  · obtain ⟨rfl, rfl⟩ := h
    simp [slotOf, hloc]
  · simp [slotOf, h]

end Access

end ExpertTracker

/-- The location `init_gpu_experts` gives an expert. -/
def initExpertLocation (cfg : EngineConfig) (layerId expertId : ℕ) : ExpertLocation :=
  if expertId < cfg.numExpertsGpu then
    { location := .gpuPersistent
      status := .cached
      deviceId := 0
      cacheSlot := (layerId * cfg.numExpertsGpu + expertId : ℕ) }
  else { location := .cpuMemory, status := .idle }

/-- The tracker after `init_gpu_experts`: the capacity, then every expert in turn. -/
def initExpertTracker (cfg : EngineConfig) : ExpertTracker :=
  let t := { ExpertTracker.new cfg.numHiddenLayers cfg.numLocalExperts 0 0 with
    gpuCapacity := cfg.numExpertsGpu * cfg.numHiddenLayers
    cacheSize := cfg.expertsPoolSize }
  (List.range cfg.numHiddenLayers).foldl (fun t (l : ℕ) =>
    (List.range cfg.numLocalExperts).foldl (fun t (e : ℕ) =>
      t.updateExpertLocation l e (initExpertLocation cfg l e)) t) t

section Init

variable {cfg : EngineConfig}

/-- Experts `0 .. n-1` of a known layer are entered one by one. -/
theorem foldl_updateExpertLocation {t : ExpertTracker} {l n : ℕ} (f : ℕ → ExpertLocation)
    (hl : l < t.numLayers) (hn : n ≤ t.numExpertsPerLayer) :
    (List.range n).foldl (fun t (e : ℕ) => t.updateExpertLocation l e (f e)) t =
      { t with layers := fun a b => if a = l ∧ b < n then f b else t.layers a b } := by
  induction n with
  | zero => simp
  | succ n ih =>
      rw [List.range_succ, List.foldl_append, ih (by omega)]
      simp only [List.foldl_cons, List.foldl_nil]
      rw [ExpertTracker.updateExpertLocation_natCast]
      swap
      · exact ExpertTracker.known_natCast.mpr ⟨hl, hn⟩
      congr 1
      ext a b : 2
      by_cases hab : a = l ∧ b = n
      · obtain ⟨rfl, rfl⟩ := hab
        simp
      · rw [put_of_ne hab]
        have hiff : (a = l ∧ b < n) ↔ (a = l ∧ b < n + 1) := by omega
        simp only [hiff]

/-- The loop over the layers fills the table. -/
theorem initExpertTracker_eq (cfg : EngineConfig) : initExpertTracker cfg =
    { numLayers := cfg.numHiddenLayers
      numExpertsPerLayer := cfg.numLocalExperts
      gpuCapacity := cfg.numExpertsGpu * cfg.numHiddenLayers
      cacheSize := cfg.expertsPoolSize
      layers := fun l e =>
        if l < cfg.numHiddenLayers ∧ e < cfg.numLocalExperts then initExpertLocation cfg l e
        else { location := .notLoaded, status := .notAvailable } } := by
  have hfill : ∀ n, n ≤ cfg.numHiddenLayers → ∀ t : ExpertTracker,
      t.numLayers = cfg.numHiddenLayers → t.numExpertsPerLayer = cfg.numLocalExperts →
      (List.range n).foldl (fun t (l : ℕ) => (List.range cfg.numLocalExperts).foldl (fun t (e : ℕ) =>
        t.updateExpertLocation l e (initExpertLocation cfg l e)) t) t =
      { t with layers := fun a b =>
          if a < n ∧ b < cfg.numLocalExperts then initExpertLocation cfg a b
          else t.layers a b } := by
    intro n
    induction n with
    | zero => simp
    | succ n ih =>
        intro hn t hL hE
        rw [List.range_succ, List.foldl_append, ih (by omega) t hL hE]
        simp only [List.foldl_cons, List.foldl_nil]
        rw [foldl_updateExpertLocation _ (by rw [hL]; omega) (by rw [hE])]
        congr 1
        ext a b : 2
        by_cases ha : a = n
        · subst ha
          simp
        · have hiff : a < n ↔ a < n + 1 := by omega
          simp [ha, hiff]
  rw [initExpertTracker, hfill _ le_rfl _ rfl rfl]
  rfl

end Init

end HarvestMoE
