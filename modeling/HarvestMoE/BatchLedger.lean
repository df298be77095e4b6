import HarvestMoE.MoveAdmission
import HarvestMoE.ReallocationBatch

/-!
# When a batch is all or nothing

The ledger is what a batch is about: the slot of every expert, its entry in the mapping,
and whether it has a buffer on the CPU. A request makes at most one write in it. The
counters and the scan of the source are one guard here, a free slot in the layer; the
bytes, the statuses and the texts are gone. `processReallocationRequest_refines` connects
the two, and whether a batch is all or nothing is read off the writes.

## Main definitions

* `Ledger`, `ledgerOf` — the abstract state, and the one of a faithful state.
* `Ledger.write`, `Ledger.next` — the write of a request, and the ledger after it.
* `Ledger.AllComplete`, `Ledger.Undone` — every request succeeds; every entry is restored.
* `AllOrNothing` — what the flag promises.
-/

namespace HarvestMoE

open Lib

variable {α : Type*}

@[ext] structure Ledger where
  slot : ℕ → ℕ → Option ℤ
  entry : ℕ → ℕ → ℤ
  buffered : ℕ → ℕ → Bool

/-- A write in the ledger; the entry of the mapping is left out when its write raises. -/
structure LedgerWrite where
  layer : ℕ
  expert : ℕ
  slot : Option ℤ
  entry : Option ℤ

namespace Ledger

variable (cfg : EngineConfig) (p : Ledger)

/-- The first slot of a layer that nobody holds. -/
def freeSlot (layer : ℕ) : Option ℕ :=
  ((List.range cfg.numExpertsGpu).map fun i => layer * cfg.numExpertsGpu + i).find? fun k =>
    (List.range cfg.numLocalExperts).all fun e => p.slot layer e ≠ some (k : ℤ)

/-- Torch goes through up to the point where the move is recorded. -/
def Goes (env : MoveEnv α) (layer expert : ℕ) : Prop :=
  env.fails .enterDevice = none ∧ (p.buffered layer expert ∨ env.fails .provide = none) ∧
    env.fails .copy = none ∧ env.fails .record = none

instance (env : MoveEnv α) (layer expert : ℕ) : Decidable (p.Goes env layer expert) :=
  inferInstanceAs (Decidable (_ ∧ _ ∧ _ ∧ _))

/-- The ids of a request name an expert. -/
def Names (req : ReallocationReq) : Prop :=
  0 ≤ req.layerId ∧ req.layerId < cfg.numHiddenLayers ∧
    0 ≤ req.expertId ∧ req.expertId < cfg.numLocalExperts

instance (req : ReallocationReq) : Decidable (Names cfg req) :=
  inferInstanceAs (Decidable (_ ∧ _ ∧ _ ∧ _))

/-- What an expert enters when it takes a slot. -/
def takeWrite (env : MoveEnv α) (l e k : ℕ) : LedgerWrite :=
  ⟨l, e, some k, if env.fails .writeMapping = none then some (k : ℤ) else none⟩

/-- What an expert enters when it leaves the GPU. -/
def releaseWrite (env : MoveEnv α) (l e : ℕ) : LedgerWrite :=
  ⟨l, e, none, if env.fails .writeMapping = none then some (-(e : ℤ) - 1) else none⟩

/-- The write a request makes, if it gets that far. -/
def write (req : ReallocationReq) (env : MoveEnv α) : Option LedgerWrite :=
  let l := req.layerId.toNat
  let e := req.expertId.toNat
  if Names cfg req then
    match req.action with
    | .moveToGpu =>
        if p.slot l e = none ∧ p.Goes env l e then (p.freeSlot cfg l).map (takeWrite env l e)
        else none
    | .moveToCpu =>
        if p.slot l e ≠ none ∧ env.fails .synchronize = none ∧ cfg.expertRows ≠ 0 ∧
            p.Goes env l e then
          some (releaseWrite env l e)
        else none
    | _ => none
  else none

/-- Make a write. -/
def apply (w : LedgerWrite) : Ledger :=
  { p with
    slot := put p.slot w.layer w.expert w.slot
    entry := match w.entry with
      | some k => put p.entry w.layer w.expert k
      | none => p.entry }

/-- The buffers after a request: leaving the GPU asks for one. -/
def buffers (req : ReallocationReq) (env : MoveEnv α) : ℕ → ℕ → Bool :=
  let l := req.layerId.toNat
  let e := req.expertId.toNat
  if req.action = .moveToCpu ∧ Names cfg req ∧ p.slot l e ≠ none ∧ env.Allocates then
    put p.buffered l e true
  else p.buffered

/-- The ledger after a request. -/
def next (req : ReallocationReq) (env : MoveEnv α) : Ledger :=
  { (match p.write cfg req env with
      | some w => p.apply w
      | none => p) with
    buffered := p.buffers cfg req env }

/-- A request succeeds: it makes its write in full, and torch raises nothing after it. -/
def Completes (req : ReallocationReq) (env : MoveEnv α) : Prop :=
  ∃ w, p.write cfg req env = some w ∧ w.entry ≠ none ∧ env.fails .exitDevice = none

/-- Every request of a batch succeeds in its turn. -/
def AllComplete (p : Ledger) : List (ReallocationReq × MoveEnv α) → Prop
  | [] => True
  | (req, env) :: rest => p.Completes cfg req env ∧ AllComplete (p.next cfg req env) rest

/-- The writes of a batch, in order. -/
def writes (p : Ledger) : List (ReallocationReq × MoveEnv α) → List LedgerWrite
  | [] => []
  | (req, env) :: rest => (p.write cfg req env).toList ++ writes (p.next cfg req env) rest

/-- The ledger after a batch. -/
def after (p : Ledger) (reqs : List (ReallocationReq × MoveEnv α)) : Ledger :=
  reqs.foldl (fun p r => p.next cfg r.1 r.2) p

end Ledger

/-- The writes of slots, and of entries. -/
def slotWrites (ws : List LedgerWrite) : List (ℕ × ℕ × Option ℤ) :=
  ws.map fun w => (w.layer, w.expert, w.slot)

def entryWrites (ws : List LedgerWrite) : List (ℕ × ℕ × ℤ) :=
  ws.filterMap fun w => w.entry.map fun k => (w.layer, w.expert, k)

/-- The last write to every slot and to every entry restores it. -/
def Ledger.Undone (cfg : EngineConfig) (p : Ledger) (ws : List LedgerWrite) : Prop :=
  ∀ l e, l < cfg.numHiddenLayers → e < cfg.numLocalExperts →
    (∀ held, lastWrite (slotWrites ws) l e = some held → held = p.slot l e) ∧
      ∀ k, lastWrite (entryWrites ws) l e = some k → k = p.entry l e

section Abstract

variable {cfg : EngineConfig} {p : Ledger}

theorem Ledger.next_of_some {req : ReallocationReq} {env : MoveEnv α} {w : LedgerWrite}
    (h : p.write cfg req env = some w) :
    p.next cfg req env = { p.apply w with buffered := p.buffers cfg req env } := by
  simp [Ledger.next, h]

theorem Ledger.next_of_none {req : ReallocationReq} {env : MoveEnv α}
    (h : p.write cfg req env = none) :
    p.next cfg req env = { p with buffered := p.buffers cfg req env } := by
  simp [Ledger.next, h]

theorem Ledger.completes_of_some {req : ReallocationReq} {env : MoveEnv α} {w : LedgerWrite}
    (h : p.write cfg req env = some w) :
    p.Completes cfg req env ↔ w.entry ≠ none ∧ env.fails .exitDevice = none := by
  simp [Ledger.Completes, h]

theorem Ledger.not_completes_of_none {req : ReallocationReq} {env : MoveEnv α}
    (h : p.write cfg req env = none) : ¬ p.Completes cfg req env := by
  simp [Ledger.Completes, h]

/-- The ledger after a batch is the ledger before it with the writes made. -/
theorem Ledger.after_slot (reqs : List (ReallocationReq × MoveEnv α)) (p : Ledger) :
    (p.after cfg reqs).slot =
      (slotWrites (p.writes cfg reqs)).foldl (fun f w => put f w.1 w.2.1 w.2.2) p.slot := by
  induction reqs generalizing p with
  | nil => rfl
  | cons r reqs ih =>
      obtain ⟨req, env⟩ := r
      have hrest := ih (p.next cfg req env)
      simp only [Ledger.after, List.foldl_cons] at hrest ⊢
      rw [hrest, Ledger.writes]
      simp only [slotWrites, List.map_append, List.foldl_append]
      cases hw : p.write cfg req env with
      | none => rw [Ledger.next_of_none hw]; rfl
      | some w => rw [Ledger.next_of_some hw]; rfl

theorem Ledger.after_entry (reqs : List (ReallocationReq × MoveEnv α)) (p : Ledger) :
    (p.after cfg reqs).entry =
      (entryWrites (p.writes cfg reqs)).foldl (fun f w => put f w.1 w.2.1 w.2.2) p.entry := by
  induction reqs generalizing p with
  | nil => rfl
  | cons r reqs ih =>
      obtain ⟨req, env⟩ := r
      have hrest := ih (p.next cfg req env)
      simp only [Ledger.after, List.foldl_cons] at hrest ⊢
      rw [hrest, Ledger.writes]
      simp only [entryWrites, List.filterMap_append, List.foldl_append]
      cases hw : p.write cfg req env with
      | none => rw [Ledger.next_of_none hw]; rfl
      | some w =>
          rw [Ledger.next_of_some hw]
          cases hk : w.entry <;> simp [Ledger.apply, hk]

/-- The writes are undone exactly when the ledger is the same again. -/
theorem Ledger.undone_iff (reqs : List (ReallocationReq × MoveEnv α)) :
    p.Undone cfg (p.writes cfg reqs) ↔ ∀ l e, l < cfg.numHiddenLayers → e < cfg.numLocalExperts →
      (p.after cfg reqs).slot l e = p.slot l e ∧ (p.after cfg reqs).entry l e = p.entry l e := by
  simp only [Ledger.Undone, Ledger.after_slot, Ledger.after_entry, foldl_put_eq_self_iff]

end Abstract

variable {cfg : EngineConfig}

/-- The ledger of the engine. -/
def ledgerOf (s : MoverState cfg α) : Ledger where
  slot := s.tracker.slotOf
  entry := s.expertsMapping
  buffered := fun l e => (s.cpuExpertStorage (storageKey l e)).isSome

section Refinement

variable {s : MoverState cfg α} {env : MoveEnv α}

theorem goes_ledgerOf {l e : ℕ} : (ledgerOf s).Goes env l e ↔ env.Tracks s l e := Iff.rfl

/-- The source finds the slot of the ledger. -/
theorem findFreeGpuSlot_eq (h : Placed cfg s.tracker) (l : ℕ) :
    findFreeGpuSlot cfg s.tracker l = (ledgerOf s).freeSlot cfg l := by
  have hfree : isSlotFree s.tracker l = fun k : ℕ =>
      (List.range cfg.numLocalExperts).all fun e => (ledgerOf s).slot l e ≠ some (k : ℤ) := by
    ext k
    rw [Bool.eq_iff_iff, isSlotFree_iff, h.experts_eq]
    simp only [List.all_eq_true, List.mem_range, decide_eq_true_eq]
    exact Iff.rfl
  rw [findFreeGpuSlot, Ledger.freeSlot, hfree]
  split_ifs with hG
  · simp [hG]
  · rfl

/-- A free slot in the layer is all the counters ask for. -/
theorem counters_of_freeSlot (h : Placed cfg s.tracker) {l slot : ℕ}
    (hl : l < cfg.numHiddenLayers) (hfree : (ledgerOf s).freeSlot cfg l = some slot) :
    s.tracker.totalGpuExperts < s.tracker.gpuCapacity ∧
      s.tracker.layerGpuExperts l < cfg.numExpertsGpu := by
  rw [← findFreeGpuSlot_eq h] at hfree
  have hlayer := (h.findFreeGpuSlot_isSome_iff l).mp (by rw [hfree]; rfl)
  exact ⟨h.totalGpuExperts_lt hl hlayer, hlayer⟩

/-- The guards of `move_expert_to_gpu`, seen from the ledger. -/
theorem gpuAdmits_iff (h : Placed cfg s.tracker) {l e slot : ℕ} :
    GpuAdmits cfg s.tracker l e slot ↔ l < cfg.numHiddenLayers ∧ e < cfg.numLocalExperts ∧
      (ledgerOf s).slot l e = none ∧ (ledgerOf s).freeSlot cfg l = some slot := by
  constructor
  · intro hadm
    obtain ⟨hl, he, hnone, -⟩ := h.slot_of_admits hadm
    exact ⟨hl, he, hnone, findFreeGpuSlot_eq h l ▸ hadm.2⟩
  · rintro ⟨hl, he, hnone, hfree⟩
    obtain ⟨htotal, hlayer⟩ := counters_of_freeSlot h hl hfree
    refine ⟨canMoveToGpu_eq_none.mpr ⟨?_, hnone, htotal, hlayer⟩, ?_⟩
    · rw [ExpertTracker.known_natCast, h.layers_eq, h.experts_eq]
      exact ⟨hl, he⟩
    · rwa [findFreeGpuSlot_eq h]

theorem cpuAdmits_iff (h : Placed cfg s.tracker) {l e : ℕ} :
    (∃ slot, CpuAdmits s.tracker l e slot) ↔
      l < cfg.numHiddenLayers ∧ e < cfg.numLocalExperts ∧ (ledgerOf s).slot l e ≠ none := by
  constructor
  · rintro ⟨slot, -, hslot⟩
    obtain ⟨hl, he, -⟩ := h.slot_mem l e _ hslot
    exact ⟨hl, he, by simp [ledgerOf, hslot]⟩
  · rintro ⟨hl, he, hsome⟩
    obtain ⟨k, hk⟩ := Option.ne_none_iff_exists'.mp hsome
    obtain ⟨i, -, rfl⟩ := mem_layerSlots.mp (h.slot_mem l e k hk).2.2
    refine ⟨_, ?_, hk⟩
    rw [ExpertTracker.known_natCast, h.layers_eq, h.experts_eq]
    exact ⟨hl, he⟩

theorem names_natCast {req : ReallocationReq} {l e : ℕ} (hl : req.layerId = l)
    (he : req.expertId = e) :
    Ledger.Names cfg req ↔ l < cfg.numHiddenLayers ∧ e < cfg.numLocalExperts := by
  simp only [Ledger.Names, hl, he]
  omega

/-- The write of an admitted move to the GPU. -/
theorem write_toGpu (env : MoveEnv α) (h : Placed cfg s.tracker) {req : ReallocationReq}
    (hact : req.action = .moveToGpu) {l e slot : ℕ} (hl : req.layerId = l) (he : req.expertId = e)
    (hadm : GpuAdmits cfg s.tracker l e slot) :
    (ledgerOf s).write cfg req env =
      if env.Tracks s l e then some (Ledger.takeWrite env l e slot) else none := by
  obtain ⟨hlt, hlt', hnone, hfree⟩ := (gpuAdmits_iff h).mp hadm
  have hnames := (names_natCast hl he).mpr ⟨hlt, hlt'⟩
  simp only [Ledger.write, hnames, if_true, hact, hl, he, Int.toNat_natCast, hnone, true_and,
    goes_ledgerOf, hfree, Option.map_some]

/-- A refused move to the GPU writes nothing. -/
theorem write_toGpu_refused (env : MoveEnv α) (h : Placed cfg s.tracker) {req : ReallocationReq}
    (hact : req.action = .moveToGpu)
    (hadm : ∀ l e slot : ℕ, req.layerId = l → req.expertId = e →
      ¬ GpuAdmits cfg s.tracker l e slot) : (ledgerOf s).write cfg req env = none := by
  simp only [Ledger.write, hact]
  split_ifs with hnames hgo
  · rw [Option.map_eq_none_iff, Option.eq_none_iff_forall_ne_some]
    intro slot hfree
    obtain ⟨h₁, h₂, h₃, h₄⟩ := hnames
    exact hadm req.layerId.toNat req.expertId.toNat slot (by omega) (by omega)
      ((gpuAdmits_iff h).mpr ⟨by omega, by omega, hgo.1, hfree⟩)
  · rfl
  · rfl

/-- The write of an admitted move to the CPU. -/
theorem write_toCpu (env : MoveEnv α) (h : Placed cfg s.tracker) {req : ReallocationReq}
    (hact : req.action = .moveToCpu) {l e slot : ℕ} (hl : req.layerId = l) (he : req.expertId = e)
    (hadm : CpuAdmits s.tracker l e slot) :
    (ledgerOf s).write cfg req env =
      if env.fails .synchronize = none ∧ cfg.expertRows ≠ 0 ∧ env.Tracks s l e then
        some (Ledger.releaseWrite env l e)
      else none := by
  obtain ⟨hlt, hlt', hsome⟩ := (cpuAdmits_iff h).mp ⟨slot, hadm⟩
  have hnames := (names_natCast hl he).mpr ⟨hlt, hlt'⟩
  simp only [Ledger.write, hnames, if_true, hact, hl, he, Int.toNat_natCast, hsome, ne_eq,
    not_false_eq_true, true_and, goes_ledgerOf]

/-- A refused move to the CPU writes nothing, and asks for no buffer. -/
theorem toCpu_refused (h : Placed cfg s.tracker) {req : ReallocationReq}
    (hadm : ∀ l e slot : ℕ, req.layerId = l → req.expertId = e → ¬ CpuAdmits s.tracker l e slot) :
    ¬ (Ledger.Names cfg req ∧ (ledgerOf s).slot req.layerId.toNat req.expertId.toNat ≠ none) := by
  rintro ⟨⟨h₁, h₂, h₃, h₄⟩, hsome⟩
  obtain ⟨slot, hslot⟩ := (cpuAdmits_iff h).mpr
    ⟨by omega, by omega, hsome⟩
  exact hadm req.layerId.toNat req.expertId.toNat slot (by omega) (by omega) hslot

/-- An admitted move to the GPU is its write. -/
theorem ToGpuEffect.refines {req : ReallocationReq}
    (hact : req.action = .moveToGpu) {l e slot : ℕ} {device : ℤ}
    {r : MoverState cfg α × MoveResult} (heff : ToGpuEffect env s l e slot device r)
    (hwrite : (ledgerOf s).write cfg req env =
      if env.Tracks s l e then some (Ledger.takeWrite env l e slot) else none) :
    ledgerOf r.1 = (ledgerOf s).next cfg req env ∧
      (r.2.1 = true ↔ (ledgerOf s).Completes cfg req env) := by
  have hbuffers : (ledgerOf s).buffers cfg req env = (ledgerOf s).buffered := by
    simp [Ledger.buffers, hact]
  by_cases htracks : env.Tracks s l e
  · rw [if_pos htracks] at hwrite
    rw [Ledger.next_of_some hwrite, Ledger.completes_of_some hwrite, heff.succeeded_iff, hbuffers]
    constructor
    · ext : 1
      · simp only [ledgerOf, heff.tracker_eq, if_pos htracks, ExpertTracker.slotOf_put_gpu,
          Ledger.apply, Ledger.takeWrite]
      · simp only [ledgerOf, heff.mapping_eq, htracks, true_and, Ledger.apply, Ledger.takeWrite]
        split_ifs <;> rfl
      · simp only [ledgerOf, heff.storage_eq]
    · simp [htracks, Ledger.takeWrite]
  · rw [if_neg htracks] at hwrite
    rw [Ledger.next_of_none hwrite, heff.succeeded_iff, hbuffers]
    have hnot := Ledger.not_completes_of_none hwrite
    constructor
    · ext : 1
      · simp only [ledgerOf, heff.tracker_eq, if_neg htracks]
      · simp only [ledgerOf, heff.mapping_eq, htracks, false_and, if_false]
      · simp only [ledgerOf, heff.storage_eq]
    · simp [htracks, hnot]

/-- An admitted move to the CPU is its write, and its buffer. -/
theorem ToCpuEffect.refines (h : Placed cfg s.tracker) {req : ReallocationReq}
    (hact : req.action = .moveToCpu) {l e slot : ℕ} (hl : req.layerId = l) (he : req.expertId = e)
    (hadm : CpuAdmits s.tracker l e slot)
    {r : MoverState cfg α × MoveResult} (heff : ToCpuEffect env s l e slot r) :
    ledgerOf r.1 = (ledgerOf s).next cfg req env ∧
      (r.2.1 = true ↔ (ledgerOf s).Completes cfg req env) := by
  have hwrite := write_toCpu env h hact hl he hadm
  obtain ⟨hlt, hlt', hsome⟩ := (cpuAdmits_iff h).mp ⟨slot, hadm⟩
  have hnames := (names_natCast hl he).mpr ⟨hlt, hlt'⟩
  have hbuffers : (fun a b => (r.1.cpuExpertStorage (storageKey a b)).isSome) =
      (ledgerOf s).buffers cfg req env := by
    have hother : ∀ a b, ¬ (a = l ∧ b = e) → (r.1.cpuExpertStorage (storageKey a b)).isSome =
        (s.cpuExpertStorage (storageKey a b)).isSome := by
      intro a b hab
      rw [heff.storage_other _ fun hkey => hab (storageKey_inj hkey)]
    have hown := heff.stored_iff
    simp only [Ledger.buffers, hact, hnames, hl, he, Int.toNat_natCast, hsome, ne_eq,
      not_false_eq_true, true_and]
    ext a b : 2
    by_cases hab : a = l ∧ b = e
    · obtain ⟨rfl, rfl⟩ := hab
      rw [Bool.eq_iff_iff, hown]
      split_ifs with halloc
      · simp [halloc]
      · simp [halloc, ledgerOf]
    · rw [hother a b hab]
      split_ifs
      · rw [put_of_ne hab]
        rfl
      · rfl
  by_cases htracks : env.fails .synchronize = none ∧ cfg.expertRows ≠ 0 ∧ env.Tracks s l e
  · rw [if_pos htracks] at hwrite
    rw [Ledger.next_of_some hwrite, Ledger.completes_of_some hwrite, heff.succeeded_iff, ← hbuffers]
    constructor
    · ext : 1
      · simp only [ledgerOf, heff.tracker_eq, if_pos htracks, Ledger.apply, Ledger.releaseWrite]
        exact ExpertTracker.slotOf_put_other (by simp)
      · simp only [ledgerOf, heff.mapping_eq, htracks, true_and, Ledger.apply, Ledger.releaseWrite]
        split_ifs <;> simp_all
      · rfl
    · simp [htracks, Ledger.releaseWrite]
  · rw [if_neg htracks] at hwrite
    rw [Ledger.next_of_none hwrite, heff.succeeded_iff, ← hbuffers]
    have hnot := Ledger.not_completes_of_none hwrite
    constructor
    · ext : 1
      · simp only [ledgerOf, heff.tracker_eq, if_neg htracks]
      · simp only [ledgerOf, heff.mapping_eq, htracks, false_and, if_false]
      · rfl
    · simp only [hnot, iff_false]
      exact fun hw => htracks hw.1

/-- The source carries out one request as the ledger does. -/
theorem processReallocationRequest_refines (h : Placed cfg s.tracker) (req : ReallocationReq)
    (env : MoveEnv α) :
    ledgerOf (processReallocationRequest env s req).1 = (ledgerOf s).next cfg req env ∧
      ((processReallocationRequest env s req).2.1 = true ↔
        (ledgerOf s).Completes cfg req env) := by
  have hstay : (ledgerOf s).write cfg req env = none →
      (ledgerOf s).buffers cfg req env = (ledgerOf s).buffered →
      ∀ r : MoverState cfg α × MoveResult, r.1 = s → r.2.1 = false →
      ledgerOf r.1 = (ledgerOf s).next cfg req env ∧
        (r.2.1 = true ↔ (ledgerOf s).Completes cfg req env) := by
    intro hwrite hbuffers r hsame hfail
    rw [Ledger.next_of_none hwrite, hbuffers, hsame, hfail]
    exact ⟨rfl, by simp [Ledger.not_completes_of_none hwrite]⟩
  cases hact : req.action with
  | moveToGpu =>
      simp only [processReallocationRequest, hact]
      rcases moveExpertToGpu_cases env s req.layerId req.expertId none with
        ⟨l, e, slot, hl, he, hadm, heff⟩ | ⟨hrefused, hsame, hfail⟩
      · exact heff.refines hact (write_toGpu env h hact hl he hadm)
      · exact hstay (write_toGpu_refused env h hact hrefused) (by simp [Ledger.buffers, hact]) _
          hsame hfail
  | moveToCpu =>
      simp only [processReallocationRequest, hact]
      rcases moveExpertToCpu_cases env s req.layerId req.expertId with
        ⟨l, e, slot, hl, he, hadm, heff⟩ | ⟨hrefused, hsame, hfail⟩
      · exact heff.refines h hact hl he hadm
      · have hnot := toCpu_refused h hrefused
        refine hstay ?_ ?_ _ hsame hfail
        · simp only [Ledger.write, hact]
          split_ifs with hnames hgo
          · exact absurd ⟨hnames, hgo.1⟩ hnot
          · rfl
          · rfl
        · rw [Ledger.buffers, if_neg fun hb => hnot ⟨hb.2.1, hb.2.2.1⟩]
  | preloadToCache =>
      exact hstay (by simp [Ledger.write, hact]) (by simp [Ledger.buffers, hact]) _
        (by simp [processReallocationRequest, hact]) (by simp [processReallocationRequest, hact])
  | evictFromCache =>
      exact hstay (by simp [Ledger.write, hact]) (by simp [Ledger.buffers, hact]) _
        (by simp [processReallocationRequest, hact]) (by simp [processReallocationRequest, hact])

/-- One request keeps the tracker placed. -/
theorem processReallocationRequest_placed (h : Placed cfg s.tracker) (req : ReallocationReq)
    (env : MoveEnv α) : Placed cfg (processReallocationRequest env s req).1.tracker := by
  cases hact : req.action with
  | moveToGpu =>
      simp only [processReallocationRequest, hact]
      exact moverStep_placed h (.moveExpertToGpu req.layerId req.expertId none env)
  | moveToCpu =>
      simp only [processReallocationRequest, hact]
      exact moverStep_placed h (.moveExpertToCpu req.layerId req.expertId env)
  | preloadToCache => simpa only [processReallocationRequest, hact] using h
  | evictFromCache => simpa only [processReallocationRequest, hact] using h

/-- The source carries out a batch as the ledger does. -/
theorem processBatch_refines (h : Placed cfg s.tracker) (m : ReallocationManager)
    (reqs : List (ReallocationReq × MoveEnv α)) :
    Placed cfg (processBatch s m reqs).1.tracker ∧
      ledgerOf (processBatch s m reqs).1 = (ledgerOf s).after cfg reqs ∧
      ((∀ r ∈ (processBatch s m reqs).2.2, r.success = true) ↔
        (ledgerOf s).AllComplete cfg reqs) := by
  induction reqs generalizing s m with
  | nil => simp [processBatch, Ledger.after, Ledger.AllComplete, h]
  | cons r reqs ih =>
      obtain ⟨req, env⟩ := r
      obtain ⟨hledger, hok⟩ := processReallocationRequest_refines h req env
      obtain ⟨hplaced, hafter, hall⟩ := ih (processReallocationRequest_placed h req env)
        (m.complete
          { req with
            status := if (processReallocationRequest env s req).2.1 then .completed else .failed
            errorMessage := (processReallocationRequest env s req).2.2 })
      rw [hledger] at hafter hall
      refine ⟨hplaced, hafter, ?_⟩
      simp only [processBatch, Ledger.AllComplete, List.forall_mem_cons, hok, hall]

end Refinement

/-- Locations, slots and mapping are as they were. -/
structure SamePlacement (s t : MoverState cfg α) : Prop where
  location_eq : ∀ l e, l < cfg.numHiddenLayers → e < cfg.numLocalExperts →
    (t.tracker.layers l e).location = (s.tracker.layers l e).location
  slot_eq : ∀ l e, l < cfg.numHiddenLayers → e < cfg.numLocalExperts →
    (t.tracker.layers l e).cacheSlot = (s.tracker.layers l e).cacheSlot
  mapping_eq : ∀ l e, l < cfg.numHiddenLayers → e < cfg.numLocalExperts →
    t.expertsMapping l e = s.expertsMapping l e

/-- Every move of the batch succeeds. -/
def BatchResponse.AllSucceed : BatchResponse → Prop
  | .completed _ results => ∀ r ∈ results, r.success = true
  | .error _ => False

/-- A placed tracker is known from its slots. -/
theorem samePlacement_iff {s t : MoverState cfg α} (hs : Placed cfg s.tracker)
    (ht : Placed cfg t.tracker) :
    SamePlacement s t ↔ ∀ l e, l < cfg.numHiddenLayers → e < cfg.numLocalExperts →
      (ledgerOf t).slot l e = (ledgerOf s).slot l e ∧
        (ledgerOf t).entry l e = (ledgerOf s).entry l e := by
  constructor
  · intro h l e hl he
    refine ⟨?_, h.mapping_eq l e hl he⟩
    simp only [ledgerOf, ExpertTracker.slotOf, h.location_eq l e hl he, h.slot_eq l e hl he]
  · intro h
    have hslots : ∀ l e, l < cfg.numHiddenLayers → e < cfg.numLocalExperts →
        (t.tracker.layers l e).location = (s.tracker.layers l e).location ∧
          (t.tracker.layers l e).cacheSlot = (s.tracker.layers l e).cacheSlot := by
      intro l e hl he
      have heq : t.tracker.slotOf l e = s.tracker.slotOf l e := (h l e hl he).1
      cases hslot : s.tracker.slotOf l e with
      | none =>
          obtain ⟨hloc, hoff⟩ := hs.off_gpu l e hl he hslot
          obtain ⟨hloc', hoff'⟩ := ht.off_gpu l e hl he (heq.trans hslot)
          exact ⟨hloc'.trans hloc.symm, hoff'.trans hoff.symm⟩
      | some k =>
          obtain ⟨hloc, hoff⟩ := ExpertTracker.slotOf_eq_some.mp hslot
          obtain ⟨hloc', hoff'⟩ := ExpertTracker.slotOf_eq_some.mp (heq.trans hslot)
          exact ⟨hloc'.trans hloc.symm, hoff'.trans hoff.symm⟩
    exact ⟨fun l e hl he => (hslots l e hl he).1, fun l e hl he => (hslots l e hl he).2,
      fun l e hl he => (h l e hl he).2⟩

/-- A batch of known actions leaves the placement as it was when its writes are undone. -/
theorem exposedBatch_samePlacement_iff {s : MoverState cfg α} (hs : Placed cfg s.tracker)
    (m : ReallocationManager) (batchId : String) {items : List (BatchItem α)}
    {reqs : List (ReallocationReq × MoveEnv α)} (hreqs : makeRequests items = .ok reqs) :
    SamePlacement s (exposedRequestBatchExpertReallocation batchId items true s m).1 ↔
      (ledgerOf s).Undone cfg ((ledgerOf s).writes cfg reqs) := by
  obtain ⟨n, hn⟩ : ∃ n, (exposedRequestBatchExpertReallocation batchId items true s m).1 =
      (processBatch s n reqs).1 :=
    ⟨_, by simp only [exposedRequestBatchExpertReallocation, hreqs]; rfl⟩
  obtain ⟨hplaced, hafter, -⟩ := processBatch_refines hs n reqs
  rw [hn, samePlacement_iff hs hplaced, hafter, Ledger.undone_iff]

/-- A batch none of whose requests gets as far as the tracker moves nothing. -/
theorem exposedBatch_unmoved {s : MoverState cfg α} (hs : Placed cfg s.tracker)
    (m : ReallocationManager) (batchId : String) {items : List (BatchItem α)}
    {reqs : List (ReallocationReq × MoveEnv α)} (hreqs : makeRequests items = .ok reqs)
    (hnone : (ledgerOf s).writes cfg reqs = []) :
    SamePlacement s (exposedRequestBatchExpertReallocation batchId items true s m).1 := by
  rw [exposedBatch_samePlacement_iff hs m batchId hreqs, hnone]
  intro l e _ _
  exact ⟨by simp [slotWrites, lastWrite], by simp [entryWrites, lastWrite]⟩

/-- An atomic batch, in any state that moves lead to, is all or nothing if and only if an
action in it is unknown, or every request succeeds in its turn, or the last write to every
slot and every entry restores it. -/
theorem exposedBatch_allOrNothing_iff (cfg : EngineConfig) (weights : WeightState α)
    (calls : List (MoverCall α)) (m : ReallocationManager) (batchId : String)
    (items : List (BatchItem α)) :
    let s := moverRun (.start cfg weights) calls
    let out := exposedRequestBatchExpertReallocation batchId items true s m
    (out.2.2.AllSucceed ∨ SamePlacement s out.1) ↔
      ∀ reqs, makeRequests items = .ok reqs → (ledgerOf s).AllComplete cfg reqs ∨
        (ledgerOf s).Undone cfg ((ledgerOf s).writes cfg reqs) := by
  intro s out
  have hs : Placed cfg s.tracker := moverRun_placed weights calls
  cases hreqs : makeRequests items with
  | error message =>
      have hout : out = (s, m, .error message) := by
        simp [out, exposedRequestBatchExpertReallocation, hreqs]
      have hsame : SamePlacement s out.1 := by
        rw [hout]
        exact ⟨fun _ _ _ _ => rfl, fun _ _ _ _ => rfl, fun _ _ _ _ => rfl⟩
      simp [hsame]
  | ok reqs =>
      obtain ⟨n, hn⟩ : ∃ n, out.2.2 = .completed batchId (processBatch s n reqs).2.2 :=
        ⟨_, by simp only [out, exposedRequestBatchExpertReallocation, hreqs]; rfl⟩
      obtain ⟨-, -, hall⟩ := processBatch_refines hs n reqs
      rw [exposedBatch_samePlacement_iff hs m batchId hreqs, hn]
      simp only [BatchResponse.AllSucceed, hall, Except.ok.injEq, forall_eq']

/-- An expert is swapped out, and the request after it names no expert: the first move
stays. -/
theorem exposedBatch_allOrNothing_fails :
    ¬ ∀ items : List (BatchItem ℕ),
      (exposedRequestBatchExpertReallocation "batch" items true
          (.start (EngineConfig.small 3 (by decide))
            ⟨fun _ => 0, fun _ => 0, fun _ => 0, 0, 0, fun _ => none⟩) .new).2.2.AllSucceed ∨
        SamePlacement (.start (EngineConfig.small 3 (by decide))
            ⟨fun _ => 0, fun _ => 0, fun _ => 0, 0, 0, fun _ => none⟩)
          (exposedRequestBatchExpertReallocation "batch" items true
            (.start (EngineConfig.small 3 (by decide))
              ⟨fun _ => 0, fun _ => 0, fun _ => 0, 0, 0, fun _ => none⟩) .new).1 := by
  intro h
  rcases h [⟨0, 0, "move_to_cpu", 0, "first", .calm fun _ => 0⟩,
    ⟨9, 0, "move_to_gpu", 0, "second", .calm fun _ => 0⟩] with hall | hsame
  · have hsecond := hall ⟨"L9E0", false, some "Expert not found"⟩ (by decide +kernel)
    exact absurd hsecond (by decide)
  · have hmoved := hsame.location_eq 0 0 (by decide) (by decide)
    exact absurd hmoved (by decide +kernel)

end HarvestMoE
