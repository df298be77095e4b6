import HarvestMoE.Residency

/-!
# A page in slots and a page at once

Decode brings a page slot by slot through pinned memory, prefill in one copy from the
cold cache. The slots tile the page, so together they bring one block of the cold
cache; but the block starts at row `num_experts_gpu`, where prefill starts at that many
experts. The two pages agree when the two blocks do.

## Main definitions

* `slotwiseCalls` — the relay and the prefetch of every slot of a page.
* `SlotwiseEqualsWhole` — the slots bring what one prefill prefetch would.
* `slotwise_iff` — when they do.
-/

namespace HarvestMoE

open Lib

variable {α : Type*}

/-- The decode path of a page: each slot is relayed and prefetched. -/
def slotwiseCalls (numMb layerId : ℕ) : List Call :=
  (List.range numMb).flatMap fun k =>
    [.prefetchExpertsToPin layerId k, .prefetchExperts layerId 0 k .decode]

/-- The slots of a page execute, and so does a prefill prefetch from the same state, and
both leave the same rows in the page of the pointer. -/
def SlotwiseEqualsWhole (cfg : EngineConfig) (numMb layerId : ℕ) (s : WeightState α) : Prop :=
  ∃ t u, exec (weightStep cfg numMb) s (slotwiseCalls numMb layerId) = some t ∧
    weightStep cfg numMb s (.prefetchExperts layerId 0 0 .prefill) = some u ∧
    PageHolds cfg t.expertsCache s.weightsPrefetchPageGpu
      fun q => u.expertsCache (cfg.pageBase s.weightsPrefetchPageGpu + q)

/-- The two blocks of the cold cache are the same. -/
def BlocksAgree (cfg : EngineConfig) (cold : ℕ → α) : Prop :=
  ∀ q, q < cfg.fgPageSize → prefillBlock cfg cold q = decodeBlock cfg cold q

/-- The slots before `k` are in the page. -/
structure SlotsAt (cfg : EngineConfig) (numMb : ℕ) (cold : ℕ → α) (page k : ℕ)
    (s : WeightState α) : Prop where
  cold_eq : s.expertsCacheCold = cold
  pageCpu_eq : s.weightsPrefetchPageCpu = 0
  pageGpu_eq : k < numMb → s.weightsPrefetchPageGpu = page
  fetched : ∀ q, q < fetchedRows cfg numMb k →
    s.expertsCache (cfg.pageBase page + q) = decodeBlock cfg cold q

section Slots

variable {cfg : EngineConfig} {numMb layerId page : ℕ} {cold : ℕ → α} {s : WeightState α}

/-- The relay of a slot moves its part of the decode block to pinned memory. -/
theorem slot_relay {k : ℕ} (hk : k < numMb) :
    Runs (weightStep cfg numMb) (fun _ _ => True) (SlotsAt cfg numMb cold page k)
      [.prefetchExpertsToPin layerId k]
      (fun s => SlotsAt cfg numMb cold page k s ∧ SlotReady cfg numMb cold s k) := by
  refine Runs.single fun s hs => ⟨trivial, _, prefetchExpertsToPin_spec layerId hs.pageCpu_eq hk,
    ⟨hs.cold_eq, hs.pageCpu_eq, hs.pageGpu_eq, hs.fetched⟩, by simp, fun q h1 h2 => ?_⟩
  simp only
  rw [copyRows_inside h1 h2, hs.cold_eq, decodeBlock]
  congr 1
  omega

/-- The prefetch of a slot adds its rows to those of the slots before it. -/
theorem slot_fetch (hp : page < 2) {k : ℕ} (hk : k < numMb) :
    Runs (weightStep cfg numMb) (fun _ _ => True)
      (fun s => SlotsAt cfg numMb cold page k s ∧ SlotReady cfg numMb cold s k)
      [.prefetchExperts layerId 0 k .decode] (SlotsAt cfg numMb cold page (k + 1)) := by
  refine Runs.single fun s hs => ⟨trivial, _,
    prefetchExperts_decode layerId 0 (hs.1.pageGpu_eq hk) hp hk hs.2.1, hs.1.cold_eq,
    hs.1.pageCpu_eq, fun hnext => if_neg (by omega), fun q hq => ?_⟩
  rw [fetchedRows_succ hk] at hq
  simp only
  by_cases hold : q < k * cfg.decodeSlotSize numMb
  · rw [copyRows_below (by omega)]
    refine hs.1.fetched q ?_
    rwa [fetchedRows, if_pos hk]
  · rw [copyRows_inside (by omega) (by omega), ← hs.2.2 q (by omega) hq]
    congr 1
    omega

/-- The slots of a page bring the block of decode. -/
theorem exec_slotwiseCalls (cfg : EngineConfig) (layerId : ℕ) (hn : 0 < numMb)
    (hgpu : s.weightsPrefetchPageGpu < 2) (hcpu : s.weightsPrefetchPageCpu = 0) :
    ∃ t, exec (weightStep cfg numMb) s (slotwiseCalls numMb layerId) = some t ∧
      PageHolds cfg t.expertsCache s.weightsPrefetchPageGpu (decodeBlock cfg s.expertsCacheCold) := by
  have hstart : SlotsAt cfg numMb s.expertsCacheCold s.weightsPrefetchPageGpu 0 s :=
    ⟨rfl, hcpu, fun _ => rfl, fun q hq => by simp [fetchedRows, hn] at hq⟩
  obtain ⟨-, t, ht, hend⟩ :=
    Runs.loop numMb (fun k hk => (slot_relay hk).cons (slot_fetch hgpu hk)) s hstart
  refine ⟨t, ht, fun q hq => hend.fetched q ?_⟩
  rwa [fetchedRows, if_neg (Nat.lt_irrefl _)]

/-- A prefill prefetch brings the block of prefill. -/
theorem whole_prefetch (cfg : EngineConfig) (numMb layerId : ℕ)
    (hgpu : s.weightsPrefetchPageGpu < 2) (hcpu : s.weightsPrefetchPageCpu = 0) :
    ∃ u, weightStep cfg numMb s (.prefetchExperts layerId 0 0 .prefill) = some u ∧
      PageHolds cfg u.expertsCache s.weightsPrefetchPageGpu (prefillBlock cfg s.expertsCacheCold) :=
  ⟨_, prefetchExperts_prefill layerId rfl hgpu hcpu, fun _ hq => copyRows_add hq⟩

theorem slotwiseEqualsWhole_iff (hn : 0 < numMb) (hgpu : s.weightsPrefetchPageGpu < 2)
    (hcpu : s.weightsPrefetchPageCpu = 0) :
    SlotwiseEqualsWhole cfg numMb layerId s ↔ BlocksAgree cfg s.expertsCacheCold := by
  obtain ⟨t, ht, hdecode⟩ := exec_slotwiseCalls cfg layerId hn hgpu hcpu
  obtain ⟨u, hu, hprefill⟩ := whole_prefetch cfg numMb layerId hgpu hcpu
  constructor
  · rintro ⟨t', u', ht', hu', hsame⟩ q hq
    obtain rfl : t = t' := Option.some.inj (ht.symm.trans ht')
    obtain rfl : u = u' := Option.some.inj (hu.symm.trans hu')
    exact (hprefill q hq).symm.trans (hsame.unique hdecode hq)
  · intro hblocks
    refine ⟨t, u, ht, hu, fun q hq => ?_⟩
    exact (hdecode q hq).trans ((hblocks q hq).symm.trans (hprefill q hq).symm)

/-- The blocks agree whatever the cold cache holds when they start at the same row, or
when there is nothing to copy. -/
theorem blocksAgree_all_iff [Nontrivial α] :
    (∀ cold : ℕ → α, BlocksAgree cfg cold) ↔ cfg.numExpertsGpu = 0 ∨ cfg.fgPageSize = 0 := by
  constructor
  · intro hall
    by_contra hcond
    have hG : cfg.numExpertsGpu ≠ 0 := fun h => hcond (.inl h)
    have hfg : cfg.fgPageSize ≠ 0 := fun h => hcond (.inr h)
    have hu : 0 < cfg.hiddenSize :=
      Nat.pos_of_ne_zero fun h => hfg (by simp [EngineConfig.fgPageSize, h])
    -- an expert has three rows or more, so the first rows of the blocks differ
    have hne : cfg.numExpertsGpu * cfg.expertRows ≠ cfg.numExpertsGpu := by
      have hrows : cfg.numExpertsGpu * 3 ≤ cfg.numExpertsGpu * cfg.expertRows :=
        Nat.mul_le_mul_left _ (by rw [EngineConfig.expertRows]; omega)
      omega
    obtain ⟨a, b, hab⟩ := exists_pair_ne α
    have hfirst := hall (fun r => if r = cfg.numExpertsGpu then a else b) 0 (by omega)
    simp [prefillBlock, decodeBlock, hne] at hfirst
    exact hab hfirst.symm
  · rintro (hG | hfg) cold q hq
    · simp [prefillBlock, decodeBlock, hG]
    · omega

end Slots

/-- From any page pointer, the slots of a page bring what one prefill prefetch would
exactly when the two blocks of the cold cache agree. They do so for every content of the
cold cache exactly when no expert is persistent, or no row is paged. -/
theorem slotwise_iff [Nontrivial α] {cfg : EngineConfig} {numMb : ℕ} (layerId : ℕ)
    {s : WeightState α} (hn : 0 < numMb) (hgpu : s.weightsPrefetchPageGpu < 2)
    (hcpu : s.weightsPrefetchPageCpu = 0) :
    (SlotwiseEqualsWhole cfg numMb layerId s ↔ BlocksAgree cfg s.expertsCacheCold) ∧
      ((∀ cold, SlotwiseEqualsWhole cfg numMb layerId { s with expertsCacheCold := cold }) ↔
        cfg.numExpertsGpu = 0 ∨ cfg.fgPageSize = 0) := by
  refine ⟨slotwiseEqualsWhole_iff hn hgpu hcpu, ?_⟩
  rw [← blocksAgree_all_iff (α := α)]
  exact forall_congr' fun cold => slotwiseEqualsWhole_iff hn hgpu hcpu

/-- A cold cache with the same value in every row. -/
theorem slotwise_constant :
    SlotwiseEqualsWhole (EngineConfig.small 2 (by decide)) 2 1
      (⟨id, fun _ => 7, id, 1, 0, fun _ => none⟩ : WeightState ℕ) :=
  (slotwise_iff 1 (by decide) (by decide) rfl).1.mpr fun _ _ => rfl

/-- Rows that are told apart. -/
theorem slotwise_misplaced :
    ¬ ∀ (cfg : EngineConfig) (numMb layerId : ℕ) (s : WeightState ℕ), 0 < numMb →
      s.weightsPrefetchPageGpu < 2 → s.weightsPrefetchPageCpu = 0 →
      SlotwiseEqualsWhole cfg numMb layerId s := by
  intro hall
  have hG := EngineConfig.small_numExpertsGpu (show 0 < 2 by decide)
  have hslots := hall (EngineConfig.small 2 (by decide)) 2 1 ⟨id, id, id, 0, 0, fun _ => none⟩
    (by decide) (by decide) rfl
  have hblocks := (slotwiseEqualsWhole_iff (by decide) (by decide) rfl).mp hslots 0 (by
    rw [EngineConfig.fgPageSize, EngineConfig.pageSize, hG]
    decide)
  rw [prefillBlock, decodeBlock, hG] at hblocks
  exact absurd hblocks (by decide)

end HarvestMoE
