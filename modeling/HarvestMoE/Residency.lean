import HarvestMoE.Lib.Run
import HarvestMoE.Weights

/-!
# Which weights the expert cache holds when a layer runs

A layer reads the rows its experts are mapped to: the persistent rows, and the page
of its parity. The persistent rows hold the weights of their layer for ever. The
pages hold what the prefetches bring, and that is the cold cache, whose block is
the same for every layer and starts at a different row in prefill and in decode.
`batch_runs` says what is in the page at every call, and `weightResidency_iff` when
that is what the layer needs.

A batch that raises leaves its page pointer, so a batch may start at either page;
`turn` is the page it starts at, and the pages of the whole batch shift with it.

## Main definitions

* `LayerResident`, `Resident` — a layer finds the weights of its experts.
* `PageHolds`, `Persistent` — the contents of a page, and of the persistent rows.
* `BetweenBatches` — the states a batch starts from.
* `PageContents` — what the page of a layer holds at each call.
* `BlocksMatch` — the condition under which every layer finds its weights.
-/

namespace HarvestMoE

open Lib

variable {α : Type*}

/-- Every expert of the layer is in the row it is mapped to. -/
def LayerResident (cfg : EngineConfig) (mem : ℕ → ℕ → α) (cache : ℕ → α) (layerId : ℕ) : Prop :=
  ∀ e, e < cfg.numLocalExperts → ∀ r, r < cfg.expertRows →
    cache ((initExpertsMapping cfg layerId e).toNat * cfg.expertRows + r) =
      mem layerId (e * cfg.expertRows + r)

/-- The calls that read expert weights find them resident. -/
def Resident (cfg : EngineConfig) (mem : ℕ → ℕ → α) (s : WeightState α) : Call → Prop
  | .layer layerId _ _ => LayerResident cfg mem s.expertsCache layerId
  | .postAttention layerId _ _ => LayerResident cfg mem s.expertsCache layerId
  | _ => True

/-- The rows of the persistent experts hold their weights. -/
def Persistent (cfg : EngineConfig) (mem : ℕ → ℕ → α) (cache : ℕ → α) : Prop :=
  ∀ i, i < cfg.numHiddenLayers → ∀ q, q < cfg.numExpertsGpu * cfg.expertRows →
    cache (i * cfg.numExpertsGpu * cfg.expertRows + q) = mem i q

/-- The rows of a page, in order. -/
def PageHolds (cfg : EngineConfig) (cache : ℕ → α) (page : ℕ) (f : ℕ → α) : Prop :=
  ∀ q, q < cfg.fgPageSize → cache (cfg.pageBase page + q) = f q

/-- The block of the cold cache that prefill copies into a page. -/
def prefillBlock (cfg : EngineConfig) (cold : ℕ → α) (q : ℕ) : α :=
  cold (cfg.numExpertsGpu * cfg.expertRows + q)

/-- The block that the slots of decode make up. -/
def decodeBlock (cfg : EngineConfig) (cold : ℕ → α) (q : ℕ) : α := cold (cfg.numExpertsGpu + q)

/-- The block of paged experts of a layer in the host memory. -/
def layerBlock (cfg : EngineConfig) (mem : ℕ → ℕ → α) (layerId q : ℕ) : α :=
  mem layerId (cfg.numExpertsGpu * cfg.expertRows + q)

section Frame

variable {cfg : EngineConfig} {mem : ℕ → ℕ → α} {cache src : ℕ → α}

/-- A copy inside a page leaves the persistent rows. -/
theorem Persistent.copyRows (h : Persistent cfg mem cache) (page a fr len : ℕ) :
    Persistent cfg mem (copyRows cache (cfg.pageBase page + a) src fr len) := by
  intro i hi q hq
  rw [copyRows_below]
  · exact h i hi q hq
  · have hrow : (i + 1) * (cfg.numExpertsGpu * cfg.expertRows) ≤
        cfg.numHiddenLayers * (cfg.numExpertsGpu * cfg.expertRows) := Nat.mul_le_mul_right _ hi
    have h0 : cfg.pageBase 0 = cfg.numHiddenLayers * (cfg.numExpertsGpu * cfg.expertRows) := by
      simp [EngineConfig.pageBase, Nat.mul_assoc]
    have hmono := cfg.pageBase_mono (Nat.zero_le page)
    rw [Nat.add_mul, Nat.one_mul] at hrow
    rw [Nat.mul_assoc]
    omega

/-- A copy inside a page leaves the other page. -/
theorem PageHolds.copyRows_other {page page' a fr len : ℕ} {f : ℕ → α}
    (h : PageHolds cfg cache page f) (hne : page ≠ page') (hp : page < 2) (hp' : page' < 2)
    (hlen : a + len ≤ cfg.fgPageSize) :
    PageHolds cfg (copyRows cache (cfg.pageBase page' + a) src fr len) page f := by
  intro q hq
  have h01 : cfg.pageBase 1 = cfg.pageBase 0 + cfg.fgPageSize := cfg.pageBase_add 0
  rcases Nat.lt_or_gt_of_ne hne with hlt | hgt
  · obtain ⟨rfl, rfl⟩ : page = 0 ∧ page' = 1 := by omega
    rw [copyRows_below (by omega)]
    exact h q hq
  · obtain ⟨rfl, rfl⟩ : page = 1 ∧ page' = 0 := by omega
    rw [copyRows_above (by omega)]
    exact h q hq

theorem PageHolds.congr {page : ℕ} {f g : ℕ → α} (h : PageHolds cfg cache page f)
    (hfg : ∀ q, q < cfg.fgPageSize → f q = g q) : PageHolds cfg cache page g :=
  fun q hq => (h q hq).trans (hfg q hq)

/-- Two descriptions of one page agree. -/
theorem PageHolds.unique {page : ℕ} {f g : ℕ → α} (hf : PageHolds cfg cache page f)
    (hg : PageHolds cfg cache page g) {q : ℕ} (hq : q < cfg.fgPageSize) : f q = g q :=
  (hf q hq).symm.trans (hg q hq)

/-- With the persistent rows in place, a layer is resident when the page of its
parity holds its block. -/
theorem layerResident_iff (hpers : Persistent cfg mem cache) {i : ℕ}
    (hi : i < cfg.numHiddenLayers) :
    LayerResident cfg mem cache i ↔ PageHolds cfg cache (i % 2) (layerBlock cfg mem i) := by
  have hE := cfg.numExpertsGpu_add_pageSize
  have hrow : ∀ t r, t < cfg.pageSize →
      (initExpertsMapping cfg i (cfg.numExpertsGpu + t)).toNat * cfg.expertRows + r =
        cfg.pageBase (i % 2) + (t * cfg.expertRows + r) := by
    intro t r ht
    rw [initExpertsMapping_page ht, Int.toNat_natCast, EngineConfig.pageBase]
    ring
  constructor
  · intro h q hq
    rw [cfg.fgPageSize_eq] at hq
    have hu : 0 < cfg.expertRows := Nat.pos_of_ne_zero fun h0 => by simp [h0] at hq
    have ht : q / cfg.expertRows < cfg.pageSize := (Nat.div_lt_iff_lt_mul hu).mpr hq
    have hq' : q / cfg.expertRows * cfg.expertRows + q % cfg.expertRows = q :=
      Nat.div_add_mod' q cfg.expertRows
    have := h (cfg.numExpertsGpu + q / cfg.expertRows) (by omega) (q % cfg.expertRows)
      (Nat.mod_lt q hu)
    rw [hrow _ _ ht, hq'] at this
    rw [this, layerBlock, Nat.add_mul, Nat.add_assoc, hq']
  · intro h e he r hr
    rcases Nat.lt_or_ge e cfg.numExpertsGpu with hlt | hge
    · have hq : e * cfg.expertRows + r < cfg.numExpertsGpu * cfg.expertRows := by
        have := Nat.mul_le_mul_right cfg.expertRows hlt
        rw [Nat.succ_mul] at this
        omega
      rw [initExpertsMapping_gpu hlt, Int.toNat_natCast, Nat.add_mul, Nat.add_assoc]
      exact hpers i hi _ hq
    · obtain ⟨t, rfl⟩ := Nat.exists_eq_add_of_le hge
      have ht : t < cfg.pageSize := by omega
      have hq : t * cfg.expertRows + r < cfg.fgPageSize := by
        have := Nat.mul_le_mul_right cfg.expertRows ht
        rw [Nat.succ_mul] at this
        rw [cfg.fgPageSize_eq]
        omega
      rw [hrow t r ht, h _ hq, layerBlock, Nat.add_mul, Nat.add_assoc]

end Frame

/-- Every row of the page is one of the block of prefill or of the block of decode. -/
def PageMixed (cfg : EngineConfig) (cold cache : ℕ → α) (page : ℕ) : Prop :=
  ∀ q, q < cfg.fgPageSize → cache (cfg.pageBase page + q) = prefillBlock cfg cold q ∨
    cache (cfg.pageBase page + q) = decodeBlock cfg cold q

/-- What every state of a run has in common. -/
structure WeightInv (cfg : EngineConfig) (mem : ℕ → ℕ → α) (cold : ℕ → α) (s : WeightState α) :
    Prop where
  persistent : Persistent cfg mem s.expertsCache
  cold_eq : s.expertsCacheCold = cold
  pageCpu_eq : s.weightsPrefetchPageCpu = 0
  pageGpu_lt : s.weightsPrefetchPageGpu < 2

/-- The block layer `i` reads in prefill: what the prefetches bring, save that a batch
that starts at page 1 reads for its first layer what it found in page 0. -/
def prefillSees (cfg : EngineConfig) (cold : ℕ → α) (turn : ℕ) (start : ℕ → α) (i q : ℕ) : α :=
  if i = 0 ∧ turn = 1 then start q else prefillBlock cfg cold q

/-- The page a layer reads, at each call that reads it. In decode it holds rows of
both blocks while it is filled, and the block of decode alone by the last
micro-batch of every layer but the first. -/
def PageContents (cfg : EngineConfig) (numMb : ℕ) (mem : ℕ → ℕ → α) (cold : ℕ → α) (turn : ℕ)
    (start : ℕ → α) (s : WeightState α) : Call → Prop
  | .layer i _ _ => i < cfg.numHiddenLayers ∧ Persistent cfg mem s.expertsCache ∧
      PageHolds cfg s.expertsCache (i % 2) (prefillSees cfg cold turn start i)
  | .postAttention i _ k => i < cfg.numHiddenLayers ∧ Persistent cfg mem s.expertsCache ∧
      PageMixed cfg cold s.expertsCache (i % 2) ∧
      (0 < i → k + 1 = numMb → PageHolds cfg s.expertsCache (i % 2) (decodeBlock cfg cold))
  | _ => True

section Step

variable {cfg : EngineConfig} {mem : ℕ → ℕ → α} {cold : ℕ → α} {numMb : ℕ} {s t : WeightState α}

/-- The prefill prefetch fills the page of the pointer, leaves the other, and turns the
pointer. -/
theorem prefill_prefetch (numMb layerId : ℕ) {page : ℕ} (hinv : WeightInv cfg mem cold s)
    (hgpu : s.weightsPrefetchPageGpu = page) :
    ∃ t, prefetchExperts cfg numMb s layerId 0 0 .prefill = some t ∧ WeightInv cfg mem cold t ∧
      t.weightsPrefetchPageGpu = (page + 1) % 2 ∧
      PageHolds cfg t.expertsCache page (prefillBlock cfg cold) ∧
      ∀ other, other < 2 → other ≠ page → ∀ f, PageHolds cfg s.expertsCache other f →
        PageHolds cfg t.expertsCache other f := by
  have hp : page < 2 := hgpu ▸ hinv.pageGpu_lt
  refine ⟨_, prefetchExperts_prefill layerId hgpu hp hinv.pageCpu_eq,
    ⟨hinv.persistent.copyRows page 0 _ _, hinv.cold_eq, rfl, Nat.mod_lt _ (by omega)⟩,
    rfl, ?_, ?_⟩
  · intro q hq
    simp only [copyRows_add hq, hinv.cold_eq, prefillBlock]
  · intro other ho hne f hf
    exact hf.copyRows_other (a := 0) hne ho hp (by omega)

/-- A call that does not raise keeps the invariant, whatever came before it. -/
theorem weightStep_inv (c : Call) (hinv : WeightInv cfg mem cold s)
    (h : weightStep cfg numMb s c = some t) : WeightInv cfg mem cold t := by
  cases c with
  | prefetchExperts layerId pageId slotId stage =>
      simp only [weightStep] at h
      cases stage with
      | prefill =>
          by_cases hslot : slotId = 0 ∧ pageId = s.weightsPrefetchPageCpu
          · obtain ⟨rfl, rfl⟩ := hslot
            rw [hinv.pageCpu_eq] at h
            obtain ⟨u, hu, hinv', -⟩ := prefill_prefetch numMb layerId hinv rfl
            obtain rfl : u = t := Option.some.inj (hu.symm.trans h)
            exact hinv'
          · simp [prefetchExperts, hslot] at h
      | decode =>
          by_cases hfut : (s.copyFutures slotId).isSome ∧ slotId < numMb
          · rw [prefetchExperts_decode layerId pageId rfl hinv.pageGpu_lt hfut.2 hfut.1] at h
            obtain rfl := Option.some.inj h
            refine ⟨hinv.persistent.copyRows _ _ _ _, hinv.cold_eq, hinv.pageCpu_eq, ?_⟩
            have := hinv.pageGpu_lt
            simp only
            split_ifs
            · exact Nat.mod_lt _ (by omega)
            · exact this
          · simp [prefetchExperts, hfut] at h
  | prefetchExpertsToPin layerId slotId =>
      simp only [weightStep] at h
      by_cases hslot : slotId < numMb
      · rw [prefetchExpertsToPin_spec layerId hinv.pageCpu_eq hslot] at h
        obtain rfl := Option.some.inj h
        exact ⟨hinv.persistent, hinv.cold_eq, hinv.pageCpu_eq, hinv.pageGpu_lt⟩
      · simp [prefetchExpertsToPin, hslot] at h
  | _ =>
      obtain rfl : s = t := Option.some.inj h
      exact hinv

theorem weightRun_inv {cs : List Call} (hinv : WeightInv cfg mem cold s)
    (h : exec (weightStep cfg numMb) s cs = some t) : WeightInv cfg mem cold t :=
  exec_preserves (fun _ c _ _ hs ht => weightStep_inv c hs ht) hinv h

theorem WeightInv.newBatch (hinv : WeightInv cfg mem cold s) : WeightInv cfg mem cold s.newBatch :=
  ⟨hinv.persistent, hinv.cold_eq, hinv.pageCpu_eq, hinv.pageGpu_lt⟩

end Step

section Prefill

variable {cfg : EngineConfig} {mem : ℕ → ℕ → α} {cold start : ℕ → α} {numMb turn : ℕ}

/-- A batch starts at page `turn`, with the rows `start` in page 0. -/
structure BatchStart (cfg : EngineConfig) (mem : ℕ → ℕ → α) (cold : ℕ → α) (turn : ℕ)
    (start : ℕ → α) (s : WeightState α) : Prop where
  inv : WeightInv cfg mem cold s
  pageGpu_eq : s.weightsPrefetchPageGpu = turn
  first : PageHolds cfg s.expertsCache 0 start

/-- Prefill, when layer `i` starts: the page the last prefetch filled, and from the
second layer on both pages, hold the block of prefill. -/
structure PrefillAt (cfg : EngineConfig) (mem : ℕ → ℕ → α) (cold : ℕ → α) (turn : ℕ)
    (start : ℕ → α) (i : ℕ) (s : WeightState α) : Prop where
  inv : WeightInv cfg mem cold s
  pageGpu_eq : s.weightsPrefetchPageGpu = (i + 1 + turn) % 2
  last : PageHolds cfg s.expertsCache ((i + turn) % 2) (prefillBlock cfg cold)
  both : 0 < i → PageHolds cfg s.expertsCache ((i + 1 + turn) % 2) (prefillBlock cfg cold)
  first : i = 0 → turn = 1 → PageHolds cfg s.expertsCache 0 start

theorem PrefillAt.current {i : ℕ} {s : WeightState α} (ht : turn < 2)
    (h : PrefillAt cfg mem cold turn start i s) :
    PageHolds cfg s.expertsCache (i % 2) (prefillSees cfg cold turn start i) := by
  obtain rfl | rfl : turn = 0 ∨ turn = 1 := by omega
  · exact h.last.congr fun q _ => by simp [prefillSees]
  · rcases Nat.eq_zero_or_pos i with rfl | hi
    · exact (h.first rfl rfl).congr fun q _ => by simp [prefillSees]
    · have hpage : (i + 1 + 1) % 2 = i % 2 := by omega
      have hsees : ∀ q, prefillSees cfg cold 1 start i q = prefillBlock cfg cold q := by
        intro q
        rw [prefillSees, if_neg (by omega)]
      exact (hpage ▸ h.both hi).congr fun q _ => (hsees q).symm

theorem prefillLayer_runs (ht : turn < 2) {i : ℕ} (hi : i < cfg.numHiddenLayers) :
    Runs (weightStep cfg numMb) (PageContents cfg numMb mem cold turn start)
      (PrefillAt cfg mem cold turn start i)
      (prefillLayerCalls cfg.numHiddenLayers 1 numMb i)
      (PrefillAt cfg mem cold turn start (i + 1)) := by
  rw [prefillLayerCalls_one]
  refine Runs.append (Runs.skip ?_) (Runs.single fun s hs => ⟨trivial, ?_⟩)
  · -- Between two prefetches no call changes a weight.
    intro c hc s hs
    obtain ⟨k, -, hc⟩ := List.mem_flatMap.mp hc
    simp only [prefillBatchCalls, if_true, List.cons_append, List.nil_append,
      List.mem_cons] at hc
    rcases hc with rfl | rfl | hc
    · exact ⟨⟨hi, hs.inv.persistent, hs.current ht⟩, rfl⟩
    · exact ⟨trivial, rfl⟩
    · split_ifs at hc
      · simp only [List.mem_cons, List.not_mem_nil, or_false] at hc
        rcases hc with rfl | rfl <;> exact ⟨trivial, rfl⟩
      · simp at hc
  · obtain ⟨t, hstep, hinv, hgpu, hnew, hold⟩ :=
      prefill_prefetch numMb ((i + 1) % cfg.numHiddenLayers) hs.inv hs.pageGpu_eq
    refine ⟨t, hstep, hinv, hgpu.trans (by omega), hnew, fun _ => ?_, by omega⟩
    have hpage : (i + 1 + 1 + turn) % 2 = (i + turn) % 2 := by omega
    rw [hpage]
    exact hold _ (Nat.mod_lt _ (by omega)) (by omega) _ hs.last

/-- Prefill, from either page. -/
theorem prefill_runs (ht : turn < 2) :
    Runs (weightStep cfg numMb) (PageContents cfg numMb mem cold turn start)
      (BatchStart cfg mem cold turn start) (prefillCalls cfg.numHiddenLayers 1 numMb)
      (PrefillAt cfg mem cold turn start cfg.numHiddenLayers) := by
  have hfirst : Runs (weightStep cfg numMb) (PageContents cfg numMb mem cold turn start)
      (BatchStart cfg mem cold turn start) [.prefetchExperts 0 0 0 .prefill]
      (PrefillAt cfg mem cold turn start 0) := by
    refine Runs.single fun s hs => ⟨trivial, ?_⟩
    obtain ⟨t, hstep, hinv, hgpu, hnew, hold⟩ :=
      prefill_prefetch numMb 0 hs.inv hs.pageGpu_eq
    refine ⟨t, hstep, hinv, hgpu.trans (by omega), ?_, by omega, fun _ h1 => ?_⟩
    · rwa [Nat.zero_add, Nat.mod_eq_of_lt ht]
    · exact hold 0 (by omega) (by omega) _ hs.first
  exact Runs.cons hfirst (Runs.loop _ fun i hi => prefillLayer_runs ht hi)

end Prefill

section Decode

/-- The pinned rows of a slot hold its part of the decode block, and its future is
set. -/
def SlotReady (cfg : EngineConfig) (numMb : ℕ) (cold : ℕ → α) (s : WeightState α) (k : ℕ) :
    Prop :=
  (s.copyFutures k).isSome ∧
    ∀ q, k * cfg.decodeSlotSize numMb ≤ q →
      q < k * cfg.decodeSlotSize numMb + cfg.slotRows numMb k →
        s.expertsPin q = decodeBlock cfg cold q

/-- Decode at layer `i`, with the first `rows` rows of the page being filled fetched,
the page pointer at `page`, and the slots in `ready` relayed. -/
structure DecodeAt (cfg : EngineConfig) (numMb : ℕ) (mem : ℕ → ℕ → α) (cold : ℕ → α)
    (turn i rows page : ℕ) (ready : ℕ → Prop) (s : WeightState α) : Prop where
  inv : WeightInv cfg mem cold s
  pageGpu_eq : s.weightsPrefetchPageGpu = page
  mixed : ∀ p, p < 2 → PageMixed cfg cold s.expertsCache p
  filled : 0 < i → PageHolds cfg s.expertsCache ((i + turn) % 2) (decodeBlock cfg cold)
  filling : ∀ q, q < rows →
    s.expertsCache (cfg.pageBase ((i + 1 + turn) % 2) + q) = decodeBlock cfg cold q
  slots : ∀ k, k < numMb → ready k → SlotReady cfg numMb cold s k

variable {cfg : EngineConfig} {mem : ℕ → ℕ → α} {cold start : ℕ → α} {numMb turn : ℕ}

theorem DecodeAt.mono {i rows rows' page : ℕ} {ready ready' : ℕ → Prop} {s : WeightState α}
    (h : DecodeAt cfg numMb mem cold turn i rows page ready s) (hrows : rows' ≤ rows)
    (hready : ∀ k, k < numMb → ready' k → ready k) :
    DecodeAt cfg numMb mem cold turn i rows' page ready' s :=
  ⟨h.inv, h.pageGpu_eq, h.mixed, h.filled, fun q hq => h.filling q (by omega),
    fun k hk hr => h.slots k hk (hready k hk hr)⟩

/-- A relay makes its slot ready. The other slots stay ready, since every job writes
to a pinned row the row of the same cold block. -/
theorem relay_runs (layerId : ℕ) {i rows page k : ℕ} {ready : ℕ → Prop} (hk : k < numMb) :
    Runs (weightStep cfg numMb) (PageContents cfg numMb mem cold turn start)
      (DecodeAt cfg numMb mem cold turn i rows page ready) [.prefetchExpertsToPin layerId k]
      (DecodeAt cfg numMb mem cold turn i rows page (fun k' => ready k' ∨ k' = k)) := by
  refine Runs.single fun s hs => ⟨trivial, ?_⟩
  refine ⟨_, prefetchExpertsToPin_spec layerId hs.inv.pageCpu_eq hk,
    ⟨hs.inv.persistent, hs.inv.cold_eq, hs.inv.pageCpu_eq, hs.inv.pageGpu_lt⟩,
    hs.pageGpu_eq, hs.mixed, hs.filled, hs.filling, ?_⟩
  have hpin : ∀ q, k * cfg.decodeSlotSize numMb ≤ q →
      q < k * cfg.decodeSlotSize numMb + cfg.slotRows numMb k →
      copyRows s.expertsPin (k * cfg.decodeSlotSize numMb) s.expertsCacheCold
        (cfg.numExpertsGpu + k * cfg.decodeSlotSize numMb) (cfg.slotRows numMb k) q =
        decodeBlock cfg cold q := by
    intro q h1 h2
    rw [copyRows_inside h1 h2, hs.inv.cold_eq, decodeBlock]
    congr 1
    omega
  intro k' hk' hr
  by_cases hkk : k' = k
  · subst hkk
    exact ⟨by simp, hpin⟩
  · have hold := hs.slots k' hk' (hr.resolve_right hkk)
    refine ⟨by simpa [Function.update_of_ne hkk] using hold.1, ?_⟩
    intro q h1 h2
    by_cases hin : k * cfg.decodeSlotSize numMb ≤ q ∧
        q < k * cfg.decodeSlotSize numMb + cfg.slotRows numMb k
    · exact hpin q hin.1 hin.2
    · have : copyRows s.expertsPin (k * cfg.decodeSlotSize numMb) s.expertsCacheCold
          (cfg.numExpertsGpu + k * cfg.decodeSlotSize numMb) (cfg.slotRows numMb k) q =
          s.expertsPin q := by simp [copyRows, hin]
      exact this.trans (hold.2 q h1 h2)

/-- Decode rows copied into a page keep it mixed, in whichever page they fall. -/
theorem PageMixed.copyRows_decode {cache src : ℕ → α} {p page a len : ℕ}
    (h : PageMixed cfg cold cache p) (hp : p < 2) (hpage : page < 2)
    (hlen : a + len ≤ cfg.fgPageSize)
    (hsrc : ∀ q, q < len → src (a + q) = decodeBlock cfg cold (a + q)) :
    PageMixed cfg cold (copyRows cache (cfg.pageBase page + a) src a len) p := by
  intro q hq
  by_cases hpp : p = page
  · subst hpp
    by_cases hin : a ≤ q ∧ q < a + len
    · right
      rw [copyRows_inside (by omega) (by omega)]
      have := hsrc (q - a) (by omega)
      rw [show a + (q - a) = q by omega] at this
      rw [← this]
      congr 1
      omega
    · rcases Nat.lt_or_ge q a with hlt | hge
      · rw [copyRows_below (by omega)]
        exact h q hq
      · rw [copyRows_above (by omega)]
        exact h q hq
  · have hother : PageHolds cfg (copyRows cache (cfg.pageBase page + a) src a len) p
        (fun q => cache (cfg.pageBase p + q)) :=
      PageHolds.copyRows_other (fun _ _ => rfl) hpp hp hpage hlen
    rw [hother q hq]
    exact h q hq

/-- A decode prefetch extends the page being filled by its slot. -/
theorem fetch_runs (layerId : ℕ) {i k : ℕ} {ready : ℕ → Prop} (hk : k < numMb) (hr : ready k) :
    Runs (weightStep cfg numMb) (PageContents cfg numMb mem cold turn start)
      (DecodeAt cfg numMb mem cold turn i (k * cfg.decodeSlotSize numMb)
        ((i + 1 + turn) % 2) ready)
      [.prefetchExperts layerId 0 k .decode]
      (DecodeAt cfg numMb mem cold turn i
        (k * cfg.decodeSlotSize numMb + cfg.slotRows numMb k)
        (if k = numMb - 1 then (i + 2 + turn) % 2 else (i + 1 + turn) % 2) ready) := by
  refine Runs.single fun s hs => ⟨trivial, ?_⟩
  have hslot := hs.slots k hk hr
  have hend := cfg.slotEnd_le hk
  have hpage : (i + 1 + turn) % 2 < 2 := Nat.mod_lt _ (by omega)
  have hturn : (if k = numMb - 1 then ((i + 1 + turn) % 2 + 1) % 2 else (i + 1 + turn) % 2) =
      if k = numMb - 1 then (i + 2 + turn) % 2 else (i + 1 + turn) % 2 := by
    split_ifs <;> omega
  refine ⟨_, prefetchExperts_decode layerId 0 hs.pageGpu_eq hpage hk hslot.1,
    ⟨hs.inv.persistent.copyRows _ _ _ _, hs.inv.cold_eq, hs.inv.pageCpu_eq, ?_⟩,
    hturn, ?_, ?_, ?_, hs.slots⟩
  · simp only [hturn]
    split_ifs <;> exact Nat.mod_lt _ (by omega)
  · intro p hp
    exact (hs.mixed p hp).copyRows_decode hp hpage hend fun q hq => hslot.2 _ (by omega) (by omega)
  · intro hi
    exact (hs.filled hi).copyRows_other (by omega) (Nat.mod_lt _ (by omega)) hpage hend
  · intro q hq
    simp only
    by_cases hold : q < k * cfg.decodeSlotSize numMb
    · rw [copyRows_below (by omega)]
      exact hs.filling q hold
    · rw [copyRows_inside (by omega) (by omega)]
      rw [← hslot.2 q (by omega) hq]
      congr 1
      omega

/-- The look-ahead sends micro-batches to attention; it moves no weights. -/
theorem lookAhead_weights {i k : ℕ} {c : Call}
    (hc : c ∈ lookAheadCalls cfg.numHiddenLayers numMb i k) (s : WeightState α) :
    PageContents cfg numMb mem cold turn start s c ∧ weightStep cfg numMb s c = some s := by
  simp only [lookAheadCalls, attentionCalls] at hc
  split_ifs at hc <;> simp only [List.mem_cons, List.not_mem_nil, or_false] at hc
  · rcases hc with rfl | rfl | rfl <;> exact ⟨trivial, rfl⟩
  · rcases hc with rfl | rfl | rfl <;> exact ⟨trivial, rfl⟩

/-- Rows of the page being filled that are there before micro-batch `k`. -/
def fetchedRows (cfg : EngineConfig) (numMb k : ℕ) : ℕ :=
  if k < numMb then k * cfg.decodeSlotSize numMb else cfg.fgPageSize

/-- The decode loop of layer `i`, before micro-batch `k`: from the second layer on all
slots have been relayed, in the first layer those up to two ahead. -/
def DecodeBatchAt (cfg : EngineConfig) (numMb : ℕ) (mem : ℕ → ℕ → α) (cold : ℕ → α)
    (turn i k : ℕ) : WeightState α → Prop :=
  DecodeAt cfg numMb mem cold turn i (fetchedRows cfg numMb k)
    (if k < numMb then (i + 1 + turn) % 2 else (i + 2 + turn) % 2) (fun k' => k' < k + 2 ∨ 0 < i)

theorem fetchedRows_succ {k : ℕ} (hk : k < numMb) :
    fetchedRows cfg numMb (k + 1) = k * cfg.decodeSlotSize numMb + cfg.slotRows numMb k :=
  cut_succ hk

/-- The decode loop of layer `i`, once micro-batch `k` has fetched its rows: only the
relay for a later micro-batch is missing. -/
def BatchFetched (cfg : EngineConfig) (numMb : ℕ) (mem : ℕ → ℕ → α) (cold : ℕ → α)
    (turn i k : ℕ) : WeightState α → Prop :=
  DecodeAt cfg numMb mem cold turn i (fetchedRows cfg numMb (k + 1))
    (if k + 1 < numMb then (i + 1 + turn) % 2 else (i + 2 + turn) % 2)
    (fun k' => k' < k + 2 ∨ 0 < i)

theorem decodeBatch_fetch {i k : ℕ} (hk : k < numMb) :
    Runs (weightStep cfg numMb) (PageContents cfg numMb mem cold turn start)
      (DecodeBatchAt cfg numMb mem cold turn i k)
      [.loadHidden i k, .prefetchExperts ((i + 1) % cfg.numHiddenLayers) 0 k .decode]
      (BatchFetched cfg numMb mem cold turn i k) := by
  have hpage : (if k + 1 < numMb then (i + 1 + turn) % 2 else (i + 2 + turn) % 2) =
      if k = numMb - 1 then (i + 2 + turn) % 2 else (i + 1 + turn) % 2 := by
    split_ifs <;> first | rfl | omega
  have hfetch : Runs (weightStep cfg numMb) (PageContents cfg numMb mem cold turn start)
      (DecodeBatchAt cfg numMb mem cold turn i k)
      [.prefetchExperts ((i + 1) % cfg.numHiddenLayers) 0 k .decode]
      (BatchFetched cfg numMb mem cold turn i k) := by
    rw [DecodeBatchAt, BatchFetched, fetchedRows_succ hk, hpage, fetchedRows, if_pos hk, if_pos hk]
    exact fetch_runs _ hk (Or.inl (by omega))
  exact Runs.cons (Runs.single fun s hs => ⟨trivial, s, rfl, hs⟩) hfetch

/-- What the kernel reads in decode: by the last micro-batch both pages are full. -/
theorem decodeBatch_post {i k : ℕ} (hi : i < cfg.numHiddenLayers) :
    Runs (weightStep cfg numMb) (PageContents cfg numMb mem cold turn start)
      (BatchFetched cfg numMb mem cold turn i k) [.postAttention i 0 k]
      (BatchFetched cfg numMb mem cold turn i k) := by
  refine Runs.single fun s hs => ⟨⟨hi, hs.inv.persistent, ?_, ?_⟩, s, rfl, hs⟩
  · exact hs.mixed _ (Nat.mod_lt _ (by omega))
  · intro hpos hlast
    have hfull : fetchedRows cfg numMb (k + 1) = cfg.fgPageSize := by
      rw [fetchedRows, if_neg (by omega)]
    have hfilling := hs.filling
    rw [hfull] at hfilling
    rcases Nat.mod_two_eq_zero_or_one turn with h0 | h1
    · rw [show i % 2 = (i + turn) % 2 by omega]
      exact hs.filled hpos
    · rw [show i % 2 = (i + 1 + turn) % 2 by omega]
      exact hfilling

theorem decodeBatch_relay {i k : ℕ} (hk : k < numMb) :
    Runs (weightStep cfg numMb) (PageContents cfg numMb mem cold turn start)
      (BatchFetched cfg numMb mem cold turn i k)
      (relayCalls cfg.numHiddenLayers 1 numMb i 0 k)
      (DecodeBatchAt cfg numMb mem cold turn i (k + 1)) := by
  simp only [relayCalls, DecodeBatchAt]
  cases hidx : getPrefetchE2pIdx cfg.numHiddenLayers 1 numMb i 0 k with
  | none =>
      refine Runs.nil fun s hs => hs.mono le_rfl fun k' hk' hr => ?_
      have : ¬ k + 2 < numMb := fun h => by
        obtain ⟨l, hl⟩ := getPrefetchE2pIdx_of_lt cfg.numHiddenLayers i h
        simp [hl] at hidx
      omega
  | some p =>
      obtain ⟨layerId, slotId⟩ := p
      have hslot := getPrefetchE2pIdx_slot_lt (by omega) hidx
      refine (relay_runs layerId hslot).conseq (fun s hs => hs) fun s hs =>
        hs.mono le_rfl fun k' hk' hr => ?_
      by_cases h2 : k + 2 < numMb
      · obtain ⟨l, hl⟩ := getPrefetchE2pIdx_of_lt cfg.numHiddenLayers i h2
        obtain ⟨-, rfl⟩ : l = layerId ∧ k + 2 = slotId := by simpa [hl] using hidx
        omega
      · omega

theorem decodeBatch_runs {i k : ℕ} (hi : i < cfg.numHiddenLayers) (hk : k < numMb) :
    Runs (weightStep cfg numMb) (PageContents cfg numMb mem cold turn start)
      (DecodeBatchAt cfg numMb mem cold turn i k)
      (decodeBatchCalls cfg.numHiddenLayers 1 numMb i k)
      (DecodeBatchAt cfg numMb mem cold turn i (k + 1)) := by
  have hahead : Runs (weightStep cfg numMb) (PageContents cfg numMb mem cold turn start)
      (BatchFetched cfg numMb mem cold turn i k) (lookAheadCalls cfg.numHiddenLayers numMb i k)
      (BatchFetched cfg numMb mem cold turn i k) :=
    Runs.skip fun c hc s _ => lookAhead_weights hc s
  rw [decodeBatchCalls_one]
  exact (((decodeBatch_fetch hk).append (decodeBatch_post hi)).append hahead).append
    (decodeBatch_relay hk)

/-- The start of layer `i` of a decode step. -/
def DecodeLayerAt (cfg : EngineConfig) (numMb : ℕ) (mem : ℕ → ℕ → α) (cold : ℕ → α)
    (turn i : ℕ) : WeightState α → Prop :=
  DecodeAt cfg numMb mem cold turn i 0 ((i + 1 + turn) % 2) (fun k => k < 2 ∨ 0 < i)

theorem decodeLayer_runs (hn : 0 < numMb) {i : ℕ} (hi : i < cfg.numHiddenLayers) :
    Runs (weightStep cfg numMb) (PageContents cfg numMb mem cold turn start)
      (DecodeLayerAt cfg numMb mem cold turn i)
      (decodeLayerCalls cfg.numHiddenLayers 1 numMb i)
      (DecodeLayerAt cfg numMb mem cold turn (i + 1)) := by
  rw [decodeLayerCalls_one]
  have hloop : Runs (weightStep cfg numMb) (PageContents cfg numMb mem cold turn start)
      (DecodeBatchAt cfg numMb mem cold turn i 0)
      ((List.range numMb).flatMap (decodeBatchCalls cfg.numHiddenLayers 1 numMb i))
      (DecodeBatchAt cfg numMb mem cold turn i numMb) :=
    Runs.loop numMb fun k hk => decodeBatch_runs hi hk
  refine hloop.conseq ?_ ?_
  · intro s hs
    simpa [DecodeBatchAt, DecodeLayerAt, fetchedRows, hn] using hs
  · intro s hs
    simp only [DecodeBatchAt, fetchedRows, lt_irrefl, if_false] at hs
    -- The page just filled is the page the next layer leaves alone.
    exact ⟨hs.inv, hs.pageGpu_eq.trans (by omega), hs.mixed, fun _ => hs.filling,
      fun q hq => absurd hq (Nat.not_lt_zero q), fun k hk _ => hs.slots k hk (Or.inl (by omega))⟩

/-- Between decode steps. -/
def DecodeStepAt (cfg : EngineConfig) (numMb : ℕ) (mem : ℕ → ℕ → α) (cold : ℕ → α) (turn : ℕ) :
    WeightState α → Prop :=
  DecodeAt cfg numMb mem cold turn 0 0 ((1 + turn) % 2) (fun _ => False)

theorem decodeStep_runs (hn : 0 < numMb) :
    Runs (weightStep cfg numMb) (PageContents cfg numMb mem cold turn start)
      (DecodeStepAt cfg numMb mem cold turn) (decodeStepCalls cfg.numHiddenLayers 1 numMb)
      (DecodeStepAt cfg numMb mem cold turn) := by
  let At := DecodeAt cfg numMb mem cold turn 0 0 ((1 + turn) % 2)
  have hprologue : ∀ k, k < min 2 numMb →
      Runs (weightStep cfg numMb) (PageContents cfg numMb mem cold turn start)
        (At fun k' => k' < k) (prologueCalls 1 k) (At fun k' => k' < k + 1) := by
    intro k hk
    have hskip : Runs (weightStep cfg numMb) (PageContents cfg numMb mem cold turn start)
        (At fun k' => k' < k) (attentionCalls 0 k) (At fun k' => k' < k) := by
      refine Runs.skip fun c hc s _ => ?_
      simp only [attentionCalls, List.mem_cons, List.not_mem_nil, or_false] at hc
      rcases hc with rfl | rfl | rfl <;> exact ⟨trivial, rfl⟩
    refine hskip.append ((relay_runs _ (by omega)).conseq (fun s hs => hs) fun s hs => ?_)
    exact hs.mono le_rfl fun k' _ h => by omega
  have hfirst : Runs (weightStep cfg numMb) (PageContents cfg numMb mem cold turn start)
      (At fun k' => k' < 0) ((List.range (min 2 numMb)).flatMap (prologueCalls 1))
      (At fun k' => k' < min 2 numMb) :=
    Runs.loop (min 2 numMb) hprologue
  have hlayers : Runs (weightStep cfg numMb) (PageContents cfg numMb mem cold turn start)
      (DecodeLayerAt cfg numMb mem cold turn 0)
      ((List.range cfg.numHiddenLayers).flatMap (decodeLayerCalls cfg.numHiddenLayers 1 numMb))
      (DecodeLayerAt cfg numMb mem cold turn cfg.numHiddenLayers) :=
    Runs.loop cfg.numHiddenLayers fun i hi => decodeLayer_runs hn hi
  have hprepare : Runs (weightStep cfg numMb) (PageContents cfg numMb mem cold turn start)
      (DecodeStepAt cfg numMb mem cold turn) [.prepareForDecode]
      (DecodeStepAt cfg numMb mem cold turn) :=
    Runs.single fun s hs => ⟨trivial, s, rfl, hs⟩
  have heven := cfg.layers_even
  refine Runs.append ((Runs.cons hprepare (hfirst.conseq ?_ fun s hs => hs)).conseq
    (fun s hs => hs) fun s hs => ?_) (hlayers.conseq (fun s hs => hs) fun s hs => ?_)
  · exact fun s hs => hs.mono le_rfl fun k _ h => by omega
  · have hpage : (0 + 1 + turn) % 2 = (1 + turn) % 2 := by omega
    rw [DecodeLayerAt, hpage]
    exact hs.mono le_rfl fun k hk h => by omega
  · exact ⟨hs.inv, hs.pageGpu_eq.trans (by omega), hs.mixed, fun h => absurd h (by omega),
      fun q hq => absurd hq (Nat.not_lt_zero q), fun _ _ h => h.elim⟩

end Decode

section Batch

/-- The states a batch starts from: after `init_gpu_experts`, after a batch that
completed, and after one that raised, which resets nothing. -/
inductive BetweenBatches (cfg : EngineConfig) (mem : ℕ → ℕ → α) (cold : ℕ → α) :
    WeightState α → Prop
  | init (cache pin : ℕ → α) :
      BetweenBatches cfg mem cold ⟨initGpuExperts cfg mem cache, cold, pin, 0, 0, fun _ => none⟩
  | completed {s t : WeightState α} {numMb : ℕ} (h : BetweenBatches cfg mem cold s)
      (hn : 0 < numMb)
      (hrun : exec (weightStep cfg numMb) s.newBatch (batchForwardStep cfg numMb) = some t) :
      BetweenBatches cfg mem cold t.reset
  | raised {s t : WeightState α} {numMb : ℕ} {done rest : List Call}
      (h : BetweenBatches cfg mem cold s) (hn : 0 < numMb)
      (hcalls : batchForwardStep cfg numMb = done ++ rest)
      (hrun : exec (weightStep cfg numMb) s.newBatch done = some t) :
      BetweenBatches cfg mem cold t

/-- The weights of a batch are where its layers look for them: prefill brings the
block of every layer, and so does decode if it runs at all. -/
def BlocksMatch (cfg : EngineConfig) (numMb : ℕ) (mem : ℕ → ℕ → α) (s : WeightState α) : Prop :=
  ∀ i, i < cfg.numHiddenLayers → ∀ q, q < cfg.fgPageSize →
    prefillSees cfg s.expertsCacheCold s.weightsPrefetchPageGpu
        (fun q => s.expertsCache (cfg.pageBase 0 + q)) i q = layerBlock cfg mem i q ∧
      (0 < cfg.numDecodeSteps numMb →
        decodeBlock cfg s.expertsCacheCold q = layerBlock cfg mem i q)

variable {cfg : EngineConfig} {mem : ℕ → ℕ → α} {cold start : ℕ → α} {numMb turn : ℕ}
  {s : WeightState α}

theorem initGpuExperts_persistent (cache : ℕ → α) :
    Persistent cfg mem (initGpuExperts cfg mem cache) := by
  have hrows : ∀ n i, i < n → ∀ q, q < cfg.numExpertsGpu * cfg.expertRows →
      (List.range n).foldl (fun cache i =>
        copyRows cache (i * cfg.numExpertsGpu * cfg.expertRows) (mem i) 0
          (cfg.numExpertsGpu * cfg.expertRows)) cache
        (i * cfg.numExpertsGpu * cfg.expertRows + q) = mem i q := by
    intro n
    induction n with
    | zero => intro i hi; omega
    | succ n ih =>
        intro i hi q hq
        rw [List.range_succ, List.foldl_append, List.foldl_cons, List.foldl_nil]
        by_cases hin : i = n
        · subst hin
          rw [copyRows_add hq, Nat.zero_add]
        · have hrow : (i + 1) * (cfg.numExpertsGpu * cfg.expertRows) ≤
              n * (cfg.numExpertsGpu * cfg.expertRows) := Nat.mul_le_mul_right _ (by omega)
          rw [copyRows_below]
          · exact ih i (by omega) q hq
          · rw [Nat.add_mul, Nat.one_mul] at hrow
            rw [Nat.mul_assoc, Nat.mul_assoc]
            omega
  exact hrows cfg.numHiddenLayers

theorem BetweenBatches.inv (h : BetweenBatches cfg mem cold s) : WeightInv cfg mem cold s := by
  induction h with
  | init cache pin => exact ⟨initGpuExperts_persistent cache, rfl, rfl, by simp⟩
  | completed h hn hrun ih =>
      have hend := weightRun_inv ih.newBatch hrun
      exact ⟨hend.persistent, hend.cold_eq, rfl, by simp [WeightState.reset]⟩
  | raised h hn hcalls hrun ih =>
      exact weightRun_inv ih.newBatch hrun

/-- Prefill and any number of decode steps execute, and what the layers read is as
`PageContents` says. -/
theorem forward_runs (ht : turn < 2) (hn : 0 < numMb) (steps : ℕ) :
    Runs (weightStep cfg numMb) (PageContents cfg numMb mem cold turn start)
      (BatchStart cfg mem cold turn start) (forwardCalls cfg.numHiddenLayers 1 numMb steps)
      (DecodeStepAt cfg numMb mem cold turn) := by
  have heven := cfg.layers_even
  have hpos := cfg.layers_pos
  have hdecode : Runs (weightStep cfg numMb) (PageContents cfg numMb mem cold turn start)
      (DecodeStepAt cfg numMb mem cold turn)
      ((List.range steps).flatMap fun _ => decodeStepCalls cfg.numHiddenLayers 1 numMb)
      (DecodeStepAt cfg numMb mem cold turn) :=
    Runs.loop _ fun _ _ => decodeStep_runs hn
  refine Runs.append ((prefill_runs ht).conseq (fun s hs => hs) fun s hs => ?_) hdecode
  refine ⟨hs.inv, hs.pageGpu_eq.trans (by omega), ?_, fun h => absurd h (by omega),
    fun q hq => absurd hq (Nat.not_lt_zero q), fun _ _ h => h.elim⟩
  -- Two layers of prefill have filled both pages.
  intro p hp q hq
  left
  by_cases hlast : p = (cfg.numHiddenLayers + turn) % 2
  · subst hlast
    exact hs.last q hq
  · obtain rfl : p = (cfg.numHiddenLayers + 1 + turn) % 2 := by omega
    exact hs.both hpos q hq

theorem batch_runs (ht : turn < 2) (hn : 0 < numMb) :
    Runs (weightStep cfg numMb) (PageContents cfg numMb mem cold turn start)
      (BatchStart cfg mem cold turn start) (batchForwardStep cfg numMb)
      (DecodeStepAt cfg numMb mem cold turn) := by
  rw [batchForwardStep, cfg.weightsPrefetchNumPagesCpu_eq]
  exact forward_runs ht hn _

theorem layer_mem {i : ℕ} (hi : i < cfg.numHiddenLayers) (hn : 0 < numMb) :
    Call.layer i 0 0 ∈ batchForwardStep cfg numMb := by
  have hlayer : Call.layer i 0 0 ∈ prefillLayerCalls cfg.numHiddenLayers 1 numMb i := by
    rw [prefillLayerCalls_one]
    refine List.mem_append_left _ (List.mem_flatMap.mpr ⟨0, List.mem_range.mpr hn, ?_⟩)
    simp [prefillBatchCalls]
  rw [batchForwardStep, cfg.weightsPrefetchNumPagesCpu_eq, forwardCalls]
  exact List.mem_append_left _ (List.mem_cons_of_mem _
    (List.mem_flatMap.mpr ⟨i, List.mem_range.mpr hi, hlayer⟩))

theorem postAttention_mem {i k : ℕ} (hi : i < cfg.numHiddenLayers) (hk : k < numMb)
    (hsteps : 0 < cfg.numDecodeSteps numMb) :
    Call.postAttention i 0 k ∈ batchForwardStep cfg numMb := by
  have hlayer : Call.postAttention i 0 k ∈ decodeLayerCalls cfg.numHiddenLayers 1 numMb i := by
    rw [decodeLayerCalls_one]
    refine List.mem_flatMap.mpr ⟨k, List.mem_range.mpr hk, ?_⟩
    simp [decodeBatchCalls_one]
  rw [batchForwardStep, cfg.weightsPrefetchNumPagesCpu_eq, forwardCalls]
  refine List.mem_append_right _ (List.mem_flatMap.mpr ⟨0, List.mem_range.mpr hsteps, ?_⟩)
  exact List.mem_cons_of_mem _ (List.mem_append_right _
    (List.mem_flatMap.mpr ⟨i, List.mem_range.mpr hi, hlayer⟩))

/-- Only decode steps call `post_attention`. -/
theorem numDecodeSteps_pos_of_mem {i j k : ℕ}
    (h : Call.postAttention i j k ∈ batchForwardStep cfg numMb) :
    0 < cfg.numDecodeSteps numMb := by
  rcases Nat.eq_zero_or_pos (cfg.numDecodeSteps numMb) with h0 | hpos
  · rw [batchForwardStep, forwardCalls, h0] at h
    simp only [cfg.weightsPrefetchNumPagesCpu_eq, List.range_zero, List.flatMap_nil,
      List.append_nil, prefillCalls, prefillLayerCalls_one, List.mem_cons, List.mem_flatMap,
      List.mem_append, prefillBatchCalls] at h
    simp only [reduceCtorEq, false_or, List.mem_cons, List.not_mem_nil, or_false, if_true] at h
    obtain ⟨i', -, k', -, hk⟩ := h
    split_ifs at hk <;> simp at hk
  · exact hpos

/-- Weight residency of a batch: from every state a batch can start in, the batch
executes, and every layer finds the weights of its experts at every point of it just
when the blocks that the prefetches bring are the ones the layers need. -/
theorem weightResidency_iff (hs : BetweenBatches cfg mem cold s) (hn : 0 < numMb) :
    (∃ t, exec (weightStep cfg numMb) s.newBatch (batchForwardStep cfg numMb) = some t) ∧
      (Along (weightStep cfg numMb) (Resident cfg mem) s.newBatch (batchForwardStep cfg numMb) ↔
        BlocksMatch cfg numMb mem s) := by
  obtain ⟨hpers, rfl, hcpu, ht⟩ := hs.inv
  let start := fun q => s.expertsCache (cfg.pageBase 0 + q)
  have hstart : BatchStart cfg mem s.expertsCacheCold s.weightsPrefetchPageGpu start s.newBatch :=
    ⟨⟨hpers, rfl, hcpu, ht⟩, rfl, fun _ _ => rfl⟩
  obtain ⟨hpages, t, hrun, -⟩ := batch_runs ht hn _ hstart
  refine ⟨⟨t, hrun⟩, ?_⟩
  constructor
  · intro hres
    have hboth := hpages.and hres
    have hlayer : ∀ i, i < cfg.numHiddenLayers → ∀ q, q < cfg.fgPageSize →
        prefillSees cfg s.expertsCacheCold s.weightsPrefetchPageGpu start i q =
          layerBlock cfg mem i q := by
      intro i hi q hq
      obtain ⟨u, ⟨-, hp, hpage⟩, hr⟩ := hboth.exists_of_mem hrun (layer_mem hi hn)
      exact hpage.unique ((layerResident_iff hp hi).mp hr) hq
    have htwo := cfg.two_le_layers
    intro i hi q hq
    refine ⟨hlayer i hi q hq, fun hsteps => ?_⟩
    -- In the second layer the last micro-batch reads the block of decode alone.
    have hsecond : decodeBlock cfg s.expertsCacheCold q = prefillBlock cfg s.expertsCacheCold q := by
      obtain ⟨u, ⟨-, hp, -, hpage⟩, hr⟩ := hboth.exists_of_mem hrun
        (postAttention_mem (show 1 < _ by omega) (show numMb - 1 < _ by omega) hsteps)
      have h1 := (hpage (by omega) (by omega)).unique ((layerResident_iff hp (by omega)).mp hr) hq
      rw [h1, ← hlayer 1 (by omega) q hq]
      simp [prefillSees]
    obtain ⟨u, ⟨-, hp, hmixed, -⟩, hr⟩ := hboth.exists_of_mem hrun
      (postAttention_mem hi hn hsteps)
    have hpage := (layerResident_iff hp hi).mp hr q hq
    rcases hmixed q hq with h | h
    · rw [hsecond, ← h, hpage]
    · rw [← h, hpage]
  · intro hmatch
    refine hpages.imp fun u c hc hpage => ?_
    cases c with
    | layer i j k =>
        obtain ⟨hi, hp, hholds⟩ := hpage
        exact (layerResident_iff hp hi).mpr (hholds.congr fun q hq => (hmatch i hi q hq).1)
    | postAttention i j k =>
        obtain ⟨hi, hp, hmixed, -⟩ := hpage
        have hsteps := numDecodeSteps_pos_of_mem hc
        refine (layerResident_iff hp hi).mpr fun q hq => ?_
        have htwo := cfg.two_le_layers
        -- Decode needs its block for every layer, and the second layer equates the blocks.
        have heq : prefillBlock cfg s.expertsCacheCold q = decodeBlock cfg s.expertsCacheCold q := by
          have h1 := hmatch 1 (by omega) q hq
          rw [h1.2 hsteps, ← h1.1]
          simp [prefillSees]
        rcases hmixed q hq with h | h
        · rw [h, heq]
          exact (hmatch i hi q hq).2 hsteps
        · rw [h]
          exact (hmatch i hi q hq).2 hsteps
    | _ => trivial

/-- With the paged block in the cold cache, every layer of a batch of two finds its
weights. -/
theorem weightResidency_filled :
    Along (weightStep (EngineConfig.small 3 (by decide)) 2)
      (Resident (EngineConfig.small 3 (by decide)) fun i q => if q < 3 then i + 1 else 7)
      (WeightState.newBatch ⟨initGpuExperts (EngineConfig.small 3 (by decide))
        (fun i q => if q < 3 then i + 1 else 7) fun _ => 0, fun _ => 7, fun _ => 0, 0, 0,
        fun _ => none⟩)
      (batchForwardStep (EngineConfig.small 3 (by decide)) 2) := by
  refine (weightResidency_iff (.init _ _ : BetweenBatches _ _ (fun _ => 7) _)
    (by decide)).2.mpr ?_
  intro i _ q _
  have hG := EngineConfig.small_numExpertsGpu (show 0 < 3 by decide)
  have hrows : (EngineConfig.small 3 (by decide)).expertRows = 3 := rfl
  simp [prefillSees, prefillBlock, decodeBlock, layerBlock, hG, hrows]

/-- The cold cache is allocated empty and never filled: a first prefetch brings its
rows, and layer 0 runs on them. -/
theorem weightResidency_empty :
    ¬ ∀ (cfg : EngineConfig) (mem : ℕ → ℕ → ℕ) (cold : ℕ → ℕ) (s : WeightState ℕ) (numMb : ℕ),
      BetweenBatches cfg mem cold s → 0 < numMb →
      Along (weightStep cfg numMb) (Resident cfg mem) s.newBatch (batchForwardStep cfg numMb) := by
  intro hall
  let cfg := EngineConfig.small 3 (by decide)
  have hG : cfg.numExpertsGpu = 1 := EngineConfig.small_numExpertsGpu _
  have hpage : cfg.fgPageSize = 3 := by
    rw [EngineConfig.fgPageSize, EngineConfig.pageSize, hG]
    rfl
  have hs : BetweenBatches cfg (fun _ _ => 1) (fun _ => 0)
      ⟨initGpuExperts cfg (fun _ _ => 1) fun _ => 0, fun _ => 0, fun _ => 0, 0, 0, fun _ => none⟩ :=
    .init _ _
  obtain ⟨t, hstep, hinv, -, hholds, -⟩ :=
    prefill_prefetch 2 0 hs.inv.newBatch rfl
  have hcalls : batchForwardStep cfg 2 =
      [.prefetchExperts 0 0 0 .prefill] ++ .layer 0 0 0 :: (batchForwardStep cfg 2).drop 2 := by
    decide +kernel
  have hrun := hall cfg _ _ _ 2 hs (by decide)
  rw [hcalls] at hrun
  have hlayer := hrun.at (t := t) (by simpa [weightStep] using hstep)
  have := (layerResident_iff hinv.persistent (by decide)).mp hlayer 0 (by omega)
  exact absurd ((hholds 0 (by omega)).symm.trans this) (by decide)

end Batch

end HarvestMoE
