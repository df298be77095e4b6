import HarvestMoE.AbortedRequests
import HarvestMoE.Lib.PrefixMass
import HarvestMoE.PagedMemory
import Mathlib.Data.List.Perm.Subperm

/-!
# Admission to the paged cache

In paged mode `create_micro_batches` asks for the capacity of the whole cache, and compares it
with what one partition holds, as it does with the lines of the continuous pool. So each
partition can take as much as there is. The loop works through the requests from the longest
on, and with two partitions or more it refuses a request that fits alone only when the open
partitions are full or the cache is overfull already (`zero_of_refused`). So the micro-batches
fit together just when the longest requests that fit alone do, as many as there are places
(`admitted_fits_iff`).

## Main definitions

* `PagedEngine`, `calculatePagedCacheCapacity` — the capacity.
* `tokensNeeded`, `totalNeeded` — the tokens that a micro-batch and a list of them take.
* `Passes` — a turn of the loop admits its request.
* `longestFitting` — the requests that the places are for.
-/

namespace HarvestMoE

open Lib

variable {κ : Type*} {cfg : EngineConfig}

/-- The engine in paged mode, with a table on each device for every layer. -/
structure PagedEngine (cfg : EngineConfig) (κ : Type*) where
  memory : PagedMemory κ
  gpu_length : memory.gpuBlockTables.length = cfg.numHiddenLayers
  cpu_length : memory.cpuBlockTables.length = cfg.numHiddenLayers

/-- The fewest free blocks of a layer; there are layers. -/
def minFreeBlocks (tables : List (BlockTable κ)) : ℕ :=
  (tables.map fun t => t.freeBlocks.length).min?.getD 0

/-- `total_token_capacity`: the GPU counts half, for its double buffer. -/
def PagedEngine.totalTokenCapacity (e : PagedEngine cfg κ) : ℕ :=
  minFreeBlocks e.memory.gpuBlockTables * e.memory.shape.blockSize / 2 +
    minFreeBlocks e.memory.cpuBlockTables * e.memory.shape.blockSize

def EngineConfig.rooflineLimit (cfg : EngineConfig) : ℕ :=
  cfg.nUb * cfg.ubs * (cfg.avgPromptTokens + cfg.genLen)

/-- `_calculate_paged_cache_capacity` -/
def calculatePagedCacheCapacity (kvCacheOverrideCapacity : Option ℤ)
    (pagedKvCache : Option (PagedEngine cfg κ)) : ℤ :=
  match kvCacheOverrideCapacity, pagedKvCache with
  | some capacity, _ => capacity
  | none, none => 2048
  | none, some e => min e.totalTokenCapacity cfg.rooflineLimit

/-- The numbers of the loop in paged mode. The output of a request takes a token, so a negative
capacity admits as few as none at all. -/
def pagedPolicy (cfg : EngineConfig) (capacity : ℤ) : AdmissionPolicy :=
  ⟨cfg.ubs, cfg.nUb, cfg.genLen, capacity.toNat⟩

theorem tooFull_pagedPolicy {capacity : ℤ} (sum n len : ℕ) :
    TooFull (pagedPolicy cfg capacity) sum n len ↔
      (sum + len + (1 + n) * cfg.genLen : ℤ) > capacity := by
  have hgen : 0 < (1 + n) * cfg.genLen := Nat.mul_pos (by omega) cfg.genLen_pos
  have hcast : ((1 + n) * cfg.genLen : ℤ) = ((1 + n) * cfg.genLen : ℕ) := by push_cast; rfl
  simp only [TooFull, pagedPolicy, hcast]
  generalize (1 + n) * cfg.genLen = m at hgen ⊢
  omega

section Needed

variable {policy : AdmissionPolicy} {s : Admission} {req : Req}

/-- `sum(input_len) + len(reqs) * gen_len` -/
def tokensNeeded (genLen : ℕ) (reqs : List Req) : ℕ :=
  (reqs.map Req.inputLen).sum + reqs.length * genLen

def totalNeeded (genLen : ℕ) (mbs : List (List Req)) : ℕ := (mbs.map (tokensNeeded genLen)).sum

/-- The micro-batches as far as the loop has come, with the open partitions. -/
def Admission.batches (s : Admission) : List (List Req) :=
  s.microBatches ++ s.partitions.map Partition.reqs

/-- The partition that the turn looks at can hold the request. -/
def Passes (policy : AdmissionPolicy) (s : Admission) (req : Req) : Prop :=
  ∃ A p B, Tested s.partitions A p B ∧ ¬ TooFull policy p.sum p.reqs.length req.inputLen

theorem tokensNeeded_eq (genLen : ℕ) (reqs : List Req) :
    tokensNeeded genLen reqs = (reqs.map fun r => r.inputLen + genLen).sum := by
  induction reqs with
  | nil => simp [tokensNeeded]
  | cons r reqs ih =>
      rw [List.map_cons, List.sum_cons, ← ih]
      simp only [tokensNeeded, List.map_cons, List.sum_cons, List.length_cons, Nat.succ_mul]
      omega

theorem tokensNeeded_perm {genLen : ℕ} {reqs reqs' : List Req} (h : reqs.Perm reqs') :
    tokensNeeded genLen reqs = tokensNeeded genLen reqs' := by
  rw [tokensNeeded_eq, tokensNeeded_eq, (h.map _).sum_eq]

theorem tokensNeeded_append (genLen : ℕ) (reqs reqs' : List Req) :
    tokensNeeded genLen (reqs ++ reqs') = tokensNeeded genLen reqs + tokensNeeded genLen reqs' := by
  simp only [tokensNeeded_eq, List.map_append, List.sum_append]

/-- A request takes its own tokens at least. -/
theorem le_tokensNeeded {genLen : ℕ} {reqs : List Req} {r : Req} (hr : r ∈ reqs) :
    r.inputLen + genLen ≤ tokensNeeded genLen reqs := by
  rw [tokensNeeded_eq]
  exact List.le_sum_of_mem (List.mem_map_of_mem hr)

theorem totalNeeded_eq (genLen : ℕ) (mbs : List (List Req)) :
    totalNeeded genLen mbs = tokensNeeded genLen mbs.flatten := by
  induction mbs with
  | nil => simp [totalNeeded, tokensNeeded]
  | cons mb mbs ih =>
      rw [List.flatten_cons, tokensNeeded_append, ← ih, totalNeeded, List.map_cons, List.sum_cons]
      rfl

theorem Admission.mem_content {r : Req} (hr : r ∈ s.batches.flatten) : r ∈ s.content := by
  simp only [Admission.batches, List.flatten_append, List.mem_append] at hr
  simp only [Admission.content, List.mem_append, List.flatMap]
  tauto

/-- A turn that admits adds its request. -/
theorem batches_of_passes (h : Passes policy s req) :
    (assign policy s req).batches.flatten.Perm (req :: s.batches.flatten) := by
  rcases h with ⟨A, p, B, htested, hfits⟩
  rw [assign_of_tested htested, if_neg hfits, List.perm_iff_count]
  intro r
  split_ifs with hubs
  · simp only [Admission.batches, htested.split, List.map_append, List.map_cons,
      List.flatten_append, List.flatten_cons, Partition.push_reqs, List.count_append,
      List.count_cons, List.flatten_nil, List.count_nil]
    omega
  · simp only [Admission.batches, htested.split, List.map_append, List.map_cons,
      List.flatten_append, List.flatten_cons, Partition.push_reqs, List.count_append,
      List.count_cons, List.count_nil]
    omega

/-- A turn that does not admit leaves the micro-batches as they are. -/
theorem batches_of_not_passes (h : ¬ Passes policy s req) :
    (assign policy s req).batches = s.batches := by
  by_cases hnil : s.partitions = []
  · rw [assign_of_nil hnil]
    rfl
  · rcases exists_tested hnil with ⟨A, p, B, htested⟩
    have hfull : TooFull policy p.sum p.reqs.length req.inputLen := by
      by_contra hfits
      exact h ⟨A, p, B, htested, hfits⟩
    rw [assign_of_tested htested, if_pos hfull]
    rfl

theorem totalNeeded_assign_le (s : Admission) (req : Req) :
    totalNeeded policy.genLen s.batches ≤
      totalNeeded policy.genLen (assign policy s req).batches := by
  by_cases h : Passes policy s req
  · rw [totalNeeded_eq, totalNeeded_eq, tokensNeeded_perm (batches_of_passes h),
      ← List.singleton_append, tokensNeeded_append]
    exact Nat.le_add_left _ _
  · rw [batches_of_not_passes h]

/-- A request that passes has room alone. -/
theorem Passes.fits (h : Passes policy s req) :
    req.inputLen + policy.genLen ≤ policy.cacheCapacity := by
  rcases h with ⟨A, p, B, -, hfits⟩
  have hone : policy.genLen ≤ (1 + p.reqs.length) * policy.genLen :=
    Nat.le_mul_of_pos_left _ (by omega)
  rw [TooFull] at hfits
  omega

theorem Passes.partitions_ne_nil (h : Passes policy s req) : s.partitions ≠ [] := by
  rcases h with ⟨A, p, B, htested, -⟩
  rw [htested.split]
  simp

end Needed

section Loop

variable {policy : AdmissionPolicy} {reqQueue before : List Req}

theorem length_flatten_le {u : ℕ} {mbs : List (List Req)} (h : ∀ mb ∈ mbs, mb.length ≤ u) :
    mbs.flatten.length ≤ mbs.length * u := by
  have hsum := List.sum_le_card_nsmul (mbs.map List.length) u (by simpa using h)
  simpa [List.length_flatten] using hsum

/-- While a partition is open there is a place left. -/
theorem length_lt_of_open (hubs : 1 ≤ policy.ubs) (hopen : (loopAt policy before).partitions ≠ []) :
    (loopAt policy before).batches.flatten.length < policy.nUb * policy.ubs := by
  have hsizes := loopAt_closedAtSize hubs before
  have hcount := loopAt_length policy before
  obtain ⟨p, B, hsplit⟩ := List.exists_cons_of_ne_nil hopen
  have hfull := length_flatten_le fun mb hmb => (hsizes.microBatches mb hmb).le
  have hp : p.reqs.length < policy.ubs := hsizes.partitions p (by simp [hsplit])
  have hB : (B.map Partition.reqs).flatten.length ≤ (B.map Partition.reqs).length * policy.ubs := by
    refine length_flatten_le fun mb hmb => ?_
    obtain ⟨q, hq, rfl⟩ := List.mem_map.mp hmb
    exact (hsizes.partitions q (by simp [hsplit, hq])).le
  rw [hsplit, List.length_cons] at hcount
  rw [List.length_map] at hB
  simp only [Admission.batches, hsplit, List.map_cons, List.flatten_append, List.flatten_cons,
    List.length_append]
  calc (loopAt policy before).microBatches.flatten.length +
        (p.reqs.length + (B.map Partition.reqs).flatten.length)
      < (loopAt policy before).microBatches.length * policy.ubs +
          (policy.ubs + B.length * policy.ubs) := by omega
    _ = policy.nUb * policy.ubs := by rw [← hcount]; ring

/-- When all partitions are closed every place is taken. -/
theorem length_of_closed (hubs : 1 ≤ policy.ubs)
    (hclosed : (loopAt policy before).partitions = []) :
    (loopAt policy before).batches.flatten.length = policy.nUb * policy.ubs := by
  have hcount := loopAt_length policy before
  have hfull : ∀ n ∈ (loopAt policy before).microBatches.map List.length, n = policy.ubs := by
    simpa using (loopAt_closedAtSize hubs before).microBatches
  rw [hclosed, List.length_nil, Nat.add_zero] at hcount
  rw [Admission.batches, hclosed, List.map_nil, List.append_nil, List.length_flatten,
    List.sum_eq_card_nsmul _ _ hfull, List.length_map, hcount, smul_eq_mul]

/-- With two partitions or more, a request that fits alone is refused only if the cache is
overfull with what is admitted, or all of that is one partition without a single token. -/
theorem zero_of_refused (hubs : 1 ≤ policy.ubs) (hnUb : 2 ≤ policy.nUb) {req : Req}
    (hlongest : ∀ r ∈ before, req.inputLen ≤ r.inputLen)
    (hfits : req.inputLen + policy.genLen ≤ policy.cacheCapacity)
    (hopen : (loopAt policy before).partitions ≠ [])
    (hroom : totalNeeded policy.genLen (loopAt policy before).batches ≤ policy.cacheCapacity)
    (hrefused : ¬ Passes policy (loopAt policy before) req) :
    (∀ r ∈ (loopAt policy before).batches.flatten, r.inputLen = 0) ∧ req.inputLen = 0 ∧
      policy.cacheCapacity < policy.ubs * policy.genLen := by
  rcases exists_tested hopen with ⟨A, p, B, htested⟩
  have hfull : TooFull policy p.sum p.reqs.length req.inputLen := by
    by_contra hfits
    exact hrefused ⟨A, p, B, htested, hfits⟩
  have hsizes := loopAt_closedAtSize hubs before
  have hcount := loopAt_length policy before
  have hbefore : ∀ r ∈ (loopAt policy before).batches.flatten, req.inputLen ≤ r.inputLen :=
    fun r hr => hlongest r (mem_of_loopAt (Admission.mem_content hr))
  let others := (loopAt policy before).microBatches ++ (A ++ B).map Partition.reqs
  have hbatches : (loopAt policy before).batches.flatten.Perm (p.reqs ++ others.flatten) := by
    rw [List.perm_iff_count]
    intro r
    simp only [Admission.batches, others, htested.split, List.map_append, List.map_cons,
      List.flatten_append, List.flatten_cons, List.count_append]
    omega
  have hneeded : tokensNeeded policy.genLen p.reqs + req.inputLen + policy.genLen >
      policy.cacheCapacity := by
    rw [TooFull, Nat.add_mul] at hfull
    rw [tokensNeeded, ← p.sum_eq]
    omega
  -- Any other request is as long as this one, and then the cache is overfull.
  have hothers : others.flatten = [] := by
    by_contra hne
    obtain ⟨r, rest, hr⟩ := List.exists_cons_of_ne_nil hne
    have hmem : r ∈ others.flatten := by simp [hr]
    have hlen : req.inputLen ≤ r.inputLen :=
      hbefore r (hbatches.symm.subset (List.mem_append_right _ hmem))
    have hle : r.inputLen + policy.genLen ≤ tokensNeeded policy.genLen others.flatten :=
      le_tokensNeeded hmem
    rw [totalNeeded_eq, tokensNeeded_perm hbatches, tokensNeeded_append] at hroom
    omega
  -- So another partition is empty, and the one looked at has the smallest sum.
  have hempty : ∃ q ∈ (loopAt policy before).partitions, q.reqs = [] := by
    have hnone : ∀ mb ∈ others, mb = [] := List.flatten_eq_nil_iff.mp hothers
    have hfullNone : (loopAt policy before).microBatches = [] := by
      rw [List.eq_nil_iff_forall_not_mem]
      intro mb hmb
      have hlength := hsizes.microBatches mb hmb
      rw [hnone mb (List.mem_append_left _ hmb), List.length_nil] at hlength
      omega
    have hAB : A ++ B ≠ [] := by
      intro hnil
      have hsplit := congrArg List.length htested.split
      rw [List.length_append, List.length_cons] at hsplit
      have hlength := congrArg List.length hnil
      rw [List.length_append, List.length_nil] at hlength
      rw [hfullNone, List.length_nil] at hcount
      omega
    obtain ⟨q, rest, hq⟩ := List.exists_cons_of_ne_nil hAB
    have hmem : q ∈ A ++ B := by simp [hq]
    refine ⟨q, ?_, hnone _ (List.mem_append_right _ (List.mem_map_of_mem hmem))⟩
    rw [htested.split]
    rcases List.mem_append.mp hmem with h | h
    · exact List.mem_append_left _ h
    · exact List.mem_append_right _ (List.mem_cons_of_mem _ h)
  obtain ⟨q, hq, hqnil⟩ := hempty
  have hsum : p.sum = 0 := by
    have hle := htested.sum_le q hq
    rw [q.sum_eq, hqnil] at hle
    simpa using hle
  have hzero : ∀ r ∈ p.reqs, r.inputLen = 0 := by
    rw [p.sum_eq, List.sum_eq_zero_iff] at hsum
    simpa using hsum
  have hpne : p.reqs ≠ [] := by
    intro hnil
    rw [hnil, tokensNeeded] at hneeded
    simp at hneeded
    omega
  obtain ⟨r, rest, hr⟩ := List.exists_cons_of_ne_nil hpne
  have hmem : r ∈ p.reqs := by simp [hr]
  have hplen : 1 + p.reqs.length ≤ policy.ubs := by
    have := hsizes.partitions p (by simp [htested.split])
    omega
  have houtputs := Nat.mul_le_mul_right policy.genLen hplen
  have hreq : req.inputLen = 0 := by
    have hle := hbefore r (hbatches.symm.subset (List.mem_append_left _ hmem))
    rw [hzero r hmem] at hle
    exact Nat.le_zero.mp hle
  refine ⟨fun r hr => ?_, hreq, ?_⟩
  · rw [hbatches.mem_iff, hothers, List.append_nil] at hr
    exact hzero r hr
  · rw [TooFull, hsum, hreq] at hfull
    omega

end Loop

section Fits

variable {policy : AdmissionPolicy} {reqQueue : List Req}

/-- The requests that have room alone. -/
def fitting (policy : AdmissionPolicy) (reqs : List Req) : List Req :=
  reqs.filter fun r => r.inputLen + policy.genLen ≤ policy.cacheCapacity

/-- The longest of them, as many as there are places in the micro-batches. -/
def longestFitting (policy : AdmissionPolicy) (reqQueue : List Req) : List Req :=
  (fitting policy (sortedByLen reqQueue)).take (policy.nUb * policy.ubs)

/-- The requests that have room alone have no tokens, and a full micro-batch of them has no
room. -/
def OnlyEmpty (policy : AdmissionPolicy) (reqQueue : List Req) : Prop :=
  (∀ r ∈ reqQueue, r.inputLen + policy.genLen ≤ policy.cacheCapacity → r.inputLen = 0) ∧
    policy.cacheCapacity < policy.ubs * policy.genLen

theorem fitting_concat (before : List Req) (req : Req) :
    fitting policy (before ++ [req]) = fitting policy before ++
      if req.inputLen + policy.genLen ≤ policy.cacheCapacity then [req] else [] := by
  rw [fitting, List.filter_append, List.filter_singleton]
  simp [fitting]

/-- While the loop is open and within the capacity, it refuses a request that has room alone only
where the requests before it that have room, and those behind it, have no tokens. -/
theorem onlyEmpty_of_refused (hubs : 1 ≤ policy.ubs) (hnUb : 2 ≤ policy.nUb)
    {before after : List Req} {req : Req} (hsplit : sortedByLen reqQueue = before ++ req :: after)
    (hperm : (loopAt policy before).batches.flatten.Perm (fitting policy before))
    (hfits : req.inputLen + policy.genLen ≤ policy.cacheCapacity)
    (hopen : (loopAt policy before).partitions ≠ [])
    (hroom : totalNeeded policy.genLen (loopAt policy before).batches ≤ policy.cacheCapacity)
    (hpass : ¬ Passes policy (loopAt policy before) req) : OnlyEmpty policy reqQueue := by
  have hsorted := pairwise_sortedByLen reqQueue
  rw [hsplit, List.pairwise_append] at hsorted
  have hlongest : ∀ r ∈ before, req.inputLen ≤ r.inputLen :=
    fun r hr => hsorted.2.2 r hr req List.mem_cons_self
  obtain ⟨hzero, hreq, htight⟩ := zero_of_refused hubs hnUb hlongest hfits hopen hroom hpass
  refine ⟨fun r hr hone => ?_, htight⟩
  have hmem : r ∈ before ++ req :: after := by
    rw [← hsplit]
    exact (List.perm_insertionSort _ reqQueue).symm.subset hr
  rcases List.mem_append.mp hmem with hbefore | hafter
  · exact hzero r (hperm.symm.subset (List.mem_filter.mpr ⟨hbefore, by simpa using hone⟩))
  · rcases List.mem_cons.mp hafter with rfl | hafter
    · exact hreq
    · have hle := (List.pairwise_cons.mp hsorted.2.1).1 r hafter
      omega

/-- While what it admits stays within the capacity, the loop admits what has room alone, as
far as there are places. -/
theorem loopAt_perm (hubs : 1 ≤ policy.ubs) (hnUb : 2 ≤ policy.nUb)
    (hcond : ¬ OnlyEmpty policy reqQueue) {before after : List Req}
    (hsplit : sortedByLen reqQueue = before ++ after)
    (hroom : totalNeeded policy.genLen (loopAt policy before).batches ≤ policy.cacheCapacity) :
    (loopAt policy before).batches.flatten.Perm
      ((fitting policy before).take (policy.nUb * policy.ubs)) := by
  induction before using List.reverseRecOn generalizing after with
  | nil => simp [loopAt, Admission.batches, fitting]
  | append_singleton before req ih =>
      have hsplit' : sortedByLen reqQueue = before ++ req :: after := by simpa using hsplit
      rw [loopAt_concat] at hroom ⊢
      have hroom' := (totalNeeded_assign_le _ req).trans hroom
      have hperm := ih hsplit' hroom'
      have hlength := hperm.length_eq
      rw [List.length_take] at hlength
      rw [fitting_concat]
      by_cases hpass : Passes policy (loopAt policy before) req
      · have hopen := length_lt_of_open hubs hpass.partitions_ne_nil
        have hall : (fitting policy before).take (policy.nUb * policy.ubs) =
            fitting policy before := List.take_of_length_le (by omega)
        rw [if_pos hpass.fits, List.take_of_length_le (by simp; omega)]
        rw [hall] at hperm
        exact (batches_of_passes hpass).trans
          ((hperm.cons req).trans (List.perm_append_singleton req _).symm)
      · rw [batches_of_not_passes hpass]
        split_ifs with hfits
        · by_cases hclosed : (loopAt policy before).partitions = []
          · have htaken := length_of_closed hubs hclosed
            rwa [List.take_append_of_le_length (by omega)]
          · have hopen := length_lt_of_open hubs hclosed
            rw [List.take_of_length_le (by omega)] at hperm
            exact absurd
              (onlyEmpty_of_refused hubs hnUb hsplit' hperm hfits hclosed hroom' hpass) hcond
        · rwa [List.append_nil]

theorem batches_greedy (policy : AdmissionPolicy) (hlong : policy.ubs ≤ reqQueue.length) :
    (createMicroBatches policy reqQueue).1 = (loopAt policy (sortedByLen reqQueue)).batches := by
  rw [createMicroBatches, if_neg (not_lt.mpr hlong)]
  rfl

/-- Each micro-batch is within the capacity alone, so all are within as many of them. -/
theorem totalNeeded_le_mul (policy : AdmissionPolicy) (hlong : policy.ubs ≤ reqQueue.length) :
    totalNeeded policy.genLen (createMicroBatches policy reqQueue).1 ≤
      policy.nUb * policy.cacheCapacity := by
  have hroom : ∀ n ∈ (createMicroBatches policy reqQueue).1.map (tokensNeeded policy.genLen),
      n ≤ policy.cacheCapacity := by
    intro n hn
    rcases List.mem_map.mp hn with ⟨mb, hmb, rfl⟩
    exact createMicroBatches_hasRoom (not_lt.mpr hlong) hmb
  have hsum := List.sum_le_card_nsmul _ _ hroom
  rwa [List.length_map, createMicroBatches_length, if_neg (not_lt.mpr hlong), smul_eq_mul] at hsum

/-- The micro-batches take no more than the longest requests that have room alone. -/
theorem totalNeeded_le_longest (hubs : 1 ≤ policy.ubs) (hlong : policy.ubs ≤ reqQueue.length) :
    totalNeeded policy.genLen (createMicroBatches policy reqQueue).1 ≤
      tokensNeeded policy.genLen (longestFitting policy reqQueue) := by
  let admitted := (createMicroBatches policy reqQueue).1.flatten
  have hfits : ∀ r ∈ admitted, r.inputLen + policy.genLen ≤ policy.cacheCapacity := by
    intro r hr
    obtain ⟨mb, hmb, hr⟩ := List.mem_flatten.mp hr
    exact (le_tokensNeeded hr).trans (createMicroBatches_hasRoom (not_lt.mpr hlong) hmb)
  have hsub : admitted.Subperm (sortedByLen reqQueue) := by
    obtain ⟨aborted, -, hperm⟩ := createMicroBatches_perm policy reqQueue
    have hqueue : admitted.Subperm reqQueue :=
      (List.sublist_append_right aborted admitted).subperm.trans hperm.subperm
    exact hqueue.trans (List.perm_insertionSort _ reqQueue).symm.subperm
  have hfitting : admitted.Subperm (fitting policy (sortedByLen reqQueue)) := by
    have hfilter := hsub.filter fun r => r.inputLen + policy.genLen ≤ policy.cacheCapacity
    rwa [List.filter_eq_self.mpr (by simpa using hfits)] at hfilter
  have hdesc : (fitting policy (sortedByLen reqQueue)).Pairwise fun a b =>
      b.inputLen + policy.genLen ≤ a.inputLen + policy.genLen :=
    ((pairwise_sortedByLen reqQueue).filter _).imp fun h => Nat.add_le_add_right h _
  have hlength : admitted.length ≤ policy.nUb * policy.ubs := by
    have hle : admitted.length ≤ (createMicroBatches policy reqQueue).1.length * policy.ubs :=
      length_flatten_le fun mb hmb => length_le_of_createMicroBatches hubs hmb
    rwa [createMicroBatches_length, if_neg (not_lt.mpr hlong)] at hle
  rw [totalNeeded_eq, tokensNeeded_eq, tokensNeeded_eq]
  exact sum_map_le_take_of_subperm hfitting hdesc hlength

/-- Requests without tokens all go to the first partition, until it has no room. -/
def FirstOnly (policy : AdmissionPolicy) (s : Admission) : Prop :=
  s.microBatches = [] ∧ ∃ p B, s.partitions = p :: B ∧ p.sum = 0 ∧ (∀ q ∈ B, q.reqs = []) ∧
    p.reqs.length * policy.genLen ≤ policy.cacheCapacity

theorem FirstOnly.assign (htight : policy.cacheCapacity < policy.ubs * policy.genLen)
    {s : Admission} (h : FirstOnly policy s) {req : Req}
    (hreq : req.inputLen + policy.genLen ≤ policy.cacheCapacity → req.inputLen = 0) :
    FirstOnly policy (assign policy s req) := by
  obtain ⟨hnone, p, B, hsplit, hsum, hB, hroom⟩ := h
  have htested : Tested s.partitions [] p B :=
    ⟨hsplit, by simp, fun q _ => hsum ▸ Nat.zero_le _⟩
  rw [assign_of_tested htested]
  split_ifs with hfull hubs
  · exact ⟨hnone, p, B, hsplit, hsum, hB, hroom⟩
  · rw [TooFull, hsum, Nat.add_comm 1, hubs] at hfull
    omega
  · have hfits : (p.reqs.length + 1) * policy.genLen + req.inputLen ≤ policy.cacheCapacity := by
      rw [TooFull, hsum, Nat.add_comm 1] at hfull
      omega
    have hzero : req.inputLen = 0 := by
      refine hreq ?_
      have hone : policy.genLen ≤ (p.reqs.length + 1) * policy.genLen :=
        Nat.le_mul_of_pos_left _ (by omega)
      omega
    refine ⟨hnone, p.push req, B, rfl, ?_, hB, ?_⟩
    · simp [Partition.push, hsum, hzero]
    · rw [Partition.push_reqs, List.length_append, List.length_singleton]
      omega

theorem FirstOnly.totalNeeded_le {s : Admission} (h : FirstOnly policy s) :
    totalNeeded policy.genLen s.batches ≤ policy.cacheCapacity := by
  obtain ⟨hnone, p, B, hsplit, hsum, hB, hroom⟩ := h
  have hempty : (B.map Partition.reqs).flatten = [] := by
    rw [List.flatten_eq_nil_iff]
    simpa using hB
  rw [totalNeeded_eq, Admission.batches, hnone, hsplit, List.nil_append, List.map_cons,
    List.flatten_cons, hempty, List.append_nil, tokensNeeded, ← p.sum_eq, hsum, Nat.zero_add]
  exact hroom

theorem totalNeeded_of_onlyEmpty (hnUb : 1 ≤ policy.nUb) (hlong : policy.ubs ≤ reqQueue.length)
    (h : OnlyEmpty policy reqQueue) :
    totalNeeded policy.genLen (createMicroBatches policy reqQueue).1 ≤ policy.cacheCapacity := by
  rw [batches_greedy policy hlong]
  apply FirstOnly.totalNeeded_le
  refine foldl_preserves (fun s req hreq hs => hs.assign h.2 (h.1 req ?_)) ?_
  · exact (List.perm_insertionSort _ reqQueue).subset hreq
  · obtain ⟨m, hm⟩ : ∃ m, policy.nUb = m + 1 := ⟨policy.nUb - 1, by omega⟩
    refine ⟨rfl, .empty, List.replicate m .empty, by rw [hm, List.replicate_succ], rfl, ?_, ?_⟩
    · intro q hq
      rw [List.eq_of_mem_replicate hq]
      rfl
    · simp

/-- When the micro-batches are within a capacity together. -/
theorem totalNeeded_le_iff (hubs : 1 ≤ policy.ubs) (hnUb : 1 ≤ policy.nUb)
    (hlong : policy.ubs ≤ reqQueue.length) :
    totalNeeded policy.genLen (createMicroBatches policy reqQueue).1 ≤ policy.cacheCapacity ↔
      policy.nUb = 1 ∨
      tokensNeeded policy.genLen (longestFitting policy reqQueue) ≤ policy.cacheCapacity ∨
      OnlyEmpty policy reqQueue := by
  constructor
  · intro h
    by_contra hcond
    simp only [not_or] at hcond
    rw [batches_greedy policy hlong] at h
    have hperm := loopAt_perm hubs (show 2 ≤ policy.nUb by omega) hcond.2.2
      (List.append_nil _).symm h
    rw [totalNeeded_eq, tokensNeeded_perm hperm] at h
    exact hcond.2.1 h
  · rintro (hone | hlongest | hempty)
    · have hle := totalNeeded_le_mul policy hlong
      rwa [hone, Nat.one_mul] at hle
    · exact (totalNeeded_le_longest hubs hlong).trans hlongest
    · exact totalNeeded_of_onlyEmpty hnUb hlong hempty

end Fits

section Results

/-- **The micro-batches fit into the cache together just when there is one of them, or the
longest requests that have room alone fit together, as many as there are places, or none of
these has a token and one partition takes all that have room.** Without that they are within
the capacity each. -/
theorem admitted_fits_iff (e : PagedEngine cfg κ) (kvCacheOverrideCapacity : Option ℤ)
    (reqQueue : List Req) (hlong : cfg.ubs ≤ reqQueue.length) :
    let capacity := calculatePagedCacheCapacity kvCacheOverrideCapacity (some e)
    let policy := pagedPolicy cfg capacity
    ((totalNeeded cfg.genLen (createMicroBatches policy reqQueue).1 : ℤ) ≤ capacity ↔
      0 ≤ capacity ∧ (cfg.nUb = 1 ∨
        (tokensNeeded cfg.genLen (longestFitting policy reqQueue) : ℤ) ≤ capacity ∨
        OnlyEmpty policy reqQueue)) ∧
    totalNeeded cfg.genLen (createMicroBatches policy reqQueue).1 ≤ cfg.nUb * capacity.toNat := by
  intro capacity policy
  refine ⟨?_, totalNeeded_le_mul policy hlong⟩
  have hiff : totalNeeded cfg.genLen (createMicroBatches policy reqQueue).1 ≤ capacity.toNat ↔
      cfg.nUb = 1 ∨ tokensNeeded cfg.genLen (longestFitting policy reqQueue) ≤ capacity.toNat ∨
        OnlyEmpty policy reqQueue :=
    @totalNeeded_le_iff policy reqQueue cfg.ubs_pos cfg.nUb_pos hlong
  constructor
  · intro h
    have hnonneg : 0 ≤ capacity := (Int.natCast_nonneg _).trans h
    rw [← Int.le_toNat hnonneg] at h ⊢
    exact ⟨hnonneg, hiff.mp h⟩
  · rintro ⟨hnonneg, h⟩
    rw [← Int.le_toNat hnonneg] at h ⊢
    exact hiff.mpr h

/-- Two layers, with four blocks of two tokens on each device. -/
def fourBlocks : PagedEngine (.small 3 (Nat.succ_pos 2)) ℕ where
  memory := ⟨⟨2, 1, 1, 2⟩, 2, 4, [4, 4], List.replicate 2 (.new 4 2), List.replicate 2 (.new 4 2)⟩
  gpu_length := rfl
  cpu_length := rfl

/-- Three requests of five tokens. -/
def fiveTokens : List Req :=
  ["a", "b", "c"].map fun rid => .new 100 ⟨3, false, true⟩ rid [5, 6, 7, 8, 9]

/-- Three requests of one token. -/
def oneTokenReqs : List Req :=
  ["a", "b", "c"].map fun rid => .new 100 ⟨3, false, true⟩ rid [5]

/-- Three requests of one token take the twelve tokens of the cache together. -/
theorem admitted_fits_three :
    (totalNeeded 3 (createMicroBatches (pagedPolicy (.small 3 (by decide))
      (calculatePagedCacheCapacity none (some fourBlocks))) oneTokenReqs).1 : ℤ) ≤ 12 ∧
    totalNeeded 3 (createMicroBatches (pagedPolicy (.small 3 (by decide))
      (calculatePagedCacheCapacity none (some fourBlocks))) fiveTokens).1 ≤ 3 * 12 :=
  ⟨(admitted_fits_iff fourBlocks none oneTokenReqs (by decide)).1.mpr
      ⟨by decide, Or.inr (Or.inl (by decide))⟩,
    (admitted_fits_iff fourBlocks none fiveTokens (by decide)).2⟩

/-- Each of them takes eight of the twelve tokens of the cache, in a partition of its own. -/
theorem admitted_exceeds :
    ¬ ∀ (cfg : EngineConfig) (e : PagedEngine cfg ℕ) (kvCacheOverrideCapacity : Option ℤ)
      (reqQueue : List Req), cfg.ubs ≤ reqQueue.length →
      (totalNeeded cfg.genLen (createMicroBatches (pagedPolicy cfg
        (calculatePagedCacheCapacity kvCacheOverrideCapacity (some e))) reqQueue).1 : ℤ) ≤
          calculatePagedCacheCapacity kvCacheOverrideCapacity (some e) := by
  intro hall
  have hfits := hall (.small 3 (by decide)) fourBlocks none fiveTokens (by decide)
  exact absurd hfits (by decide)

end Results

end HarvestMoE
