import HarvestMoE.Serve

/-!
# Room in the lines of the KV pool

The layout of `prepare_for_prefill` gives every sequence its prompt and `gen_len` rows
after it, all in one cache line. The greedy loop of `create_micro_batches` checks that the
requests of a partition fit; it counts the length a prompt had before it was truncated,
which is on the safe side. A queue shorter than a micro-batch is taken as it is, without a
check.

## Main definitions

* `FitsLine` — the prompts of a micro-batch and the room behind them fit into a line.
* `WithinCapacity` — the open and the full partitions of the greedy loop fit.
* `RowsInside` — the rows that a micro-batch touches are inside its line and the pool.
* `admission_fits_iff` — when the micro-batches fit.
-/

namespace HarvestMoE

open Lib

/-- The prompt lengths of a micro-batch. -/
def promptLens (reqs : List Req) : List ℕ := reqs.map fun r => r.inputIds.length

/-- `sum(len(input_ids)) + len(reqs) * gen_len <= cache_line`. -/
def FitsLine (genLen cacheLine : ℕ) (reqs : List Req) : Prop :=
  (promptLens reqs).sum + reqs.length * genLen ≤ cacheLine

section Greedy

variable {policy : AdmissionPolicy}

/-- What the check of the loop compares, for a partition. -/
def HasRoom (policy : AdmissionPolicy) (reqs : List Req) : Prop :=
  (reqs.map Req.inputLen).sum + reqs.length * policy.genLen ≤ policy.cacheCapacity

/-- All partitions passed the check, the open ones and the full ones. -/
structure WithinCapacity (policy : AdmissionPolicy) (s : Admission) : Prop where
  partitions : ∀ p ∈ s.partitions, HasRoom policy p.reqs
  microBatches : ∀ reqs ∈ s.microBatches, HasRoom policy reqs

/-- A request is pushed when there is room for it. -/
theorem hasRoom_push {p : Partition} {req : Req}
    (h : ¬ p.sum + req.inputLen + (1 + p.reqs.length) * policy.genLen > policy.cacheCapacity) :
    HasRoom policy (p.push req).reqs := by
  have hsum : ((p.push req).reqs.map Req.inputLen).sum = p.sum + req.inputLen :=
    (p.push req).sum_eq.symm
  have hlength : (p.push req).reqs.length = 1 + p.reqs.length := by
    simp [Nat.add_comm]
  rw [HasRoom, hsum, hlength]
  omega

theorem WithinCapacity.assign {s : Admission} (h : WithinCapacity policy s) (req : Req) :
    WithinCapacity policy (assign policy s req) := by
  simp only [HarvestMoE.assign]
  split
  · exact ⟨h.partitions, h.microBatches⟩
  · rename_i p hp
    split_ifs with hfull hubs
    · exact ⟨h.partitions, h.microBatches⟩
    · refine ⟨fun q hq => h.partitions q (List.mem_of_mem_eraseIdx hq), fun reqs hreqs => ?_⟩
      rcases List.mem_append.mp hreqs with hold | hnew
      · exact h.microBatches reqs hold
      · rw [List.mem_singleton.mp hnew]
        exact hasRoom_push hfull
    · refine ⟨fun q hq => ?_, h.microBatches⟩
      rcases List.mem_or_eq_of_mem_set hq with hold | rfl
      · exact h.partitions q hold
      · exact hasRoom_push hfull

/-- The greedy loop never gives a partition more than it can hold. -/
theorem greedy_withinCapacity (policy : AdmissionPolicy) (reqQueue : List Req) :
    WithinCapacity policy (greedy policy reqQueue) := by
  refine foldl_preserves (fun s req _ hs => hs.assign req) ⟨fun p hp => ?_, by simp⟩
  rw [List.eq_of_mem_replicate hp]
  simp [HasRoom]

/-- The micro-batches of the greedy path passed the check. -/
theorem createMicroBatches_hasRoom {reqQueue : List Req} (h : ¬ reqQueue.length < policy.ubs)
    {reqs : List Req} (hreqs : reqs ∈ (createMicroBatches policy reqQueue).1) :
    HasRoom policy reqs := by
  have hgreedy := greedy_withinCapacity policy reqQueue
  rw [createMicroBatches, if_neg h] at hreqs
  rcases List.mem_append.mp hreqs with hfull | hopen
  · exact hgreedy.microBatches reqs hfull
  · obtain ⟨p, hp, rfl⟩ := List.mem_map.mp hopen
    exact hgreedy.partitions p hp

/-- The check is enough when no prompt is longer than it was. -/
theorem HasRoom.fitsLine {reqs : List Req} (h : HasRoom policy reqs)
    (hlen : ∀ r ∈ reqs, r.inputIds.length ≤ r.inputLen) :
    FitsLine policy.genLen policy.cacheCapacity reqs := by
  have hsum : (promptLens reqs).sum ≤ (reqs.map Req.inputLen).sum := List.sum_le_sum hlen
  rw [HasRoom] at h
  rw [FitsLine]
  omega

end Greedy

section Rows

variable {κ : Type*}

/-- The rows that a micro-batch touches: those of the prompt in its line of the GPU, and
in its line of the CPU the rows it stores to, the rows of its sequences, and the last row
of each, which the decode step writes. -/
structure RowsInside (pool : TokenToKVPool κ) (b : KvBatch) : Prop where
  gpuLine : ∀ r ∈ b.outCacheLoc,
    b.cacheLineIdx * pool.cacheLine ≤ r ∧ r < (b.cacheLineIdx + 1) * pool.cacheLine
  gpuLine_lt : b.cacheLineIdx < 2
  stored : (b.cpuKvPoolStartLoc : ℤ) ≤ b.kvPt ∧ b.kvPt ≤ b.cpuKvPoolStartLoc + pool.cacheLine
  read : ∀ q ∈ b.seqs, b.cpuKvPoolStartLoc ≤ q.startLoc ∧
    q.startLoc + q.seqLen ≤ b.cpuKvPoolStartLoc + pool.cacheLine
  written : ∀ q ∈ b.seqs, 0 < q.seqLen → (b.cpuKvPoolStartLoc : ℤ) ≤ q.decodeOutCacheLoc ∧
    q.decodeOutCacheLoc < b.cpuKvPoolStartLoc + pool.cacheLine
  cpuLine : b.cpuKvPoolStartLoc + pool.cacheLine ≤ pool.cpuSize

variable {cfg : EngineConfig} {lens : List (List ℕ)}

/-- Admitted micro-batches stay inside their lines up to the last decode step. -/
theorem Admitted.rowsInside (h : Admitted cfg lens) {k d : ℕ} {l : List ℕ} (hl : lens[k]? = some l)
    (hd : d ≤ cfg.genLen) {pool : TokenToKVPool κ} (hline : pool.cacheLine = cfg.cacheLine)
    (hsize : pool.cpuSize = cfg.nUb * cfg.cacheLine) : RowsInside pool (batchAt cfg d k l) := by
  have hseq : ∀ q ∈ (batchAt cfg d k l).seqs, ∃ i n, q = seqAt cfg k l d i n ∧
      offset (cfg.seqCaps l) i + (n + cfg.genLen) ≤ cfg.cacheLine := by
    intro q hq
    obtain ⟨i, hi, rfl⟩ := List.mem_mapIdx.mp hq
    exact ⟨i, l[i], rfl, h.offset_le hl (List.getElem?_eq_getElem hi)⟩
  refine ⟨fun r hr => ?_, Nat.mod_lt _ (by decide), ?_, fun q hq => ?_, fun q hq hpos => ?_, ?_⟩
  · obtain ⟨i, n, t, hi, ht, rfl⟩ := mem_outCacheLoc.mp hr
    have hin := h.offset_le hl hi
    simp only [batchAt, hline, Nat.succ_mul]
    omega
  · have hend := h.promptEnd_le hl
    simp only [batchAt, hline]
    omega
  · obtain ⟨i, n, rfl, hin⟩ := hseq q hq
    simp only [batchAt, seqAt, hline]
    omega
  · obtain ⟨i, n, rfl, hin⟩ := hseq q hq
    simp only [batchAt, seqAt, hline] at hpos ⊢
    omega
  · rw [hline, hsize]
    exact h.line_le hl

/-- A micro-batch without requests raises. -/
theorem nonempty_of_prepareForPrefill {genLen : ℕ} {pool : TokenToKVPool κ}
    {r : List KvBatch × TokenToKVPool κ} (h : prepareForPrefill genLen pool lens = some r) :
    ∀ l ∈ lens, l ≠ [] := by
  induction lens generalizing pool r with
  | nil => simp
  | cons l lens ih =>
      obtain ⟨⟨b, pool'⟩, hb, hrest⟩ := Option.bind_eq_some_iff.mp h
      obtain ⟨r', hr', -⟩ := Option.map_eq_some_iff.mp hrest
      refine List.forall_mem_cons.mpr ⟨?_, ih hr'⟩
      rintro rfl
      simp [KvBatch.prepareForPrefill, KvBatch.layout, layoutSeqs] at hb

theorem iterate_prepareForDecode (k d : ℕ) (l : List ℕ) :
    KvBatch.prepareForDecode^[d] (batchAt cfg 0 k l) = batchAt cfg d k l := by
  induction d with
  | zero => rfl
  | succ d ih => rw [Function.iterate_succ_apply', ih, prepareForDecode_batch]

/-- Whatever part of the micro-batches is prepared, their rows stay inside through all
decode steps. -/
def AllRowsInside (cfg : EngineConfig) (gpu : ℕ → κ) (cpu : ℕ → ℕ → κ) (mbs : List (List Req)) :
    Prop :=
  ∀ m batches pool, prepareForPrefill cfg.genLen
      (TokenToKVPool.new cfg.gpuTokenBufferSize cfg.cpuTokenPoolSize gpu cpu).clear
      ((mbs.take m).map promptLens) = some (batches, pool) →
    ∀ b ∈ batches, ∀ d ≤ cfg.numDecodeSteps mbs.length,
      RowsInside pool (KvBatch.prepareForDecode^[d] b)

theorem allRowsInside_of_fits {mbs : List (List Req)} (hcount : mbs.length ≤ cfg.nUb)
    (hfits : ∀ mb ∈ mbs, FitsLine cfg.genLen cfg.cacheLine mb) (gpu : ℕ → κ) (cpu : ℕ → ℕ → κ) :
    AllRowsInside cfg gpu cpu mbs := by
  intro m batches pool hprepare b hb d hd
  have hne := nonempty_of_prepareForPrefill hprepare
  have hadm : Admitted cfg ((mbs.take m).map promptLens) := by
    refine ⟨?_, hne, fun l hl => ?_⟩
    · rw [List.length_map]
      exact (List.length_take_le' m mbs).trans hcount
    · obtain ⟨mb, hmb, rfl⟩ := List.mem_map.mp hl
      simpa [FitsLine, promptLens] using hfits mb (List.mem_of_mem_take hmb)
  rw [prepareForPrefill_new hne gpu cpu] at hprepare
  obtain ⟨rfl, rfl⟩ := Prod.mk.inj (Option.some.inj hprepare)
  obtain ⟨k, hk, rfl⟩ := List.mem_mapIdx.mp hb
  rw [iterate_prepareForDecode]
  exact hadm.rowsInside (List.getElem?_eq_getElem hk) (hd.trans (numDecodeSteps_le cfg _)) rfl rfl

end Rows

section Queue

variable {κ : Type*} (cfg : ServeConfig)

/-- The requests that wait after some batch requests have been handled. -/
def queued (recvReqs : List BatchTokenizedGenerateReqInput) : List Req :=
  recvReqs.flatMap (newRequests cfg)

theorem inputIds_length_le {recvReqs : List BatchTokenizedGenerateReqInput} {r : Req}
    (hr : r ∈ queued cfg recvReqs) : r.inputIds.length ≤ r.inputLen := by
  obtain ⟨recvReq, -, hr⟩ := List.mem_flatMap.mp hr
  obtain ⟨p, -, rfl⟩ := List.mem_map.mp hr
  simp [Req.new]

theorem createMicroBatches_of_lt (policy : AdmissionPolicy) {reqQueue : List Req}
    (h : reqQueue.length < policy.ubs) : (createMicroBatches policy reqQueue).1 = [reqQueue] := by
  rw [createMicroBatches, if_pos h]

theorem createMicroBatches_length_le (policy : AdmissionPolicy) (reqQueue : List Req)
    (h : 0 < policy.nUb) : (createMicroBatches policy reqQueue).1.length ≤ policy.nUb := by
  rw [createMicroBatches_length]
  split_ifs
  · exact h
  · exact le_rfl

/-- The micro-batches consist of waiting requests. -/
theorem mem_queue_of_createMicroBatches {policy : AdmissionPolicy} {reqQueue mb : List Req}
    (hmb : mb ∈ (createMicroBatches policy reqQueue).1) {r : Req} (hr : r ∈ mb) : r ∈ reqQueue := by
  obtain ⟨aborted, -, hperm⟩ := createMicroBatches_perm policy reqQueue
  exact hperm.subset (List.mem_append_right _ (List.mem_flatten.mpr ⟨mb, hmb, hr⟩))

/-- Every micro-batch that is made of the waiting requests fits into its line, and the
rows they touch are inside: exactly when there are enough requests for the greedy loop,
or all of them fit into one line. -/
theorem admission_fits_iff (recvReqs : List BatchTokenizedGenerateReqInput) (gpu : ℕ → κ)
    (cpu : ℕ → ℕ → κ) :
    let queue := queued cfg recvReqs
    let mbs := (createMicroBatches (admissionPolicy cfg cfg.engine.cacheLine) queue).1
    ((∀ mb ∈ mbs, FitsLine cfg.engine.genLen cfg.engine.cacheLine mb) ∧
        AllRowsInside cfg.engine gpu cpu mbs) ↔
      cfg.engine.ubs ≤ queue.length ∨ FitsLine cfg.engine.genLen cfg.engine.cacheLine queue := by
  intro queue mbs
  have hmbs : queue.length < cfg.engine.ubs → mbs = [queue] :=
    createMicroBatches_of_lt (admissionPolicy cfg cfg.engine.cacheLine)
  constructor
  · intro h
    by_contra hcond
    have hsmall := hmbs (by omega)
    exact hcond (Or.inr (h.1 queue (by simp [hsmall])))
  · intro hcond
    have hfits : ∀ mb ∈ mbs, FitsLine cfg.engine.genLen cfg.engine.cacheLine mb := by
      intro mb hmb
      by_cases hsmall : queue.length < cfg.engine.ubs
      · rw [hmbs hsmall, List.mem_singleton] at hmb
        rw [hmb]
        exact hcond.resolve_left (by omega)
      · have hroom : HasRoom (admissionPolicy cfg cfg.engine.cacheLine) mb :=
          createMicroBatches_hasRoom hsmall hmb
        exact hroom.fitsLine fun r hr =>
          inputIds_length_le cfg (mem_queue_of_createMicroBatches hmb hr)
    have hcount : mbs.length ≤ cfg.engine.nUb :=
      createMicroBatches_length_le (admissionPolicy cfg cfg.engine.cacheLine) queue cfg.engine.nUb_pos
    exact ⟨hfits, allRowsInside_of_fits hcount hfits gpu cpu⟩

end Queue

/-- One prompt of twelve tokens, for a server with lines of ten rows. -/
theorem admission_overflows :
    ¬ ∀ (cfg : ServeConfig) (recvReqs : List BatchTokenizedGenerateReqInput),
      queued cfg recvReqs ≠ [] →
      (∀ mb ∈ (createMicroBatches (admissionPolicy cfg cfg.engine.cacheLine)
          (queued cfg recvReqs)).1, FitsLine cfg.engine.genLen cfg.engine.cacheLine mb) ∧
        AllRowsInside cfg.engine (fun _ => 0) (fun _ _ => 0)
          (createMicroBatches (admissionPolicy cfg cfg.engine.cacheLine) (queued cfg recvReqs)).1 := by
  intro hall
  let recvReqs : List BatchTokenizedGenerateReqInput :=
    [⟨["a"], [List.replicate 12 7], ⟨5, false, false⟩⟩]
  have hfits := (hall (.small 3 (by decide)) recvReqs (by decide)).1
    (queued (.small 3 (by decide)) recvReqs) (by decide)
  exact absurd hfits (by unfold FitsLine; decide)

end HarvestMoE
