import HarvestMoE.AdmissionCapacity
import HarvestMoE.Lib.Loops

/-!
# What the micro-batches hold

One turn of the greedy loop of `create_micro_batches` looks at one partition: the first of
those with the smallest sum (`Tested`). Micro-batches have at most `ubs` requests, and there
are at most `n_ub` of them (`createMicroBatches_conserves`). But there are always `n_ub` on
the greedy path, also where fewer partitions get a request, and `prepare_for_prefill` raises
at an empty one (`createMicroBatches_nonempty_iff`).

## Main definitions

* `Tested` — the partition a turn looks at.
* `ClosedAtSize` — open partitions have less than `ubs` requests, micro-batches have `ubs`.
* `loopAt` — the loop, when it has worked through some requests.
* `zeroLens` — the partitions that are looked at first.
* `usedPartitions` — how many partitions get a request.
-/

namespace HarvestMoE

open Lib

section Turn

variable {policy : AdmissionPolicy} {s : Admission} {A B : List Partition} {p : Partition}

/-- The partition that a turn looks at: the first with the smallest sum. -/
structure Tested (ps A : List Partition) (p : Partition) (B : List Partition) : Prop where
  split : ps = A ++ p :: B
  before : ∀ q ∈ A, p.sum < q.sum
  after : ∀ q ∈ B, p.sum ≤ q.sum

theorem exists_tested {ps : List Partition} (h : ps ≠ []) : ∃ A p B, Tested ps A p B := by
  induction ps with
  | nil => exact absurd rfl h
  | cons q ps ih =>
      by_cases hnil : ps = []
      · exact ⟨[], q, [], by rw [hnil, List.nil_append], by simp, by simp⟩
      · rcases ih hnil with ⟨A, p, B, hsplit, hbefore, hafter⟩
        by_cases hlt : p.sum < q.sum
        · refine ⟨q :: A, p, B, by rw [hsplit, List.cons_append], ?_, hafter⟩
          exact List.forall_mem_cons.mpr ⟨hlt, hbefore⟩
        · have hle : q.sum ≤ p.sum := not_lt.mp hlt
          refine ⟨[], q, ps, rfl, by simp, fun r hr => ?_⟩
          rw [hsplit, List.mem_append, List.mem_cons] at hr
          rcases hr with hr | rfl | hr
          · exact hle.trans (hbefore r hr).le
          · exact hle
          · exact hle.trans (hafter r hr)

theorem Tested.forall_mem_iff {ps : List Partition} (h : Tested ps A p B)
    {P : Partition → Prop} :
    (∀ q ∈ ps, P q) ↔ (∀ q ∈ A, P q) ∧ P p ∧ ∀ q ∈ B, P q := by
  rw [h.split, List.forall_mem_append, List.forall_mem_cons]

theorem Tested.sum_le {ps : List Partition} (h : Tested ps A p B) : ∀ q ∈ ps, p.sum ≤ q.sum :=
  h.forall_mem_iff.mpr ⟨fun q hq => (h.before q hq).le, le_rfl, h.after⟩

theorem Tested.smallestIdx_eq {ps : List Partition} (h : Tested ps A p B) :
    smallestIdx (ps.map Partition.sum) = A.length := by
  have hmin : (ps.map Partition.sum).min? = some p.sum := by
    rw [List.min?_eq_some_iff]
    exact ⟨List.mem_map_of_mem (by simp [h.split]), List.forall_mem_map.mpr h.sum_le⟩
  have hnot : p.sum ∉ A.map Partition.sum := by
    intro hmem
    rcases List.mem_map.mp hmem with ⟨q, hq, heq⟩
    exact (h.before q hq).ne' heq
  rw [smallestIdx, hmin, Option.getD_some, h.split, List.map_append, List.map_cons,
    List.idxOf_append_of_notMem hnot, List.idxOf_cons_self, List.length_map, Nat.add_zero]

/-- The check of the loop on a partition with `n` requests. -/
def TooFull (policy : AdmissionPolicy) (sum n len : ℕ) : Prop :=
  sum + len + (1 + n) * policy.genLen > policy.cacheCapacity

instance (sum n len : ℕ) : Decidable (TooFull policy sum n len) :=
  inferInstanceAs (Decidable (_ > _))

/-- A turn without open partitions. -/
theorem assign_of_nil (hnil : s.partitions = []) (req : Req) :
    assign policy s req = { s with abortRequests := s.abortRequests ++ [req] } := by
  simp [assign, hnil]

/-- A turn, by the partition it looks at. -/
theorem assign_of_tested (h : Tested s.partitions A p B) (req : Req) :
    assign policy s req =
      if TooFull policy p.sum p.reqs.length req.inputLen then
        { s with abortRequests := s.abortRequests ++ [req] }
      else if p.reqs.length + 1 = policy.ubs then
        { s with microBatches := s.microBatches ++ [(p.push req).reqs], partitions := A ++ B }
      else { s with partitions := A ++ p.push req :: B } := by
  have hget : s.partitions[A.length]? = some p := by
    rw [h.split, List.getElem?_append_right (Nat.le_refl _), Nat.sub_self, List.getElem?_cons_zero]
  have herase : s.partitions.eraseIdx A.length = A ++ B := by
    rw [h.split, List.eraseIdx_append_of_length_le (Nat.le_refl _), Nat.sub_self,
      List.eraseIdx_cons_zero]
  have hset : s.partitions.set A.length (p.push req) = A ++ p.push req :: B := by
    rw [h.split, List.set_append_right _ _ (Nat.le_refl _), Nat.sub_self, List.set_cons_zero]
  simp only [assign, h.smallestIdx_eq, hget, herase, hset, Partition.push_reqs, List.length_append,
    List.length_singleton]
  rfl

end Turn

section Sizes

variable {policy : AdmissionPolicy} {reqQueue : List Req}

/-- Open partitions have less than `ubs` requests, and micro-batches have `ubs`. -/
structure ClosedAtSize (ubs : ℕ) (s : Admission) : Prop where
  partitions : ∀ p ∈ s.partitions, p.reqs.length < ubs
  microBatches : ∀ mb ∈ s.microBatches, mb.length = ubs

theorem ClosedAtSize.assign {s : Admission} (h : ClosedAtSize policy.ubs s) (req : Req) :
    ClosedAtSize policy.ubs (assign policy s req) := by
  by_cases hnil : s.partitions = []
  · rw [assign_of_nil hnil]
    exact ⟨h.partitions, h.microBatches⟩
  · have ⟨A, p, B, htested⟩ := exists_tested hnil
    have ⟨hA, hp, hB⟩ := htested.forall_mem_iff.mp h.partitions
    rw [assign_of_tested htested]
    split_ifs with hfull hubs
    · exact ⟨h.partitions, h.microBatches⟩
    · constructor
      case partitions => exact List.forall_mem_append.mpr ⟨hA, hB⟩
      case microBatches =>
        refine List.forall_mem_append.mpr ⟨h.microBatches, ?_⟩
        rw [List.forall_mem_singleton]
        simpa using hubs
    · constructor
      case partitions =>
        have hpush : (p.push req).reqs.length < policy.ubs := by
          rw [Partition.push_reqs, List.length_append, List.length_singleton]
          omega
        exact List.forall_mem_append.mpr ⟨hA, List.forall_mem_cons.mpr ⟨hpush, hB⟩⟩
      case microBatches => exact h.microBatches

/-- The loop when it has worked through some requests. -/
def loopAt (policy : AdmissionPolicy) (before : List Req) : Admission :=
  before.foldl (assign policy) ⟨List.replicate policy.nUb .empty, [], []⟩

theorem loopAt_concat (before : List Req) (req : Req) :
    loopAt policy (before ++ [req]) = assign policy (loopAt policy before) req := by
  rw [loopAt, List.foldl_append]
  rfl

theorem loopAt_closedAtSize (hubs : 1 ≤ policy.ubs) (before : List Req) :
    ClosedAtSize policy.ubs (loopAt policy before) := by
  refine foldl_preserves (fun s req _ hs => hs.assign req) ⟨fun p hp => ?_, by simp⟩
  rw [List.eq_of_mem_replicate hp]
  exact hubs

theorem loopAt_length (policy : AdmissionPolicy) (before : List Req) :
    (loopAt policy before).microBatches.length + (loopAt policy before).partitions.length =
      policy.nUb := by
  simpa [loopAt] using foldl_assign_length ⟨List.replicate policy.nUb .empty, [], []⟩ before

/-- The loop places the requests it has seen, and no others. -/
theorem mem_of_loopAt {before : List Req} {r : Req} (hr : r ∈ (loopAt policy before).content) :
    r ∈ before := by
  have hperm : (loopAt policy before).content.Perm (before ++
      (⟨List.replicate policy.nUb .empty, [], []⟩ : Admission).content) := foldl_assign_perm _ _
  simpa [Admission.content] using hperm.subset hr

theorem greedy_closedAtSize (hubs : 1 ≤ policy.ubs) (reqQueue : List Req) :
    ClosedAtSize policy.ubs (greedy policy reqQueue) := loopAt_closedAtSize hubs _

/-- Micro-batches have at most `ubs` requests. -/
theorem length_le_of_createMicroBatches (hubs : 1 ≤ policy.ubs) {mb : List Req}
    (hmb : mb ∈ (createMicroBatches policy reqQueue).1) : mb.length ≤ policy.ubs := by
  have hsizes := greedy_closedAtSize hubs reqQueue
  rw [createMicroBatches] at hmb
  split_ifs at hmb with hshort
  · rw [List.mem_singleton.mp hmb]
    exact hshort.le
  · rcases List.mem_append.mp hmb with hfull | hopen
    · exact (hsizes.microBatches mb hfull).le
    · rcases List.mem_map.mp hopen with ⟨p, hp, rfl⟩
      exact (hsizes.partitions p hp).le

/-- Every request of the queue is in one micro-batch or is aborted, as often as it was
waiting; if their ids differ, no id is in two places. Of requests that have not finished, the
aborted ones and no others are marked. There are at most `n_ub` micro-batches, each with at
most `ubs` requests. -/
theorem createMicroBatches_conserves (policy : AdmissionPolicy) (hubs : 1 ≤ policy.ubs)
    (hnUb : 1 ≤ policy.nUb) (reqQueue : List Req) :
    (∃ aborted : List Req, (createMicroBatches policy reqQueue).2 = aborted.map Req.abort ∧
      (aborted ++ (createMicroBatches policy reqQueue).1.flatten).Perm reqQueue) ∧
    ((reqQueue.map Req.rid).Nodup → (((createMicroBatches policy reqQueue).2 ++
      (createMicroBatches policy reqQueue).1.flatten).map Req.rid).Nodup) ∧
    ((∀ r ∈ reqQueue, r.finished = false) → ∀ r ∈ (createMicroBatches policy reqQueue).2 ++
      (createMicroBatches policy reqQueue).1.flatten,
        (r.finished = true ∧ r.finishReason = some .abort ↔
          r ∈ (createMicroBatches policy reqQueue).2)) ∧
    (createMicroBatches policy reqQueue).1.length ≤ policy.nUb ∧
    ∀ mb ∈ (createMicroBatches policy reqQueue).1, mb.length ≤ policy.ubs := by
  have hplaces := createMicroBatches_perm policy reqQueue
  refine ⟨hplaces, ?_, ?_, createMicroBatches_length_le policy reqQueue hnUb,
    fun mb hmb => length_le_of_createMicroBatches hubs hmb⟩
  · intro hnodup
    rcases hplaces with ⟨aborted, habort, hperm⟩
    have hrids : (aborted.map Req.abort).map Req.rid = aborted.map Req.rid := by
      rw [List.map_map]
      rfl
    rw [habort, List.map_append, hrids, ← List.map_append]
    exact (hperm.map Req.rid).nodup_iff.mpr hnodup
  · intro hfresh r hr
    rcases hplaces with ⟨aborted, habort, hperm⟩
    constructor
    · intro hmarked
      refine (List.mem_append.mp hr).resolve_right fun hin => ?_
      have hqueue := hperm.subset (List.mem_append_right aborted hin)
      rw [hfresh r hqueue] at hmarked
      exact Bool.false_ne_true hmarked.1
    · intro hin
      rw [habort] at hin
      rcases List.mem_map.mp hin with ⟨q, -, rfl⟩
      exact ⟨rfl, rfl⟩

/-- Three requests, for two micro-batches of two. -/
def threeWaiting : List Req :=
  [.new 100 ⟨4, false, true⟩ "a" [5, 6], .new 100 ⟨4, false, true⟩ "b" [5, 6, 8, 9],
    .new 100 ⟨4, false, true⟩ "c" [5]]

theorem createMicroBatches_conserves_three :
    (((createMicroBatches ⟨2, 2, 3, 10⟩ threeWaiting).2 ++
      (createMicroBatches ⟨2, 2, 3, 10⟩ threeWaiting).1.flatten).map Req.rid).Nodup ∧
    (createMicroBatches ⟨2, 2, 3, 10⟩ threeWaiting).1.length ≤ 2 :=
  have h := createMicroBatches_conserves ⟨2, 2, 3, 10⟩ (by decide) (by decide) threeWaiting
  ⟨h.2.1 (by decide), h.2.2.2.1⟩

end Sizes

section Empty

variable {policy : AdmissionPolicy} {reqQueue : List Req}

/-- How many requests the open partitions of sum 0 hold. -/
def zeroLens (ps : List Partition) : List ℕ :=
  (ps.filter fun p => p.sum = 0).map fun p => p.reqs.length

/-- What a turn with a request of a length does to these. -/
def zeroTurn (policy : AdmissionPolicy) : List ℕ → ℕ → List ℕ
  | [], _ => []
  | n :: ns, len =>
      if TooFull policy 0 n len then n :: ns
      else if n + 1 = policy.ubs then ns
      else if len = 0 then (n + 1) :: ns
      else ns

theorem zeroLens_of_pos {ps : List Partition} (h : ∀ p ∈ ps, 0 < p.sum) : zeroLens ps = [] := by
  rw [zeroLens, List.filter_eq_nil_iff.mpr fun p hp => by simpa using (h p hp).ne', List.map_nil]

theorem zeroLens_append (ps qs : List Partition) :
    zeroLens (ps ++ qs) = zeroLens ps ++ zeroLens qs := by
  rw [zeroLens, List.filter_append, List.map_append]
  rfl

theorem zeroLens_cons (p : Partition) (ps : List Partition) :
    zeroLens (p :: ps) = if p.sum = 0 then p.reqs.length :: zeroLens ps else zeroLens ps := by
  by_cases h : p.sum = 0 <;> simp [zeroLens, h]

/-- A turn looks at a partition of sum 0 while there is one. -/
theorem zeroLens_assign (s : Admission) (req : Req) :
    zeroLens (assign policy s req).partitions =
      zeroTurn policy (zeroLens s.partitions) req.inputLen := by
  by_cases hnil : s.partitions = []
  · rw [assign_of_nil hnil, hnil]
    rfl
  · rcases exists_tested hnil with ⟨A, p, B, h⟩
    by_cases hzero : p.sum = 0
    · have hA : zeroLens A = [] := zeroLens_of_pos fun q hq => hzero ▸ h.before q hq
      have hpush : (p.push req).sum = req.inputLen := by simp [Partition.push, hzero]
      rw [assign_of_tested h, hzero, h.split, zeroLens_append, zeroLens_cons, hA, if_pos hzero,
        List.nil_append, zeroTurn]
      split_ifs with hfull hubs hlen
      · rw [zeroLens_append, zeroLens_cons, hA, if_pos hzero, List.nil_append]
      · rw [zeroLens_append, hA, List.nil_append]
      · rw [zeroLens_append, zeroLens_cons, hA, if_pos (hpush.trans hlen), Partition.push_reqs,
          List.length_append, List.length_singleton, List.nil_append]
      · rw [zeroLens_append, zeroLens_cons, hA, if_neg (by rwa [hpush]), List.nil_append]
    · -- All sums are positive, and stay so.
      have hp : 0 < p.sum := Nat.pos_of_ne_zero hzero
      have hA : ∀ q ∈ A, 0 < q.sum := fun q hq => hp.trans (h.before q hq)
      have hB : ∀ q ∈ B, 0 < q.sum := fun q hq => hp.trans_le (h.after q hq)
      have hpos := h.forall_mem_iff.mpr ⟨hA, hp, hB⟩
      rw [zeroLens_of_pos hpos, assign_of_tested h, zeroTurn]
      split_ifs
      · exact zeroLens_of_pos hpos
      · exact zeroLens_of_pos (List.forall_mem_append.mpr ⟨hA, hB⟩)
      · have hpush : 0 < (p.push req).sum := hp.trans_le (Nat.le_add_right _ _)
        apply zeroLens_of_pos
        exact List.forall_mem_append.mpr ⟨hA, List.forall_mem_cons.mpr ⟨hpush, hB⟩⟩

/-- The partitions of sum 0 after the loop depend on the lengths of the sorted queue. -/
theorem zeroLens_greedy :
    zeroLens (greedy policy reqQueue).partitions =
      ((sortedByLen reqQueue).map Req.inputLen).foldl (zeroTurn policy)
        (List.replicate policy.nUb 0) := by
  have hrun : ∀ (reqs : List Req) (s : Admission),
      zeroLens (reqs.foldl (assign policy) s).partitions =
        (reqs.map Req.inputLen).foldl (zeroTurn policy) (zeroLens s.partitions) := by
    intro reqs
    induction reqs with
    | nil => exact fun s => rfl
    | cons req reqs ih =>
        intro s
        rw [List.foldl_cons, ih, zeroLens_assign, List.map_cons, List.foldl_cons]
  rw [greedy, hrun]
  congr 1
  simp [zeroLens, Partition.empty]

/-- The partitions that a number of requests without tokens fill: `ubs` go into one, if there
is room for their outputs. -/
def zeroLenPartitions (policy : AdmissionPolicy) (n : ℕ) : ℕ :=
  if policy.ubs * policy.genLen ≤ policy.cacheCapacity then (n + policy.ubs - 1) / policy.ubs
  else if policy.genLen ≤ policy.cacheCapacity then min n 1
  else 0

/-- The partitions that get a request: one for each request with tokens that has room alone,
as far as there are partitions, and those that the requests without tokens fill. -/
def usedPartitions (policy : AdmissionPolicy) (reqQueue : List Req) : ℕ :=
  reqQueue.countP (fun r => 0 < r.inputLen ∧
    r.inputLen + policy.genLen ≤ policy.cacheCapacity) +
  zeroLenPartitions policy (reqQueue.countP fun r => r.inputLen = 0)

theorem tooFull_zero {n len : ℕ} :
    TooFull policy 0 n len ↔ policy.cacheCapacity < len + (1 + n) * policy.genLen := by
  rw [TooFull, Nat.zero_add]

/-- Requests with tokens that have room alone take an empty partition each. -/
theorem foldl_zeroTurn_pos {lens : List ℕ} (hpos : ∀ len ∈ lens, 0 < len) (e : ℕ) :
    lens.foldl (zeroTurn policy) (List.replicate e 0) =
      List.replicate (e - lens.countP fun len => len + policy.genLen ≤ policy.cacheCapacity) 0 := by
  induction lens generalizing e with
  | nil => rfl
  | cons len lens ih =>
      have hlen : ¬ len = 0 := (hpos len List.mem_cons_self).ne'
      have hrest := ih fun len hmem => hpos len (List.mem_cons_of_mem _ hmem)
      rw [List.foldl_cons, List.countP_cons]
      cases e with
      | zero => rw [List.replicate_zero, zeroTurn, ← List.replicate_zero, hrest]; simp
      | succ e =>
          rw [List.replicate_succ, zeroTurn, if_neg hlen, ite_self]
          by_cases hfits : len + policy.genLen ≤ policy.cacheCapacity
          · rw [if_neg (by rw [tooFull_zero]; omega), hrest]
            simp only [hfits, decide_true, if_true]
            congr 1
            omega
          · rw [if_pos (by rw [tooFull_zero]; omega), ← List.replicate_succ, hrest]
            simp [hfits]

/-- The partitions of sum 0, when `q` of `e` are full and the next one holds `j`. -/
def filledTo (e q j : ℕ) : List ℕ := if e ≤ q then [] else j :: List.replicate (e - q - 1) 0

theorem filledTo_zero (e : ℕ) : filledTo e 0 0 = List.replicate e 0 := by
  cases e with
  | zero => rfl
  | succ e => rw [filledTo, if_neg (by omega), List.replicate_succ, Nat.sub_zero, Nat.add_sub_cancel]

theorem count_filledTo (e q j : ℕ) :
    (filledTo e q j).count 0 = e - (q + if j = 0 then 0 else 1) := by
  rw [filledTo]
  by_cases hle : e ≤ q
  · rw [if_pos hle, List.count_nil]
    omega
  · rw [if_neg hle, List.count_cons, List.count_replicate_self]
    by_cases hj : j = 0
    · simp only [hj, BEq.rfl, if_true]
      omega
    · simp only [hj, beq_iff_eq, if_false]
      omega

/-- Where a full partition has room for its outputs, requests without tokens fill one after
the other. -/
theorem zeroTurn_filledTo (hroom : policy.ubs * policy.genLen ≤ policy.cacheCapacity) {e q j : ℕ}
    (hj : j < policy.ubs) :
    zeroTurn policy (filledTo e q j) 0 =
      if j + 1 = policy.ubs then filledTo e (q + 1) 0 else filledTo e q (j + 1) := by
  have hfits : ¬ TooFull policy 0 j 0 := by
    have hle : (1 + j) * policy.genLen ≤ policy.ubs * policy.genLen :=
      Nat.mul_le_mul_right _ (by omega)
    rw [tooFull_zero]
    omega
  by_cases hle : e ≤ q
  · have hle' : e ≤ q + 1 := by omega
    simp only [filledTo, if_pos hle, if_pos hle', zeroTurn, ite_self]
  · have hone : filledTo e q j = j :: List.replicate (e - q - 1) 0 := if_neg hle
    have hnext : filledTo e (q + 1) 0 = List.replicate (e - q - 1) 0 := by
      rw [filledTo]
      split_ifs with hlast
      · rw [show e - q - 1 = 0 by omega, List.replicate_zero]
      · rw [show e - q - 1 = e - (q + 1) - 1 + 1 by omega, List.replicate_succ]
    rw [hone, zeroTurn, if_neg hfits, if_pos rfl, hnext]
    simp only [filledTo, if_neg hle]

theorem foldl_zeroTurn_room (hubs : 1 ≤ policy.ubs)
    (hroom : policy.ubs * policy.genLen ≤ policy.cacheCapacity) (e n : ℕ) :
    ∃ q j, n = q * policy.ubs + j ∧ j < policy.ubs ∧
      (List.replicate n 0).foldl (zeroTurn policy) (List.replicate e 0) = filledTo e q j := by
  induction n with
  | zero => exact ⟨0, 0, by omega, hubs, (filledTo_zero e).symm⟩
  | succ n ih =>
      rcases ih with ⟨q, j, hn, hj, hrun⟩
      rw [List.replicate_succ', List.foldl_append, hrun, List.foldl_cons, List.foldl_nil,
        zeroTurn_filledTo hroom hj]
      split_ifs with hfull
      · exact ⟨q + 1, 0, by rw [Nat.succ_mul]; omega, hubs, rfl⟩
      · exact ⟨q, j + 1, by omega, by omega, rfl⟩

/-- Where it has not, they go into one partition, as long as there is room. -/
theorem foldl_zeroTurn_tight (htight : ¬ policy.ubs * policy.genLen ≤ policy.cacheCapacity)
    (hone : policy.genLen ≤ policy.cacheCapacity) (e n : ℕ) :
    ∃ j, (j = 0 ↔ n = 0) ∧
      (List.replicate n 0).foldl (zeroTurn policy) (List.replicate e 0) = filledTo e 0 j := by
  induction n with
  | zero => exact ⟨0, Iff.rfl, (filledTo_zero e).symm⟩
  | succ n ih =>
      rcases ih with ⟨j, hj, hrun⟩
      rw [List.replicate_succ', List.foldl_append, hrun, List.foldl_cons, List.foldl_nil, filledTo]
      by_cases hzero : e ≤ 0
      · refine ⟨j + 1, by omega, ?_⟩
        rw [if_pos hzero, filledTo, if_pos hzero, zeroTurn]
      · rw [if_neg hzero, zeroTurn]
        by_cases hfull : TooFull policy 0 j 0
        · refine ⟨j, ?_, by rw [if_pos hfull, filledTo, if_neg hzero]⟩
          -- An empty partition has room for one.
          have hne : j ≠ 0 := by
            rintro rfl
            rw [tooFull_zero] at hfull
            omega
          omega
        · have hubs : ¬ j + 1 = policy.ubs := by
            intro heq
            rw [tooFull_zero, Nat.add_comm 1 j, heq] at hfull
            omega
          refine ⟨j + 1, by omega, ?_⟩
          rw [if_neg hfull, if_neg hubs, if_pos rfl, filledTo, if_neg hzero]

theorem foldl_zeroTurn_none (hnone : ¬ policy.genLen ≤ policy.cacheCapacity) (e n : ℕ) :
    (List.replicate n 0).foldl (zeroTurn policy) (List.replicate e 0) = List.replicate e 0 := by
  induction n with
  | zero => rfl
  | succ n ih =>
      rw [List.replicate_succ', List.foldl_append, ih, List.foldl_cons, List.foldl_nil]
      cases e with
      | zero => rfl
      | succ e => rw [List.replicate_succ, zeroTurn, if_pos (by rw [tooFull_zero]; omega)]

/-- How many partitions stay empty over the requests without tokens. -/
theorem count_foldl_zeroTurn (hubs : 1 ≤ policy.ubs) (e n : ℕ) :
    ((List.replicate n 0).foldl (zeroTurn policy) (List.replicate e 0)).count 0 =
      e - zeroLenPartitions policy n := by
  rw [zeroLenPartitions]
  split_ifs with hroom hone
  · rcases foldl_zeroTurn_room hubs hroom e n with ⟨q, j, hn, hj, hrun⟩
    rw [hrun, count_filledTo]
    congr 1
    by_cases hzero : j = 0
    · have hq := (mul_add_div_mod (i := q) (show policy.ubs - 1 < policy.ubs by omega)).1
      rw [if_pos hzero, hn, hzero, Nat.add_zero, Nat.add_zero, Nat.add_sub_assoc hubs, hq]
    · have hq := (mul_add_div_mod (i := q + 1) (show j - 1 < policy.ubs by omega)).1
      rw [if_neg hzero, ← hq, Nat.succ_mul]
      congr 1
      omega
  · rcases foldl_zeroTurn_tight hroom hone e n with ⟨j, hj, hrun⟩
    rw [hrun, count_filledTo]
    congr 1
    split_ifs <;> omega
  · rw [foldl_zeroTurn_none hone, List.count_replicate_self]
    rfl

/-- A list in descending order ends in its zeros. -/
theorem eq_filter_append_zeros {lens : List ℕ} (h : lens.Pairwise fun a b => b ≤ a) :
    lens = lens.filter (fun len => 0 < len) ++ List.replicate (lens.count 0) 0 := by
  induction lens with
  | nil => rfl
  | cons len lens ih =>
      rcases List.pairwise_cons.mp h with ⟨hle, hrest⟩
      by_cases hpos : 0 < len
      · rw [List.filter_cons_of_pos (by simpa using hpos), List.count_cons_of_ne hpos.ne',
          List.cons_append, ← ih hrest]
      · have hzero : ∀ b ∈ len :: lens, b = 0 := by
          refine List.forall_mem_cons.mpr ⟨by omega, fun b hb => ?_⟩
          have := hle b hb
          omega
        have hnone : (len :: lens).filter (fun len => 0 < len) = [] :=
          List.filter_eq_nil_iff.mpr fun b hb => by simp [hzero b hb]
        have hcount : (len :: lens).count 0 = (len :: lens).length :=
          List.count_eq_length.mpr fun b hb => (hzero b hb).symm
        rw [hnone, hcount, List.nil_append]
        exact List.eq_replicate_of_mem hzero

theorem pairwise_sortedByLen (reqQueue : List Req) :
    (sortedByLen reqQueue).Pairwise fun a b => b.inputLen ≤ a.inputLen := by
  have htotal : Std.Total fun a b : Req => b.inputLen ≤ a.inputLen :=
    ⟨fun a b => Nat.le_total b.inputLen a.inputLen⟩
  have htrans : IsTrans Req fun a b => b.inputLen ≤ a.inputLen :=
    ⟨fun a b c hab hbc => hbc.trans hab⟩
  exact List.pairwise_insertionSort _ reqQueue

/-- How many partitions stay empty. -/
theorem count_zeroLens_greedy (hubs : 1 ≤ policy.ubs) (reqQueue : List Req) :
    (zeroLens (greedy policy reqQueue).partitions).count 0 =
      policy.nUb - usedPartitions policy reqQueue := by
  have hperm := (List.perm_insertionSort (fun a b : Req => b.inputLen ≤ a.inputLen) reqQueue)
  have hpairwise := (List.pairwise_map.mpr (pairwise_sortedByLen reqQueue) :
    ((sortedByLen reqQueue).map Req.inputLen).Pairwise fun a b => b ≤ a)
  rw [zeroLens_greedy, eq_filter_append_zeros hpairwise, List.foldl_append,
    foldl_zeroTurn_pos (fun len hlen => by simpa using (List.mem_filter.mp hlen).2),
    count_foldl_zeroTurn hubs, usedPartitions, Nat.sub_sub]
  have hfits : (((sortedByLen reqQueue).map Req.inputLen).filter fun len => 0 < len).countP
      (fun len => len + policy.genLen ≤ policy.cacheCapacity) =
        reqQueue.countP fun r => 0 < r.inputLen ∧
          r.inputLen + policy.genLen ≤ policy.cacheCapacity := by
    rw [List.countP_filter, List.countP_map, ← hperm.countP_eq]
    congr 1
    funext r
    simp [and_comm]
  have hzeros : ((sortedByLen reqQueue).map Req.inputLen).count 0 =
      reqQueue.countP fun r => r.inputLen = 0 := by
    rw [List.count_eq_countP, List.countP_map, ← hperm.countP_eq]
    congr 1
  rw [hfits, hzeros]

theorem count_zeroLens (ps : List Partition) :
    (zeroLens ps).count 0 = (ps.map Partition.reqs).countP List.isEmpty := by
  induction ps with
  | nil => rfl
  | cons p ps ih =>
      have hsum : p.reqs = [] → p.sum = 0 := fun hnil => by simp [p.sum_eq, hnil]
      rw [zeroLens_cons, List.map_cons, List.countP_cons, ← ih]
      by_cases hnil : p.reqs = []
      · simp [hnil, hsum hnil]
      · split_ifs <;> simp_all

/-- How many of the micro-batches are empty, on the greedy path. -/
theorem countP_isEmpty (hubs : 1 ≤ policy.ubs) (hlong : ¬ reqQueue.length < policy.ubs) :
    (createMicroBatches policy reqQueue).1.countP List.isEmpty =
      policy.nUb - usedPartitions policy reqQueue := by
  have hfull : (greedy policy reqQueue).microBatches.countP List.isEmpty = 0 := by
    refine List.countP_eq_zero.mpr fun mb hmb => ?_
    have hlen := (greedy_closedAtSize hubs reqQueue).microBatches mb hmb
    rw [List.isEmpty_iff_length_eq_zero]
    omega
  rw [createMicroBatches, if_neg hlong, List.countP_append, hfull, Nat.zero_add, ← count_zeroLens,
    count_zeroLens_greedy hubs]

/-- `prepare_for_prefill` goes through for micro-batches none of which is empty. -/
theorem prepareForPrefill_isSome_iff {κ : Type*} (genLen : ℕ) (pool : TokenToKVPool κ)
    (lens : List (List ℕ)) :
    (∃ r, prepareForPrefill genLen pool lens = some r) ↔ ∀ l ∈ lens, l ≠ [] := by
  constructor
  · intro ⟨r, hr⟩
    exact nonempty_of_prepareForPrefill hr
  · intro hne
    induction lens generalizing pool with
    | nil => exact ⟨_, rfl⟩
    | cons l lens ih =>
        rcases List.forall_mem_cons.mp hne with ⟨hl, hlens⟩
        have hbatch : ∃ b, KvBatch.prepareForPrefill genLen pool l = some (b, pool.allocCpu.2) := by
          cases l with
          | nil => exact absurd rfl hl
          | cons n l =>
              simp only [KvBatch.prepareForPrefill, KvBatch.layout, layoutSeqs,
                List.getLast?_cons, Option.map_some]
              exact ⟨_, rfl⟩
        rcases hbatch with ⟨b, hb⟩
        rcases ih pool.allocCpu.2 hlens with ⟨r, hr⟩
        refine ⟨(b :: r.1, r.2), ?_⟩
        simp only [prepareForPrefill, hb, hr, Option.bind_some, Option.map_some]

/-- On the greedy path some micro-batch has a request if some partition gets one, -/
theorem exists_ne_nil_iff (hubs : 1 ≤ policy.ubs) (hnUb : 1 ≤ policy.nUb)
    (hlong : ¬ reqQueue.length < policy.ubs) :
    (∃ mb ∈ (createMicroBatches policy reqQueue).1, mb ≠ []) ↔
      usedPartitions policy reqQueue ≠ 0 := by
  have hcount := countP_isEmpty hubs hlong
  have hlength := createMicroBatches_length policy reqQueue
  have hall : (∀ mb ∈ (createMicroBatches policy reqQueue).1, mb = []) ↔
      (createMicroBatches policy reqQueue).1.countP List.isEmpty =
        (createMicroBatches policy reqQueue).1.length := by
    rw [List.countP_eq_length]
    simp
  rw [if_neg hlong] at hlength
  rw [hcount, hlength] at hall
  rw [← not_iff_not]
  simp only [not_exists, not_and, not_not, hall]
  omega

/-- and all have one if all partitions do. -/
theorem forall_ne_nil_iff (hubs : 1 ≤ policy.ubs) (hlong : ¬ reqQueue.length < policy.ubs) :
    (∀ mb ∈ (createMicroBatches policy reqQueue).1, mb ≠ []) ↔
      policy.nUb ≤ usedPartitions policy reqQueue := by
  have hzero : (∀ mb ∈ (createMicroBatches policy reqQueue).1, mb ≠ []) ↔
      (createMicroBatches policy reqQueue).1.countP List.isEmpty = 0 := by
    rw [List.countP_eq_zero]
    simp
  rw [hzero, countP_isEmpty hubs hlong]
  omega

/-- Once a request is admitted, no micro-batch is empty and all are prepared for prefill: if
and only if the queue is shorter than a micro-batch, or every partition gets a request. -/
theorem createMicroBatches_nonempty_iff (policy : AdmissionPolicy) (hubs : 1 ≤ policy.ubs)
    (hnUb : 1 ≤ policy.nUb) (reqQueue : List Req) (hne : reqQueue ≠ []) :
    ((∃ mb ∈ (createMicroBatches policy reqQueue).1, mb ≠ []) →
      (∀ mb ∈ (createMicroBatches policy reqQueue).1, mb ≠ []) ∧
        ∀ pool : TokenToKVPool ℕ, ∃ r, prepareForPrefill policy.genLen pool
          ((createMicroBatches policy reqQueue).1.map promptLens) = some r) ↔
      reqQueue.length < policy.ubs ∨ usedPartitions policy reqQueue = 0 ∨
        policy.nUb ≤ usedPartitions policy reqQueue := by
  have hprefill : (∀ mb ∈ (createMicroBatches policy reqQueue).1, mb ≠ []) →
      ∀ pool : TokenToKVPool ℕ, ∃ r, prepareForPrefill policy.genLen pool
        ((createMicroBatches policy reqQueue).1.map promptLens) = some r := by
    intro hmbs pool
    refine (prepareForPrefill_isSome_iff _ _ _).mpr fun l hl => ?_
    rcases List.mem_map.mp hl with ⟨mb, hmb, rfl⟩
    simpa [promptLens] using hmbs mb hmb
  have hboth := and_iff_left_of_imp hprefill
  rw [hboth]
  by_cases hshort : reqQueue.length < policy.ubs
  · refine ⟨fun _ => Or.inl hshort, fun _ _ mb hmb => ?_⟩
    rw [createMicroBatches_of_lt policy hshort, List.mem_singleton] at hmb
    rwa [hmb]
  · rw [exists_ne_nil_iff hubs hnUb hshort, forall_ne_nil_iff hubs hshort, or_iff_right hshort,
      imp_iff_not_or, not_not]

/-- Three requests fill two micro-batches of two. -/
theorem createMicroBatches_nonempty_three :
    (∀ mb ∈ (createMicroBatches ⟨2, 2, 3, 10⟩ threeWaiting).1, mb ≠ []) ∧
      ∀ pool : TokenToKVPool ℕ, ∃ r, prepareForPrefill 3 pool
        ((createMicroBatches ⟨2, 2, 3, 10⟩ threeWaiting).1.map promptLens) = some r :=
  (createMicroBatches_nonempty_iff ⟨2, 2, 3, 10⟩ (by decide) (by decide) threeWaiting
    (by decide)).mpr (by decide) (by decide)

/-- They leave one of four micro-batches empty. -/
theorem createMicroBatches_leaves_empty :
    ¬ ∀ (policy : AdmissionPolicy) (reqQueue : List Req), 1 ≤ policy.ubs → 1 ≤ policy.nUb →
      reqQueue ≠ [] → (∃ mb ∈ (createMicroBatches policy reqQueue).1, mb ≠ []) →
      ∀ mb ∈ (createMicroBatches policy reqQueue).1, mb ≠ [] := by
  intro hall
  exact hall ⟨2, 4, 3, 10⟩ threeWaiting (by decide) (by decide) (by decide)
    ⟨[.new 100 ⟨4, false, true⟩ "b" [5, 6, 8, 9]], by decide, by decide⟩ [] (by decide) rfl

end Empty

end HarvestMoE
