import Mathlib.Algebra.BigOperators.Group.List.Basic
import Mathlib.Algebra.Ring.Nat
import Mathlib.Data.List.Sort
import Mathlib.Data.List.MinMax

/-!
# Requests and admission

`create_micro_batches` sorts the waiting requests by length and gives each to the
partition with the smallest sum; a request that does not fit there is aborted, and a
partition that is full becomes a micro-batch. No request is lost or doubled on the way
(`createMicroBatches_perm`).

## Main definitions

* `SamplingParams`, `Req` — a request.
* `Partition`, `Admission` — the state of the greedy loop.
* `assign` — one turn of the loop.
* `createMicroBatches` — the micro-batches, and the aborted requests.
-/

namespace HarvestMoE

/-- `SamplingParams`, as far as the server decides by it. -/
structure SamplingParams where
  maxNewTokens : ℤ
  ignoreEos : Bool
  skipSpecialTokens : Bool
  deriving DecidableEq, Repr

inductive FinishReason
  | abort
  | length
  | eosToken
  | stopStr
  deriving DecidableEq, Repr

/-- `Req`. -/
structure Req where
  rid : String
  inputIds : List ℕ
  inputLen : ℕ
  outputIds : List ℕ
  samplingParams : SamplingParams
  finished : Bool
  finishReason : Option FinishReason
  hitStopStr : Option String
  deriving DecidableEq, Repr

/-- `Req.abort`. -/
def Req.abort (r : Req) : Req := { r with finished := true, finishReason := some .abort }

/-- `Req.check_finished`. The last output token is read, so there must be one unless the
length alone decides. -/
def Req.checkFinished (eosTokenId : ℕ) (r : Req) : Req :=
  if r.finished then r
  else if (r.outputIds.length : ℤ) ≥ r.samplingParams.maxNewTokens then
    { r with finished := true, finishReason := some .length }
  else if r.outputIds.getLast? = some eosTokenId ∧ r.samplingParams.ignoreEos = false then
    { r with finished := true, finishReason := some .eosToken }
  else r

/-- The numbers admission depends on: requests per micro-batch, micro-batches, room for
the output of a request, and the capacity of a cache line (or of the paged cache). -/
structure AdmissionPolicy where
  ubs : ℕ
  nUb : ℕ
  genLen : ℕ
  cacheCapacity : ℕ
  deriving Repr

/-- An open partition with its running sum. -/
structure Partition where
  reqs : List Req
  sum : ℕ
  sum_eq : sum = (reqs.map Req.inputLen).sum

namespace Partition

def empty : Partition := ⟨[], 0, rfl⟩

def push (p : Partition) (req : Req) : Partition where
  reqs := p.reqs ++ [req]
  sum := p.sum + req.inputLen
  sum_eq := by simp [p.sum_eq]

@[simp] theorem push_reqs (p : Partition) (req : Req) : (p.push req).reqs = p.reqs ++ [req] := rfl

@[simp] theorem empty_reqs : empty.reqs = [] := rfl

end Partition

/-- The state of the greedy loop. -/
structure Admission where
  partitions : List Partition
  microBatches : List (List Req)
  abortRequests : List Req

/-- `partitions_sums.index(min(partitions_sums))`. -/
def smallestIdx (sums : List ℕ) : ℕ := sums.idxOf (sums.min?.getD 0)

/-- One turn of the loop. There is no partition at the index when all are full. -/
def assign (policy : AdmissionPolicy) (s : Admission) (req : Req) : Admission :=
  let idx := smallestIdx (s.partitions.map Partition.sum)
  match s.partitions[idx]? with
  | none => { s with abortRequests := s.abortRequests ++ [req] }
  | some p =>
      if p.sum + req.inputLen + (1 + p.reqs.length) * policy.genLen > policy.cacheCapacity then
        { s with abortRequests := s.abortRequests ++ [req] }
      else if (p.push req).reqs.length = policy.ubs then
        { s with
          microBatches := s.microBatches ++ [(p.push req).reqs]
          partitions := s.partitions.eraseIdx idx }
      else { s with partitions := s.partitions.set idx (p.push req) }

/-- `sorted(req_queue, key=lambda x: x.input_len, reverse=True)`, which is stable. -/
def sortedByLen (reqQueue : List Req) : List Req :=
  reqQueue.insertionSort fun a b => b.inputLen ≤ a.inputLen

/-- The loop over the sorted queue. -/
def greedy (policy : AdmissionPolicy) (reqQueue : List Req) : Admission :=
  (sortedByLen reqQueue).foldl (assign policy) ⟨List.replicate policy.nUb .empty, [], []⟩

/-- `create_micro_batches`: the micro-batches and the aborted requests. A queue shorter
than a micro-batch is taken as it is. -/
def createMicroBatches (policy : AdmissionPolicy) (reqQueue : List Req) :
    List (List Req) × List Req :=
  if reqQueue.length < policy.ubs then ([reqQueue], [])
  else
    let s := greedy policy reqQueue
    (s.microBatches ++ s.partitions.map Partition.reqs, s.abortRequests.map Req.abort)

section Conservation

variable {policy : AdmissionPolicy} {reqQueue : List Req}

/-- Everything the loop has placed. -/
def Admission.content (s : Admission) : List Req :=
  s.abortRequests ++ s.microBatches.flatten ++ s.partitions.flatMap Partition.reqs

/-- The requests of the partition at an index, and of the others. -/
theorem flatMap_reqs_perm {ps : List Partition} {idx : ℕ} {p : Partition} (hp : ps[idx]? = some p) :
    (ps.flatMap Partition.reqs).Perm (p.reqs ++ (ps.eraseIdx idx).flatMap Partition.reqs) := by
  obtain ⟨hidx, rfl⟩ := List.getElem?_eq_some_iff.mp hp
  exact ((List.getElem_cons_eraseIdx_perm hidx).flatMap_right _).symm

/-- A turn of the loop places its request, and moves the others around. -/
theorem assign_perm (s : Admission) (req : Req) :
    (assign policy s req).content.Perm (req :: s.content) := by
  rw [List.perm_iff_count]
  intro r
  simp only [assign]
  split
  · simp only [Admission.content, List.count_append, List.count_cons, List.count_nil]
    omega
  · rename_i p hp
    have hrest := (flatMap_reqs_perm hp).count_eq r
    split_ifs
    · simp only [Admission.content, List.count_append, List.count_cons, List.count_nil]
      omega
    · simp only [Admission.content, List.flatten_append, List.flatten_singleton,
        Partition.push_reqs, List.count_append, List.count_cons, List.count_nil] at hrest ⊢
      omega
    · have hidx := (List.getElem?_eq_some_iff.mp hp).1
      have hset := ((List.set_perm_cons_eraseIdx hidx (p.push req)).flatMap_right
        Partition.reqs).count_eq r
      simp only [Admission.content, List.flatMap_cons, Partition.push_reqs, List.count_append,
        List.count_cons, List.count_nil] at hrest hset ⊢
      omega

theorem foldl_assign_perm (s : Admission) (reqs : List Req) :
    (reqs.foldl (assign policy) s).content.Perm (reqs ++ s.content) := by
  induction reqs generalizing s with
  | nil => exact List.Perm.refl _
  | cons req reqs ih =>
      have hplace : (reqs ++ (assign policy s req).content).Perm (reqs ++ req :: s.content) :=
        (assign_perm s req).append_left reqs
      exact (ih (assign policy s req)).trans (hplace.trans List.perm_middle)

/-- The greedy loop places every waiting request once. -/
theorem greedy_perm : (greedy policy reqQueue).content.Perm reqQueue := by
  have hplaced : (greedy policy reqQueue).content.Perm (sortedByLen reqQueue ++
      (⟨List.replicate policy.nUb .empty, [], []⟩ : Admission).content) := foldl_assign_perm _ _
  have hempty : (⟨List.replicate policy.nUb .empty, [], []⟩ : Admission).content = [] := by
    simp [Admission.content]
  rw [hempty, List.append_nil] at hplaced
  exact hplaced.trans (List.perm_insertionSort _ reqQueue)

/-- Every request of the queue is in one micro-batch or is aborted, as often as it was
waiting. -/
theorem createMicroBatches_perm (policy : AdmissionPolicy) (reqQueue : List Req) : ∃ aborted : List Req,
    (createMicroBatches policy reqQueue).2 = aborted.map Req.abort ∧
      (aborted ++ (createMicroBatches policy reqQueue).1.flatten).Perm reqQueue := by
  rw [createMicroBatches]
  split_ifs
  · exact ⟨[], rfl, by simp⟩
  · refine ⟨_, rfl, ?_⟩
    simpa [Admission.content, List.flatMap] using greedy_perm

/-- A turn of the loop keeps the number of groups, open and full. -/
theorem assign_length (s : Admission) (req : Req) :
    (assign policy s req).microBatches.length + (assign policy s req).partitions.length =
      s.microBatches.length + s.partitions.length := by
  simp only [assign]
  split
  · rfl
  · rename_i p hp
    have hidx := (List.getElem?_eq_some_iff.mp hp).1
    split_ifs
    · rfl
    · simp only [List.length_append, List.length_singleton, List.length_eraseIdx, if_pos hidx]
      omega
    · simp only [List.length_set]

theorem foldl_assign_length (s : Admission) (reqs : List Req) :
    (reqs.foldl (assign policy) s).microBatches.length +
      (reqs.foldl (assign policy) s).partitions.length =
        s.microBatches.length + s.partitions.length := by
  induction reqs generalizing s with
  | nil => rfl
  | cons req reqs ih => exact (ih _).trans (assign_length s req)

/-- A batch has one micro-batch, or as many as the policy says. -/
theorem createMicroBatches_length (policy : AdmissionPolicy) (reqQueue : List Req) :
    (createMicroBatches policy reqQueue).1.length =
      if reqQueue.length < policy.ubs then 1 else policy.nUb := by
  rw [createMicroBatches]
  split_ifs
  · rfl
  · simpa [greedy] using foldl_assign_length ⟨List.replicate policy.nUb .empty, [], []⟩
      (sortedByLen reqQueue)

end Conservation

end HarvestMoE
