import HarvestMoE.MicroBatchSizes

/-!
# Requests that are aborted

The greedy loop looks at one open partition, that with the smallest sum of prompt lengths,
and aborts the request when there is no room for it there. The room of a partition also
depends on how many requests it has, for the output of each of them takes `gen_len` rows, and
a prompt that was truncated is counted with its old length. So another partition can have
room. What is left to look at are the partitions with fewer requests, and truncated prompts
(`aborts_when_full_iff`).

## Main definitions

* `HasRoomFor` — a partition has room for a request, by the layout of `prepare_for_prefill`.
* `IsTurn` — a turn of the loop: the state before it, and its request.
* `Aborts` — the turn aborts the request.
-/

namespace HarvestMoE

open Lib

variable {policy : AdmissionPolicy} {reqQueue : List Req} {s : Admission} {req : Req}

/-- The tokens laid out for the partition, those of the request, and the output of each. -/
def HasRoomFor (policy : AdmissionPolicy) (p : Partition) (req : Req) : Prop :=
  (promptLens p.reqs).sum + req.inputIds.length + (p.reqs.length + 1) * policy.genLen ≤
    policy.cacheCapacity

instance (p : Partition) (req : Req) : Decidable (HasRoomFor policy p req) :=
  inferInstanceAs (Decidable (_ ≤ _))

/-- The loop, which is for queues that are not too short, comes to `req` in the state `s`. -/
def IsTurn (policy : AdmissionPolicy) (reqQueue : List Req) (s : Admission) (req : Req) : Prop :=
  policy.ubs ≤ reqQueue.length ∧ ∃ before after, sortedByLen reqQueue = before ++ req :: after ∧
    s = before.foldl (assign policy) ⟨List.replicate policy.nUb .empty, [], []⟩

/-- The turn puts the request to the aborted ones. -/
def Aborts (policy : AdmissionPolicy) (s : Admission) (req : Req) : Prop :=
  (assign policy s req).abortRequests = s.abortRequests ++ [req]

/-- A turn aborts what has no room in the partition it looks at. -/
theorem aborts_iff {A B : List Partition} {p : Partition} (h : Tested s.partitions A p B) :
    Aborts policy s req ↔ TooFull policy p.sum p.reqs.length req.inputLen := by
  have hne : ¬ s.abortRequests = s.abortRequests ++ [req] := by simp
  rw [Aborts, assign_of_tested h]
  split_ifs with hfull
  · exact iff_of_true rfl hfull
  · exact iff_of_false hne hfull
  · exact iff_of_false hne hfull

/-- A partition with the same number of requests or more has no room either, if nothing was
truncated. -/
theorem not_hasRoomFor {p q : Partition} (hsum : p.sum ≤ q.sum)
    (hlength : p.reqs.length ≤ q.reqs.length) (hq : q.sum ≤ (promptLens q.reqs).sum)
    (hreq : req.inputLen ≤ req.inputIds.length)
    (hfull : TooFull policy p.sum p.reqs.length req.inputLen) : ¬ HasRoomFor policy q req := by
  have houtputs : (1 + p.reqs.length) * policy.genLen ≤ (q.reqs.length + 1) * policy.genLen :=
    Nat.mul_le_mul_right _ (by omega)
  rw [TooFull] at hfull
  rw [HasRoomFor]
  omega

/-- The partitions hold requests of the queue. -/
theorem mem_queue_of_isTurn (hturn : IsTurn policy reqQueue s req) {q : Partition}
    (hq : q ∈ s.partitions) {r : Req} (hr : r ∈ q.reqs) : r ∈ reqQueue := by
  obtain ⟨-, before, after, hsplit, rfl⟩ := hturn
  have hcontent : r ∈ (loopAt policy before).content := by
    rw [Admission.content, List.mem_append]
    exact Or.inr (List.mem_flatMap.mpr ⟨q, hq, hr⟩)
  have hsorted : r ∈ sortedByLen reqQueue := by
    rw [hsplit]
    exact List.mem_append_left _ (mem_of_loopAt hcontent)
  exact (List.perm_insertionSort _ reqQueue).subset hsorted

/-- Where nothing was truncated, and the partition with the smallest sum never has more
requests than another open one, a request is aborted only when no open partition has room. -/
theorem aborts_when_full_of_fewest (huncut : ∀ r ∈ reqQueue, r.inputIds.length = r.inputLen)
    (hfewest : ∀ s req, IsTurn policy reqQueue s req → ∀ A p B, Tested s.partitions A p B →
      ∀ q ∈ s.partitions, p.reqs.length ≤ q.reqs.length)
    (hturn : IsTurn policy reqQueue s req) (habort : Aborts policy s req) :
    ∀ q ∈ s.partitions, ¬ HasRoomFor policy q req := by
  intro q hq
  rcases exists_tested (List.ne_nil_of_mem hq) with ⟨A, p, B, htested⟩
  have hreq : req ∈ reqQueue := by
    obtain ⟨-, before, after, hsplit, -⟩ := hturn
    refine (List.perm_insertionSort _ reqQueue).subset (?_ : req ∈ sortedByLen reqQueue)
    rw [hsplit]
    exact List.mem_append_right _ List.mem_cons_self
  have hlens : promptLens q.reqs = q.reqs.map Req.inputLen :=
    List.map_congr_left fun r hr => huncut r (mem_queue_of_isTurn hturn hq hr)
  refine not_hasRoomFor (htested.sum_le q hq) (hfewest s req hturn A p B htested q hq) ?_ ?_
    ((aborts_iff htested).mp habort)
  · rw [hlens, q.sum_eq]
  · rw [huncut req hreq]

/-- A request is aborted only when no open partition has room for it: if and only if, at
every turn that finds the partition with the smallest sum too full, the open partitions with
fewer requests and, where prompts were truncated, all of them have no room. -/
theorem aborts_when_full_iff (policy : AdmissionPolicy) (reqQueue : List Req) :
    (∀ s req, IsTurn policy reqQueue s req → Aborts policy s req →
      ∀ q ∈ s.partitions, ¬ HasRoomFor policy q req) ↔
    ∀ s req, IsTurn policy reqQueue s req → ∀ A p B, Tested s.partitions A p B →
      TooFull policy p.sum p.reqs.length req.inputLen → ∀ q ∈ s.partitions,
        q.reqs.length < p.reqs.length ∨ (promptLens q.reqs).sum < q.sum ∨
          req.inputIds.length < req.inputLen → ¬ HasRoomFor policy q req := by
  constructor
  · intro h s req hturn A p B htested hfull q hq _
    exact h s req hturn ((aborts_iff htested).mpr hfull) q hq
  · intro h s req hturn habort q hq
    have hne : s.partitions ≠ [] := List.ne_nil_of_mem hq
    rcases exists_tested hne with ⟨A, p, B, htested⟩
    have hfull := (aborts_iff htested).mp habort
    by_cases hleft : q.reqs.length < p.reqs.length ∨ (promptLens q.reqs).sum < q.sum ∨
        req.inputIds.length < req.inputLen
    · exact h s req hturn A p B htested hfull q hq hleft
    · simp only [not_or, not_lt] at hleft
      exact not_hasRoomFor (htested.sum_le q hq) hleft.1 hleft.2.1 hleft.2.2 hfull

/-- Four requests of 10, 4, 3 and 3 tokens for two partitions of three requests: the last one
has no room beside the two shorter ones, but beside the longest. -/
theorem aborts_with_room :
    ¬ ∀ (policy : AdmissionPolicy) (reqQueue : List Req), 1 ≤ policy.ubs → 1 ≤ policy.nUb →
      ∀ s req, IsTurn policy reqQueue s req → Aborts policy s req →
        ∀ q ∈ s.partitions, ¬ HasRoomFor policy q req := by
  intro hall
  let policy : AdmissionPolicy := ⟨3, 2, 5, 24⟩
  let r (rid : String) (n : ℕ) : Req := .new 100 ⟨5, false, true⟩ rid (List.replicate n 7)
  let before : List Req := [r "a" 10, r "b" 4, r "c" 3]
  let s : Admission := before.foldl (assign policy) ⟨List.replicate 2 .empty, [], []⟩
  have hturn : IsTurn policy (before ++ [r "d" 3]) s (r "d" 3) :=
    ⟨by decide, before, [], by decide, rfl⟩
  have hroom : ∃ q ∈ s.partitions, HasRoomFor policy q (r "d" 3) := by decide
  have habort : Aborts policy s (r "d" 3) := by
    unfold Aborts
    decide
  rcases hroom with ⟨q, hq, hfits⟩
  exact hall policy (before ++ [r "d" 3]) (by decide) (by decide) s (r "d" 3) hturn habort q hq hfits

end HarvestMoE
