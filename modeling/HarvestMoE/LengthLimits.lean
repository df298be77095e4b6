import HarvestMoE.Serve

/-!
# Limits on lengths

`handle_batch_generate_request` cuts each prompt to the context, and lowers `max_new_tokens`
to what the context has left. All requests of a batch have one object for their sampling
parameters, so each prompt lowers the limit of all of them; and `input_len` is the length
before the cut. The limits are those of each request by itself if and only if no prompt is
cut, and all prompts have room for what was asked for or have one length
(`handleBatchGenerateRequest_limits_iff`).

## Main definitions

* `OwnLimits` — the lengths of a request, as they follow from its own prompt.
-/

namespace HarvestMoE

variable {κ α : Type*} {contextLen : ℕ} {params : SamplingParams}

/-- A prompt within the context, its length, and a limit on new tokens that leaves room in the
context. -/
structure OwnLimits (contextLen : ℕ) (requested : ℤ) (r : Req) : Prop where
  prompt_le : r.inputIds.length ≤ contextLen - 1
  inputLen_eq : r.inputLen = r.inputIds.length
  limit_eq : r.samplingParams.maxNewTokens = min requested (contextLen - 1 - r.inputIds.length)

/-- The shared limit is the least one. -/
theorem le_sharedParams_iff {x : ℤ} {prompts : List (List ℕ)} :
    x ≤ (sharedParams contextLen params prompts).maxNewTokens ↔
      x ≤ params.maxNewTokens ∧
        ∀ ids ∈ prompts, x ≤ contextLen - 1 - (ids.take (contextLen - 1)).length := by
  induction prompts generalizing params with
  | nil => simp [sharedParams]
  | cons ids prompts ih =>
      rw [List.forall_mem_cons, ← and_assoc, ← le_min_iff]
      exact ih

/-- The limit is that of each request by itself, if all prompts have room for what was asked
for, or one length. -/
theorem sharedParams_eq_iff (params : SamplingParams) {prompts : List (List ℕ)}
    (hshort : ∀ ids ∈ prompts, ids.length ≤ contextLen - 1) :
    (∀ ids ∈ prompts, (sharedParams contextLen params prompts).maxNewTokens =
        min params.maxNewTokens (contextLen - 1 - ids.length)) ↔
      (∀ ids ∈ prompts, params.maxNewTokens + ids.length ≤ contextLen - 1) ∨
        ∀ ids ∈ prompts, ∀ ids' ∈ prompts, ids.length = ids'.length := by
  have hiff : ∀ x : ℤ, x ≤ (sharedParams contextLen params prompts).maxNewTokens ↔
      x ≤ params.maxNewTokens ∧ ∀ ids ∈ prompts, x ≤ contextLen - 1 - ids.length := by
    intro x
    rw [le_sharedParams_iff]
    refine and_congr_right fun _ => forall₂_congr fun ids hids => ?_
    rw [List.take_of_length_le (hshort ids hids)]
  generalize (sharedParams contextLen params prompts).maxNewTokens = limit at hiff ⊢
  constructor
  · intro h
    by_cases hroom : ∀ ids ∈ prompts, params.maxNewTokens + ids.length ≤ contextLen - 1
    · exact Or.inl hroom
    · -- One prompt lowers the limit, and all others lower it to the same.
      refine Or.inr ?_
      simp only [not_forall, not_le] at hroom
      rcases hroom with ⟨long, hlong, hlt⟩
      have hsame : ∀ ids ∈ prompts, ids.length = long.length := by
        intro ids hids
        have hone := h long hlong
        have htwo := h ids hids
        omega
      intro ids hids ids' hids'
      rw [hsame ids hids, hsame ids' hids']
  · intro h ids hids
    have hle := (hiff limit).mp le_rfl
    have hown := hle.2 ids hids
    refine le_antisymm (le_min hle.1 hown) ((hiff _).mpr ⟨min_le_left _ _, fun ids' hids' => ?_⟩)
    rcases h with hroom | hsame
    · have hroom' := hroom ids' hids'
      omega
    · rw [hsame ids' hids' ids hids]
      exact min_le_right _ _

/-- A request by itself has its limits if its prompt is not cut and its limit is its own. -/
theorem ownLimits_new_iff {requested : ℤ} {rid : String} {ids : List ℕ} :
    OwnLimits contextLen requested (Req.new contextLen params rid ids) ↔
      ids.length ≤ contextLen - 1 ∧
        params.maxNewTokens = min requested (contextLen - 1 - ids.length) := by
  constructor
  · intro h
    have hlen : ids.length = (ids.take (contextLen - 1)).length := h.inputLen_eq
    have hshort : ids.length ≤ contextLen - 1 := by
      rw [List.length_take] at hlen
      omega
    have hlimit := h.limit_eq
    simp only [Req.new, ← hlen] at hlimit
    exact ⟨hshort, hlimit⟩
  · intro h
    have htake : ids.take (contextLen - 1) = ids := List.take_of_length_le h.1
    constructor
    case prompt_le => simp only [Req.new, htake, h.1]
    case inputLen_eq => simp only [Req.new, htake]
    case limit_eq => simp only [Req.new, htake, h.2]

/-- Each request made for a batch has its limits if no prompt is cut and the shared limit is
that of each prompt. -/
theorem newRequests_ownLimits_iff (cfg : ServeConfig) (recvReq : BatchTokenizedGenerateReqInput) :
    (∀ (i : ℕ) (p : String × List ℕ), (recvReq.rid.zip recvReq.inputIds)[i]? = some p →
      ∃ r, (newRequests cfg recvReq)[i]? = some r ∧ r.rid = p.1 ∧
        OwnLimits cfg.contextLen recvReq.samplingParams.maxNewTokens r) ↔
    ∀ p ∈ recvReq.rid.zip recvReq.inputIds, p.2.length ≤ cfg.contextLen - 1 ∧
      (sharedParams cfg.contextLen recvReq.samplingParams
          ((recvReq.rid.zip recvReq.inputIds).map Prod.snd)).maxNewTokens =
        min recvReq.samplingParams.maxNewTokens (cfg.contextLen - 1 - p.2.length) := by
  simp only [newRequests, List.getElem?_map]
  generalize recvReq.rid.zip recvReq.inputIds = pairs
  constructor
  · intro h p hp
    have ⟨i, hi⟩ := List.getElem?_of_mem hp
    have ⟨r, hr, _, hlimits⟩ := h i p hi
    rw [hi, Option.map_some, Option.some.injEq] at hr
    rw [← hr] at hlimits
    exact ownLimits_new_iff.mp hlimits
  · intro h i p hi
    rw [hi, Option.map_some]
    exact ⟨_, rfl, rfl, ownLimits_new_iff.mpr (h p (List.mem_of_getElem? hi))⟩

/-- Every request that is queued has the limits that follow from its own prompt: if and only
if no prompt of the batch is cut, and all prompts have room for the requested number of new
tokens or have one length. -/
theorem handleBatchGenerateRequest_limits_iff (cfg : ServeConfig)
    (recvReq : BatchTokenizedGenerateReqInput) (s : Server κ α) :
    (∀ (i : ℕ) (p : String × List ℕ), (recvReq.rid.zip recvReq.inputIds)[i]? = some p →
      ∃ r, (handleBatchGenerateRequest cfg recvReq s).1.forwardQueue[s.forwardQueue.length + i]? =
          some r ∧ r.rid = p.1 ∧
        OwnLimits cfg.contextLen recvReq.samplingParams.maxNewTokens r) ↔
    (∀ p ∈ recvReq.rid.zip recvReq.inputIds, p.2.length ≤ cfg.contextLen - 1) ∧
      ((∀ p ∈ recvReq.rid.zip recvReq.inputIds,
          recvReq.samplingParams.maxNewTokens + p.2.length ≤ cfg.contextLen - 1) ∨
        ∀ p ∈ recvReq.rid.zip recvReq.inputIds, ∀ p' ∈ recvReq.rid.zip recvReq.inputIds,
          p.2.length = p'.2.length) := by
  have hqueued : ∀ i, (handleBatchGenerateRequest cfg recvReq s).1.forwardQueue[
      s.forwardQueue.length + i]? = (newRequests cfg recvReq)[i]? := fun i => by
    rw [handleBatchGenerateRequest, List.getElem?_append_right (Nat.le_add_right _ _),
      Nat.add_sub_cancel_left]
  simp only [hqueued]
  rw [newRequests_ownLimits_iff, forall₂_and]
  refine and_congr_right fun hshort => ?_
  have hshort' : ∀ ids ∈ (recvReq.rid.zip recvReq.inputIds).map Prod.snd,
      ids.length ≤ cfg.contextLen - 1 := by
    intro ids hids
    have ⟨p, hp, hp'⟩ := List.mem_map.mp hids
    exact hp' ▸ hshort p hp
  simpa only [List.forall_mem_map] using sharedParams_eq_iff recvReq.samplingParams hshort'

/-- Prompts of 2 and 50 tokens in a context of 100, with 60 new tokens asked for: the first
one gets only the 49 that the second one leaves. -/
theorem limits_shared :
    ¬ ∀ (cfg : ServeConfig) (recvReq : BatchTokenizedGenerateReqInput) (s : Server ℕ ℕ),
      ∀ i p, (recvReq.rid.zip recvReq.inputIds)[i]? = some p →
        ∃ r, (handleBatchGenerateRequest cfg recvReq s).1.forwardQueue[
            s.forwardQueue.length + i]? = some r ∧ r.rid = p.1 ∧
          OwnLimits cfg.contextLen recvReq.samplingParams.maxNewTokens r := by
  intro hall
  rcases hall (.small 3 (by decide))
    ⟨["a", "b"], [[5, 6], List.replicate 50 8], ⟨60, false, true⟩⟩ (.small 3 (by decide)) 0
    ("a", [5, 6]) rfl with ⟨r, hr, -, hlimits⟩
  obtain rfl := Option.some.inj hr
  exact absurd hlimits.limit_eq (by decide)

end HarvestMoE
