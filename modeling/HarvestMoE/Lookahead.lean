import Mathlib.Data.List.Nodup
import HarvestMoE.Lib.Loops
import HarvestMoE.Schedule

/-!
# What a decode step does to one micro-batch

The decode loop works two micro-batches ahead and wraps into the next layer. Seen from
one micro-batch the wrapping disappears: with three or more micro-batches its calls
are, layer by layer, the three that send it to attention and the two that take it
back (`decodeBodyCalls_of`). With fewer the look-ahead is off, and only layer 0 is
sent to attention.

## Main definitions

* `Call.batch` — the micro-batch a call works on.
* `aloneLayerCalls`, `aloneStepCalls` — a micro-batch decoded by itself.
-/

namespace HarvestMoE

open Lib

/-- The micro-batch whose hidden states a call works on. -/
def Call.batch : Call → Option ℕ
  | .preAttention _ k | .offloadQkv _ k | .cpuAttention _ k | .loadHidden _ k |
    .postAttention _ _ k => some k
  | _ => none

/-- The calls of a micro-batch at a layer, in the order of a sequential decoder. -/
def aloneLayerCalls (k i : ℕ) : List Call :=
  attentionCalls i k ++ [.loadHidden i k, .postAttention i 0 k]

/-- A decode step of a micro-batch by itself. -/
def aloneStepCalls (numLayers k : ℕ) : List Call :=
  .prepareForDecode :: (List.range numLayers).flatMap (aloneLayerCalls k)

/-- Whether a call belongs to the decoding of micro-batch `k`. -/
def Call.isOf (k : ℕ) (c : Call) : Bool := c = .prepareForDecode ∨ c.batch = some k

section Filter

variable {numLayers numMb k : ℕ}

theorem filter_attentionCalls (i k' : ℕ) :
    (attentionCalls i k').filter (Call.isOf k) = if k' = k then attentionCalls i k else [] := by
  by_cases hk : k' = k
  · subst hk
    simp [attentionCalls, Call.isOf, Call.batch]
  · simp [attentionCalls, Call.isOf, Call.batch, hk]

theorem filter_relayCalls (i j k' : ℕ) :
    (relayCalls numLayers 1 numMb i j k').filter (Call.isOf k) = [] := by
  rw [relayCalls]
  split <;> simp [Call.isOf, Call.batch]

theorem filter_prologueCalls (k' : ℕ) :
    (prologueCalls 1 k').filter (Call.isOf k) = if k' = k then attentionCalls 0 k else [] := by
  rw [prologueCalls, List.filter_append, filter_attentionCalls]
  simp [Call.isOf, Call.batch]

/-- What micro-batch `k'` of the decode loop does for micro-batch `k`. -/
theorem filter_decodeBatchCalls (i k' : ℕ) :
    (decodeBatchCalls numLayers 1 numMb i k').filter (Call.isOf k) =
      (if k' = k then [.loadHidden i k, .postAttention i 0 k] else []) ++
        (lookAheadCalls numLayers numMb i k').filter (Call.isOf k) := by
  rw [decodeBatchCalls_one, List.filter_append, List.filter_append, filter_relayCalls,
    List.append_nil]
  by_cases hk : k' = k
  · subst hk
    simp [Call.isOf, Call.batch]
  · simp [Call.isOf, Call.batch, hk]

theorem filter_lookAheadCalls (hn : 3 ≤ numMb) (i k' : ℕ) :
    (lookAheadCalls numLayers numMb i k').filter (Call.isOf k) =
      if k' + 2 < numMb then if k' + 2 = k then attentionCalls i k else []
      else if i < numLayers - 1 then
        if (k' + 2) % numMb = k then attentionCalls (i + 1) k else []
      else [] := by
  rw [lookAheadCalls, if_pos (show numMb > 2 by omega)]
  split_ifs <;> simp_all [filter_attentionCalls]

/-- From the third micro-batch on, a layer starts and finishes within its own loop. -/
theorem filter_decodeLayerCalls_late (hk : k < numMb) (h2 : 2 ≤ k) (i : ℕ) :
    (decodeLayerCalls numLayers 1 numMb i).filter (Call.isOf k) = aloneLayerCalls k i := by
  obtain ⟨a, rfl⟩ : ∃ a, k = a + 2 := ⟨k - 2, by omega⟩
  have hmod : ∀ k', k' < numMb → ¬ k' + 2 < numMb → (k' + 2) % numMb ≠ a + 2 := by
    intro k' hk' hge heq
    rw [Nat.mod_eq_sub_mod (by omega), Nat.mod_eq_of_lt (by omega)] at heq
    omega
  rw [decodeLayerCalls_one, List.filter_flatMap,
    flatMap_range_pair (show a < a + 2 by omega) hk]
  · rw [filter_decodeBatchCalls, filter_decodeBatchCalls, filter_lookAheadCalls (by omega),
      filter_lookAheadCalls (by omega)]
    have hlast : ¬ a + 2 + 2 < numMb → (a + 2 + 2) % numMb ≠ a + 2 := hmod (a + 2) hk
    simp only [show ¬ a = a + 2 by omega, hk, if_true, if_false, List.nil_append,
      show ¬ a + 2 + 2 = a + 2 by omega, aloneLayerCalls]
    split_ifs <;> first | omega | simp
  · intro k' hk' hne hne'
    rw [filter_decodeBatchCalls, filter_lookAheadCalls (by omega), if_neg hne', List.nil_append]
    have hwrap := hmod k' hk'
    split_ifs <;> first | rfl | omega

/-- The first two micro-batches start the next layer at the end of the loop. -/
theorem filter_decodeLayerCalls_early (hn : 3 ≤ numMb) (h2 : k < 2) (i : ℕ) :
    (decodeLayerCalls numLayers 1 numMb i).filter (Call.isOf k) =
      [.loadHidden i k, .postAttention i 0 k] ++
        if i < numLayers - 1 then attentionCalls (i + 1) k else [] := by
  have hwrap : ∀ k', k' < numMb → ¬ k' + 2 < numMb → ((k' + 2) % numMb = k ↔ k' = k + numMb - 2) := by
    intro k' hk' hge
    rw [Nat.mod_eq_sub_mod (by omega), Nat.mod_eq_of_lt (by omega)]
    omega
  have hlate := hwrap (k + numMb - 2) (by omega) (by omega)
  rw [decodeLayerCalls_one, List.filter_flatMap,
    flatMap_range_pair (show k < k + numMb - 2 by omega) (show k + numMb - 2 < numMb by omega)]
  · rw [filter_decodeBatchCalls, filter_decodeBatchCalls, filter_lookAheadCalls hn,
      filter_lookAheadCalls hn]
    have hown := hwrap k (by omega)
    simp only [if_true, show ¬ k + numMb - 2 = k by omega, if_false,
      show ¬ k + numMb - 2 + 2 < numMb by omega, hlate.mpr rfl, List.nil_append,
      show ¬ k + 2 = k by omega]
    split_ifs <;> first | omega | simp
  · intro k' hk' hne hne'
    rw [filter_decodeBatchCalls, filter_lookAheadCalls hn, if_neg hne, List.nil_append]
    have hk := hwrap k' hk'
    split_ifs <;> first | rfl | omega

/-- With three or more micro-batches, the calls of a decode step for one of them are
those of a sequential decoder. -/
theorem decodeBodyCalls_of (hn : 3 ≤ numMb) (hL : 0 < numLayers) (hk : k < numMb) :
    (decodeBodyCalls numLayers 1 numMb).filter (Call.isOf k) =
      (List.range numLayers).flatMap (aloneLayerCalls k) := by
  have hprologue : ((List.range (min 2 numMb)).flatMap (prologueCalls 1)).filter (Call.isOf k) =
      if k < 2 then attentionCalls 0 k else [] := by
    rw [List.filter_flatMap]
    by_cases h2 : k < 2
    · rw [flatMap_range_single (show k < min 2 numMb by omega), if_pos h2, filter_prologueCalls,
        if_pos rfl]
      intro k' _ hne
      rw [filter_prologueCalls, if_neg hne]
    · rw [if_neg h2]
      refine flatMap_range_nil _ fun k' hk' => ?_
      rw [filter_prologueCalls, if_neg (by omega)]
  rw [decodeBodyCalls, List.filter_append, hprologue, List.filter_flatMap]
  by_cases h2 : k < 2
  · simp only [if_pos h2, filter_decodeLayerCalls_early hn h2]
    obtain ⟨m, rfl⟩ : ∃ m, numLayers = m + 1 := ⟨numLayers - 1, by omega⟩
    exact flatMap_range_shift (fun i => attentionCalls i k)
      (fun i => [.loadHidden i k, .postAttention i 0 k]) m
  · simp only [if_neg h2, List.nil_append, filter_decodeLayerCalls_late hk (by omega)]

/-- Prefill works on no micro-batch's attention. -/
theorem filter_prefillCalls : (prefillCalls numLayers 1 numMb).filter (Call.isOf k) = [] := by
  rw [List.filter_eq_nil_iff]
  intro c hc
  simp only [prefillCalls, List.mem_cons, List.mem_flatMap] at hc
  rcases hc with rfl | ⟨i, -, hc⟩
  · simp [Call.isOf, Call.batch]
  · rw [prefillLayerCalls_one, List.mem_append, List.mem_flatMap, List.mem_singleton] at hc
    rcases hc with ⟨k', -, hc⟩ | rfl
    · simp only [prefillBatchCalls, if_true, List.mem_append, List.mem_cons,
        List.not_mem_nil, or_false] at hc
      rcases hc with (rfl | rfl) | hc
      · simp [Call.isOf, Call.batch]
      · simp [Call.isOf, Call.batch]
      · split_ifs at hc
        · simp only [List.mem_cons, List.not_mem_nil, or_false] at hc
          rcases hc with rfl | rfl <;> simp [Call.isOf, Call.batch]
        · simp at hc
    · simp [Call.isOf, Call.batch]

/-- With one or two micro-batches the look-ahead is off. -/
theorem lookAheadCalls_short (hn : numMb ≤ 2) (i k' : ℕ) :
    lookAheadCalls numLayers numMb i k' = [] := by
  rw [lookAheadCalls, if_neg (by omega)]

/-- With one or two micro-batches, only layer 0 is sent to attention. -/
theorem decodeBodyCalls_short (hn : numMb ≤ 2) (hk : k < numMb) :
    (decodeBodyCalls numLayers 1 numMb).filter (Call.isOf k) =
      attentionCalls 0 k ++ (List.range numLayers).flatMap fun i =>
        [.loadHidden i k, .postAttention i 0 k] := by
  have hlayer : ∀ i, (decodeLayerCalls numLayers 1 numMb i).filter (Call.isOf k) =
      [.loadHidden i k, .postAttention i 0 k] := by
    intro i
    rw [decodeLayerCalls_one, List.filter_flatMap, flatMap_range_single hk]
    · rw [filter_decodeBatchCalls, lookAheadCalls_short hn]
      simp
    · intro k' _ hne
      rw [filter_decodeBatchCalls, lookAheadCalls_short hn, if_neg hne]
      rfl
  rw [decodeBodyCalls, List.filter_append, List.filter_flatMap, List.filter_flatMap,
    flatMap_range_single (show k < min 2 numMb by omega), filter_prologueCalls, if_pos rfl]
  · simp only [hlayer]
  · intro k' _ hne
    rw [filter_prologueCalls, if_neg hne]

/-- The calls of a decode step that take a micro-batch back from attention. -/
theorem loadHidden_mem {i : ℕ} : Call.loadHidden i k ∈ decodeBodyCalls numLayers 1 numMb ↔
    i < numLayers ∧ k < numMb := by
  have hattn : ∀ i' k', Call.loadHidden i k ∉ attentionCalls i' k' := by
    simp [attentionCalls]
  have hbatch : ∀ i' k', Call.loadHidden i k ∈ decodeBatchCalls numLayers 1 numMb i' k' ↔
      i = i' ∧ k = k' := by
    intro i' k'
    have hahead : Call.loadHidden i k ∉ lookAheadCalls numLayers numMb i' k' := by
      rw [lookAheadCalls]
      split_ifs <;> simp [hattn]
    have hrelay : Call.loadHidden i k ∉ relayCalls numLayers 1 numMb i' 0 k' := by
      rw [relayCalls]
      split <;> simp
    simp [decodeBatchCalls_one, hahead, hrelay]
  have hprologue : ∀ k', Call.loadHidden i k ∉ prologueCalls 1 k' := by
    simp [prologueCalls, hattn]
  simp only [decodeBodyCalls, List.mem_append, List.mem_flatMap, List.mem_range, hprologue,
    decodeLayerCalls_one, hbatch, and_false, exists_false, false_or]
  constructor
  · rintro ⟨i', hi', k', hk', rfl, rfl⟩
    exact ⟨hi', hk'⟩
  · rintro ⟨hi, hk⟩
    exact ⟨i, hi, k, hk, rfl, rfl⟩

theorem decodeStepCalls_of_one (hn : numMb ≤ 2) (hk : k < numMb) :
    (decodeStepCalls 1 1 numMb).filter (Call.isOf k) = aloneStepCalls 1 k := by
  rw [decodeStepCalls, List.filter_cons_of_pos (by simp [Call.isOf]), decodeBodyCalls_short hn hk]
  rfl

theorem decodeStepCalls_of (hn : 3 ≤ numMb) (hL : 0 < numLayers) (hk : k < numMb) :
    (decodeStepCalls numLayers 1 numMb).filter (Call.isOf k) = aloneStepCalls numLayers k := by
  rw [decodeStepCalls, List.filter_cons_of_pos (by simp [Call.isOf]), decodeBodyCalls_of hn hL hk]
  rfl

/-- The calls of a layer of a micro-batch name it. -/
theorem mem_aloneLayerCalls {i : ℕ} {c : Call} (hc : c ∈ aloneLayerCalls k i) :
    c.isOf k ∧ ∀ i', c ∈ aloneLayerCalls k i' → i' = i := by
  simp only [aloneLayerCalls, attentionCalls, List.mem_append, List.mem_cons, List.not_mem_nil,
    or_false] at hc ⊢
  rcases hc with (rfl | rfl | rfl) | rfl | rfl <;> simp [Call.isOf, Call.batch, eq_comm]

/-- With three or more micro-batches, a decode step has each of these calls once. -/
theorem decodeBodyCalls_count (hn : 3 ≤ numMb) {i : ℕ} (hi : i < numLayers) (hk : k < numMb)
    {c : Call} (hc : c ∈ aloneLayerCalls k i) : (decodeBodyCalls numLayers 1 numMb).count c = 1 := by
  rw [← List.count_filter (mem_aloneLayerCalls hc).1, decodeBodyCalls_of hn (by omega) hk]
  refine List.count_eq_one_of_mem ?_ (List.mem_flatMap.mpr ⟨i, List.mem_range.mpr hi, hc⟩)
  refine List.nodup_flatMap.mpr ⟨fun i' _ => by simp [aloneLayerCalls, attentionCalls], ?_⟩
  refine List.nodup_range.imp fun hne c hc hc' => ?_
  exact hne ((mem_aloneLayerCalls hc').2 _ hc)

end Filter

end HarvestMoE
