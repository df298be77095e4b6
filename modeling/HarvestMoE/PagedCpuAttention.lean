import HarvestMoE.KvPool
import Mathlib.Algebra.BigOperators.Group.List.Basic
import Mathlib.Algebra.Group.Action.Defs
import Mathlib.Order.Lattice
import Mathlib.Tactic.Linarith

/-!
# CPU attention in paged mode

`prepare_for_prefill` lays the sequences out as in a cache line, each followed by room for its
output, and in paged mode nothing moves `start_loc` afterwards. `cpu_decode_forward_cpp` makes
buffers of `batch_size * max_seq_len` rows, which leave no such room, and
`cpu_flash_decode_gqa` reads from `start_loc` on without a check. It stays inside while the gaps
are made up for by prompts shorter than the longest (`rowsInBuffers_iff`).

## Main definitions

* `KvBatch.prepareForPrefillPaged` — the index tensors in paged mode.
* `KvBatch.bufferRows` — the rows of the temporary buffers.
* `RowsInBuffers` — every sequence is read inside them.
-/

namespace HarvestMoE

open Lib

/-- `Batch.prepare_for_prefill` in paged mode: sequential indices, as in a line at the start of
a pool. -/
def KvBatch.prepareForPrefillPaged (maxOutputLen : ℕ) (lens : List ℕ) : Option KvBatch :=
  KvBatch.layout maxOutputLen (0, 0, 0) lens

/-- `batch_size * max_seq_len`; the maximum of no lengths raises. -/
def KvBatch.bufferRows (b : KvBatch) : Option ℕ :=
  (b.seqs.mapM SeqKv.seqLenCpu).bind fun seqLens =>
    seqLens.max?.map fun maxSeqLen => seqLens.length * maxSeqLen

/-- The rows from `start_loc` on, one for each key of a sequence, are rows of the buffers. -/
def RowsInBuffers (b : KvBatch) : Prop :=
  ∃ rows, b.bufferRows = some rows ∧ ∀ q ∈ b.seqs, ∀ numKeys, q.seqLenCpu = some numKeys →
    ∀ n < numKeys, q.startLoc + n < rows

section Layout

variable {maxOutputLen : ℕ} {lens : List ℕ}

theorem iterate_advance (q : SeqKv) (d : ℕ) :
    (SeqKv.advance^[d + 1] q).startLoc = q.startLoc ∧
      (SeqKv.advance^[d + 1] q).seqLen = q.seqLen + (d + 1) ∧
      (SeqKv.advance^[d + 1] q).seqLenCpu = some (q.seqLen + (d + 1)) := by
  induction d with
  | zero => exact ⟨rfl, rfl, rfl⟩
  | succ d ih =>
      rw [Function.iterate_succ_apply']
      refine ⟨ih.1, ?_, ?_⟩
      · rw [SeqKv.advance, ih.2.1, Nat.add_assoc]
      · rw [SeqKv.advance, ih.2.1, Nat.add_assoc]

theorem iterate_prepareForDecode_seqs (b : KvBatch) (d : ℕ) :
    (KvBatch.prepareForDecode^[d] b).seqs = b.seqs.map SeqKv.advance^[d] := by
  induction d with
  | zero => simp
  | succ d ih =>
      rw [Function.iterate_succ_apply', KvBatch.prepareForDecode, ih, List.map_map,
        Function.iterate_succ']

theorem layoutSeqs_seqLen (pt : ℕ) :
    (layoutSeqs maxOutputLen 0 pt lens).map SeqKv.seqLen = lens := by
  induction lens generalizing pt with
  | nil => rfl
  | cons n lens ih => rw [layoutSeqs, List.map_cons, ih]

/-- The sequences end in their order, so all are inside when the last one is. -/
theorem layoutSeqs_end_le_iff (maxOutputLen : ℕ) (hne : lens ≠ []) (pt d rows : ℕ) :
    (∀ q ∈ layoutSeqs maxOutputLen 0 pt lens, q.startLoc + (q.seqLen + d) ≤ rows) ↔
      pt + ((lens.length - 1) * maxOutputLen + (lens.sum + d)) ≤ rows := by
  induction lens generalizing pt with
  | nil => exact absurd rfl hne
  | cons n lens ih =>
      rw [layoutSeqs, List.forall_mem_cons]
      by_cases hnil : lens = []
      · simp [hnil, layoutSeqs]
      · have hlength : 0 < lens.length := List.length_pos_iff.mpr hnil
        have hgaps : lens.length * maxOutputLen =
            (lens.length - 1) * maxOutputLen + maxOutputLen := by
          rw [← Nat.succ_mul, Nat.succ_eq_add_one, Nat.sub_add_cancel hlength]
        rw [ih hnil, List.length_cons, Nat.add_sub_cancel, List.sum_cons, hgaps]
        dsimp only
        omega

end Layout

section Result

/-- How much shorter the prompts are than the longest, all together. -/
def paddingTokens (lens : List ℕ) : ℕ := (lens.map fun n => lens.max?.getD 0 - n).sum

theorem sum_add_paddingTokens (lens : List ℕ) :
    lens.sum + paddingTokens lens = lens.length * lens.max?.getD 0 := by
  have hle : ∀ n ∈ lens, n + (lens.max?.getD 0 - n) = lens.max?.getD 0 := by
    intro n hn
    cases hmax : lens.max? with
    | none => simp [List.max?_eq_none_iff.mp hmax] at hn
    | some m =>
        have hm : n ≤ m := (List.max?_eq_some_iff.mp hmax).2 n hn
        rw [Option.getD_some]
        omega
  have hsum : (lens.map fun n => n + (lens.max?.getD 0 - n)).sum =
      lens.sum + paddingTokens lens := by
    rw [List.sum_map_add, List.map_id', paddingTokens]
  rw [← hsum, List.map_congr_left hle, List.map_const', List.sum_replicate, smul_eq_mul]

theorem max?_map_add {lens : List ℕ} {m : ℕ} (hm : lens.max? = some m) (k : ℕ) :
    (lens.map fun n => n + k).max? = some (m + k) := by
  rcases List.max?_eq_some_iff.mp hm with ⟨hmem, hle⟩
  rw [List.max?_eq_some_iff]
  refine ⟨List.mem_map_of_mem hmem, fun x hx => ?_⟩
  rcases List.mem_map.mp hx with ⟨n, hn, rfl⟩
  exact Nat.add_le_add_right (hle n hn) k

/-- The rows of the buffers at a decode step. -/
theorem bufferRows_eq {maxOutputLen : ℕ} {lens : List ℕ} {b : KvBatch}
    (hseqs : b.seqs = layoutSeqs maxOutputLen 0 0 lens) (hne : lens ≠ []) (d : ℕ) :
    (KvBatch.prepareForDecode^[d + 1] b).bufferRows =
      some (lens.length * (lens.max?.getD 0 + (d + 1))) := by
  have hlens : (KvBatch.prepareForDecode^[d + 1] b).seqs.mapM SeqKv.seqLenCpu =
      some (lens.map fun n => n + (d + 1)) := by
    have hcpu : ∀ q ∈ b.seqs.map SeqKv.advance^[d + 1], q.seqLenCpu = some q.seqLen := by
      intro q hq
      rcases List.mem_map.mp hq with ⟨q, -, rfl⟩
      rw [(iterate_advance q d).2.2, (iterate_advance q d).2.1]
    have hadd : SeqKv.seqLen ∘ SeqKv.advance^[d + 1] = (fun n => n + (d + 1)) ∘ SeqKv.seqLen := by
      funext q
      exact (iterate_advance q d).2.1
    rw [iterate_prepareForDecode_seqs, mapM_eq_some hcpu, List.map_map, hadd, ← List.map_map,
      hseqs, layoutSeqs_seqLen]
  rcases Option.ne_none_iff_exists'.mp (mt List.max?_eq_none_iff.mp hne) with ⟨m, hm⟩
  rw [KvBatch.bufferRows, hlens, Option.bind_some, max?_map_add hm, Option.map_some, hm,
    List.length_map, Option.getD_some]

/-- The rows read are inside when the sequences end there. -/
theorem rowsInBuffers_iff_end_le {maxOutputLen : ℕ} {lens : List ℕ} {b : KvBatch}
    (hseqs : b.seqs = layoutSeqs maxOutputLen 0 0 lens) (hne : lens ≠ []) (d : ℕ) :
    RowsInBuffers (KvBatch.prepareForDecode^[d + 1] b) ↔
      ∀ q ∈ layoutSeqs maxOutputLen 0 0 lens,
        q.startLoc + (q.seqLen + (d + 1)) ≤ lens.length * (lens.max?.getD 0 + (d + 1)) := by
  rw [RowsInBuffers, bufferRows_eq hseqs hne, iterate_prepareForDecode_seqs, hseqs]
  constructor
  · rintro ⟨rows, hrows, hread⟩ q hq
    obtain rfl := Option.some.inj hrows
    have hlast := hread _ (List.mem_map_of_mem hq) _ (iterate_advance q d).2.2 (q.seqLen + d)
      (by omega)
    rw [(iterate_advance q d).1] at hlast
    omega
  · intro hends
    refine ⟨_, rfl, fun q' hq' numKeys hkeys n hn => ?_⟩
    rcases List.mem_map.mp hq' with ⟨q, hq, rfl⟩
    rw [(iterate_advance q d).2.2, Option.some.injEq] at hkeys
    rw [(iterate_advance q d).1]
    have hend := hends q hq
    omega

/-- The gaps that the decode steps have not filled yet, against the padding. -/
theorem gaps_le_iff {gap k length sum padding longest : ℕ} (hlength : 0 < length)
    (hsum : sum + padding = length * longest) :
    (length - 1) * gap + (sum + k) ≤ length * (longest + k) ↔
      (length - 1) * (gap - k) ≤ padding := by
  obtain ⟨l, rfl⟩ : ∃ l, length = l + 1 := ⟨length - 1, by omega⟩
  rw [Nat.mul_add, ← hsum, Nat.add_sub_cancel, Nat.succ_mul l k]
  rcases Nat.le_total gap k with hle | hle
  · have hfilled : l * gap ≤ l * k := Nat.mul_le_mul_left l hle
    rw [Nat.sub_eq_zero_of_le hle, Nat.mul_zero]
    omega
  · obtain ⟨e, rfl⟩ := Nat.exists_eq_add_of_le hle
    rw [Nat.add_sub_cancel_left, Nat.mul_add]
    omega

/-- **CPU attention reads inside the temporary buffers exactly when the room that is still left
for the output of the sequences but the last is no more than the padding of the prompts to the
longest.** -/
theorem rowsInBuffers_iff (maxOutputLen : ℕ) (lens : List ℕ) (d : ℕ) {b : KvBatch}
    (hb : KvBatch.prepareForPrefillPaged maxOutputLen lens = some b) :
    RowsInBuffers (KvBatch.prepareForDecode^[d + 1] b) ↔
      (lens.length - 1) * (maxOutputLen - (d + 1)) ≤ paddingTokens lens := by
  rcases Option.map_eq_some_iff.mp hb with ⟨last, hlast, rfl⟩
  have hne : lens ≠ [] := by
    rintro rfl
    cases hlast
  rw [rowsInBuffers_iff_end_le rfl hne, layoutSeqs_end_le_iff maxOutputLen hne, Nat.zero_add]
  exact gaps_le_iff (List.length_pos_iff.mpr hne) (sum_add_paddingTokens lens)

/-- Prompts of one and of four tokens, with room for three output tokens, at the first step. -/
theorem rowsInBuffers_padded : ∃ b, KvBatch.prepareForPrefillPaged 3 [1, 4] = some b ∧
    RowsInBuffers b.prepareForDecode :=
  ⟨_, rfl, (rowsInBuffers_iff 3 [1, 4] 0 rfl).mpr (by decide)⟩

/-- With two prompts of one token the second one is read behind the buffers: it starts at row
four, and there are four rows. -/
theorem rowsInBuffers_overrun :
    ¬ ∀ (maxOutputLen : ℕ) (lens : List ℕ) (d : ℕ) (b : KvBatch), (∀ n ∈ lens, 0 < n) →
      KvBatch.prepareForPrefillPaged maxOutputLen lens = some b →
      RowsInBuffers (KvBatch.prepareForDecode^[d + 1] b) := by
  intro hall
  rcases hall 3 [1, 1] 0 _ (by decide) rfl with ⟨rows, hrows, hread⟩
  obtain rfl : rows = 4 := (Option.some.inj hrows).symm
  exact absurd (hread _ (List.mem_cons_of_mem _ List.mem_cons_self) 2 rfl 0 (by decide)) (by decide)

end Result

end HarvestMoE
