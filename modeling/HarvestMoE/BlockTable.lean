import HarvestMoE.Lib.Run
import HarvestMoE.Lib.TrueDivision
import Mathlib.Data.List.AList
import Mathlib.Data.List.Perm.Subperm

/-!
# Block tables

A table hands out blocks of a fixed stock to sequences. A block that is handed out
leaves the free list for the list of its sequence, and comes back when the sequence is
freed, so no block has two places. A sequence that is given blocks a second time loses
the list it had: those blocks are in no place any more.

The number of blocks is the ceiling of a quotient in double precision.

## Main definitions

* `BlockTable`, `allocateBlocks`, `freeSequenceBlocks`, `getBlocks` — the table.
* `BlockOp`, `blockStep` — the calls of a run.
* `BlockTable.blocks` — the blocks that have a place.
* `OwnedOnce`, `NoneLost` — no block has two places, every block has one.
* `Regrows` — an allocation for a sequence that has blocks.
-/

namespace HarvestMoE

open Lib

/-- The blocks of one layer on one device. -/
structure BlockTable (κ : Type*) where
  numBlocks : ℕ
  blockSize : ℕ
  freeBlocks : List ℕ
  seqToBlocks : AList fun _ : κ => List ℕ

/-- What `allocate_blocks` raises. -/
inductive AllocateError
  | zeroDivision
  | overflow
  | notEnough (need free : ℕ)
  deriving DecidableEq

def AllocateError.message : AllocateError → String
  | .zeroDivision => "division by zero"
  | .overflow => "integer division result too large for a float"
  | .notEnough need free =>
      "Not enough free blocks. Need " ++ toString need ++ ", have " ++ toString free

namespace BlockTable

variable {κ : Type*}

def new (numBlocks blockSize : ℕ) : BlockTable κ := ⟨numBlocks, blockSize, List.range numBlocks, ∅⟩

/-- `math.ceil(num_tokens / self.block_size)`. -/
def numBlocksNeeded (t : BlockTable κ) (numTokens : ℕ) : Except AllocateError ℕ :=
  if t.blockSize = 0 then .error .zeroDivision
  else
    match ceilTrueDiv numTokens t.blockSize with
    | some k => .ok k
    | none => .error .overflow

variable [DecidableEq κ]

/-- The blocks come from the front of the free list, and become all that the sequence has. -/
def allocateBlocks (t : BlockTable κ) (seqId : κ) (numTokens : ℕ) :
    Except AllocateError (List ℕ) × BlockTable κ :=
  match t.numBlocksNeeded numTokens with
  | .error e => (.error e, t)
  | .ok need =>
      if t.freeBlocks.length < need then (.error (.notEnough need t.freeBlocks.length), t)
      else
        let allocated := t.freeBlocks.take need
        (.ok allocated,
          { t with
            freeBlocks := t.freeBlocks.drop need
            seqToBlocks := t.seqToBlocks.insert seqId allocated })

def freeSequenceBlocks (t : BlockTable κ) (seqId : κ) : BlockTable κ :=
  match t.seqToBlocks.lookup seqId with
  | none => t
  | some blocks =>
      { t with
        freeBlocks := t.freeBlocks ++ blocks
        seqToBlocks := t.seqToBlocks.erase seqId }

def getBlocks (t : BlockTable κ) (seqId : κ) : List ℕ := (t.seqToBlocks.lookup seqId).getD []

/-- The blocks of all sequences. -/
def ownedBlocks (t : BlockTable κ) : List ℕ := t.seqToBlocks.entries.flatMap fun e => e.2

/-- The blocks that have a place. -/
def blocks (t : BlockTable κ) : List ℕ := t.freeBlocks ++ t.ownedBlocks

end BlockTable

/-- A call on a table. -/
inductive BlockOp (κ : Type*)
  | allocate (seqId : κ) (numTokens : ℕ)
  | free (seqId : κ)

section Run

variable {κ : Type*} [DecidableEq κ]

/-- The table after a call, whether it raises or not. -/
def blockStep (t : BlockTable κ) : BlockOp κ → BlockTable κ
  | .allocate seqId numTokens => (t.allocateBlocks seqId numTokens).2
  | .free seqId => t.freeSequenceBlocks seqId

/-- No block has two places, and there are no others than those of the stock. -/
def OwnedOnce (t : BlockTable κ) : Prop :=
  t.blocks.Nodup ∧ ∀ b ∈ t.blocks, b < t.numBlocks

/-- Every block of the stock has a place, and freeing all sequences makes all blocks
free. -/
def NoneLost (t : BlockTable κ) : Prop :=
  (∀ b < t.numBlocks, b ∈ t.blocks) ∧
    (t.seqToBlocks.keys.foldl BlockTable.freeSequenceBlocks t).freeBlocks.Perm
      (List.range t.numBlocks)

/-- A call that gives blocks to a sequence that has some. -/
def Regrows (t : BlockTable κ) : BlockOp κ → Prop
  | .allocate seqId numTokens =>
      t.getBlocks seqId ≠ [] ∧ ∃ need, t.numBlocksNeeded numTokens = .ok need ∧
        need ≤ t.freeBlocks.length
  | .free _ => False

end Run

namespace BlockTable

section Lemmas

variable {κ : Type*} [DecidableEq κ] {t : BlockTable κ} {seqId : κ} {numTokens : ℕ}

/-- What an allocation does: it raises and changes nothing, or takes blocks from the
free list. -/
theorem allocateBlocks_cases (t : BlockTable κ) (seqId : κ) (numTokens : ℕ) :
    (∃ e, t.allocateBlocks seqId numTokens = (.error e, t) ∧
      ∀ need, t.numBlocksNeeded numTokens = .ok need → t.freeBlocks.length < need) ∨
    (∃ need, t.numBlocksNeeded numTokens = .ok need ∧ need ≤ t.freeBlocks.length ∧
      t.allocateBlocks seqId numTokens =
        (.ok (t.freeBlocks.take need),
          { t with
            freeBlocks := t.freeBlocks.drop need
            seqToBlocks := t.seqToBlocks.insert seqId (t.freeBlocks.take need) })) := by
  unfold allocateBlocks
  cases hneed : t.numBlocksNeeded numTokens with
  | error e => exact Or.inl ⟨e, rfl, by simp⟩
  | ok need =>
      by_cases hlt : t.freeBlocks.length < need
      · left
        refine ⟨.notEnough need t.freeBlocks.length, by simp [hlt], fun need' h => ?_⟩
        rw [← Except.ok.inj h]
        exact hlt
      · exact Or.inr ⟨need, rfl, not_lt.mp hlt, by simp [hlt]⟩

/-- The list of a sequence is among the owned blocks. -/
theorem ownedBlocks_perm (t : BlockTable κ) (seqId : κ) :
    t.ownedBlocks.Perm
      (t.getBlocks seqId ++ (t.seqToBlocks.erase seqId).entries.flatMap fun e => e.2) := by
  unfold ownedBlocks getBlocks
  by_cases hmem : seqId ∈ t.seqToBlocks
  · obtain ⟨bs, l₁, l₂, -, hentries, herase⟩ := List.exists_of_kerase (AList.mem_keys.mp hmem)
    have hlookup : t.seqToBlocks.lookup seqId = some bs :=
      AList.mem_lookup_iff.mpr (by rw [hentries]; simp)
    have herase : (t.seqToBlocks.erase seqId).entries = l₁ ++ l₂ := herase
    rw [hlookup, herase, hentries]
    simp only [List.flatMap_append, List.flatMap_cons, Option.getD_some]
    exact List.perm_append_comm_assoc _ _ _
  · have hlookup := AList.lookup_eq_none.mpr hmem
    have herase : (t.seqToBlocks.erase seqId).entries = t.seqToBlocks.entries :=
      List.kerase_of_notMem_keys fun h => hmem (AList.mem_keys.mpr h)
    rw [hlookup, herase]
    simp

/-- An allocation drops what the sequence had before. -/
theorem blocks_perm_of_allocate {need : ℕ} (t : BlockTable κ) (seqId : κ) :
    t.blocks.Perm (t.getBlocks seqId ++
      blocks { t with
        freeBlocks := t.freeBlocks.drop need
        seqToBlocks := t.seqToBlocks.insert seqId (t.freeBlocks.take need) }) := by
  have howned := t.ownedBlocks_perm seqId
  simp only [blocks, ownedBlocks] at howned ⊢
  rw [AList.entries_insert, List.flatMap_cons]
  have hsplit : t.freeBlocks = t.freeBlocks.take need ++ t.freeBlocks.drop need :=
    (List.take_append_drop need t.freeBlocks).symm
  rw [List.perm_iff_count] at howned ⊢
  intro b
  have hb := howned b
  have hfree := congrArg (List.count b) hsplit
  have herase : (t.seqToBlocks.erase seqId).entries = t.seqToBlocks.entries.kerase seqId := rfl
  simp only [List.count_append, herase] at hb hfree ⊢
  omega

theorem freeSequenceBlocks_eq (t : BlockTable κ) (seqId : κ) :
    t.freeSequenceBlocks seqId =
      { t with
        freeBlocks := t.freeBlocks ++ t.getBlocks seqId
        seqToBlocks := t.seqToBlocks.erase seqId } := by
  unfold freeSequenceBlocks getBlocks
  cases hlookup : t.seqToBlocks.lookup seqId with
  | none =>
      have herase : t.seqToBlocks.erase seqId = t.seqToBlocks :=
        AList.ext (List.kerase_of_notMem_keys fun h =>
          AList.lookup_eq_none.mp hlookup (AList.mem_keys.mpr h))
      simp [herase]
  | some bs => rfl

theorem blocks_perm_of_free (t : BlockTable κ) (seqId : κ) :
    t.blocks.Perm (t.freeSequenceBlocks seqId).blocks := by
  rw [freeSequenceBlocks_eq, blocks, blocks, List.append_assoc]
  exact (t.ownedBlocks_perm seqId).append_left _

/-- Freeing sequences leaves the others with their lists. -/
theorem mem_foldl_free {ks : List κ} {k : κ}
    (h : k ∈ (ks.foldl freeSequenceBlocks t).seqToBlocks) : k ∈ t.seqToBlocks ∧ k ∉ ks := by
  induction ks generalizing t with
  | nil => exact ⟨h, List.not_mem_nil⟩
  | cons a ks ih =>
      obtain ⟨hmem, hks⟩ := ih h
      rw [freeSequenceBlocks_eq] at hmem
      obtain ⟨hne, hmem⟩ := AList.mem_erase.mp hmem
      exact ⟨hmem, by simp [hne, hks]⟩

/-- When all sequences are freed, every block that has a place is free. -/
theorem freeBlocks_perm_of_freeAll (t : BlockTable κ) :
    (t.seqToBlocks.keys.foldl freeSequenceBlocks t).freeBlocks.Perm t.blocks := by
  have hblocks : t.blocks.Perm (t.seqToBlocks.keys.foldl freeSequenceBlocks t).blocks :=
    foldl_preserves (I := fun s : BlockTable κ => t.blocks.Perm s.blocks)
      (fun s a _ h => h.trans (s.blocks_perm_of_free a)) (List.Perm.refl _)
  have hnone : (t.seqToBlocks.keys.foldl freeSequenceBlocks t).ownedBlocks = [] := by
    apply List.flatMap_eq_nil_iff.mpr
    intro e he
    obtain ⟨hmem, hnot⟩ := mem_foldl_free (AList.mem_keys.mpr (List.mem_keys_of_mem he))
    exact absurd (AList.mem_keys.mp hmem) hnot
  rw [blocks.eq_1 (List.foldl _ _ _), hnone, List.append_nil] at hblocks
  exact hblocks.symm

end Lemmas

end BlockTable

section Invariants

variable {κ : Type*} [DecidableEq κ] {t : BlockTable κ}

@[simp] theorem blockStep_numBlocks (t : BlockTable κ) (op : BlockOp κ) :
    (blockStep t op).numBlocks = t.numBlocks := by
  cases op with
  | allocate seqId numTokens =>
      rcases t.allocateBlocks_cases seqId numTokens with ⟨e, h, -⟩ | ⟨need, -, -, h⟩ <;>
        simp [blockStep, h]
  | free seqId => simp [blockStep, BlockTable.freeSequenceBlocks_eq]

@[simp] theorem blockStep_blockSize (t : BlockTable κ) (op : BlockOp κ) :
    (blockStep t op).blockSize = t.blockSize := by
  cases op with
  | allocate seqId numTokens =>
      rcases t.allocateBlocks_cases seqId numTokens with ⟨e, h, -⟩ | ⟨need, -, -, h⟩ <;>
        simp [blockStep, h]
  | free seqId => simp [blockStep, BlockTable.freeSequenceBlocks_eq]

/-- A call keeps the blocks in their places, but for those that a growing sequence drops. -/
theorem blockStep_perm (t : BlockTable κ) (op : BlockOp κ) :
    ∃ dropped, t.blocks.Perm (dropped ++ (blockStep t op).blocks) ∧
      (dropped = [] ↔ ¬ Regrows t op) := by
  cases op with
  | allocate seqId numTokens =>
      rcases t.allocateBlocks_cases seqId numTokens with ⟨e, h, hraise⟩ | ⟨need, hneed, hle, h⟩
      · refine ⟨[], by simp [blockStep, h], ?_⟩
        simp only [true_iff]
        rintro ⟨-, need, hneed, hle⟩
        exact absurd hle (not_le.mpr (hraise need hneed))
      · refine ⟨t.getBlocks seqId, ?_, ?_⟩
        · simp only [blockStep, h]
          exact t.blocks_perm_of_allocate seqId
        · constructor
          · rintro hnil ⟨hsome, -⟩
            exact hsome hnil
          · intro hnot
            by_contra hsome
            exact hnot ⟨hsome, need, hneed, hle⟩
  | free seqId => exact ⟨[], t.blocks_perm_of_free seqId, by simp [Regrows]⟩

theorem OwnedOnce.step (h : OwnedOnce t) (op : BlockOp κ) : OwnedOnce (blockStep t op) := by
  obtain ⟨dropped, hperm, -⟩ := blockStep_perm t op
  refine ⟨(List.nodup_append.mp (hperm.nodup h.1)).2.1, fun b hb => ?_⟩
  rw [blockStep_numBlocks]
  exact h.2 b (hperm.mem_iff.mpr (List.mem_append_right _ hb))

omit [DecidableEq κ] in
theorem OwnedOnce.new (numBlocks blockSize : ℕ) :
    OwnedOnce (BlockTable.new numBlocks blockSize : BlockTable κ) := by
  have hblocks : (BlockTable.new numBlocks blockSize : BlockTable κ).blocks =
      List.range numBlocks := by simp [BlockTable.blocks, BlockTable.new, BlockTable.ownedBlocks]
  refine ⟨hblocks ▸ List.nodup_range, fun b hb => ?_⟩
  rw [hblocks] at hb
  exact List.mem_range.mp hb

/-- No block is lost when the places are a rearrangement of the stock. -/
theorem noneLost_iff (h : OwnedOnce t) : NoneLost t ↔ t.blocks.Perm (List.range t.numBlocks) := by
  constructor
  · rintro ⟨hall, -⟩
    apply (List.perm_ext_iff_of_nodup h.1 List.nodup_range).mpr
    intro b
    rw [List.mem_range]
    exact ⟨h.2 b, hall b⟩
  · intro hperm
    exact ⟨fun b hb => hperm.mem_iff.mpr (List.mem_range.mpr hb),
      t.freeBlocks_perm_of_freeAll.trans hperm⟩

theorem noneLost_new (numBlocks blockSize : ℕ) :
    NoneLost (BlockTable.new numBlocks blockSize : BlockTable κ) := by
  rw [noneLost_iff (OwnedOnce.new numBlocks blockSize)]
  simp [BlockTable.blocks, BlockTable.new, BlockTable.ownedBlocks]

/-- Blocks are lost by an allocation for a sequence that has some, and by nothing else. -/
theorem noneLost_step_iff (h : OwnedOnce t) (hall : NoneLost t) (op : BlockOp κ) :
    NoneLost (blockStep t op) ↔ ¬ Regrows t op := by
  obtain ⟨dropped, hperm, hdropped⟩ := blockStep_perm t op
  rw [noneLost_iff (h.step op), ← hdropped, blockStep_numBlocks]
  have hstock := (noneLost_iff h).mp hall
  constructor
  · intro hnext
    have hlen := hperm.length_eq
    rw [List.length_append, hnext.length_eq, hstock.length_eq] at hlen
    exact List.length_eq_zero_iff.mp (by omega)
  · rintro rfl
    exact hperm.symm.trans hstock

theorem blockRun_blockSize (ops : List (BlockOp κ)) (t : BlockTable κ) :
    (ops.foldl blockStep t).blockSize = t.blockSize :=
  foldl_preserves (I := fun s : BlockTable κ => s.blockSize = t.blockSize)
    (fun s op _ h => (blockStep_blockSize s op).trans h) rfl

/-- The length of what an allocation returns. -/
theorem allocateBlocks_length {seqId : κ} {numTokens : ℕ} {bs : List ℕ}
    (h : (t.allocateBlocks seqId numTokens).1 = .ok bs) :
    ceilTrueDiv numTokens t.blockSize = some bs.length := by
  rcases t.allocateBlocks_cases seqId numTokens with ⟨e, hraise, -⟩ | ⟨need, hneed, hle, hok⟩
  · simp [hraise] at h
  · simp only [hok, Except.ok.injEq] at h
    rw [← h, List.length_take, min_eq_left hle]
    unfold BlockTable.numBlocksNeeded at hneed
    split_ifs at hneed
    cases hdiv : ceilTrueDiv numTokens t.blockSize with
    | none => simp [hdiv] at hneed
    | some k => simpa [hdiv] using hneed

/-- Sizes that are doubles are divided as integers are: an allocation returns what the tokens
need. -/
theorem allocateBlocks_length_of_lt {seqId : κ} {numTokens : ℕ} {bs : List ℕ}
    (hn : numTokens < 2 ^ 53) (hsize : 0 < t.blockSize) (hlt : t.blockSize < 2 ^ 53)
    (h : (t.allocateBlocks seqId numTokens).1 = .ok bs) : bs.length = numTokens ⌈/⌉ t.blockSize :=
  (ceilTrueDiv_eq_iff (allocateBlocks_length h)).mpr (keepsCeil_of_lt hsize hn hlt)

end Invariants

section Results

variable {κ : Type*} [DecidableEq κ]

/-- **After every run no block has two places.** An allocation that raises changes
nothing, and one that does not returns as many blocks as the tokens need when the
division keeps the ceiling, and only then. -/
theorem blockRun_ownedOnce (numBlocks blockSize : ℕ) (ops : List (BlockOp κ)) :
    let t := ops.foldl blockStep (BlockTable.new numBlocks blockSize)
    OwnedOnce t ∧ ∀ seqId numTokens,
      (∀ e, (t.allocateBlocks seqId numTokens).1 = .error e →
        (t.allocateBlocks seqId numTokens).2 = t) ∧
      ∀ bs, (t.allocateBlocks seqId numTokens).1 = .ok bs →
        (bs.length = numTokens ⌈/⌉ blockSize ↔ KeepsCeil numTokens blockSize) := by
  intro t
  have hsize : t.blockSize = blockSize := blockRun_blockSize ops _
  refine ⟨foldl_preserves (fun s op _ h => OwnedOnce.step h op) (OwnedOnce.new _ _), ?_⟩
  intro seqId numTokens
  constructor
  · intro e he
    rcases t.allocateBlocks_cases seqId numTokens with ⟨e', h, -⟩ | ⟨need, -, -, h⟩
    · rw [h]
    · simp [h] at he
  · intro bs hbs
    rw [← hsize]
    exact ceilTrueDiv_eq_iff (allocateBlocks_length hbs)

/-- A block of `2 ^ 53` tokens, and one token more. -/
theorem blockRun_not_exact :
    ¬ ∀ (numBlocks blockSize : ℕ) (ops : List (BlockOp ℕ)),
      let t := ops.foldl blockStep (BlockTable.new numBlocks blockSize)
      OwnedOnce t ∧ ∀ seqId numTokens,
        (∀ e, (t.allocateBlocks seqId numTokens).1 = .error e →
          (t.allocateBlocks seqId numTokens).2 = t) ∧
        ∀ bs, (t.allocateBlocks seqId numTokens).1 = .ok bs →
          bs.length = numTokens ⌈/⌉ blockSize := by
  intro h
  have hlen := ((h 1 (2 ^ 53) []).2 0 (2 ^ 53 + 1)).2 [0] (by decide)
  exact absurd hlen (by decide)

/-- **Blocks are kept exactly in the runs in which no sequence grows.** -/
theorem blockRun_noneLost_iff (numBlocks blockSize : ℕ) (ops : List (BlockOp κ)) :
    Always blockStep NoneLost (BlockTable.new numBlocks blockSize) ops ↔
      EachStep blockStep (fun t op => ¬ Regrows t op) (BlockTable.new numBlocks blockSize) ops :=
  always_iff_eachStep (I := NoneLost) (J := OwnedOnce) (fun _ op h => OwnedOnce.step h op)
    (fun _ op h hall => noneLost_step_iff h hall op)
    (OwnedOnce.new numBlocks blockSize) (noneLost_new numBlocks blockSize) ops

/-- A sequence of one token that grows to two, and then is freed. -/
theorem blockRun_loses :
    ¬ ∀ (numBlocks blockSize : ℕ) (ops : List (BlockOp ℕ)),
      Always blockStep NoneLost (BlockTable.new numBlocks blockSize) ops := by
  intro h
  have hlast := (h 3 1 [.allocate 0 1, .allocate 0 2, .free 0]).2.2.2.1
  exact absurd (hlast 0 (by decide)) (by decide)

end Results

end HarvestMoE
