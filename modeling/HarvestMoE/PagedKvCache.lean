import HarvestMoE.BlockTable
import HarvestMoE.Lib.Holdings
import Mathlib.Tactic.IntervalCases

/-!
# The paged KV cache

Every layer has a block table of its own, but there is one tensor of blocks on the GPU
for all layers. Within a layer the table keeps sequences apart; two layers hand out the
same block numbers, and what is written for one overwrites what the other has in the
same block. A run reads back what it wrote as long as it does not do that, writes inside
the blocks it has, and does not ask for blocks again for a sequence it has written.

## Main definitions

* `PagedKvCache`, `writeKv`, `readKv` — the cache.
* `PagedOp`, `PagedRun`, `pagedStep` — the calls of a run, and what was last written.
* `ReadsBack` — every live sequence reads what was last written for it.
* `StaysApart` — a call that keeps it so.
-/

namespace HarvestMoE

open Lib

/-- The cache on the GPU: a row of keys and of values for each block and offset, and a
block table for each layer. -/
structure PagedKvCache (κ ρ : Type*) where
  blockSize : ℕ
  gpuCache : ℕ → ℕ → ρ × ρ
  gpuBlockTables : List (BlockTable κ)

/-- What `allocate_gpu_blocks` raises. -/
inductive PagedError
  | index
  | allocate (e : AllocateError)

namespace PagedKvCache

variable {κ ρ : Type*}

/-- `PagedKVCache.__init__`, or the text of its `ValueError`. -/
def new [Zero ρ] (numGpuBlocks blockSize numLayers : ℕ) : Except String (PagedKvCache κ ρ) :=
  if blockSize &&& (blockSize - 1) ≠ 0 then
    .error ("Block size must be power of 2, got " ++ toString blockSize)
  else
    .ok ⟨blockSize, fun _ _ => (0, 0), List.replicate numLayers (.new numGpuBlocks blockSize)⟩

/-- The place of a token: its block and its offset. -/
def place (blockSize : ℕ) (blockIndices : List ℕ) (tokenIdx : ℕ) : Option (ℕ × ℕ) :=
  blockIndices[tokenIdx / blockSize]?.map fun p => (p, tokenIdx % blockSize)

/-- Store one row; a token behind the last block is dropped. -/
def writeRow (blockSize : ℕ) (blockIndices : List ℕ) (gpuCache : ℕ → ℕ → ρ × ρ) (tokenIdx : ℕ)
    (row : ρ × ρ) : ℕ → ℕ → ρ × ρ :=
  match place blockSize blockIndices tokenIdx with
  | some (p, offset) => put gpuCache p offset row
  | none => gpuCache

/-- The loop of `write_kv` from a token on. -/
def writeRows (blockSize : ℕ) (blockIndices : List ℕ) :
    (ℕ → ℕ → ρ × ρ) → ℕ → List (ρ × ρ) → ℕ → ℕ → ρ × ρ
  | gpuCache, _, [] => gpuCache
  | gpuCache, tokenIdx, row :: rows =>
      writeRows blockSize blockIndices (writeRow blockSize blockIndices gpuCache tokenIdx row)
        (tokenIdx + 1) rows

/-- The layer is not looked at. -/
def writeKv (c : PagedKvCache κ ρ) (rows : List (ρ × ρ)) (blockIndices : List ℕ) (_layerId : ℕ)
    (startTokenIdx : ℕ) : PagedKvCache κ ρ :=
  { c with gpuCache := writeRows c.blockSize blockIndices c.gpuCache startTokenIdx rows }

/-- The rows of the first tokens; those behind the last block are zero. -/
def readKv [Zero ρ] (c : PagedKvCache κ ρ) (blockIndices : List ℕ) (numTokens : ℕ) :
    List (ρ × ρ) :=
  (List.range numTokens).map fun tokenIdx =>
    match place c.blockSize blockIndices tokenIdx with
    | some (p, offset) => c.gpuCache p offset
    | none => (0, 0)

variable [DecidableEq κ]

def allocateGpuBlocks (c : PagedKvCache κ ρ) (seqId : κ) (numTokens layerId : ℕ) :
    Except PagedError (List ℕ) × PagedKvCache κ ρ :=
  match c.gpuBlockTables[layerId]? with
  | none => (.error .index, c)
  | some t =>
      let (result, t') := t.allocateBlocks seqId numTokens
      (result.mapError .allocate, { c with gpuBlockTables := c.gpuBlockTables.set layerId t' })

/-- `free_sequence_blocks` of the table of a layer. -/
def freeGpuBlocks (c : PagedKvCache κ ρ) (seqId : κ) (layerId : ℕ) : PagedKvCache κ ρ :=
  match c.gpuBlockTables[layerId]? with
  | none => c
  | some t => { c with gpuBlockTables := c.gpuBlockTables.set layerId (t.freeSequenceBlocks seqId) }

/-- The block list of a live sequence. -/
def blocksOf (c : PagedKvCache κ ρ) (layerId : ℕ) (seqId : κ) : Option (List ℕ) :=
  c.gpuBlockTables[layerId]?.bind fun t => t.seqToBlocks.lookup seqId

end PagedKvCache

/-- A call on the cache. A write is made with the block list of its sequence and layer. -/
inductive PagedOp (κ ρ : Type*)
  | allocate (seqId : κ) (numTokens layerId : ℕ)
  | write (seqId : κ) (layerId startTokenIdx : ℕ) (rows : List (ρ × ρ))
  | free (seqId : κ) (layerId : ℕ)

/-- The cache, and what was last written for each layer, sequence and token since the
sequence was freed. -/
structure PagedRun (κ ρ : Type*) where
  cache : PagedKvCache κ ρ
  lastWritten : ℕ → κ → ℕ → Option (ρ × ρ)

namespace PagedRun

variable {κ ρ : Type*} [DecidableEq κ]

/-- Record the rows of a write. -/
def record (w : ℕ → κ → ℕ → Option (ρ × ρ)) (layerId : ℕ) (seqId : κ) (startTokenIdx : ℕ)
    (rows : List (ρ × ρ)) : ℕ → κ → ℕ → Option (ρ × ρ) :=
  put w layerId seqId fun tokenIdx =>
    if startTokenIdx ≤ tokenIdx ∧ tokenIdx < startTokenIdx + rows.length then
      rows[tokenIdx - startTokenIdx]?
    else w layerId seqId tokenIdx

end PagedRun

section Run

variable {κ ρ : Type*} [DecidableEq κ]

/-- A call and what it writes. A sequence without a block list is not written. -/
def pagedStep (s : PagedRun κ ρ) : PagedOp κ ρ → PagedRun κ ρ
  | .allocate seqId numTokens layerId =>
      { s with cache := (s.cache.allocateGpuBlocks seqId numTokens layerId).2 }
  | .write seqId layerId startTokenIdx rows =>
      match s.cache.blocksOf layerId seqId with
      | none => s
      | some blockIndices =>
          { cache := s.cache.writeKv rows blockIndices layerId startTokenIdx
            lastWritten := PagedRun.record s.lastWritten layerId seqId startTokenIdx rows }
  | .free seqId layerId =>
      { cache := s.cache.freeGpuBlocks seqId layerId
        lastWritten := put s.lastWritten layerId seqId fun _ => none }

/-- Reading the blocks of a live sequence gives what was last written for it and its
layer. -/
def ReadsBack [Zero ρ] (s : PagedRun κ ρ) : Prop :=
  ∀ layerId seqId blockIndices, s.cache.blocksOf layerId seqId = some blockIndices →
    ∀ tokenIdx row, s.lastWritten layerId seqId tokenIdx = some row →
      ∀ numTokens, tokenIdx < numTokens →
        (s.cache.readKv blockIndices numTokens)[tokenIdx]? = some row

/-- An allocation that succeeds is for a sequence that nothing was written for. A write
stays in the blocks of the sequence, and off the places that a live sequence of another
layer has written. -/
def StaysApart (s : PagedRun κ ρ) : PagedOp κ ρ → Prop
  | .allocate seqId numTokens layerId =>
      (∃ e, (s.cache.allocateGpuBlocks seqId numTokens layerId).1 = .error e) ∨
        ∀ tokenIdx, s.lastWritten layerId seqId tokenIdx = none
  | .write seqId layerId startTokenIdx rows =>
      ∀ blockIndices, s.cache.blocksOf layerId seqId = some blockIndices →
        ∀ i < rows.length, ∃ p,
          PagedKvCache.place s.cache.blockSize blockIndices (startTokenIdx + i) = some p ∧
          ∀ layerId' seqId' blockIndices', layerId' ≠ layerId →
            s.cache.blocksOf layerId' seqId' = some blockIndices' →
              ∀ tokenIdx, s.lastWritten layerId' seqId' tokenIdx ≠ none →
                PagedKvCache.place s.cache.blockSize blockIndices' tokenIdx ≠ some p
  | .free _ _ => True

end Run

section Tables

variable {κ : Type*} [DecidableEq κ] {t : BlockTable κ} {seqId seqId' : κ} {bs bs' : List ℕ}

theorem OwnedOnce.nodup_of_lookup (h : OwnedOnce t) (hbs : t.seqToBlocks.lookup seqId = some bs) :
    bs.Nodup := by
  have hperm := t.ownedBlocks_perm seqId
  simp only [BlockTable.getBlocks, hbs, Option.getD_some] at hperm
  exact (List.nodup_append.mp (hperm.nodup (List.nodup_append.mp h.1).2.1)).1

theorem OwnedOnce.disjoint_of_lookup (h : OwnedOnce t) (hne : seqId' ≠ seqId)
    (hbs : t.seqToBlocks.lookup seqId = some bs) (hbs' : t.seqToBlocks.lookup seqId' = some bs')
    {p : ℕ} (hp : p ∈ bs) : p ∉ bs' := by
  have hperm := t.ownedBlocks_perm seqId
  simp only [BlockTable.getBlocks, hbs, Option.getD_some] at hperm
  have hnodup := hperm.nodup (List.nodup_append.mp h.1).2.1
  intro hp'
  -- The other list stays when the first is taken out.
  have hmem : (⟨seqId', bs'⟩ : Σ _ : κ, List ℕ) ∈ (t.seqToBlocks.erase seqId).entries :=
    AList.mem_lookup_iff.mp (by rw [AList.lookup_erase_ne hne]; exact hbs')
  exact (List.nodup_append.mp hnodup).2.2 p hp p (List.mem_flatMap.mpr ⟨_, hmem, hp'⟩) rfl

end Tables

namespace PagedKvCache

section Places

variable {ρ : Type*} {blockSize tokenIdx tokenIdx' : ℕ} {blockIndices : List ℕ} {p offset : ℕ}

theorem mem_of_place (h : place blockSize blockIndices tokenIdx = some (p, offset)) :
    p ∈ blockIndices := by
  obtain ⟨q, hq, heq⟩ := Option.map_eq_some_iff.mp h
  obtain ⟨rfl, -⟩ := Prod.mk.inj heq
  exact List.mem_of_getElem? hq

/-- A token that fits has a place. -/
theorem exists_place (h : tokenIdx < blockIndices.length * blockSize) :
    ∃ p, place blockSize blockIndices tokenIdx = some (p, tokenIdx % blockSize) := by
  have hdiv : tokenIdx / blockSize < blockIndices.length := by
    apply Nat.div_lt_of_lt_mul
    rwa [Nat.mul_comm]
  refine ⟨blockIndices[tokenIdx / blockSize], ?_⟩
  rw [place, List.getElem?_eq_getElem hdiv, Option.map_some]

/-- Two tokens of a sequence have two places. -/
theorem place_inj (hnodup : blockIndices.Nodup)
    (h : place blockSize blockIndices tokenIdx = some (p, offset))
    (h' : place blockSize blockIndices tokenIdx' = some (p, offset)) : tokenIdx = tokenIdx' := by
  obtain ⟨q, hq, heq⟩ := Option.map_eq_some_iff.mp h
  obtain ⟨q', hq', heq'⟩ := Option.map_eq_some_iff.mp h'
  obtain ⟨rfl, rfl⟩ := Prod.mk.inj heq
  obtain ⟨rfl, hmod⟩ := Prod.mk.inj heq'
  obtain ⟨hlt, hget⟩ := List.getElem?_eq_some_iff.mp hq
  obtain ⟨hlt', hget'⟩ := List.getElem?_eq_some_iff.mp hq'
  have hdiv : tokenIdx / blockSize = tokenIdx' / blockSize :=
    hnodup.getElem_inj_iff.mp (hget.trans hget'.symm)
  rw [← Nat.div_add_mod tokenIdx blockSize, ← Nat.div_add_mod tokenIdx' blockSize, hdiv, hmod]

/-- A write leaves the places of other tokens as they are. -/
theorem writeRows_of_ne {gpuCache : ℕ → ℕ → ρ × ρ} {rows : List (ρ × ρ)}
    (h : ∀ i < rows.length, place blockSize blockIndices (tokenIdx + i) ≠ some (p, offset)) :
    writeRows blockSize blockIndices gpuCache tokenIdx rows p offset = gpuCache p offset := by
  induction rows generalizing gpuCache tokenIdx with
  | nil => rfl
  | cons row rows ih =>
      rw [writeRows, ih fun i hi => by rw [Nat.add_right_comm]; exact h (i + 1) (by simpa using hi)]
      have h0 := h 0 (by simp)
      rw [Nat.add_zero] at h0
      unfold writeRow
      cases hplace : place blockSize blockIndices tokenIdx with
      | none => rfl
      | some q =>
          obtain ⟨b, o⟩ := q
          refine put_of_ne fun heq => h0 ?_
          rw [hplace, heq.1, heq.2]

/-- A write stores each row at the place of its token. -/
theorem writeRows_at (hnodup : blockIndices.Nodup) {gpuCache : ℕ → ℕ → ρ × ρ}
    {rows : List (ρ × ρ)} {i : ℕ} {row : ρ × ρ} (hrow : rows[i]? = some row)
    (h : place blockSize blockIndices (tokenIdx + i) = some (p, offset)) :
    writeRows blockSize blockIndices gpuCache tokenIdx rows p offset = row := by
  induction rows generalizing gpuCache tokenIdx i with
  | nil => simp at hrow
  | cons row' rows ih =>
      rw [writeRows]
      cases i with
      | zero =>
          obtain rfl : row' = row := by simpa using hrow
          rw [writeRows_of_ne]
          · rw [Nat.add_zero] at h
            simp [writeRow, h]
          · intro j _ hj
            have := place_inj hnodup h hj
            omega
      | succ i =>
          refine ih (i := i) (by simpa using hrow) ?_
          rw [Nat.add_right_comm]
          exact h

end Places

section Tables

variable {κ ρ : Type*} [DecidableEq κ] {c : PagedKvCache κ ρ} {t : BlockTable κ} {layerId : ℕ}

theorem blocksOf_set (ht : c.gpuBlockTables[layerId]? = some t) (t' : BlockTable κ)
    (layerId' : ℕ) (seqId : κ) :
    blocksOf { c with gpuBlockTables := c.gpuBlockTables.set layerId t' } layerId' seqId =
      if layerId' = layerId then t'.seqToBlocks.lookup seqId else c.blocksOf layerId' seqId := by
  have hlt := (List.getElem?_eq_some_iff.mp ht).1
  unfold blocksOf
  by_cases h : layerId' = layerId
  · simp [h, hlt]
  · rw [List.getElem?_set_ne (Ne.symm h), if_neg h]

omit [DecidableEq κ] in
theorem set_self (ht : c.gpuBlockTables[layerId]? = some t) :
    { c with gpuBlockTables := c.gpuBlockTables.set layerId t } = c := by
  obtain ⟨hlt, rfl⟩ := List.getElem?_eq_some_iff.mp ht
  rw [List.set_getElem_self]

/-- What an allocation does: it raises and changes nothing, or gives new blocks to one
sequence in one layer. -/
theorem allocateGpuBlocks_cases (c : PagedKvCache κ ρ) (seqId : κ) (numTokens layerId : ℕ) :
    ((∃ e, (c.allocateGpuBlocks seqId numTokens layerId).1 = .error e) ∧
      (c.allocateGpuBlocks seqId numTokens layerId).2 = c) ∨
    (∃ t, c.gpuBlockTables[layerId]? = some t ∧
      (c.allocateGpuBlocks seqId numTokens layerId).2 =
        { c with gpuBlockTables :=
            c.gpuBlockTables.set layerId (blockStep t (.allocate seqId numTokens)) } ∧
      (∃ bs, (c.allocateGpuBlocks seqId numTokens layerId).1 = .ok bs) ∧
      ∀ seqId', seqId' ≠ seqId →
        (blockStep t (.allocate seqId numTokens)).seqToBlocks.lookup seqId' =
          t.seqToBlocks.lookup seqId') := by
  unfold allocateGpuBlocks
  cases ht : c.gpuBlockTables[layerId]? with
  | none => exact Or.inl ⟨⟨_, rfl⟩, rfl⟩
  | some t =>
      rcases t.allocateBlocks_cases seqId numTokens with ⟨e, h, -⟩ | ⟨need, -, -, h⟩
      · simp only [h]
        exact Or.inl ⟨⟨_, rfl⟩, set_self ht⟩
      · have hstep : blockStep t (.allocate seqId numTokens) =
            { t with
              freeBlocks := t.freeBlocks.drop need
              seqToBlocks := t.seqToBlocks.insert seqId (t.freeBlocks.take need) } := by
          simp only [blockStep, h]
        simp only [h]
        refine Or.inr ⟨t, rfl, by rw [hstep], ⟨_, rfl⟩, fun _ hne => ?_⟩
        rw [hstep]
        exact AList.lookup_insert_ne hne

theorem freeGpuBlocks_cases (c : PagedKvCache κ ρ) (seqId : κ) (layerId : ℕ) :
    c.freeGpuBlocks seqId layerId = c ∨
    (∃ t, c.gpuBlockTables[layerId]? = some t ∧
      c.freeGpuBlocks seqId layerId =
        { c with gpuBlockTables := c.gpuBlockTables.set layerId (blockStep t (.free seqId)) } ∧
      ∀ seqId', seqId' ≠ seqId →
        (blockStep t (.free seqId)).seqToBlocks.lookup seqId' = t.seqToBlocks.lookup seqId') := by
  unfold freeGpuBlocks
  cases ht : c.gpuBlockTables[layerId]? with
  | none => exact Or.inl rfl
  | some t =>
      refine Or.inr ⟨t, rfl, rfl, fun _ hne => ?_⟩
      simp only [blockStep, BlockTable.freeSequenceBlocks_eq]
      exact AList.lookup_erase_ne hne

end Tables

end PagedKvCache

/-- The tables own their blocks once, and what was last written for a live sequence is
at its place. -/
structure PagedRun.Inv {κ ρ : Type*} [DecidableEq κ] (s : PagedRun κ ρ) : Prop where
  owned : ∀ t ∈ s.cache.gpuBlockTables, OwnedOnce t
  held : ∀ layerId seqId bs tokenIdx row, s.cache.blocksOf layerId seqId = some bs →
    s.lastWritten layerId seqId tokenIdx = some row →
      ∃ p offset, PagedKvCache.place s.cache.blockSize bs tokenIdx = some (p, offset) ∧
        s.cache.gpuCache p offset = row

section Invariants

open PagedKvCache

variable {κ ρ : Type*} [DecidableEq κ] {s : PagedRun κ ρ}

theorem PagedRun.Inv.readsBack [Zero ρ] (h : s.Inv) : ReadsBack s := by
  intro layerId seqId bs hbs tokenIdx row hrow numTokens hlt
  obtain ⟨p, offset, hplace, hval⟩ := h.held layerId seqId bs tokenIdx row hbs hrow
  simp [readKv, List.getElem?_range hlt, hplace, hval]

omit [DecidableEq κ] in
theorem OwnedOnce.of_set {ts : List (BlockTable κ)} (h : ∀ t ∈ ts, OwnedOnce t) {t' : BlockTable κ}
    (ht' : OwnedOnce t') (i : ℕ) : ∀ t ∈ ts.set i t', OwnedOnce t := by
  intro t ht
  rcases List.mem_or_eq_of_mem_set ht with hmem | rfl
  · exact h t hmem
  · exact ht'

/-- New blocks go to a sequence that nothing was written for. -/
theorem PagedRun.Inv.allocate (h : s.Inv) {seqId : κ} {numTokens layerId : ℕ}
    (hnew : StaysApart s (.allocate seqId numTokens layerId)) :
    (pagedStep s (.allocate seqId numTokens layerId)).Inv := by
  rcases s.cache.allocateGpuBlocks_cases seqId numTokens layerId with
    ⟨-, hsame⟩ | ⟨t, ht, hset, ⟨bs, hok⟩, hothers⟩
  · simp only [pagedStep, hsame]
    exact h
  · have hnone : ∀ tokenIdx, s.lastWritten layerId seqId tokenIdx = none := by
      rcases hnew with ⟨e, he⟩ | hnone
      · simp [hok] at he
      · exact hnone
    simp only [pagedStep, hset]
    refine ⟨OwnedOnce.of_set h.owned ((h.owned t (List.mem_of_getElem? ht)).step _) layerId, ?_⟩
    intro l q bs' tokenIdx row hbs' hrow
    refine h.held l q bs' tokenIdx row ?_ hrow
    simp only [blocksOf_set ht] at hbs'
    split_ifs at hbs' with hl
    · subst hl
      have hq : q ≠ seqId := by
        rintro rfl
        simp [hnone] at hrow
      rw [hothers q hq] at hbs'
      simpa [blocksOf, ht] using hbs'
    · exact hbs'

theorem PagedRun.Inv.free (h : s.Inv) (seqId : κ) (layerId : ℕ) :
    (pagedStep s (.free seqId layerId)).Inv := by
  rcases s.cache.freeGpuBlocks_cases seqId layerId with hsame | ⟨t, ht, hset, hothers⟩
  · simp only [pagedStep, hsame]
    refine ⟨h.owned, fun l q bs tokenIdx row hbs hrow => h.held l q bs tokenIdx row hbs ?_⟩
    by_cases hlq : l = layerId ∧ q = seqId
    · simp [hlq] at hrow
    · simpa [put, hlq] using hrow
  · simp only [pagedStep, hset]
    refine ⟨OwnedOnce.of_set h.owned ((h.owned t (List.mem_of_getElem? ht)).step _) layerId, ?_⟩
    intro l q bs tokenIdx row hbs hrow
    by_cases hlq : l = layerId ∧ q = seqId
    · simp [hlq] at hrow
    · simp only [put_of_ne hlq] at hrow
      refine h.held l q bs tokenIdx row ?_ hrow
      simp only [blocksOf_set ht] at hbs
      split_ifs at hbs with hl
      · subst hl
        rw [hothers q fun hq => hlq ⟨rfl, hq⟩] at hbs
        simpa [blocksOf, ht] using hbs
      · exact hbs

/-- Two live sequences of one layer have no block in common. -/
theorem PagedRun.Inv.disjoint (h : s.Inv) {layerId : ℕ} {seqId seqId' : κ} {bs bs' : List ℕ}
    (hne : seqId' ≠ seqId) (hbs : s.cache.blocksOf layerId seqId = some bs)
    (hbs' : s.cache.blocksOf layerId seqId' = some bs') {p : ℕ} (hp : p ∈ bs) : p ∉ bs' := by
  obtain ⟨t, ht, hlook⟩ := Option.bind_eq_some_iff.mp hbs
  have hlook' : t.seqToBlocks.lookup seqId' = some bs' := by simpa [blocksOf, ht] using hbs'
  exact (h.owned t (List.mem_of_getElem? ht)).disjoint_of_lookup hne hlook hlook' hp

theorem PagedRun.Inv.nodup (h : s.Inv) {layerId : ℕ} {seqId : κ} {bs : List ℕ}
    (hbs : s.cache.blocksOf layerId seqId = some bs) : bs.Nodup := by
  obtain ⟨t, ht, hlook⟩ := Option.bind_eq_some_iff.mp hbs
  exact (h.owned t (List.mem_of_getElem? ht)).nodup_of_lookup hlook

/-- A write stores at the places of its own tokens, which no other live sequence has
written. -/
theorem PagedRun.Inv.write (h : s.Inv) {seqId : κ} {layerId startTokenIdx : ℕ}
    {rows : List (ρ × ρ)} (hapart : StaysApart s (.write seqId layerId startTokenIdx rows)) :
    (pagedStep s (.write seqId layerId startTokenIdx rows)).Inv := by
  simp only [pagedStep]
  cases hbs : s.cache.blocksOf layerId seqId with
  | none => exact h
  | some bs =>
      refine ⟨h.owned, fun l q bs' tokenIdx row hbs' hrow => ?_⟩
      have hbs' : s.cache.blocksOf l q = some bs' := hbs'
      have hnodup := h.nodup hbs
      simp only [writeKv]
      by_cases hlq : l = layerId ∧ q = seqId
      · obtain ⟨rfl, rfl⟩ := hlq
        obtain rfl : bs = bs' := Option.some.inj (hbs.symm.trans hbs')
        simp only [PagedRun.record, put_self] at hrow
        split_ifs at hrow with hin
        · -- A token of this write.
          obtain ⟨i, rfl⟩ := Nat.exists_eq_add_of_le hin.1
          rw [Nat.add_sub_cancel_left] at hrow
          obtain ⟨⟨p, offset⟩, hplace, -⟩ := hapart bs hbs i (by omega)
          exact ⟨p, offset, hplace, writeRows_at hnodup hrow hplace⟩
        · obtain ⟨p, offset, hplace, hval⟩ := h.held l q bs tokenIdx row hbs hrow
          refine ⟨p, offset, hplace, ?_⟩
          rw [writeRows_of_ne, hval]
          intro i hi hplace'
          have := place_inj hnodup hplace hplace'
          omega
      · simp only [PagedRun.record, put_of_ne hlq] at hrow
        obtain ⟨p, offset, hplace, hval⟩ := h.held l q bs' tokenIdx row hbs' hrow
        refine ⟨p, offset, hplace, ?_⟩
        rw [writeRows_of_ne, hval]
        intro i hi hplace'
        by_cases hl : l = layerId
        · subst hl
          exact h.disjoint (fun hq => hlq ⟨rfl, hq⟩) hbs hbs' (mem_of_place hplace')
            (mem_of_place hplace)
        · obtain ⟨x, hx, hoff⟩ := hapart bs hbs i hi
          obtain rfl : (p, offset) = x := Option.some.inj (hplace'.symm.trans hx)
          exact hoff l q bs' hl hbs' tokenIdx (by simp [hrow]) hplace

theorem PagedRun.Inv.step (h : s.Inv) {op : PagedOp κ ρ} (hop : StaysApart s op) :
    (pagedStep s op).Inv := by
  cases op with
  | allocate seqId numTokens layerId => exact h.allocate hop
  | write seqId layerId startTokenIdx rows => exact h.write hop
  | free seqId layerId => exact h.free seqId layerId

theorem PagedRun.Inv.run [Zero ρ] (h : s.Inv) {ops : List (PagedOp κ ρ)}
    (hops : EachStep pagedStep StaysApart s ops) : Always pagedStep ReadsBack s ops :=
  hops.always h (fun _ _ hs hop => hs.step hop) fun _ hs => hs.readsBack

end Invariants

section Results

variable {κ ρ : Type*} [DecidableEq κ] [Zero ρ]

/-- A new cache, with nothing written. -/
def PagedRun.start (c : PagedKvCache κ ρ) : PagedRun κ ρ := ⟨c, fun _ _ _ => none⟩

theorem PagedRun.Inv.start {numGpuBlocks blockSize numLayers : ℕ} {c : PagedKvCache κ ρ}
    (hc : PagedKvCache.new numGpuBlocks blockSize numLayers = .ok c) :
    (PagedRun.start c).Inv := by
  unfold PagedKvCache.new at hc
  split_ifs at hc
  obtain rfl := (Except.ok.inj hc).symm
  refine ⟨fun t ht => ?_, fun _ _ _ _ _ _ hrow => by simp [PagedRun.start] at hrow⟩
  obtain rfl := List.eq_of_mem_replicate ht
  exact OwnedOnce.new numGpuBlocks blockSize

/-- **A run reads back what it wrote while its calls stay apart.** -/
theorem pagedRun_readsBack {numGpuBlocks blockSize numLayers : ℕ} {c : PagedKvCache κ ρ}
    (hc : PagedKvCache.new numGpuBlocks blockSize numLayers = .ok c) {ops : List (PagedOp κ ρ)}
    (hops : EachStep pagedStep StaysApart (PagedRun.start c) ops) :
    Always pagedStep ReadsBack (PagedRun.start c) ops :=
  (PagedRun.Inv.start hc).run hops

omit [Zero ρ] in
/-- A write stays apart when the blocks of its sequence belong to no other layer. -/
theorem staysApart_of_ownBlocks {s : PagedRun κ ρ} {seqId : κ} {layerId startTokenIdx : ℕ}
    {rows : List (ρ × ρ)} (bs : List ℕ) (hbs : s.cache.blocksOf layerId seqId = some bs)
    (hfit : startTokenIdx + rows.length ≤ bs.length * s.cache.blockSize)
    (hown : ∀ x ∈ s.cache.gpuBlockTables.zipIdx, x.2 ≠ layerId →
      ∀ entry ∈ x.1.seqToBlocks.entries, ∀ p ∈ bs, p ∉ entry.2) :
    StaysApart s (.write seqId layerId startTokenIdx rows) := by
  intro bs' hbs' i hi
  obtain rfl : bs = bs' := Option.some.inj (hbs.symm.trans hbs')
  obtain ⟨p, hplace⟩ := PagedKvCache.exists_place
    (show startTokenIdx + i < bs.length * s.cache.blockSize by omega)
  refine ⟨_, hplace, fun l q bs' hl hlook tokenIdx _ hsame => ?_⟩
  obtain ⟨t, ht, hentry⟩ := Option.bind_eq_some_iff.mp hlook
  exact hown (t, l) (List.mk_mem_zipIdx_iff_getElem?.mpr ht) hl _ (AList.mem_lookup_iff.mp hentry) p
    (PagedKvCache.mem_of_place hplace) (PagedKvCache.mem_of_place hsame)

/-- Two sequences in the first layer and one in the second, which gets the blocks behind those of
a sequence that was freed. -/
theorem pagedRun_readsBack_two :
    Always pagedStep ReadsBack
      (PagedRun.start ⟨2, fun _ _ => (0, 0), List.replicate 2 (BlockTable.new 4 2)⟩)
      [PagedOp.allocate 0 2 0, .allocate 1 2 0, .allocate 1 4 1, .allocate 0 3 1, .free 1 1,
        .write 0 0 0 [(1, 2), (3, 4)], .write 1 0 1 [(5, 6)],
        .write 0 1 0 [(7, 8), (9, 10), (11, 12)], .write 0 0 1 [(13, 14)]] := by
  have hnew : PagedKvCache.new 4 2 2 =
      .ok (⟨2, fun _ _ => (0, 0), List.replicate 2 (.new 4 2)⟩ : PagedKvCache ℕ ℕ) := rfl
  refine pagedRun_readsBack hnew ⟨Or.inr fun _ => rfl, Or.inr fun _ => rfl, Or.inr fun _ => rfl,
    Or.inr fun _ => rfl, trivial, ?_, ?_, ?_, ?_, trivial⟩
  · exact staysApart_of_ownBlocks [0] (by decide) (by decide) (by decide)
  · exact staysApart_of_ownBlocks [1] (by decide) (by decide) (by decide)
  · exact staysApart_of_ownBlocks [2, 3] (by decide) (by decide) (by decide)
  · exact staysApart_of_ownBlocks [0] (by decide) (by decide) (by decide)

/-- Two layers of one sequence, each given block 0. -/
theorem pagedRun_overwrites :
    ¬ ∀ (numGpuBlocks blockSize numLayers : ℕ) (c : PagedKvCache ℕ ℕ),
      PagedKvCache.new numGpuBlocks blockSize numLayers = .ok c →
      ∀ ops, Always pagedStep ReadsBack (PagedRun.start c) ops := by
  intro h
  have hlast := (h 1 1 2 _ rfl [.allocate 0 1 0, .allocate 0 1 1, .write 0 0 0 [(1, 1)],
    .write 0 1 0 [(2, 2)]]).2.2.2.2
  have hread := hlast 0 0 [0] (by decide) 0 (1, 1) (by decide) 1 (by decide)
  exact absurd hread (by decide)

end Results

section Chunks

namespace PagedKvCache

variable {κ ρ : Type*} {blockSize : ℕ} {blockIndices : List ℕ}

/-- Write a sequence in chunks, each at the token where the one before it ended. -/
def writeChunks (c : PagedKvCache κ ρ) (blockIndices : List ℕ) (layerId : ℕ) :
    ℕ → List (List (ρ × ρ)) → PagedKvCache κ ρ
  | _, [] => c
  | startTokenIdx, rows :: chunks =>
      writeChunks (c.writeKv rows blockIndices layerId startTokenIdx) blockIndices layerId
        (startTokenIdx + rows.length) chunks

/-- The loop goes on where it stopped. -/
theorem writeRows_append (gpuCache : ℕ → ℕ → ρ × ρ) (tokenIdx : ℕ) (rows rows' : List (ρ × ρ)) :
    writeRows blockSize blockIndices gpuCache tokenIdx (rows ++ rows') =
      writeRows blockSize blockIndices (writeRows blockSize blockIndices gpuCache tokenIdx rows)
        (tokenIdx + rows.length) rows' := by
  induction rows generalizing gpuCache tokenIdx with
  | nil => rfl
  | cons row rows ih =>
      rw [List.cons_append, writeRows, ih, writeRows, List.length_cons, Nat.add_assoc,
        Nat.add_comm 1 rows.length]

/-- Chunks are written as the whole sequence is. -/
theorem writeChunks_eq (c : PagedKvCache κ ρ) (layerId startTokenIdx : ℕ)
    (chunks : List (List (ρ × ρ))) :
    c.writeChunks blockIndices layerId startTokenIdx chunks =
      c.writeKv chunks.flatten blockIndices layerId startTokenIdx := by
  induction chunks generalizing c startTokenIdx with
  | nil => rfl
  | cons rows chunks ih =>
      rw [writeChunks, ih, List.flatten_cons]
      simp only [writeKv, writeRows_append]

/-- What is read after a write are the rows written. -/
theorem readKv_writeKv [Zero ρ] (c : PagedKvCache κ ρ) (hnodup : blockIndices.Nodup)
    (layerId : ℕ) {rows : List (ρ × ρ)} (hfit : rows.length ≤ blockIndices.length * c.blockSize)
    {numTokens : ℕ} (hn : numTokens ≤ rows.length) :
    (c.writeKv rows blockIndices layerId 0).readKv blockIndices numTokens =
      rows.take numTokens := by
  apply List.ext_getElem
  · simp [readKv, hn]
  · intro i hi _
    have hlt : i < numTokens := by simpa [readKv] using hi
    have hrow : rows[i]? = some rows[i] := List.getElem?_eq_getElem (by omega)
    have ⟨p, hplace⟩ : ∃ p, place c.blockSize blockIndices i = some (p, i % c.blockSize) :=
      exists_place (by omega)
    have hplace' : place c.blockSize blockIndices (0 + i) = some (p, i % c.blockSize) := by
      rwa [Nat.zero_add]
    have hstored : writeRows c.blockSize blockIndices c.gpuCache 0 rows p (i % c.blockSize) =
        rows[i] := writeRows_at hnodup hrow hplace'
    simp only [readKv, writeKv, List.getElem_map, List.getElem_range, hplace, hstored,
      List.getElem_take]

/-- A write leaves the blocks that are not in its list. -/
theorem writeKv_of_notMem (c : PagedKvCache κ ρ) (rows : List (ρ × ρ)) (layerId : ℕ)
    (startTokenIdx : ℕ) {p : ℕ} (hp : p ∉ blockIndices) :
    (c.writeKv rows blockIndices layerId startTokenIdx).gpuCache p = c.gpuCache p := by
  ext1 offset
  exact writeRows_of_ne fun i _ hplace => hp (mem_of_place hplace)

end PagedKvCache

variable {κ ρ : Type*} [Zero ρ]

/-- In whatever chunks a sequence that fits is written, it is read back, and no other block
has changed. -/
theorem readKv_writeChunks (c : PagedKvCache κ ρ) {blockIndices : List ℕ}
    (hnodup : blockIndices.Nodup) (layerId : ℕ) (chunks : List (List (ρ × ρ)))
    (hfit : chunks.flatten.length ≤ blockIndices.length * c.blockSize) :
    (∀ numTokens, numTokens ≤ chunks.flatten.length →
      (c.writeChunks blockIndices layerId 0 chunks).readKv blockIndices numTokens =
        chunks.flatten.take numTokens) ∧
    ∀ p, p ∉ blockIndices →
      (c.writeChunks blockIndices layerId 0 chunks).gpuCache p = c.gpuCache p := by
  rw [PagedKvCache.writeChunks_eq]
  exact ⟨fun _ hn => c.readKv_writeKv hnodup layerId hfit hn,
    fun _ hp => c.writeKv_of_notMem _ layerId 0 hp⟩

/-- Three tokens in two chunks, in two blocks of two. -/
theorem readKv_writeChunks_two :
    (∀ numTokens, numTokens ≤ 3 →
      ((⟨2, fun _ _ => (0, 0), []⟩ : PagedKvCache ℕ ℕ).writeChunks [3, 1] 0 0
        [[(1, 2)], [(3, 4), (5, 6)]]).readKv [3, 1] numTokens =
        [(1, 2), (3, 4), (5, 6)].take numTokens) ∧
    ∀ p, p ∉ [3, 1] → ((⟨2, fun _ _ => (0, 0), []⟩ : PagedKvCache ℕ ℕ).writeChunks [3, 1] 0 0
      [[(1, 2)], [(3, 4), (5, 6)]]).gpuCache p = fun _ => (0, 0) :=
  readKv_writeChunks _ (by decide) 0 [[(1, 2)], [(3, 4), (5, 6)]] (by decide)

end Chunks

end HarvestMoE
