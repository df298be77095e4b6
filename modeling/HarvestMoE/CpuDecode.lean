import HarvestMoE.CausalLM
import HarvestMoE.FlashDecode
import HarvestMoE.Lib.Attention
import HarvestMoE.Pipeline

/-!
# Attention of a job, in the memories themselves

`cpu_decode_forward_cpp` finds queries, keys and values in the rows of a pinned buffer, writes the
keys and the values to the pool of its layer, where the two of a token lie side by side, and has
the kernel attend over the ranges of the sequences. On the way every access is an offset into a
flat memory. What it leaves in the memories is what the job of the decode machine leaves in its
pool and its rows (`runJob_simulated`).

## Main definitions

* `CpuAttention` — the layer, with the numbers it computes with.
* `CpuAttention.cpuDecodeForwardCpp` — the memory of the pool and the hidden buffer after a call.
* `CpuAttention.HoldsPool`, `CpuAttention.HoldsQkv`, `CpuAttention.HoldsAttn` — what the memories
  stand for.
* `CpuAttention.attend` — attention of a query to the rows of its sequence.
-/

namespace HarvestMoE

open Lib

/-- `Attention`, with the functions of its numbers. -/
structure CpuAttention (K : Type*) where
  tpQHeadNum : ℕ
  tpKHeadNum : ℕ
  headDim : ℕ
  exp : K → K
  sqrt : K → K
  /-- `head_dim**-0.5` -/
  scale : K
  isReducedType : Bool

/-- Rows stored one after the other, each from its place on. -/
def storeRows {K : Type*} (mem : ℕ → K) (rows : List (ℕ × List K)) : ℕ → K :=
  applyStores mem (rows.flatMap fun row => row.2.mapIdx fun d x => (row.1 + d, x))

namespace CpuAttention

variable {K : Type*} (a : CpuAttention K)

/-- Entries of a row of `qkv_pin`. -/
def qkvWidth : ℕ := (a.tpQHeadNum + 2 * a.tpKHeadNum) * a.headDim

/-- Entries of the keys of a token, and of its values. -/
def kvWidth : ℕ := a.tpKHeadNum * a.headDim

/-- `query`, a view of `qkv_pin` for `bs` sequences. -/
def query (qkvPin : ℕ → K) (bs : ℕ) : Tensor K where
  size d := [bs, 1, a.tpQHeadNum, a.headDim].getD d 0
  stride d := [a.qkvWidth, a.tpQHeadNum * a.headDim, a.headDim, 1].getD d 0
  data := qkvPin

/-- `get_key_buffer_cpu` -/
def keyBufferCpu (cpuSize : ℕ) (mem : ℕ → K) : Tensor K where
  size d := [cpuSize, a.tpKHeadNum, a.headDim].getD d 0
  stride d := [2 * a.kvWidth, a.headDim, 1].getD d 0
  data := mem

/-- `get_value_buffer_cpu` -/
def valueBufferCpu (cpuSize : ℕ) (mem : ℕ → K) : Tensor K where
  size d := [cpuSize, a.tpKHeadNum, a.headDim].getD d 0
  stride d := [2 * a.kvWidth, a.headDim, 1].getD d 0
  data p := mem (a.kvWidth + p)

def hiddenPin (hidden : ℕ → K) (bs : ℕ) : Tensor K where
  size d := [bs, 1, a.tpQHeadNum, a.headDim].getD d 0
  stride d := [a.tpQHeadNum * a.headDim, a.tpQHeadNum * a.headDim, a.headDim, 1].getD d 0
  data := hidden

/-- `buffer[locs, :, :] = cache` for the keys, part 0 of the rows of the pool, or the values, part
1 of them. Their heads begin at head `first` of the rows of `qkv_pin`. -/
def putHeads (cpuSize : ℕ) (mem : ℕ → K) (part : ℕ) (locs : List ℤ) (qkvPin : ℕ → K)
    (first : ℕ) : Option (ℕ → K) :=
  (locs.mapM (wrapIndex cpuSize)).map fun is =>
    is.zipIdx.foldl (fun mem p =>
      copyRows mem (p.1 * (2 * a.kvWidth) + part * a.kvWidth) qkvPin
        (p.2 * a.qkvWidth + first * a.headDim) a.kvWidth) mem

/-- `store_kv_cache_cpu` -/
def storeKvCacheCpu (cpuSize : ℕ) (mem qkvPin : ℕ → K) (b : KvBatch) : Option (ℕ → K) :=
  let outCacheLoc := b.seqs.map SeqKv.decodeOutCacheLoc
  (a.putHeads cpuSize mem 0 outCacheLoc qkvPin a.tpQHeadNum).bind fun mem =>
    a.putHeads cpuSize mem 1 outCacheLoc qkvPin (a.tpQHeadNum + a.tpKHeadNum)

/-- The arguments of `token_attention_cpu`, which runs
`cpu_flash_decode_gqa<scalar_t, 32, 1024>`. -/
def tokenAttentionCpu (cpuSize : ℕ) (mem qkvPin hidden : ℕ → K) (b : KvBatch)
    (seqLens : List ℕ) : FlashDecode K where
  exp := a.exp
  sqrt := a.sqrt
  qSplit := 32
  kvSplitSize := 1024
  isReducedType := a.isReducedType
  output := a.hiddenPin hidden b.seqs.length
  query := a.query qkvPin b.seqs.length
  key := a.keyBufferCpu cpuSize mem
  value := a.valueBufferCpu cpuSize mem
  seqLens i := seqLens.getD i 0
  startLoc i := (b.seqs.map SeqKv.startLoc).getD i 0
  scale := some a.scale

/-- `cpu_decode_forward_cpp` with the pool: its memory and `hidden_pin` behind the call. -/
def cpuDecodeForwardCpp [Field K] [LinearOrder K] (cpuSize : ℕ) (mem qkvPin hidden : ℕ → K)
    (b : KvBatch) (chunks : List (FlashDecode.Chunk K)) : Option ((ℕ → K) × (ℕ → K)) :=
  (a.storeKvCacheCpu cpuSize mem qkvPin b).bind fun mem =>
    (b.seqs.mapM SeqKv.seqLenCpu).bind fun seqLens =>
      ((a.tokenAttentionCpu cpuSize mem qkvPin hidden b seqLens).cpuFlashDecodeGqa
        chunks).toOption.map fun rows => (mem, storeRows hidden rows)

/-- Row `n` of the pinned buffer: the query of a sequence. -/
def queryRow (qkvPin : ℕ → K) (n : ℕ) (h d : ℕ) : K := qkvPin (n * a.qkvWidth + h * a.headDim + d)

/-- The key and the value of its new token. -/
def newKv (qkvPin : ℕ → K) (n : ℕ) : KvRow K where
  key j d := qkvPin (n * a.qkvWidth + (a.tpQHeadNum + j) * a.headDim + d)
  value j d := qkvPin (n * a.qkvWidth + (a.tpQHeadNum + a.tpKHeadNum + j) * a.headDim + d)

/-- Attention of a query to the rows of its sequence. -/
def attend [Field K] (q : ℕ → ℕ → K) (kvs : List (KvRow K)) (h d : ℕ) : K :=
  gqaAttention a.exp a.scale a.headDim (a.tpQHeadNum / a.tpKHeadNum) q
    (fun t => kvs.getD t default) kvs.length h d

/-- The keys of a row, part 0, or its values, part 1. -/
def kvPart (x : KvRow K) (part : ℕ) : ℕ → ℕ → K := if part = 0 then x.key else x.value

/-- A part of the memory of a layer has the entries of the pool. -/
def HoldsPart (mem : ℕ → K) (part : ℕ) (pool : ℕ → KvRow K) : Prop :=
  ∀ t, ∀ j < a.tpKHeadNum, ∀ d < a.headDim,
    mem (t * (2 * a.kvWidth) + part * a.kvWidth + (j * a.headDim + d)) = kvPart (pool t) part j d

/-- The memory of a layer stands for the rows of the pool. -/
structure HoldsPool (mem : ℕ → K) (pool : ℕ → KvRow K) : Prop where
  keys : a.HoldsPart mem 0 pool
  values : a.HoldsPart mem 1 pool

/-- The pinned rows stand for the queries of the sequences and the rows of their new tokens. -/
def HoldsQkv (qkvPin : ℕ → K) (rows : List ((ℕ → ℕ → K) × KvRow K)) : Prop :=
  ∀ n x, rows[n]? = some x →
    (∀ h < a.tpQHeadNum, ∀ d < a.headDim, a.queryRow qkvPin n h d = x.1 h d) ∧
    ∀ j < a.tpKHeadNum, ∀ d < a.headDim, (a.newKv qkvPin n).key j d = x.2.key j d ∧
      (a.newKv qkvPin n).value j d = x.2.value j d

/-- The hidden buffer stands for the attention of these sequences. -/
def HoldsAttn (hidden : ℕ → K) (attns : List (ℕ → ℕ → K)) : Prop :=
  ∀ n x, attns[n]? = some x → ∀ h < a.tpQHeadNum, ∀ d < a.headDim,
    hidden (n * (a.tpQHeadNum * a.headDim) + (h * a.headDim + d)) = x h d

section Store

variable {a} {mem qkvPin : ℕ → K} {pool : ℕ → KvRow K} {part part' bs first : ℕ}
  {rows : ℕ → KvRow K}

theorem head_lt {j d n : ℕ} (hj : j < n) (hd : d < a.headDim) :
    j * a.headDim + d < n * a.headDim := by
  have := Nat.mul_le_mul_right a.headDim hj
  rw [Nat.succ_mul] at this
  omega

/-- A copy to a part of a row of the pool. -/
theorem copyRows_part {src : ℕ → K} {t t' fr c w : ℕ} (hpart : part < 2) (hpart' : part' < 2)
    (hc : c < w) :
    copyRows mem (t' * (2 * w) + part' * w) src fr w (t * (2 * w) + part * w + c) =
      if t = t' ∧ part = part' then src (fr + c) else mem (t * (2 * w) + part * w + c) := by
  have hrow : ∀ t part, t * (2 * w) + part * w = (t * 2 + part) * w := by
    intro t part
    ring
  have hsrc : copyRows mem ((t' * 2 + part') * w) src fr w =
      copyRows mem ((t' * 2 + part') * w) (fun c => src (fr + c)) 0 w := by
    funext p
    simp [copyRows]
  rw [hrow, hrow, hsrc, copyRows_row _ _ hc]
  refine if_congr ⟨fun h => ?_, fun h => ?_⟩ rfl rfl
  · constructor <;> omega
  · rw [h.1, h.2]

/-- The rows of `qkv_pin` have, from head `first` on, this part of the new rows. -/
def PinPart (a : CpuAttention K) (qkvPin : ℕ → K) (first part bs : ℕ) (rows : ℕ → KvRow K) : Prop :=
  ∀ n < bs, ∀ j < a.tpKHeadNum, ∀ d < a.headDim,
    qkvPin (n * a.qkvWidth + first * a.headDim + (j * a.headDim + d)) = kvPart (rows n) part j d

/-- **Writing one part to the rows of a list is the indexed write of the pool**, on that part. -/
theorem HoldsPart.put (hpart : part < 2) (hpin : PinPart a qkvPin first part bs rows)
    (is : List ℕ) {m : ℕ} (hm : m + is.length ≤ bs) (h : a.HoldsPart mem part pool) :
    a.HoldsPart ((is.zipIdx m).foldl (fun mem p =>
        copyRows mem (p.1 * (2 * a.kvWidth) + part * a.kvWidth) qkvPin
          (p.2 * a.qkvWidth + first * a.headDim) a.kvWidth) mem) part
      (scatter pool is ((List.range' m is.length).map rows)) := by
  induction is generalizing mem pool m with
  | nil => exact h
  | cons i is ih =>
      rw [List.length_cons] at hm
      rw [List.zipIdx_cons, List.foldl_cons, List.length_cons, List.range'_succ, List.map_cons]
      refine ih (by omega) fun t j hj d hd => ?_
      have hlt : j * a.headDim + d < a.kvWidth := head_lt hj hd
      change _ = kvPart (Function.update pool i (rows m) t) part j d
      rw [copyRows_part hpart hpart hlt]
      by_cases ht : t = i
      · subst ht
        rw [if_pos ⟨rfl, rfl⟩, Function.update_self]
        exact hpin m (by omega) j hj d hd
      · rw [if_neg fun heq => ht heq.1, Function.update_of_ne ht]
        exact h t j hj d hd

/-- The other part stays. -/
theorem HoldsPart.put_other (hpart : part < 2) (hpart' : part' < 2) (hne : part ≠ part')
    (is : List ℕ) {m : ℕ} (h : a.HoldsPart mem part pool) :
    a.HoldsPart ((is.zipIdx m).foldl (fun mem p =>
        copyRows mem (p.1 * (2 * a.kvWidth) + part' * a.kvWidth) qkvPin
          (p.2 * a.qkvWidth + first * a.headDim) a.kvWidth) mem) part pool := by
  induction is generalizing mem m with
  | nil => exact h
  | cons i is ih =>
      rw [List.zipIdx_cons, List.foldl_cons]
      refine ih fun t j hj d hd => ?_
      have hlt : j * a.headDim + d < a.kvWidth := head_lt hj hd
      rw [copyRows_part hpart hpart' hlt, if_neg fun heq => hne heq.2]
      exact h t j hj d hd

/-- `store_kv_cache_cpu` brings the rows of the new tokens to the pool. -/
theorem HoldsPool.store [Zero K] {qkv : List ((ℕ → ℕ → K) × KvRow K)}
    {p p' : TokenToKVPool (KvRow K)} {b : KvBatch} {layerId : ℕ}
    (h : a.HoldsPool mem (p.kvDataCpu layerId)) (hqkv : a.HoldsQkv qkvPin qkv)
    (hlen : qkv.length = b.seqs.length)
    (hstore : HarvestMoE.storeKvCacheCpu p b layerId ((List.range b.seqs.length).map fun n =>
      (qkv[n]?.map Prod.snd).getD default) = some p') :
    ∃ mem', a.storeKvCacheCpu p.cpuSize mem qkvPin b = some mem' ∧
      a.HoldsPool mem' (p'.kvDataCpu layerId) := by
  simp only [HarvestMoE.storeKvCacheCpu, indexPut, Option.map_eq_some_iff,
    Option.bind_eq_some_iff] at hstore
  rcases hstore with ⟨pool, ⟨is, his, hput⟩, rfl⟩
  split_ifs at hput with hsame
  obtain rfl := Option.some.inj hput
  rw [List.length_map, List.length_range] at hsame
  have hkv : ∀ n < b.seqs.length, ∃ x, qkv[n]? = some x := fun n hn =>
    ⟨_, List.getElem?_eq_getElem (hlen ▸ hn)⟩
  have hkeys : PinPart a qkvPin a.tpQHeadNum 0 b.seqs.length fun n =>
      (qkv[n]?.map Prod.snd).getD default := by
    intro n hn j hj d hd
    rcases hkv n hn with ⟨x, hx⟩
    have hkey := ((hqkv n x hx).2 j hj d hd).1
    simp only [newKv] at hkey
    simp only [hx, Option.map_some, Option.getD_some, kvPart, if_true, ← hkey]
    congr 1
    ring
  have hvalues : PinPart a qkvPin (a.tpQHeadNum + a.tpKHeadNum) 1 b.seqs.length fun n =>
      (qkv[n]?.map Prod.snd).getD default := by
    intro n hn j hj d hd
    rcases hkv n hn with ⟨x, hx⟩
    have hvalue := ((hqkv n x hx).2 j hj d hd).2
    simp only [newKv] at hvalue
    simp only [hx, Option.map_some, Option.getD_some, kvPart, one_ne_zero, if_false, ← hvalue]
    congr 1
    ring
  simp only [storeKvCacheCpu, putHeads, his, Option.map_some, Option.bind_some]
  refine ⟨_, rfl, ?_⟩
  rw [Function.update_self, List.range_eq_range', ← hsame]
  exact
    { keys := HoldsPart.put_other (by omega) (by omega) (by omega) is
        (h.keys.put (by omega) hkeys is (by omega))
      values := HoldsPart.put (by omega) hvalues is (by omega)
        (h.values.put_other (by omega) (by omega) (by omega) is) }

end Store

section Kernel

/-- Rows stored in any order leave the entry that all of them have at a place. -/
theorem storeRows_eq {hidden : ℕ → K} {rows : List (ℕ × List K)} {p : ℕ} {v : K}
    (hall : ∀ row ∈ rows, ∀ d x, row.2[d]? = some x → row.1 + d = p → x = v)
    (hsome : ∃ row ∈ rows, ∃ d x, row.2[d]? = some x ∧ row.1 + d = p) :
    storeRows hidden rows p = v := by
  have hmem : ∀ st, st ∈ rows.flatMap (fun row => row.2.mapIdx fun d x => (row.1 + d, x)) ↔
      ∃ row ∈ rows, ∃ d x, row.2[d]? = some x ∧ st = (row.1 + d, x) := by
    intro st
    simp only [List.mem_flatMap, List.mem_mapIdx]
    refine exists_congr fun row => and_congr_right fun _ => ⟨?_, ?_⟩
    · rintro ⟨d, hd, rfl⟩
      exact ⟨d, _, List.getElem?_eq_getElem hd, rfl⟩
    · rintro ⟨d, x, hx, rfl⟩
      rcases List.getElem?_eq_some_iff.mp hx with ⟨hd, rfl⟩
      exact ⟨d, hd, rfl⟩
  refine applyStores_eq (fun st hst hp => ?_) (Or.inr ?_)
  · rcases (hmem st).mp hst with ⟨row, hrow, d, x, hx, rfl⟩
    exact hall row hrow d x hx hp
  · rcases hsome with ⟨row, hrow, d, x, hx, hp⟩
    exact ⟨_, (hmem _).mpr ⟨row, hrow, d, x, hx, rfl⟩, hp⟩

variable [Field K] {a} {mem qkvPin hidden : ℕ → K} {cpuSize : ℕ} {b : KvBatch}
  {seqLens : List ℕ} {n h d : ℕ}

/-- What the kernel writes for a head of a sequence. -/
theorem storeRows_outputRow {rows : List (ℕ × List K)}
    (hrows : rows.Perm ((List.range b.seqs.length ×ˢ List.range a.tpQHeadNum).map fun p =>
      (a.tokenAttentionCpu cpuSize mem qkvPin hidden b seqLens).outputRow p.1 p.2))
    (hn : n < b.seqs.length) (hh : h < a.tpQHeadNum) (hd : d < a.headDim) :
    storeRows hidden rows (n * (a.tpQHeadNum * a.headDim) + (h * a.headDim + d)) =
      (a.tokenAttentionCpu cpuSize mem qkvPin hidden b seqLens).attention n h d := by
  have hrow : ∀ row, row ∈ rows ↔ ∃ n h, n < b.seqs.length ∧ h < a.tpQHeadNum ∧
      row = (n * (a.tpQHeadNum * a.headDim) + h * a.headDim, (List.range a.headDim).map
        ((a.tokenAttentionCpu cpuSize mem qkvPin hidden b seqLens).attention n h)) := by
    intro row
    rw [hrows.mem_iff, List.mem_map]
    constructor
    · rintro ⟨⟨n, h⟩, hp, rfl⟩
      have hp := List.mem_product.mp hp
      exact ⟨n, h, List.mem_range.mp hp.1, List.mem_range.mp hp.2, rfl⟩
    · rintro ⟨n, h, hn, hh, rfl⟩
      exact ⟨(n, h), List.mem_product.mpr ⟨List.mem_range.mpr hn, List.mem_range.mpr hh⟩, rfl⟩
  have hentry : ((List.range a.headDim).map
      ((a.tokenAttentionCpu cpuSize mem qkvPin hidden b seqLens).attention n h))[d]? =
      some ((a.tokenAttentionCpu cpuSize mem qkvPin hidden b seqLens).attention n h d) := by
    rw [List.getElem?_map, List.getElem?_range hd]
    rfl
  refine storeRows_eq (fun row hmem e x hx hp => ?_)
    ⟨_, (hrow _).mpr ⟨n, h, hn, hh, rfl⟩, d, _, hentry, Nat.add_assoc _ _ _⟩
  rcases (hrow row).mp hmem with ⟨n', h', hn', hh', rfl⟩
  rw [List.getElem?_map] at hx
  rcases Option.map_eq_some_iff.mp hx with ⟨e', he', rfl⟩
  rcases List.getElem?_eq_some_iff.mp he' with ⟨he, rfl⟩
  rw [List.length_range] at he
  rw [List.getElem_range]
  -- The place tells the sequence, the head and the entry.
  rw [Nat.add_assoc] at hp
  rcases line_unique (head_lt hh' he) (head_lt hh hd) hp with ⟨rfl, hplace⟩
  rcases line_unique he hd hplace with ⟨rfl, rfl⟩
  rfl

/-- Plain attention of the kernel is attention of the query to the rows of the pool. -/
theorem attention_eq {pool : ℕ → KvRow K} {qkv : List ((ℕ → ℕ → K) × KvRow K)}
    {x : (ℕ → ℕ → K) × KvRow K} {len start : ℕ} (hdvd : a.tpKHeadNum ∣ a.tpQHeadNum)
    (hpool : a.HoldsPool mem pool) (hqkv : a.HoldsQkv qkvPin qkv) (hx : qkv[n]? = some x)
    (hlen : seqLens[n]? = some len) (hstart : (b.seqs.map SeqKv.startLoc)[n]? = some start)
    (hh : h < a.tpQHeadNum) (hd : d < a.headDim) :
    (a.tokenAttentionCpu cpuSize mem qkvPin hidden b seqLens).attention n h d =
      a.attend x.1 (gather pool start len) h d := by
  have hlen' : seqLens.getD n 0 = len := by rw [List.getD_eq_getElem?_getD, hlen, Option.getD_some]
  have hstart' : (b.seqs.map SeqKv.startLoc).getD n 0 = start := by
    rw [List.getD_eq_getElem?_getD, hstart, Option.getD_some]
  have hgroup : h / (a.tpQHeadNum / a.tpKHeadNum) < a.tpKHeadNum := by
    rcases hdvd with ⟨g, hg⟩
    have hk : 0 < a.tpKHeadNum := Nat.pos_of_ne_zero fun h0 => by simp [h0] at hg; omega
    rw [hg, Nat.mul_div_cancel_left g hk]
    have hg0 : 0 < g := Nat.pos_of_ne_zero fun h0 => by simp [h0] at hg; omega
    exact (Nat.div_lt_iff_lt_mul hg0).mpr (by rw [← hg]; exact hh)
  have hgqa : (a.tokenAttentionCpu cpuSize mem qkvPin hidden b seqLens).attention n h d =
      gqaAttention a.exp a.scale a.headDim (a.tpQHeadNum / a.tpKHeadNum) (a.queryRow qkvPin n)
        (fun t => ⟨fun j e => mem ((start + t) * (2 * a.kvWidth) + j * a.headDim + e),
          fun j e => mem (a.kvWidth + ((start + t) * (2 * a.kvWidth) + j * a.headDim + e))⟩)
        len h d := by
    rw [← hlen', ← hstart']
    rfl
  have hread : ∀ t < len, (gather pool start len).getD t default = pool (start + t) := by
    intro t ht
    rw [gather, List.getD_eq_getElem?_getD, List.getElem?_map, List.getElem?_range ht]
    rfl
  rw [hgqa, attend, show (gather pool start len).length = len by simp [gather]]
  refine gqaAttention_congr (fun e he => (hqkv n x hx).1 h hh e he) (fun t ht e he => ?_)
    fun t ht => ?_
  · rw [hread t ht]
    have hkey := hpool.keys (start + t) _ hgroup e he
    rw [kvPart, if_pos rfl] at hkey
    rw [← hkey]
    refine congrArg mem ?_
    ring
  · rw [hread t ht]
    have hvalue := hpool.values (start + t) _ hgroup d hd
    rw [kvPart, if_neg one_ne_zero] at hvalue
    rw [← hvalue]
    refine congrArg mem ?_
    ring

end Kernel

section Job

variable {D L : Type*} [Field K] [LinearOrder K] {a} {cfg : EngineConfig} {lens : List (List ℕ)}
  {s : DecodeState (Rows D (ℕ → ℕ → K) (KvRow K) (ℕ → ℕ → K) L) (KvRow K)} {d i k : ℕ} {l : List ℕ}
  {mem qkvPin : ℕ → K} {pool : ℕ → KvRow K} {qkv : List ((ℕ → ℕ → K) × KvRow K)}
  {chunks : List (FlashDecode.Chunk K)}

/-- The kernel leaves, for every sequence of a micro-batch, attention to its rows of the pool. -/
theorem tokenAttentionCpu_rows (laws : ExpLaws a.exp) (hdvd : a.tpKHeadNum ∣ a.tpQHeadNum)
    (hd : 0 < d) (hlen : qkv.length = l.length) (hqkv : a.HoldsQkv qkvPin qkv)
    (hpool : a.HoldsPool mem pool) (hchunks : FlashDecode.Chunked (l.length * a.tpKHeadNum) chunks)
    (cfg : EngineConfig) (k cpuSize : ℕ) (hidden : ℕ → K) : ∃ rows,
      (a.tokenAttentionCpu cpuSize mem qkvPin hidden (batchAt cfg d k l)
        ((batchAt cfg d k l).seqs.map SeqKv.seqLen)).cpuFlashDecodeGqa chunks = .ok rows ∧
      a.HoldsAttn (storeRows hidden rows) (List.zipWith (fun x kvs => a.attend x.1 kvs) qkv
        (l.mapIdx fun n p =>
          gather pool (k * cfg.cacheLine + offset (cfg.seqCaps l) n) (p + d))) := by
  let c := a.tokenAttentionCpu cpuSize mem qkvPin hidden (batchAt cfg d k l)
    ((batchAt cfg d k l).seqs.map SeqKv.seqLen)
  have hseqs : (batchAt cfg d k l).seqs.length = l.length := by simp [batchAt]
  have hseq : ∀ n p, l[n]? = some p →
      ((batchAt cfg d k l).seqs.map SeqKv.seqLen)[n]? = some (p + d) ∧
      ((batchAt cfg d k l).seqs.map SeqKv.startLoc)[n]? =
        some (k * cfg.cacheLine + offset (cfg.seqCaps l) n) := by
    intro n p hp
    simp [batchAt, seqAt, hp]
  have hpositive : ∀ n < c.batchSize, 1 ≤ c.seqLens n := by
    intro n hn
    have hn : n < l.length := hseqs ▸ hn
    change 1 ≤ List.getD _ n 0
    rw [List.getD_eq_getElem?_getD, (hseq n _ (List.getElem?_eq_getElem hn)).1, Option.getD_some]
    omega
  rw [← hseqs] at hchunks
  rcases FlashDecode.cpuFlashDecodeGqa_rows (c := c) laws ⟨rfl, rfl⟩ rfl (show 0 < 1024 by decide)
    hdvd hpositive hchunks with ⟨rows, hrows, hperm⟩
  refine ⟨rows, hrows, fun n attn hn h hh e he => ?_⟩
  cases hx : qkv[n]? with
  | none => simp [List.getElem?_zipWith, hx] at hn
  | some x =>
      have hlt : n < l.length := hlen ▸ (List.getElem?_eq_some_iff.mp hx).1
      have hp := List.getElem?_eq_getElem hlt
      simp only [List.getElem?_zipWith, hx, List.getElem?_mapIdx, hp, Option.map_some,
        Option.some.injEq] at hn
      rw [storeRows_outputRow hperm (hseqs ▸ hlt) hh he,
        attention_eq hdvd hpool hqkv hx (hseq n _ hp).1 (hseq n _ hp).2 hh he, ← hn]

/-- **A call of the CPU attention does in the memories what the job does in the machine.** It
brings the rows of the new tokens to their places in the pool, and leaves in the hidden buffer
attention of every query to all tokens of its sequence, however its pairs are split among the
threads. -/
theorem runJob_simulated (m : CausalLM D (ℕ → ℕ → K) (KvRow K) (ℕ → ℕ → K) L)
    (hattn : (m.layers i).attn = a.attend) (laws : ExpLaws a.exp)
    (hdvd : a.tpKHeadNum ∣ a.tpQHeadNum) (hadm : Admitted cfg lens) (hs : Laid cfg lens s)
    (hd : 0 < s.decodeStep) (hl : lens[k]? = some l) (hpin : (s.lanes k).qkvPin = .qkv qkv)
    (hlen : qkv.length = l.length) (hqkv : a.HoldsQkv qkvPin qkv)
    (hpool : a.HoldsPool mem (s.pool.kvDataCpu i)) (hidden : ℕ → K)
    (hchunks : FlashDecode.Chunked (l.length * a.tpKHeadNum) chunks) :
    ∃ t mem' hidden' attns, runJob m.network s ⟨s.decodeStep, i, k⟩ = some t ∧
      a.cpuDecodeForwardCpp s.pool.cpuSize mem qkvPin hidden (s.lanes k).kv chunks =
        some (mem', hidden') ∧
      a.HoldsPool mem' (t.pool.kvDataCpu i) ∧ (t.lanes k).hiddenPin = .attn attns ∧
      attns.length = l.length ∧ a.HoldsAttn hidden' attns := by
  have hlens : lensOf lens k = l := by rw [lensOf, hl, Option.getD_some]
  have hkv : (s.lanes k).kv = batchAt cfg s.decodeStep k l := by rw [hs.kv_eq k, hlens]
  have hseqs : (batchAt cfg s.decodeStep k l).seqs.length = l.length := by simp [batchAt]
  have hrun : runJob m.network s ⟨s.decodeStep, i, k⟩ = _ := runJob_eq hadm hs (Or.inl hd)
  have hcache : ((List.range l.length).map fun n =>
      (qkv[n]?.map Prod.snd).getD default).length = l.length := by simp
  have hstore := storeKvCacheCpu_eq hadm hs.size_eq hd hs.step_le i hl hcache
  rw [← hseqs] at hstore
  rcases hpool.store hqkv (hlen.trans hseqs.symm) hstore with ⟨mem', hmem, hpool'⟩
  simp only [Function.update_self, hseqs] at hpool'
  have hseqLens : (batchAt cfg s.decodeStep k l).seqs.mapM SeqKv.seqLenCpu =
      some ((batchAt cfg s.decodeStep k l).seqs.map SeqKv.seqLen) := by
    refine mapM_eq_some fun q hq => ?_
    obtain ⟨n, hn, rfl⟩ := List.mem_mapIdx.mp hq
    simp [seqAt, Nat.pos_iff_ne_zero.mp hd]
  rcases tokenAttentionCpu_rows laws hdvd hd hlen hqkv hpool' hchunks cfg k s.pool.cpuSize
    hidden with ⟨rows, hrows, hattns⟩
  refine ⟨_, mem', storeRows hidden rows, _, hrun, ?_, ?_, ?_, ?_, hattns⟩
  · rw [hkv, cpuDecodeForwardCpp, hmem, Option.bind_some, hseqLens, Option.bind_some, hrows]
    rfl
  · simp only [jobState, Function.update_self, hlens, hpin]
    exact hpool'
  · simp only [jobState, DecodeState.modify_self, hlens, hpin]
    rw [← hattn]
    rfl
  · simp [hlen]

end Job

section Example

/-- Two query heads over one head of keys and values, in a layer by itself. -/
noncomputable def twoHeads : CpuAttention ℝ where
  tpQHeadNum := 2
  tpKHeadNum := 1
  headDim := 1
  exp := Real.exp
  sqrt := Real.sqrt
  scale := 1
  isReducedType := true

noncomputable def twoHeadsModel : CausalLM Unit (ℕ → ℕ → ℝ) (KvRow ℝ) (ℕ → ℕ → ℝ) Unit where
  embedTokens _ := ()
  add _ _ := ()
  layers _ :=
    { inputLayernorm := id
      qkvProj := fun _ _ => default
      attn := twoHeads.attend
      oProj := fun _ => ()
      postAttentionLayernorm := id
      blockSparseMoe := id }
  numHiddenLayers := 1
  norm := id
  lmHead := id
  emptyLike _ _ _ := 0
  sample _ _ logits := logits.map fun _ => 0

/-- In its first decode step a sequence of one token has its new row `[1, 2, 3, 4]` in the pinned
buffer, over a pool of memory `0, 1, 2, …`. -/
noncomputable def firstStep :
    DecodeState (Rows Unit (ℕ → ℕ → ℝ) (KvRow ℝ) (ℕ → ℕ → ℝ) Unit) (KvRow ℝ) :=
  let cfg := EngineConfig.small 1 Nat.one_pos
  (decodeStart cfg ([[1]].mapIdx (batchAt cfg 0))
    { curStartLoc := 0
      curCl := 0
      cacheLine := cfg.cacheLine
      cpuSize := cfg.nUb * cfg.cacheLine
      kvData := fun _ => default
      kvDataCpu := fun _ t =>
        ⟨fun j d => (t * 2 + j + d : ℕ), fun j d => (t * 2 + 1 + j + d : ℕ)⟩ }
    fun _ =>
      { kv := ⟨[], 0, 0, [], 0⟩
        inputIds := []
        lastIds := [0]
        hiddenStates := none
        residual := none
        qkv := none
        qkvPin := .qkv [(fun h d => (1 + h + d : ℕ),
          ⟨fun j d => (3 + j + d : ℕ), fun j d => (4 + j + d : ℕ)⟩)]
        hiddenPin := .attn []
        attnFuture := none
        qkvUnread := none
        hiddenUnread := none
        log := [] }).prepareForDecode

theorem runJob_simulated_firstStep : ∃ t mem' hidden' attns,
    runJob twoHeadsModel.network firstStep ⟨1, 0, 0⟩ = some t ∧
    twoHeads.cpuDecodeForwardCpp firstStep.pool.cpuSize (fun p => p) (fun p => p + 1) (fun _ => 0)
        (firstStep.lanes 0).kv
        [⟨0, 1, ⟨fun _ => 0, fun _ => ⊥, fun _ => 0, fun _ => 0, fun _ => 0⟩⟩] =
      some (mem', hidden') ∧
    twoHeads.HoldsPool mem' (t.pool.kvDataCpu 0) ∧ (t.lanes 0).hiddenPin = .attn attns ∧
    attns.length = 1 ∧ twoHeads.HoldsAttn hidden' attns := by
  have hadm : Admitted (EngineConfig.small 1 Nat.one_pos) [[1]] := ⟨by decide, by decide, by decide⟩
  have hlaid : Laid (EngineConfig.small 1 Nat.one_pos) [[1]] firstStep :=
    (decodeStart_laneAt rfl rfl _ 0).1.prepareForDecode Nat.one_pos
  have hl : [[1]][0]? = some [1] := rfl
  have hpin : (firstStep.lanes 0).qkvPin = .qkv
    [(fun h d => (1 + h + d : ℕ),
      ⟨fun j d => (3 + j + d : ℕ), fun j d => (4 + j + d : ℕ)⟩)] := rfl
  refine runJob_simulated twoHeadsModel rfl ⟨Real.exp_pos, Real.exp_add⟩ ⟨2, rfl⟩ hadm hlaid
    Nat.one_pos hl hpin rfl (fun n x hx => ?_) ⟨?_, ?_⟩ _ (List.Perm.of_eq rfl)
  · cases n with
    | succ n => simp at hx
    | zero =>
        obtain rfl := Option.some.inj hx
        refine ⟨fun h _ d _ => ?_, fun j _ d _ => ⟨?_, ?_⟩⟩
        · simp only [queryRow, twoHeads, Nat.zero_mul, Nat.zero_add, Nat.mul_one, Nat.cast_add]
          push_cast
          ring
        · simp only [newKv, twoHeads, Nat.zero_mul, Nat.zero_add, Nat.mul_one, Nat.cast_add,
            Nat.cast_ofNat]
          ring
        · simp only [newKv, twoHeads, Nat.zero_mul, Nat.zero_add, Nat.mul_one, Nat.cast_add,
            Nat.cast_ofNat, Nat.cast_one]
          ring
  · intro t j _ d _
    change ((t * (2 * (1 * 1)) + 0 * (1 * 1) + (j * 1 + d) : ℕ) : ℝ) = (t * 2 + j + d : ℕ)
    push_cast
    ring
  · intro t j _ d _
    change ((t * (2 * (1 * 1)) + 1 * (1 * 1) + (j * 1 + d) : ℕ) : ℝ) = (t * 2 + 1 + j + d : ℕ)
    push_cast
    ring

end Example

end CpuAttention

end HarvestMoE
