import Mathlib.Data.Nat.Basic
import Mathlib.Data.Option.Basic
import Mathlib.Tactic.Ring
import Mathlib.Tactic.SplitIfs

/-!
# KV heads of a rank

The attention layer, its projection and the engine each work out how many KV heads a rank has.
Where there are more ranks than KV heads the heads are replicated, and the attention and its
projection count one head for every rank. The engine divides and rounds down, to none
(`kvHeads_agree_iff`).

## Main definitions

* `QkvParallelLinear.init`, `MixtralAttention.init` — the layers of a rank, if they can be built.
* `MixtralAttention.qkvRow` — the width of the rows that go to the CPU.
* `buildContext` — what the engine allocates for them.
-/

namespace HarvestMoE

/-- The sizes of the model, and the ranks that share it. -/
structure HeadConfig where
  hiddenSize : ℕ
  numAttentionHeads : ℕ
  numKeyValueHeads : ℕ
  tpSize : ℕ

/-- `a // b`, which raises where `b` is 0. -/
def floorDiv (a b : ℕ) : Option ℕ := if b = 0 then none else some (a / b)

/-- `assert a % b == 0` -/
def assertDivides (a b : ℕ) : Option Unit := if b ≠ 0 ∧ a % b = 0 then some () else none

theorem floorDiv_eq_some {a b q : ℕ} : floorDiv a b = some q ↔ b ≠ 0 ∧ a / b = q := by
  unfold floorDiv
  split_ifs with h
  · simp [h]
  · simp [h]

theorem assertDivides_eq_some {a b : ℕ} {u : Unit} :
    assertDivides a b = some u ↔ b ≠ 0 ∧ b ∣ a := by
  simp [assertDivides, Nat.dvd_iff_mod_eq_zero]

/-- What the library says of `divide`: it checks that there is no remainder. -/
def ChecksDivision (divide : ℕ → ℕ → Option ℕ) : Prop :=
  ∀ a b, b ≠ 0 → divide a b = if b ∣ a then some (a / b) else none

structure QkvParallelLinear where
  numHeads : ℕ
  numKvHeads : ℕ
  numKvHeadReplicas : ℕ
  outputSizePerPartition : ℕ

structure MixtralAttention where
  numHeads : ℕ
  numKvHeads : ℕ
  headDim : ℕ
  qSize : ℕ
  kvSize : ℕ
  qkvProj : QkvParallelLinear

section Layers

variable (divide : ℕ → ℕ → Option ℕ)

/-- `QKVParallelLinear.__init__` -/
def QkvParallelLinear.init (headSize totalNumHeads totalNumKvHeads tpSize : ℕ) :
    Option QkvParallelLinear := do
  let numHeads ← divide totalNumHeads tpSize
  let (numKvHeads, numKvHeadReplicas) ←
    if tpSize ≥ totalNumKvHeads then (divide tpSize totalNumKvHeads).map fun r => (1, r)
    else (divide totalNumKvHeads tpSize).map fun n => (n, 1)
  let outputSize := (numHeads + 2 * numKvHeads) * tpSize * headSize
  let outputSizePerPartition ← divide outputSize tpSize
  some { numHeads, numKvHeads, numKvHeadReplicas, outputSizePerPartition }

/-- The KV heads are partitioned among the ranks, or replicated. -/
def HeadConfig.assertKvHeads (cfg : HeadConfig) : Option Unit :=
  if cfg.numKeyValueHeads ≥ cfg.tpSize then assertDivides cfg.numKeyValueHeads cfg.tpSize
  else assertDivides cfg.tpSize cfg.numKeyValueHeads

/-- `MixtralAttention.__init__` -/
def MixtralAttention.init (cfg : HeadConfig) : Option MixtralAttention := do
  assertDivides cfg.numAttentionHeads cfg.tpSize
  let numHeads := cfg.numAttentionHeads / cfg.tpSize
  cfg.assertKvHeads
  let numKvHeads := max 1 (cfg.numKeyValueHeads / cfg.tpSize)
  let headDim ← floorDiv cfg.hiddenSize cfg.numAttentionHeads
  let qkvProj ← QkvParallelLinear.init divide headDim cfg.numAttentionHeads cfg.numKeyValueHeads
    cfg.tpSize
  some
    { numHeads, numKvHeads, headDim, qkvProj
      qSize := numHeads * headDim
      kvSize := numKvHeads * headDim }

end Layers

/-- The rows of `pre_attention`: the projection is split into queries, keys and values, and these
are put together again. -/
def MixtralAttention.qkvRow (attn : MixtralAttention) : Option ℕ :=
  if attn.qSize + attn.kvSize + attn.kvSize = attn.qkvProj.outputSizePerPartition then
    some (attn.qSize + attn.kvSize + attn.kvSize)
  else none

/-- The parts of the context that depend on the heads. -/
structure HeadContext where
  kvPoolHeads : ℕ
  kvPinHeads : ℕ
  qkvPinWidth : ℕ

/-- `build_context` -/
def buildContext (cfg : HeadConfig) : Option HeadContext := do
  let numHeads ← floorDiv cfg.numKeyValueHeads cfg.tpSize
  let headDim ← floorDiv cfg.hiddenSize cfg.numAttentionHeads
  let numQHeads ← floorDiv cfg.numAttentionHeads cfg.tpSize
  let nKvHeads ← floorDiv cfg.numKeyValueHeads cfg.tpSize
  some
    { kvPoolHeads := numHeads
      kvPinHeads := nKvHeads
      qkvPinWidth := (numQHeads + 2 * nKvHeads) * headDim }

/-- The sizes that the assertions of the attention accept. -/
structure HeadConfig.Accepted (cfg : HeadConfig) : Prop where
  tpSize : cfg.tpSize ≠ 0
  heads_ne : cfg.numAttentionHeads ≠ 0
  heads : cfg.tpSize ∣ cfg.numAttentionHeads
  kvHeads : if cfg.tpSize ≤ cfg.numKeyValueHeads then cfg.tpSize ∣ cfg.numKeyValueHeads
    else cfg.numKeyValueHeads ≠ 0 ∧ cfg.numKeyValueHeads ∣ cfg.tpSize

theorem HeadConfig.assertKvHeads_eq_some {cfg : HeadConfig} {u : Unit} (htp : cfg.tpSize ≠ 0) :
    cfg.assertKvHeads = some u ↔
      if cfg.tpSize ≤ cfg.numKeyValueHeads then cfg.tpSize ∣ cfg.numKeyValueHeads
      else cfg.numKeyValueHeads ≠ 0 ∧ cfg.numKeyValueHeads ∣ cfg.tpSize := by
  unfold HeadConfig.assertKvHeads
  split_ifs with hle
  · rw [assertDivides_eq_some]
    exact and_iff_right htp
  · exact assertDivides_eq_some

/-- The KV heads of a rank, at least one. -/
def HeadConfig.kvHeads (cfg : HeadConfig) : ℕ := max 1 (cfg.numKeyValueHeads / cfg.tpSize)

section Agree

variable {divide : ℕ → ℕ → Option ℕ} {cfg : HeadConfig}

theorem HeadConfig.kvHeads_of_replicated (cfg : HeadConfig)
    (hlt : ¬ cfg.tpSize ≤ cfg.numKeyValueHeads) : cfg.kvHeads = 1 := by
  have hzero : cfg.numKeyValueHeads / cfg.tpSize = 0 := Nat.div_eq_of_lt (by omega)
  simp [HeadConfig.kvHeads, hzero]

theorem HeadConfig.Accepted.kvHeads_of_partitioned (h : cfg.Accepted)
    (hle : cfg.tpSize ≤ cfg.numKeyValueHeads) :
    cfg.kvHeads = cfg.numKeyValueHeads / cfg.tpSize :=
  max_eq_right (Nat.div_pos hle (Nat.pos_of_ne_zero h.tpSize))

/-- The engine has the KV heads of a rank just when they are partitioned. -/
theorem HeadConfig.Accepted.div_eq_kvHeads_iff (h : cfg.Accepted) :
    cfg.numKeyValueHeads / cfg.tpSize = cfg.kvHeads ↔ cfg.tpSize ≤ cfg.numKeyValueHeads := by
  constructor
  · intro heq
    by_contra hlt
    rw [cfg.kvHeads_of_replicated hlt, Nat.div_eq_of_lt (by omega)] at heq
    cases heq
  · intro hle
    exact (h.kvHeads_of_partitioned hle).symm

/-- **The projection has the heads of the attention**, whether they are partitioned or
replicated. -/
theorem QkvParallelLinear.init_eq (hdivide : ChecksDivision divide) (h : cfg.Accepted)
    (headSize : ℕ) : ∃ replicas, QkvParallelLinear.init divide headSize cfg.numAttentionHeads
      cfg.numKeyValueHeads cfg.tpSize =
        some ⟨cfg.numAttentionHeads / cfg.tpSize, cfg.kvHeads, replicas,
          (cfg.numAttentionHeads / cfg.tpSize + 2 * cfg.kvHeads) * headSize⟩ := by
  have hheads : divide cfg.numAttentionHeads cfg.tpSize =
      some (cfg.numAttentionHeads / cfg.tpSize) := by
    rw [hdivide _ _ h.tpSize, if_pos h.heads]
  have hwidth : ∀ n, divide (n * cfg.tpSize * headSize) cfg.tpSize = some (n * headSize) := by
    intro n
    have hcomm : n * cfg.tpSize * headSize = n * headSize * cfg.tpSize := Nat.mul_right_comm _ _ _
    rw [hdivide _ _ h.tpSize, hcomm, if_pos (Nat.dvd_mul_left _ _),
      Nat.mul_div_cancel _ (Nat.pos_of_ne_zero h.tpSize)]
  have hkv := h.kvHeads
  by_cases hge : cfg.tpSize ≥ cfg.numKeyValueHeads
  · -- There is one head for every rank, also where there are as many heads as ranks.
    have hone : cfg.numKeyValueHeads ≠ 0 ∧ cfg.numKeyValueHeads ∣ cfg.tpSize ∧ cfg.kvHeads = 1 := by
      split_ifs at hkv with hle
      · have heq : cfg.numKeyValueHeads = cfg.tpSize := le_antisymm hge hle
        refine ⟨heq ▸ h.tpSize, heq ▸ Nat.dvd_refl _, ?_⟩
        rw [h.kvHeads_of_partitioned hle, heq, Nat.div_self (Nat.pos_of_ne_zero h.tpSize)]
      · exact ⟨hkv.1, hkv.2, cfg.kvHeads_of_replicated hle⟩
    have hreplicas : divide cfg.tpSize cfg.numKeyValueHeads =
        some (cfg.tpSize / cfg.numKeyValueHeads) := by
      rw [hdivide _ _ hone.1, if_pos hone.2.1]
    refine ⟨cfg.tpSize / cfg.numKeyValueHeads, ?_⟩
    simp only [QkvParallelLinear.init, hheads, if_pos hge, hreplicas, Option.map_some,
      Option.bind_eq_bind, Option.bind_some, hwidth, hone.2.2]
  · have hle : cfg.tpSize ≤ cfg.numKeyValueHeads := by omega
    rw [if_pos hle] at hkv
    have hshare : divide cfg.numKeyValueHeads cfg.tpSize = some cfg.kvHeads := by
      rw [hdivide _ _ h.tpSize, if_pos hkv, h.kvHeads_of_partitioned hle]
    refine ⟨1, ?_⟩
    simp only [QkvParallelLinear.init, hheads, if_neg hge, hshare, Option.map_some,
      Option.bind_eq_bind, Option.bind_some, hwidth]

/-- The layer is built only where the assertions hold. -/
theorem MixtralAttention.accepted_of_init {attn : MixtralAttention}
    (hattn : MixtralAttention.init divide cfg = some attn) : cfg.Accepted := by
  simp only [MixtralAttention.init, Option.bind_eq_bind, Option.bind_eq_some_iff] at hattn
  have ⟨_, hq, _, hkv, _, hdim, _⟩ := hattn
  have ⟨htp, hheads⟩ := assertDivides_eq_some.mp hq
  exact ⟨htp, (floorDiv_eq_some.mp hdim).1, hheads, (cfg.assertKvHeads_eq_some htp).mp hkv⟩

/-- The layer that is built has the KV heads of the rank, as its projection has. -/
theorem MixtralAttention.init_of_accepted (hdivide : ChecksDivision divide) (h : cfg.Accepted) :
    ∃ attn, MixtralAttention.init divide cfg = some attn ∧ attn.numKvHeads = cfg.kvHeads ∧
      attn.qkvRow = some ((cfg.numAttentionHeads / cfg.tpSize + 2 * cfg.kvHeads) *
        (cfg.hiddenSize / cfg.numAttentionHeads)) := by
  have ⟨replicas, hqkv⟩ :=
    QkvParallelLinear.init_eq hdivide h (cfg.hiddenSize / cfg.numAttentionHeads)
  have hdim : floorDiv cfg.hiddenSize cfg.numAttentionHeads =
      some (cfg.hiddenSize / cfg.numAttentionHeads) := floorDiv_eq_some.mpr ⟨h.heads_ne, rfl⟩
  have hq : assertDivides cfg.numAttentionHeads cfg.tpSize = some () :=
    assertDivides_eq_some.mpr ⟨h.tpSize, h.heads⟩
  have hkv : cfg.assertKvHeads = some () := (cfg.assertKvHeads_eq_some h.tpSize).mpr h.kvHeads
  simp only [MixtralAttention.init, hq, hkv, hdim, hqkv, Option.bind_eq_bind, Option.bind_some,
    Option.some.injEq, exists_eq_left']
  refine ⟨rfl, ?_⟩
  -- The three parts are as wide as the projection.
  have hsplit : ∀ q kv d : ℕ, q * d + kv * d + kv * d = (q + 2 * kv) * d := by
    intro q kv d
    ring
  simp only [MixtralAttention.qkvRow, HeadConfig.kvHeads, hsplit, if_true]

theorem buildContext_eq_some (h : cfg.Accepted) : buildContext cfg =
    some ⟨cfg.numKeyValueHeads / cfg.tpSize, cfg.numKeyValueHeads / cfg.tpSize,
      (cfg.numAttentionHeads / cfg.tpSize + 2 * (cfg.numKeyValueHeads / cfg.tpSize)) *
        (cfg.hiddenSize / cfg.numAttentionHeads)⟩ := by
  simp only [buildContext, floorDiv, if_neg h.tpSize, if_neg h.heads_ne, Option.bind_eq_bind,
    Option.bind_some]

/-- **Where the engine and the attention agree.** The projection can be split into queries, keys
and values. The engine has the KV heads of the attention, and the pinned rows have the width of
those that are copied, just when there are no more ranks than KV heads. -/
theorem kvHeads_agree_iff (hdivide : ChecksDivision divide) {attn : MixtralAttention}
    (hattn : MixtralAttention.init divide cfg = some attn) :
    ∃ row ctx, attn.qkvRow = some row ∧ buildContext cfg = some ctx ∧
      (ctx.kvPoolHeads = attn.numKvHeads ∧ ctx.kvPinHeads = attn.numKvHeads ∧
        ctx.qkvPinWidth = row ↔ cfg.tpSize ≤ cfg.numKeyValueHeads) := by
  have h := MixtralAttention.accepted_of_init hattn
  have ⟨built, hbuilt, hheads, hrow⟩ := MixtralAttention.init_of_accepted hdivide h
  obtain rfl : built = attn := Option.some.inj (hbuilt.symm.trans hattn)
  refine ⟨_, _, hrow, buildContext_eq_some h, ?_⟩
  rw [hheads]
  constructor
  · intro hagree
    exact h.div_eq_kvHeads_iff.mp hagree.1
  · intro hle
    have heq := h.div_eq_kvHeads_iff.mpr hle
    exact ⟨heq, heq, by rw [heq]⟩

end Agree

/-- `divide` as it is. -/
def exactDivide (a b : ℕ) : Option ℕ := if b ∣ a then some (a / b) else none

/-- The layer of Mixtral on four ranks. -/
theorem kvHeads_agree_four : ∃ attn row ctx,
    MixtralAttention.init exactDivide ⟨4096, 32, 8, 4⟩ = some attn ∧ attn.qkvRow = some row ∧
      buildContext ⟨4096, 32, 8, 4⟩ = some ctx ∧ ctx.kvPoolHeads = attn.numKvHeads ∧
        ctx.kvPinHeads = attn.numKvHeads ∧ ctx.qkvPinWidth = row := by
  have hattn : MixtralAttention.init exactDivide ⟨4096, 32, 8, 4⟩ =
      some ⟨8, 2, 128, 1024, 256, ⟨8, 2, 1, 1536⟩⟩ := rfl
  have ⟨row, ctx, hrow, hctx, hagree⟩ := kvHeads_agree_iff (fun _ _ _ => rfl) hattn
  exact ⟨_, row, ctx, hattn, hrow, hctx, hagree.mpr (by decide)⟩

/-- On sixteen ranks a head is on two of them, and the engine has none. -/
theorem kvHeads_disagree : ¬ ∀ (cfg : HeadConfig) (attn : MixtralAttention) (row : ℕ)
    (ctx : HeadContext), MixtralAttention.init exactDivide cfg = some attn →
      attn.qkvRow = some row → buildContext cfg = some ctx →
        ctx.kvPoolHeads = attn.numKvHeads ∧ ctx.qkvPinWidth = row := by
  intro h
  have hagree := h ⟨4096, 32, 8, 16⟩ _ _ _ rfl rfl rfl
  exact absurd hagree (by decide)

end HarvestMoE
