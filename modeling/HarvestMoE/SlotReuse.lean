import HarvestMoE.EngineStreams
import HarvestMoE.Lib.Loops

/-!
# Reuse of the slots of pinned memory

A copy job refills a slot of pinned memory. It waits for the event of the slot's last
prefetch; but that event is recorded on the prefetch stream, while the copy to the GPU
runs on the load stream. What orders the two is a detour: the hidden states of later
micro-batches are loaded behind the copy, their computation goes through attention on
the CPU, and the host waits for it. The detour takes three micro-batches, and the slot
is refilled two before it comes round again, so five micro-batches are enough. In the
last layer the host waits for the computation too, so a single layer does with three.

## Main definitions

* `SlotConflict` — a copy from a slot to the GPU, and a job that refills the slot.
* `SlotsKnown` — the slots whose copies the host, the current stream and the attention
  futures know.
* `SlotsKnownAt` — the same at each micro-batch of the decode loop.
* `NotLoad`, `RefillStreams` — the streams that have not seen a copy, before and after the
  computation waits for a later load.
* `slots_inOrder_iff` — when the slots are refilled after they are copied.
-/

namespace HarvestMoE

open Lib

/-- A slot is copied to the GPU before it is filled again. -/
def SlotConflict : Task → Task → Prop
  | .copySlot k', .pinCopy k => k' = k
  | _, _ => False

/-- The slot that a task copies to the GPU. -/
def Task.copiedSlot : Task → Option ℕ
  | .copySlot slotId => some slotId
  | _ => none

/-- The slot that a task fills. -/
def Task.filledSlot : Task → Set ℕ
  | .pinCopy slotId => {slotId}
  | _ => ∅

theorem slotConflict_classifies : Classifies Task.copiedSlot Task.filledSlot SlotConflict := by
  intro u t h
  cases u with
  | copySlot k' =>
      refine ⟨_, rfl, ?_⟩
      cases t with
      | pinCopy k => exact h
      | _ => exact h.elim
  | _ => exact h.elim

section Safe

/-- The copies of the slots in `H` are known to the host, those in `C` to the current
stream, and those in `A k` to the attention future of micro-batch `k`; the load stream
makes them all. -/
structure SlotsKnown (H C : ℕ → Prop) (A : ℕ → ℕ → Prop)
    (s : EnqueueState × ClassClock ℕ EngineStream EngineEvent) : Prop where
  load : ∀ x, x ∈ s.2.stream .load
  host : ∀ x, H x → x ∈ s.2.host
  cur : ∀ x, C x → x ∈ s.2.stream .cur
  attn : ∀ k x, A k x → x ∈ s.2.event (.attnFuture k)

/-- The calls execute and keep the slots in order. -/
abbrev SlotRuns (numLayers numMb : ℕ) (cacheLine : ℕ → ℕ) :=
  ClassRuns numLayers numMb cacheLine Task.copiedSlot Task.filledSlot

variable {numLayers numMb page : ℕ} {cacheLine : ℕ → ℕ} {H C : ℕ → Prop} {A : ℕ → ℕ → Prop}

theorem SlotsKnown.mono {H' C' : ℕ → Prop} {A' : ℕ → ℕ → Prop} (hH : ∀ x, H' x → H x)
    (hC : ∀ x, C' x → C x) (hA : ∀ k x, A' k x → A k x)
    {s : EnqueueState × ClassClock ℕ EngineStream EngineEvent} (hs : SlotsKnown H C A s) :
    SlotsKnown H' C' A' s :=
  ⟨hs.load, fun x hx => hs.host x (hH x hx), fun x hx => hs.cur x (hC x hx),
    fun k x hx => hs.attn k x (hA k x hx)⟩

/-- The host waits for the attention of a micro-batch, and its hidden states are loaded
behind all copies so far. -/
theorem SlotsKnown.loadHidden (i k : ℕ) :
    SlotRuns numLayers numMb cacheLine (SlotsKnown H C A) [.loadHidden i k]
      (fun s => SlotsKnown (fun x => H x ∨ A k x) C A s ∧
        ∀ x, x ∈ s.2.event (.loadHidden k)) := by
  refine Runs.single fun s hs => ⟨?_, _, rfl, ⟨fun x => ?_, fun x hx => ?_, fun x hx => ?_,
    fun k' x hx => ?_⟩, fun x => ?_⟩
  · simp [CallClassOrdered, commands, classStep, ClassOrdered, Task.filledSlot]
  · simp [commands, ClassClock.next, Task.copiedSlot, hs.load]
  · rcases hx with hx | hx
    · simp [commands, ClassClock.next, Task.copiedSlot, hs.host x hx]
    · simp [commands, ClassClock.next, Task.copiedSlot, hs.attn k x hx]
  · simp [commands, ClassClock.next, Task.copiedSlot, hs.cur x hx]
  · simp [commands, ClassClock.next, Task.copiedSlot, hs.attn k' x hx]
  · simp [commands, ClassClock.next, Task.copiedSlot, hs.load]

/-- The copy of a slot is new to all but the load stream. -/
theorem SlotsKnown.prefetchExperts (layerId k : ℕ) :
    SlotRuns numLayers numMb cacheLine
      (fun s => SlotsKnown H C A s ∧ ∀ x, x ∈ s.2.event (.loadHidden k))
      [.prefetchExperts layerId 0 k .decode]
      (fun s => SlotsKnown (fun x => H x ∧ x ≠ k) (fun x => C x ∧ x ≠ k)
        (fun j x => A j x ∧ x ≠ k) s ∧ ∀ x, x ≠ k → x ∈ s.2.event (.loadHidden k)) := by
  refine Runs.single fun s hs => ⟨?_, _, rfl, ⟨fun x => ?_, fun x hx => ?_, fun x hx => ?_,
    fun j x hx => ?_⟩, fun x hx => ?_⟩
  · simp [CallClassOrdered, commands, classStep, ClassOrdered, Task.filledSlot]
  · simp [commands, ClassClock.next, Task.copiedSlot, hs.1.load]
  · simp [commands, ClassClock.next, Task.copiedSlot, hs.1.host x hx.1, hx.2.symm]
  · simp [commands, ClassClock.next, Task.copiedSlot, hs.1.cur x hx.1, hx.2.symm]
  · simp [commands, ClassClock.next, Task.copiedSlot, hs.1.attn j x hx.1, hx.2.symm]
  · simp [commands, ClassClock.next, Task.copiedSlot, hs.2, hx.symm]

/-- The computation waits for the hidden states, and so for the copies before them. -/
theorem SlotsKnown.postAttention (i k : ℕ) :
    SlotRuns numLayers numMb cacheLine
      (fun s => SlotsKnown H C A s ∧ ∀ x, x ≠ k → x ∈ s.2.event (.loadHidden k))
      [.postAttention i 0 k] (SlotsKnown H (fun x => x ≠ k) A) := by
  refine Runs.single fun s hs => ⟨?_, _, rfl, fun x => ?_, fun x hx => ?_, fun x hx => ?_,
    fun j x hx => ?_⟩
  · simp only [CallClassOrdered, commands, lastLayerCommands]
    split_ifs <;> simp [classStep, ClassOrdered, Task.filledSlot]
  · simp only [commands, lastLayerCommands]
    split_ifs <;> simp [ClassClock.next, Task.copiedSlot, hs.1.load]
  · simp only [commands, lastLayerCommands]
    split_ifs <;> simp [ClassClock.next, Task.copiedSlot, hs.1.host x hx]
  · simp only [commands, lastLayerCommands]
    split_ifs <;> simp [ClassClock.next, Task.copiedSlot, hs.2 x hx]
  · simp only [commands, lastLayerCommands]
    split_ifs <;> simp [ClassClock.next, Task.copiedSlot, hs.1.attn j x hx]

/-- The attention of a micro-batch carries what the current stream knows to its future. -/
theorem SlotsKnown.attentionCalls (i k : ℕ) :
    SlotRuns numLayers numMb cacheLine (SlotsKnown H C A) (attentionCalls i k)
      (SlotsKnown H C fun j x => if j = k then C x else A j x) := by
  intro s hs
  refine ⟨?_, _, rfl, fun x => ?_, fun x hx => ?_, fun x hx => ?_, fun j x hx => ?_⟩
  · simp [HarvestMoE.attentionCalls, CallClassOrdered, commands, classStep, ClassOrdered,
      Task.filledSlot]
  · simp [commands, ClassClock.next, Task.copiedSlot, hs.load]
  · simp [commands, ClassClock.next, Task.copiedSlot, hs.host x hx]
  · simp [commands, ClassClock.next, Task.copiedSlot, hs.cur x hx]
  · by_cases hj : j = k
    · rw [if_pos hj] at hx
      simp [commands, ClassClock.next, Task.copiedSlot, hj, hs.cur x hx]
    · rw [if_neg hj] at hx
      simp [commands, ClassClock.next, Task.copiedSlot, hj, hs.attn j x hx]

/-- A slot is refilled when the host knows its copies. -/
theorem SlotsKnown.prefetchExpertsToPin (layerId : ℕ) {k : ℕ} (hk : H k) :
    SlotRuns numLayers numMb cacheLine (SlotsKnown H C A) [.prefetchExpertsToPin layerId k]
      (SlotsKnown H C A) := by
  refine Runs.single fun s hs => ⟨?_, _, rfl, fun x => ?_, fun x hx => ?_, fun x hx => ?_,
    fun j x hx => ?_⟩
  · simp [CallClassOrdered, commands, classStep, ClassClock.next, ClassOrdered, Task.filledSlot,
      hs.host k hk]
  · simp [commands, ClassClock.next, Task.copiedSlot, hs.load]
  · simp [commands, ClassClock.next, Task.copiedSlot, hs.host x hx]
  · simp [commands, ClassClock.next, Task.copiedSlot, hs.cur x hx]
  · simp [commands, ClassClock.next, Task.copiedSlot, hs.attn j x hx]

/-- At the start of a step the host waits for the current stream. -/
theorem SlotsKnown.prepareForDecode (hn : 0 < numMb) :
    SlotRuns numLayers numMb cacheLine (SlotsKnown H C A) [.prepareForDecode]
      (SlotsKnown C C A) := by
  obtain ⟨m, rfl⟩ : ∃ m, numMb = m + 1 := ⟨numMb - 1, by omega⟩
  refine Runs.single fun s hs => ⟨?_, _, rfl, ?_⟩
  · refine Along.of_forall fun _ cmd hcmd => ?_
    rw [List.eq_of_mem_replicate hcmd]
    trivial
  · have hdrain : (commands numLayers (m + 1) cacheLine s.1 .prepareForDecode).foldl
        (ClassClock.next Task.copiedSlot) s.2 =
          { s.2 with host := s.2.host ∪ s.2.stream .cur } := ClassClock.run_drains s.2 .cur m
    rw [hdrain]
    exact ⟨hs.load, fun x hx => Or.inr (hs.cur x hx), hs.cur, hs.attn⟩

/-- Only the decode prefetch copies a slot. -/
theorem unclassed_of {c : Call} (hc : ∀ l p k, c ≠ .prefetchExperts l p k .decode)
    (e : EnqueueState) :
    ∀ cmd ∈ commands numLayers numMb cacheLine e c, cmd.Unclassed Task.copiedSlot := by
  cases c with
  | prefetchExperts l p k stage =>
      cases stage with
      | prefill => simp [commands, StreamCmd.Unclassed, Task.copiedSlot]
      | decode => exact absurd rfl (hc l p k)
  | layer i p k | postAttention i p k =>
      simp only [commands, lastLayerCommands]
      split_ifs <;> simp [StreamCmd.Unclassed, Task.copiedSlot]
  | offloadHiddenPrefill k | loadHiddenPrefill k =>
      simp only [commands]
      split_ifs <;> simp [StreamCmd.Unclassed, Task.copiedSlot]
  | _ => simp [commands, StreamCmd.Unclassed, Task.copiedSlot]

theorem ne_decode_prefillCalls {c : Call} (hc : c ∈ prefillCalls numLayers 1 numMb) (l p k : ℕ) :
    c ≠ .prefetchExperts l p k .decode := by
  rcases mem_prefillCalls hc with ⟨l', rfl⟩ | ⟨i, k, -, -, hbatch⟩
  · simp
  · rcases mem_prefillBatchCalls hbatch with rfl | rfl | ⟨-, rfl | rfl⟩ <;> simp

theorem SlotsKnown.of_start {s : EnqueueState × ClassClock ℕ EngineStream EngineEvent}
    (hs : s.2 = ClassClock.start) : SlotsKnown H C A s := by
  refine ⟨fun x => ?_, fun x _ => ?_, fun x _ => ?_, fun k x _ => ?_⟩ <;>
    simp [hs, ClassClock.start]

/-- Slot `x` was copied to the GPU `j` micro-batches before micro-batch `k`. -/
def Behind (numMb k j x : ℕ) : Prop := x < numMb ∧ (x + j = k ∨ x + j = k + numMb)

/-- Micro-batch `j` comes `m` after micro-batch `k` of layer `i`, maybe in the next layer. -/
def Ahead (numLayers numMb i k m j : ℕ) : Prop :=
  j = k + m ∧ j < numMb ∧ i < numLayers ∨ j + numMb = k + m ∧ i + 1 < numLayers

theorem behind_succ {k j x : ℕ} : Behind numMb (k + 1) (j + 1) x ↔ Behind numMb k j x := by
  simp only [Behind]
  omega

theorem behind_zero {k x : ℕ} (hk : k < numMb) : Behind numMb k 0 x ↔ x = k := by
  simp only [Behind]
  omega

theorem behind_wrap {j x : ℕ} (hj : 0 < j) (hjn : j < numMb) :
    Behind numMb numMb j x ↔ Behind numMb 0 j x := by
  simp only [Behind]
  omega

theorem ahead_succ {i k m j : ℕ} :
    Ahead numLayers numMb i (k + 1) m j ↔ Ahead numLayers numMb i k (m + 1) j := by
  simp only [Ahead]
  omega

theorem ahead_self {i k : ℕ} (hi : i < numLayers) (hk : k < numMb) :
    Ahead numLayers numMb i k 0 k :=
  .inl ⟨rfl, hk, hi⟩

/-- At micro-batch `k` of layer `i`, the host does not know the last three copies. The
current stream knows all but the last one, as does the attention of the next micro-batch;
the attention at hand does not know the last two. -/
def SlotsKnownAt (numLayers numMb i k : ℕ) :
    EnqueueState × ClassClock ℕ EngineStream EngineEvent → Prop :=
  SlotsKnown (fun x => ¬ Behind numMb k 1 x ∧ ¬ Behind numMb k 2 x ∧ ¬ Behind numMb k 3 x)
    (fun x => ¬ Behind numMb k 1 x)
    (fun j x => Ahead numLayers numMb i k 0 j ∧ ¬ Behind numMb k 1 x ∧ ¬ Behind numMb k 2 x ∨
      Ahead numLayers numMb i k 1 j ∧ ¬ Behind numMb k 1 x)

/-- The attention that is sent ahead carries what the current stream knows. -/
theorem SlotsKnown.lookAheadCalls {i k : ℕ} (hn : 2 < numMb) (hi : i < numLayers) (hk : k < numMb)
    {A' : ℕ → ℕ → Prop} (hnew : ∀ j x, A' j x → Ahead numLayers numMb i k 2 j → C x)
    (hold : ∀ j x, A' j x → ¬ Ahead numLayers numMb i k 2 j → A j x) :
    SlotRuns numLayers numMb cacheLine (SlotsKnown H C A) (lookAheadCalls numLayers numMb i k)
      (SlotsKnown H C A') := by
  have hattn : ∀ i' j, (∀ j', Ahead numLayers numMb i k 2 j' ↔ j' = j) →
      SlotRuns numLayers numMb cacheLine (SlotsKnown H C A) (HarvestMoE.attentionCalls i' j)
        (SlotsKnown H C A') := by
    intro i' j hj
    refine (SlotsKnown.attentionCalls i' j).conseq (fun _ => id) fun _ =>
      SlotsKnown.mono (fun _ => id) (fun _ => id) fun j' x hx => ?_
    split_ifs with heq
    · exact hnew j' x hx ((hj j').mpr heq)
    · exact hold j' x hx fun h => heq ((hj j').mp h)
  simp only [HarvestMoE.lookAheadCalls, if_pos hn]
  split_ifs with hk2 hlast
  · refine hattn i (k + 2) fun j' => ?_
    simp only [Ahead]
    omega
  · have hwrap : (k + 2) % numMb = k + 2 - numMb := by
      rw [Nat.mod_eq_sub_mod (by omega), Nat.mod_eq_of_lt (by omega)]
    refine hattn (i + 1) _ fun j' => ?_
    simp only [Ahead, hwrap]
    omega
  · refine Runs.nil fun _ => SlotsKnown.mono (fun _ => id) (fun _ => id) fun j x hx =>
      hold j x hx ?_
    simp only [Ahead]
    omega

/-- The copy of a micro-batch, between its attention and the rest of its layer. -/
theorem SlotsKnown.copyCalls (layerId i k : ℕ) :
    SlotRuns numLayers numMb cacheLine (SlotsKnown H C A)
      [.loadHidden i k, .prefetchExperts layerId 0 k .decode, .postAttention i 0 k]
      (SlotsKnown (fun x => (H x ∨ A k x) ∧ x ≠ k) (fun x => x ≠ k) fun j x => A j x ∧ x ≠ k) :=
  Runs.cons (SlotsKnown.loadHidden i k)
    (Runs.cons (SlotsKnown.prefetchExperts layerId k) (SlotsKnown.postAttention i k))

/-- The slot two micro-batches ahead is refilled. -/
theorem SlotsKnown.relayCalls (i : ℕ) {k : ℕ} (hk : H ((k + 2) % numMb)) :
    SlotRuns numLayers numMb cacheLine (SlotsKnown H C A) (relayCalls numLayers 1 numMb i 0 k)
      (SlotsKnown H C A) := by
  rw [HarvestMoE.relayCalls]
  split
  · rename_i layerId slotId hslot
    rw [← getPrefetchE2pIdx_slot_eq hslot] at hk
    exact SlotsKnown.prefetchExpertsToPin layerId hk
  · exact Runs.nil fun _ => id

/-- A micro-batch of the decode loop. -/
theorem SlotsKnownAt.batch {i k : ℕ} (hn : 5 ≤ numMb) (hi : i < numLayers) (hk : k < numMb) :
    SlotRuns numLayers numMb cacheLine (SlotsKnownAt numLayers numMb i k)
      (decodeBatchCalls numLayers 1 numMb i k) (SlotsKnownAt numLayers numMb i (k + 1)) := by
  rw [decodeBatchCalls_one]
  have hcopy : SlotRuns numLayers numMb cacheLine (SlotsKnownAt numLayers numMb i k) _ _ :=
    SlotsKnown.copyCalls ((i + 1) % numLayers) i k
  refine ((hcopy.append (SlotsKnown.lookAheadCalls (by omega) hi hk (fun j x hx _ => ?_)
    fun j x hx hj => ?_)).append (SlotsKnown.relayCalls i ?_)).conseq (fun _ => id) fun _ =>
      SlotsKnown.mono (fun x hx => ?_) (fun x hx => ?_) fun _ _ => id
  · rw [behind_succ, behind_succ, behind_zero hk] at hx
    exact hx.elim (fun h => h.2.1) fun h => h.2
  · simp only [ahead_succ, behind_succ, behind_zero hk] at hx
    rcases hx with ⟨hone, hne, hb⟩ | ⟨htwo, -⟩
    · exact ⟨Or.inr ⟨hone, hb⟩, hne⟩
    · exact absurd htwo hj
  · -- five slots: the one two ahead is neither of the last two, nor the one at hand
    have hslot : (k + 2) % numMb = k + 2 ∨ (k + 2) % numMb + numMb = k + 2 := by
      by_cases hk2 : k + 2 < numMb
      · exact Or.inl (Nat.mod_eq_of_lt hk2)
      · rw [Nat.mod_eq_sub_mod (by omega), Nat.mod_eq_of_lt (by omega)]
        omega
    have hone : ¬ Behind numMb k 1 ((k + 2) % numMb) := by
      simp only [Behind]
      omega
    have htwo : ¬ Behind numMb k 2 ((k + 2) % numMb) := by
      simp only [Behind]
      omega
    exact ⟨Or.inr (Or.inl ⟨ahead_self hi hk, hone, htwo⟩), by omega⟩
  · simp only [behind_succ, behind_zero hk] at hx
    exact ⟨Or.inr (Or.inl ⟨ahead_self hi hk, hx.2⟩), hx.1⟩
  · rwa [behind_succ, behind_zero hk] at hx

/-- The end of a layer is the start of the next one. -/
theorem SlotsKnownAt.nextLayer {i : ℕ} (hn : 5 ≤ numMb)
    {s : EnqueueState × ClassClock ℕ EngineStream EngineEvent}
    (hs : SlotsKnownAt numLayers numMb i numMb s) : SlotsKnownAt numLayers numMb (i + 1) 0 s := by
  have hone : ∀ x, Behind numMb numMb 1 x ↔ Behind numMb 0 1 x := fun x =>
    behind_wrap (by omega) (by omega)
  have htwo : ∀ x, Behind numMb numMb 2 x ↔ Behind numMb 0 2 x := fun x =>
    behind_wrap (by omega) (by omega)
  have hthree : ∀ x, Behind numMb numMb 3 x ↔ Behind numMb 0 3 x := fun x =>
    behind_wrap (by omega) (by omega)
  have hahead : ∀ m j, m < numMb → Ahead numLayers numMb (i + 1) 0 m j →
      Ahead numLayers numMb i numMb m j := by
    intro m j hm h
    simp only [Ahead] at h ⊢
    omega
  refine SlotsKnown.mono (fun x hx => ?_) (fun x hx => ?_) (fun j x hx => ?_) hs
  · simpa only [hone, htwo, hthree] using hx
  · simpa only [hone] using hx
  · simp only [hone, htwo]
    exact hx.imp (And.imp_left (hahead 0 j (by omega))) (And.imp_left (hahead 1 j (by omega)))

/-- Before a decode step the current stream knows all copies but that of the last slot. -/
def SlotsBetween (numMb : ℕ) : EnqueueState × ClassClock ℕ EngineStream EngineEvent → Prop :=
  SlotsKnown (fun _ => False) (fun x => ¬ Behind numMb 0 1 x) fun _ _ => False

/-- A decode step. -/
theorem SlotsBetween.step (hn : 5 ≤ numMb) :
    SlotRuns numLayers numMb cacheLine (SlotsBetween numMb) (decodeStepCalls numLayers 1 numMb)
      (SlotsBetween numMb) := by
  have hprologue : ∀ k, k < 2 → ∀ A : ℕ → ℕ → Prop, SlotRuns numLayers numMb cacheLine
      (SlotsKnown (fun x => ¬ Behind numMb 0 1 x) (fun x => ¬ Behind numMb 0 1 x) A)
      (prologueCalls 1 k)
      (SlotsKnown (fun x => ¬ Behind numMb 0 1 x) (fun x => ¬ Behind numMb 0 1 x)
        fun j x => if j = k then ¬ Behind numMb 0 1 x else A j x) := by
    intro k hk A
    refine (SlotsKnown.attentionCalls 0 k).append (SlotsKnown.prefetchExpertsToPin _ ?_)
    simp only [Behind]
    omega
  have hlayers : SlotRuns numLayers numMb cacheLine (SlotsKnownAt numLayers numMb 0 0)
      ((List.range numLayers).flatMap (decodeLayerCalls numLayers 1 numMb))
      (SlotsKnownAt numLayers numMb numLayers 0) := by
    refine Runs.loop numLayers (I := fun i => SlotsKnownAt numLayers numMb i 0) fun i hi => ?_
    rw [decodeLayerCalls_one]
    exact (Runs.loop numMb (I := fun k => SlotsKnownAt numLayers numMb i k) fun k hk =>
      SlotsKnownAt.batch hn hi hk).conseq (fun _ => id) fun _ => SlotsKnownAt.nextLayer hn
  have hmin : min 2 numMb = 2 := by omega
  rw [decodeStepCalls, decodeBodyCalls, hmin]
  refine Runs.cons (SlotsKnown.prepareForDecode (by omega)) (Runs.append ?_
    (hlayers.conseq (fun _ => id) fun _ => ?_))
  · simp only [List.range_succ, List.range_zero]
    refine ((hprologue 0 (by omega) _).append (hprologue 1 (by omega) _)).conseq (fun _ => id)
      fun _ => SlotsKnown.mono (fun x hx => hx.1) (fun x => id) fun j x hx => ?_
    have hj : j = 0 ∨ j = 1 := by
      simp only [Ahead] at hx
      omega
    have hone : ¬ Behind numMb 0 1 x := hx.elim (fun h => h.2.1) fun h => h.2
    rcases hj with rfl | rfl
    · simpa using hone
    · simpa using hone
  · exact SlotsKnown.mono (fun _ => False.elim) (fun _ => id) fun _ _ => False.elim

theorem slots_inOrder_of (hn : 5 ≤ numMb) (steps : ℕ) :
    InOrder SlotConflict
      (engineProgram numLayers numMb cacheLine page (forwardCalls numLayers 1 numMb steps)) := by
  have hprefill : SlotRuns numLayers numMb cacheLine (fun s => s.2 = ClassClock.start)
      (prefillCalls numLayers 1 numMb) (fun s => s.2 = ClassClock.start) :=
    ClassRuns.unclassed fun _ hc e => unclassed_of (ne_decode_prefillCalls hc) e
  have hrun := (hprefill.conseq (fun _ => id) fun _ => SlotsKnown.of_start).append
    (Runs.loop steps (I := fun _ => SlotsBetween numMb) fun _ _ => SlotsBetween.step hn)
  exact engine_inOrder_of_classes slotConflict_classifies (hrun (EnqueueState.start page, _) rfl).1

/-- Without a copy there is nothing to order. -/
theorem slots_inOrder_of_none {steps : ℕ} (h : 0 < steps →
    ∀ c ∈ decodeStepCalls numLayers 1 numMb, ∀ l p k, c ≠ .prefetchExperts l p k .decode) :
    InOrder SlotConflict
      (engineProgram numLayers numMb cacheLine page (forwardCalls numLayers 1 numMb steps)) := by
  have hnone : ∀ c ∈ forwardCalls numLayers 1 numMb steps,
      ∀ l p k, c ≠ .prefetchExperts l p k .decode := by
    intro c hc
    rw [forwardCalls, List.mem_append, List.mem_flatMap] at hc
    rcases hc with hc | ⟨i, hi, hc⟩
    · exact ne_decode_prefillCalls hc
    · exact h (by have := List.mem_range.mp hi; omega) c hc
  have hrun : SlotRuns numLayers numMb cacheLine (fun s => s.2 = ClassClock.start)
      (forwardCalls numLayers 1 numMb steps) (fun s => s.2 = ClassClock.start) :=
    ClassRuns.unclassed fun c hc e => unclassed_of (hnone c hc) e
  exact engine_inOrder_of_classes slotConflict_classifies (hrun (EnqueueState.start page, _) rfl).1

/-- Without a layer, the decode steps end with the prologue. -/
theorem ne_decode_zero {c : Call} (hc : c ∈ decodeStepCalls 0 1 numMb) (l p k : ℕ) :
    c ≠ .prefetchExperts l p k .decode := by
  simp only [decodeStepCalls, decodeBodyCalls, List.range_zero, List.flatMap_nil, List.append_nil,
    List.mem_cons, List.mem_flatMap, prologueCalls, List.mem_append, List.not_mem_nil,
    or_false] at hc
  rcases hc with rfl | ⟨k', -, hc | rfl⟩
  · simp
  · simp only [attentionCalls, List.mem_cons, List.not_mem_nil, or_false] at hc
    rcases hc with rfl | rfl | rfl <;> simp
  · simp

theorem ne_decode_nil {c : Call} (hc : c ∈ decodeStepCalls numLayers 1 0) (l p k : ℕ) :
    c ≠ .prefetchExperts l p k .decode := by
  have hprepare : c = .prepareForDecode := by
    simpa [decodeStepCalls, decodeBodyCalls] using hc
  simp [hprepare]

/-- In the last layer the host waits for the computation, and so for the copies before its
hidden states. -/
theorem SlotsKnown.postAttention_last {i : ℕ} (hi : ¬ i < numLayers - 1) (k : ℕ) :
    SlotRuns numLayers numMb cacheLine
      (fun s => SlotsKnown H C A s ∧ ∀ x, x ≠ k → x ∈ s.2.event (.loadHidden k))
      [.postAttention i 0 k] (SlotsKnown (fun x => x ≠ k) (fun x => x ≠ k) A) := by
  refine Runs.single fun s hs => ⟨?_, _, rfl, fun x => ?_, fun x hx => ?_, fun x hx => ?_,
    fun j x hx => ?_⟩
  · simp only [CallClassOrdered, commands, lastLayerCommands, if_neg hi]
    split_ifs <;> simp [classStep, ClassOrdered, Task.filledSlot]
  · simp only [commands, lastLayerCommands, if_neg hi]
    split_ifs <;> simp [ClassClock.next, Task.copiedSlot, hs.1.load]
  · simp only [commands, lastLayerCommands, if_neg hi]
    split_ifs <;> simp [ClassClock.next, Task.copiedSlot, hs.2 x hx]
  · simp only [commands, lastLayerCommands, if_neg hi]
    split_ifs <;> simp [ClassClock.next, Task.copiedSlot, hs.2 x hx]
  · simp only [commands, lastLayerCommands, if_neg hi]
    split_ifs <;> simp [ClassClock.next, Task.copiedSlot, hs.1.attn j x hx]

/-- A micro-batch of a single layer. -/
theorem SlotsKnown.lastBatch (k : ℕ) :
    SlotRuns 1 numMb cacheLine (SlotsKnown H C A) (decodeBatchCalls 1 1 numMb 0 k)
      (SlotsKnown (fun x => x ≠ k) (fun x => x ≠ k) fun _ _ => False) := by
  have hcopy : SlotRuns 1 numMb cacheLine (SlotsKnown H C A)
      [.loadHidden 0 k, .prefetchExperts ((0 + 1) % 1) 0 k .decode, .postAttention 0 0 k]
      (SlotsKnown (fun x => x ≠ k) (fun x => x ≠ k) fun _ _ => False) :=
    Runs.cons (SlotsKnown.loadHidden 0 k) (Runs.cons (SlotsKnown.prefetchExperts _ k)
      ((SlotsKnown.postAttention_last (by omega) k).conseq (fun _ => id) fun _ =>
        SlotsKnown.mono (fun _ => id) (fun _ => id) fun _ _ => False.elim))
  have hahead : SlotRuns 1 numMb cacheLine
      (SlotsKnown (fun x => x ≠ k) (fun x => x ≠ k) fun _ _ => False)
      (HarvestMoE.lookAheadCalls 1 numMb 0 k)
      (SlotsKnown (fun x => x ≠ k) (fun x => x ≠ k) fun _ _ => False) := by
    simp only [HarvestMoE.lookAheadCalls]
    split_ifs with hn hk hlast
    · exact (SlotsKnown.attentionCalls 0 (k + 2)).conseq (fun _ => id) fun _ =>
        SlotsKnown.mono (fun _ => id) (fun _ => id) fun _ _ => False.elim
    · omega
    · exact Runs.nil fun _ => id
    · exact Runs.nil fun _ => id
  have hrelay : SlotRuns 1 numMb cacheLine
      (SlotsKnown (fun x => x ≠ k) (fun x => x ≠ k) fun _ _ => False)
      (HarvestMoE.relayCalls 1 1 numMb 0 0 k)
      (SlotsKnown (fun x => x ≠ k) (fun x => x ≠ k) fun _ _ => False) := by
    by_cases hk : k + 2 < numMb
    · refine SlotsKnown.relayCalls 0 ?_
      rw [Nat.mod_eq_of_lt hk]
      omega
    · simpa [HarvestMoE.relayCalls, getPrefetchE2pIdx, hk] using Runs.nil fun _ => id
  rw [decodeBatchCalls_one]
  exact (hcopy.append hahead).append hrelay

/-- A step of a single layer. -/
theorem SlotsKnown.lastStep (hn : 0 < numMb) (hC : ∀ k, k < min 2 numMb → C k) :
    SlotRuns 1 numMb cacheLine (SlotsKnown (fun _ => False) C fun _ _ => False)
      (decodeStepCalls 1 1 numMb)
      (SlotsKnown (fun _ => False) (fun x => x + 1 ≠ numMb) fun _ _ => False) := by
  have hprologue : ∀ k, k < min 2 numMb → SlotRuns 1 numMb cacheLine
      (SlotsKnown C C fun _ _ => False) (prologueCalls 1 k) (SlotsKnown C C fun _ _ => False) :=
    fun k hk => ((SlotsKnown.attentionCalls 0 k).append
      (SlotsKnown.prefetchExpertsToPin 1 (hC k hk))).conseq (fun _ => id) fun _ =>
        SlotsKnown.mono (fun _ => id) (fun _ => id) fun _ _ => False.elim
  have hbatch : ∀ k, k < numMb → SlotRuns 1 numMb cacheLine
      (SlotsKnown (fun _ => False) (fun x => 0 < k ∧ x + 1 ≠ k) fun _ _ => False)
      (decodeBatchCalls 1 1 numMb 0 k)
      (SlotsKnown (fun _ => False) (fun x => 0 < k + 1 ∧ x + 1 ≠ k + 1) fun _ _ => False) :=
    fun k _ => (SlotsKnown.lastBatch k).conseq (fun _ => id) fun _ =>
      SlotsKnown.mono (fun _ => False.elim) (fun x hx => by omega) fun _ _ => False.elim
  have hloop := Runs.loop numMb (I := fun k => SlotsKnown (fun _ => False)
    (fun x => 0 < k ∧ x + 1 ≠ k) fun _ _ => False) hbatch
  rw [decodeStepCalls, decodeBodyCalls, List.range_one, List.flatMap_singleton,
    decodeLayerCalls_one]
  refine Runs.cons (SlotsKnown.prepareForDecode hn) (Runs.append
    (Runs.loop (min 2 numMb) (I := fun _ => SlotsKnown C C fun _ _ => False) hprologue)
    (hloop.conseq (fun _ => SlotsKnown.mono (fun _ => False.elim) (fun x hx => ?_)
      fun _ _ => False.elim) fun _ => SlotsKnown.mono (fun _ => id) (fun x hx => ⟨hn, hx⟩)
        fun _ _ => id))
  exact absurd hx.1 (Nat.lt_irrefl 0)

/-- With a single layer only the prologue can be early, from the second step on. -/
theorem slots_inOrder_of_one (hn : 0 < numMb) {steps : ℕ} (h : 3 ≤ numMb ∨ steps ≤ 1) :
    InOrder SlotConflict
      (engineProgram 1 numMb cacheLine page (forwardCalls 1 1 numMb steps)) := by
  have hprefill : SlotRuns 1 numMb cacheLine (fun s => s.2 = ClassClock.start)
      (prefillCalls 1 1 numMb)
      (SlotsKnown (fun _ => False) (fun x => 0 = 0 ∨ x + 1 ≠ numMb) fun _ _ => False) :=
    (ClassRuns.unclassed fun _ hc e => unclassed_of (ne_decode_prefillCalls hc) e).conseq
      (fun _ => id) fun _ => SlotsKnown.of_start
  have hsteps := Runs.loop steps (I := fun i => SlotsKnown (fun _ => False)
    (fun x => i = 0 ∨ x + 1 ≠ numMb) fun _ _ => False) fun i hi =>
      ((SlotsKnown.lastStep hn fun k hk => by omega).conseq (fun _ => id) fun _ =>
        SlotsKnown.mono (fun _ => id) (fun x hx => by omega) fun _ _ => id :
          SlotRuns 1 numMb cacheLine _ (decodeStepCalls 1 1 numMb) _)
  exact engine_inOrder_of_classes slotConflict_classifies
    ((hprefill.append hsteps) (EnqueueState.start page, _) rfl).1

end Safe

section Unsafe

/-- All but the load stream. -/
def NotLoad : Set EngineStream := {s | s ≠ .load}

/-- All events but that of the hidden states of micro-batch `b`. -/
def NotLoaded (b : ℕ) : Set EngineEvent := {e | e ≠ .loadHidden b}

/-- Where a refill runs, and the stream that it synchronizes with. -/
def RefillStreams : Set EngineStream := {.prefetch, .copyExecutor, .cold}

/-- The events of the refills, and the attention of micro-batch `m`. -/
def RefillEvents (m : ℕ) : Set EngineEvent :=
  {e | (∃ k, e = .prefetch k) ∨ (∃ k, e = .copyFuture k) ∨ e = .attnFuture m}

variable {numLayers numMb page : ℕ} {cacheLine : ℕ → ℕ}

section Closed

variable (i j b m : ℕ)

theorem closed_attentionCalls {c : Call} (hc : c ∈ attentionCalls i j) :
    c.Closed numLayers numMb cacheLine NotLoad (NotLoaded b) := by
  simp only [attentionCalls, List.mem_cons, List.not_mem_nil, or_false] at hc
  rcases hc with rfl | rfl | rfl <;>
    simp [Call.Closed, commands, StreamCmd.Closed, NotLoad, NotLoaded]

theorem refill_attentionCalls {j m : ℕ} (hj : j ≠ m) {c : Call} (hc : c ∈ attentionCalls i j) :
    c.Closed numLayers numMb cacheLine RefillStreams (RefillEvents m) := by
  simp only [attentionCalls, List.mem_cons, List.not_mem_nil, or_false] at hc
  rcases hc with rfl | rfl | rfl <;>
    simp [Call.Closed, commands, StreamCmd.Closed, RefillStreams, RefillEvents, hj]

theorem closed_prefetchExpertsToPin :
    (Call.prefetchExpertsToPin i j).Closed numLayers numMb cacheLine NotLoad (NotLoaded b) := by
  simp [Call.Closed, commands, StreamCmd.Closed, NotLoad, NotLoaded]

theorem refill_prefetchExpertsToPin :
    (Call.prefetchExpertsToPin i j).Closed numLayers numMb cacheLine RefillStreams
      (RefillEvents m) := by
  simp [Call.Closed, commands, StreamCmd.Closed, RefillStreams, RefillEvents]

theorem closed_prepareForDecode :
    Call.prepareForDecode.Closed numLayers numMb cacheLine NotLoad (NotLoaded b) := by
  simp only [Call.Closed, commands, List.mem_replicate]
  rintro _ _ ⟨-, rfl⟩
  simp [StreamCmd.Closed, NotLoad]

/-- Loading the hidden states shows the copies to nobody else. -/
theorem closed_loadHidden :
    (Call.loadHidden i b).Closed numLayers numMb cacheLine NotLoad (NotLoaded b) := by
  simp [Call.Closed, commands, StreamCmd.Closed, NotLoaded]

theorem refill_loadHidden :
    (Call.loadHidden i m).Closed numLayers numMb cacheLine RefillStreams (RefillEvents m) := by
  simp [Call.Closed, commands, StreamCmd.Closed, RefillEvents]

theorem closed_prefetchExperts (l : ℕ) :
    (Call.prefetchExperts l 0 j .decode).Closed numLayers numMb cacheLine NotLoad
      (NotLoaded b) := by
  simp [Call.Closed, commands, StreamCmd.Closed, NotLoad, NotLoaded]

theorem refill_prefetchExperts (l : ℕ) :
    (Call.prefetchExperts l 0 j .decode).Closed numLayers numMb cacheLine RefillStreams
      (RefillEvents m) := by
  simp [Call.Closed, commands, StreamCmd.Closed, RefillStreams, RefillEvents]

theorem closed_postAttention {j b : ℕ} (hj : j ≠ b) :
    (Call.postAttention i 0 j).Closed numLayers numMb cacheLine NotLoad (NotLoaded b) := by
  simp only [Call.Closed, commands, lastLayerCommands]
  split_ifs <;> simp [StreamCmd.Closed, NotLoad, NotLoaded, hj]

/-- The computation comes after the copies, but not its layer, unless it is the last. -/
theorem refill_postAttention {i : ℕ} (hi : i < numLayers - 1) :
    (Call.postAttention i 0 j).Closed numLayers numMb cacheLine RefillStreams (RefillEvents m) := by
  simp only [Call.Closed, commands, lastLayerCommands, if_pos hi]
  split_ifs <;> simp [StreamCmd.Closed, RefillStreams]

end Closed

/-- A copy is launched. -/
theorem exists_copied (as : List Call) (l k b : ℕ) :
    StreamRuns numLayers numMb cacheLine (· = (EnqueueState.start page, StreamClock.start))
      (as ++ [.prefetchExperts l 0 k .decode])
      (TaskUnseen (.copySlot k) NotLoad (NotLoaded b)) := by
  have has : StreamRuns numLayers numMb cacheLine
      (· = (EnqueueState.start page, StreamClock.start)) as (fun s => s.2.Sane) :=
    (sane_calls as).conseq (fun s hs => hs ▸ StreamClock.sane_run []) fun _ => id
  refine has.append (Runs.single fun s hs => ⟨trivial, _, rfl, s.2.tasks.length, ?_, ?_⟩)
  · simp [commands, StreamClock.next]
  · have hsync : (s.2.next (.synchronize (.copyFuture k))).Sane := hs.next _
    have hlaunch : Unseen s.2.tasks.length NotLoad Set.univ
        ((s.2.next (.synchronize (.copyFuture k))).next (.launch .load (.copySlot k))) :=
      Unseen.launch hsync .load (.copySlot k)
    have hrecord : (StreamCmd.record (.prefetch k) .prefetch : EngineCmd).Closed NotLoad Set.univ :=
      fun _ => by simp [NotLoad]
    exact (hlaunch.next hrecord).mono subset_rfl (Set.subset_univ _)

/-- A copy whose slot is refilled before the computation waits for a later load, or soon
after it. -/
theorem slots_not_inOrder_of {cs as bs ds es : List Call} {l l' k b m : ℕ}
    (hcs : cs = as ++ [.prefetchExperts l 0 k .decode] ++ bs ++ ds ++
      .prefetchExpertsToPin l' k :: es)
    (hbs : ∀ c ∈ bs, c.Closed numLayers numMb cacheLine NotLoad (NotLoaded b))
    (hds : ∀ c ∈ ds, c.Closed numLayers numMb cacheLine RefillStreams (RefillEvents m)) :
    ¬ InOrder SlotConflict (engineProgram numLayers numMb cacheLine page cs) := by
  subst hcs
  have hstreams : RefillStreams ⊆ NotLoad := by
    simp [RefillStreams, NotLoad, Set.insert_subset_iff]
  have hevents : RefillEvents m ⊆ NotLoaded b := by
    rintro e (⟨k, rfl⟩ | ⟨k, rfl⟩ | rfl) <;> simp [NotLoaded]
  obtain ⟨-, t, ht, hend⟩ := (((exists_copied as l k b).append (TaskUnseen.calls hbs)).append
    ((TaskUnseen.calls hds).conseq (fun _ h => h.mono hstreams hevents) fun _ => id)) _ rfl
  have hconflict : SlotConflict (.copySlot k) (.pinCopy k) := rfl
  have hcold : EngineStream.cold ∈ RefillStreams := by simp [RefillStreams]
  have hcalls : commands numLayers numMb cacheLine t.1 (.prefetchExpertsToPin l' k) =
      [.wait (.prefetch k) .copyExecutor, .record (.copyFuture k) .copyExecutor,
        .wait (.copyFuture k) .cold] ++ [.launch .cold (.pinCopy k)] := rfl
  refine engine_not_inOrder ht (hend.not_ordered hconflict hcold hcalls ?_)
  simp [StreamCmd.Closed, RefillStreams, RefillEvents]

/-- The relay of a layer that another one follows. -/
theorem relayCalls_eq {i : ℕ} (hi : i + 1 < numLayers) (k : ℕ) :
    ∃ l, relayCalls numLayers 1 numMb i 0 k = [.prefetchExpertsToPin l ((k + 2) % numMb)] := by
  simp only [relayCalls, getPrefetchE2pIdx, if_true, if_pos hi]
  split_ifs with hk
  · exact ⟨_, by rw [Nat.mod_eq_of_lt hk]⟩
  · exact ⟨_, rfl⟩

/-- Where the first layer of the first step is. -/
theorem exists_forwardCalls (l steps : ℕ) :
    ∃ as es, forwardCalls (l + 1) 1 numMb (steps + 1) =
      as ++ (List.range numMb).flatMap (decodeBatchCalls (l + 1) 1 numMb 0) ++ es := by
  refine ⟨prefillCalls (l + 1) 1 numMb ++ .prepareForDecode ::
    (List.range (min 2 numMb)).flatMap (prologueCalls 1),
    ((List.range l).map Nat.succ).flatMap (decodeLayerCalls (l + 1) 1 numMb) ++
      ((List.range steps).map Nat.succ).flatMap fun _ => decodeStepCalls (l + 1) 1 numMb, ?_⟩
  have hlayers : (List.range (l + 1)).flatMap (decodeLayerCalls (l + 1) 1 numMb) =
      (List.range numMb).flatMap (decodeBatchCalls (l + 1) 1 numMb 0) ++
        ((List.range l).map Nat.succ).flatMap (decodeLayerCalls (l + 1) 1 numMb) := by
    rw [List.range_succ_eq_map, List.flatMap_cons, decodeLayerCalls_one]
  have hstep : decodeStepCalls (l + 1) 1 numMb = .prepareForDecode ::
      ((List.range (min 2 numMb)).flatMap (prologueCalls 1) ++
        ((List.range numMb).flatMap (decodeBatchCalls (l + 1) 1 numMb 0) ++
          ((List.range l).map Nat.succ).flatMap (decodeLayerCalls (l + 1) 1 numMb))) := by
    rw [decodeStepCalls, decodeBodyCalls, hlayers]
  rw [forwardCalls, List.range_succ_eq_map, List.flatMap_cons, hstep]
  simp only [List.append_assoc, List.cons_append]

section Few

variable {l : ℕ} {cs as es : List Call}

/-- With one or two micro-batches, slot 0 is refilled behind the computation of its own
micro-batch. -/
theorem slots_not_inOrder_few (hn : numMb = 1 ∨ numMb = 2)
    (hcs : cs = as ++ (List.range numMb).flatMap (decodeBatchCalls (l + 2) 1 numMb 0) ++ es) :
    ¬ InOrder SlotConflict (engineProgram (l + 2) numMb cacheLine page cs) := by
  obtain ⟨l₀, hrelay⟩ : ∃ l', relayCalls (l + 2) 1 numMb 0 0 0 =
      [.prefetchExpertsToPin l' ((0 + 2) % numMb)] := relayCalls_eq (by omega) 0
  have hsplit : ∃ bs, cs = (as ++ [.loadHidden 0 0]) ++
      [.prefetchExperts (1 % (l + 2)) 0 0 .decode] ++ [.postAttention 0 0 0] ++ [] ++
        .prefetchExpertsToPin l₀ 0 :: bs := by
    rcases hn with rfl | rfl
    · refine ⟨es, ?_⟩
      rw [hcs]
      simp [decodeBatchCalls_one, lookAheadCalls, hrelay]
    · refine ⟨decodeBatchCalls (l + 2) 1 2 0 1 ++ es, ?_⟩
      rw [hcs]
      simp [decodeBatchCalls_one, lookAheadCalls, hrelay, List.range_succ]
  obtain ⟨bs, hsplit⟩ := hsplit
  refine slots_not_inOrder_of (b := 1) (m := 2) hsplit ?_ (List.forall_mem_nil _)
  simpa using closed_postAttention 0 zero_ne_one

/-- The calls after the copy of slot 0, up to the copy of slot 1. -/
theorem closed_firstBatch (l' l'' : ℕ) :
    ∀ c ∈ .postAttention 0 0 0 :: attentionCalls 0 2 ++ [.prefetchExpertsToPin l' 2,
      .loadHidden 0 1, .prefetchExperts l'' 0 1 .decode],
      c.Closed numLayers numMb cacheLine NotLoad (NotLoaded 1) := by
  simp only [List.forall_mem_append, List.forall_mem_cons]
  exact ⟨⟨closed_postAttention 0 zero_ne_one, fun _ => closed_attentionCalls 0 2 1⟩,
    closed_prefetchExpertsToPin l' 2 1, closed_loadHidden 0 1, closed_prefetchExperts 1 1 _,
    List.forall_mem_nil _⟩

/-- With three, behind that of the next one. -/
theorem slots_not_inOrder_three
    (hcs : cs = as ++ (List.range 3).flatMap (decodeBatchCalls (l + 2) 1 3 0) ++ es) :
    ¬ InOrder SlotConflict (engineProgram (l + 2) 3 cacheLine page cs) := by
  have hrelay : ∀ k, ∃ l', relayCalls (l + 2) 1 3 0 0 k =
      [.prefetchExpertsToPin l' ((k + 2) % 3)] := relayCalls_eq (by omega)
  obtain ⟨l₀, hrelay₀⟩ := hrelay 0
  obtain ⟨l₁, hrelay₁⟩ := hrelay 1
  have hsplit : cs = (as ++ [.loadHidden 0 0]) ++ [.prefetchExperts (1 % (l + 2)) 0 0 .decode] ++
      (.postAttention 0 0 0 :: attentionCalls 0 2 ++ [.prefetchExpertsToPin l₀ 2,
        .loadHidden 0 1, .prefetchExperts (1 % (l + 2)) 0 1 .decode]) ++
      (.postAttention 0 0 1 :: attentionCalls 1 0) ++
        .prefetchExpertsToPin l₁ 0 :: (decodeBatchCalls (l + 2) 1 3 0 2 ++ es) := by
    rw [hcs]
    simp [decodeBatchCalls_one, lookAheadCalls, hrelay₀, hrelay₁, List.range_succ]
  refine slots_not_inOrder_of (b := 1) (m := 2) hsplit (closed_firstBatch l₀ _) ?_
  rw [List.forall_mem_cons]
  exact ⟨refill_postAttention 1 2 (by omega), fun _ => refill_attentionCalls 1 (by decide)⟩

/-- With four, behind that of the one after. -/
theorem slots_not_inOrder_four
    (hcs : cs = as ++ (List.range 4).flatMap (decodeBatchCalls (l + 2) 1 4 0) ++ es) :
    ¬ InOrder SlotConflict (engineProgram (l + 2) 4 cacheLine page cs) := by
  have hL : 0 < l + 2 - 1 := by omega
  have hrelay : ∀ k, ∃ l', relayCalls (l + 2) 1 4 0 0 k =
      [.prefetchExpertsToPin l' ((k + 2) % 4)] := relayCalls_eq (by omega)
  obtain ⟨l₀, hrelay₀⟩ := hrelay 0
  obtain ⟨l₁, hrelay₁⟩ := hrelay 1
  obtain ⟨l₂, hrelay₂⟩ := hrelay 2
  have hsplit : cs = (as ++ [.loadHidden 0 0]) ++ [.prefetchExperts (1 % (l + 2)) 0 0 .decode] ++
      (.postAttention 0 0 0 :: attentionCalls 0 2 ++ [.prefetchExpertsToPin l₀ 2,
        .loadHidden 0 1, .prefetchExperts (1 % (l + 2)) 0 1 .decode]) ++
      (.postAttention 0 0 1 :: attentionCalls 0 3 ++ [.prefetchExpertsToPin l₁ 3,
        .loadHidden 0 2, .prefetchExperts (1 % (l + 2)) 0 2 .decode, .postAttention 0 0 2] ++
        attentionCalls 1 0) ++
        .prefetchExpertsToPin l₂ 0 :: (decodeBatchCalls (l + 2) 1 4 0 3 ++ es) := by
    rw [hcs]
    simp [decodeBatchCalls_one, lookAheadCalls, hrelay₀, hrelay₁, hrelay₂, List.range_succ]
  refine slots_not_inOrder_of (b := 1) (m := 2) hsplit (closed_firstBatch l₀ _) ?_
  simp only [List.forall_mem_append, List.forall_mem_cons]
  exact ⟨⟨⟨refill_postAttention 1 2 hL, fun _ => refill_attentionCalls 0 (by decide)⟩,
    refill_prefetchExpertsToPin l₁ 3 2, refill_loadHidden 0 2, refill_prefetchExperts 2 2 _,
    refill_postAttention 2 2 hL, List.forall_mem_nil _⟩,
    fun _ => refill_attentionCalls 1 (by decide)⟩

end Few

/-- With four micro-batches or fewer, slot 0 is filled again too early. -/
theorem slots_not_inOrder (hn : 0 < numMb) (hn4 : numMb ≤ 4) (l steps : ℕ) :
    ¬ InOrder SlotConflict (engineProgram (l + 2) numMb cacheLine page
      (forwardCalls (l + 2) 1 numMb (steps + 1))) := by
  obtain ⟨as, es, hcs⟩ : ∃ as es, forwardCalls (l + 2) 1 numMb (steps + 1) =
      as ++ (List.range numMb).flatMap (decodeBatchCalls (l + 2) 1 numMb 0) ++ es :=
    exists_forwardCalls (l + 1) steps
  have hsmall : (numMb = 1 ∨ numMb = 2) ∨ numMb = 3 ∨ numMb = 4 := by omega
  rcases hsmall with hfew | rfl | rfl
  · exact slots_not_inOrder_few hfew hcs
  · exact slots_not_inOrder_three hcs
  · exact slots_not_inOrder_four hcs

/-- A single layer with two micro-batches at most. -/
theorem decodeStepCalls_last {p : ℕ} (hp : p < 2) :
    decodeStepCalls 1 1 (p + 1) = .prepareForDecode :: (List.range p).flatMap (prologueCalls 1) ++
      attentionCalls 0 p ++ .prefetchExpertsToPin 1 p ::
        (List.range p).flatMap (decodeBatchCalls 1 1 (p + 1) 0) ++
        [.loadHidden 0 p, .prefetchExperts 0 0 p .decode, .postAttention 0 0 p] := by
  have hbatch : decodeBatchCalls 1 1 (p + 1) 0 p =
      [.loadHidden 0 p, .prefetchExperts 0 0 p .decode, .postAttention 0 0 p] := by
    simp [decodeBatchCalls_one, lookAheadCalls, relayCalls, getPrefetchE2pIdx,
      show ¬ 2 < p + 1 by omega]
  have hmin : min 2 (p + 1) = p + 1 := by omega
  rw [decodeStepCalls, decodeBodyCalls, hmin, List.range_one, List.flatMap_singleton,
    decodeLayerCalls_one, List.range_succ, List.flatMap_append, List.flatMap_append,
    List.flatMap_singleton, List.flatMap_singleton, hbatch]
  simp [prologueCalls]

/-- The prologue of the second step refills the last slot of the first. -/
theorem slots_not_inOrder_one (hn : 0 < numMb) (hn2 : numMb ≤ 2) (steps : ℕ) :
    ¬ InOrder SlotConflict (engineProgram 1 numMb cacheLine page
      (forwardCalls 1 1 numMb (steps + 2))) := by
  obtain ⟨p, rfl⟩ : ∃ p, numMb = p + 1 := ⟨numMb - 1, by omega⟩
  have hprologue : ∀ c ∈ (List.range p).flatMap (prologueCalls 1),
      c.Closed 1 (p + 1) cacheLine NotLoad (NotLoaded (p + 1)) := by
    simp only [List.mem_flatMap, List.mem_range, prologueCalls, List.mem_append,
      List.mem_singleton]
    rintro c ⟨k, -, hc | rfl⟩
    · exact closed_attentionCalls 0 k _ hc
    · exact closed_prefetchExpertsToPin _ k _
  have hsplit : ∃ as es, forwardCalls 1 1 (p + 1) (steps + 2) =
      as ++ [.prefetchExperts 0 0 p .decode] ++
        (.postAttention 0 0 p :: .prepareForDecode :: (List.range p).flatMap (prologueCalls 1) ++
          attentionCalls 0 p) ++ [] ++ .prefetchExpertsToPin 1 p :: es := by
    refine ⟨prefillCalls 1 1 (p + 1) ++ .prepareForDecode ::
      (List.range p).flatMap (prologueCalls 1) ++ attentionCalls 0 p ++ .prefetchExpertsToPin 1 p ::
        (List.range p).flatMap (decodeBatchCalls 1 1 (p + 1) 0) ++ [.loadHidden 0 p],
      (List.range p).flatMap (decodeBatchCalls 1 1 (p + 1) 0) ++
        [.loadHidden 0 p, .prefetchExperts 0 0 p .decode, .postAttention 0 0 p] ++
        (((List.range steps).map Nat.succ).map Nat.succ).flatMap fun _ =>
          decodeStepCalls 1 1 (p + 1), ?_⟩
    rw [forwardCalls, List.range_succ_eq_map, List.flatMap_cons, List.range_succ_eq_map,
      List.map_cons, List.flatMap_cons, decodeStepCalls_last (by omega)]
    simp only [List.append_assoc, List.cons_append, List.nil_append]
  obtain ⟨as, es, hsplit⟩ := hsplit
  refine slots_not_inOrder_of (b := p + 1) (m := 0) hsplit ?_ (List.forall_mem_nil _)
  simp only [List.forall_mem_append, List.forall_mem_cons]
  exact ⟨⟨closed_postAttention 0 (by omega), closed_prepareForDecode _, hprologue⟩,
    fun _ => closed_attentionCalls 0 p _⟩

end Unsafe

/-- The slots are refilled after they are copied, in every interleaving, exactly when there
are five micro-batches or more, or nothing is copied; a single layer needs three
micro-batches, or one step. -/
theorem slots_inOrder_iff (numLayers numMb steps page : ℕ) (cacheLine : ℕ → ℕ) :
    InOrder SlotConflict
        (engineProgram numLayers numMb cacheLine page (forwardCalls numLayers 1 numMb steps)) ↔
      5 ≤ numMb ∨ numMb = 0 ∨ numLayers = 0 ∨ steps = 0 ∨
        numLayers = 1 ∧ (3 ≤ numMb ∨ steps = 1) := by
  constructor
  · intro h
    by_contra hcond
    obtain ⟨m, rfl⟩ : ∃ m, steps = m + 1 := ⟨steps - 1, by omega⟩
    by_cases hL : numLayers = 1
    · subst hL
      obtain ⟨m, rfl⟩ : ∃ m', m = m' + 1 := ⟨m - 1, by omega⟩
      exact slots_not_inOrder_one (by omega) (by omega) m h
    · obtain ⟨l, rfl⟩ : ∃ l, numLayers = l + 2 := ⟨numLayers - 2, by omega⟩
      exact slots_not_inOrder (by omega) (by omega) l m h
  · rintro (hn | rfl | rfl | rfl | ⟨rfl, h⟩)
    · exact slots_inOrder_of hn steps
    · exact slots_inOrder_of_none fun _ c hc => ne_decode_nil hc
    · exact slots_inOrder_of_none fun _ c hc => ne_decode_zero hc
    · exact slots_inOrder_of_none fun h => absurd h (Nat.lt_irrefl 0)
    · rcases Nat.eq_zero_or_pos numMb with rfl | hn
      · exact slots_inOrder_of_none fun _ c hc => ne_decode_nil hc
      · exact slots_inOrder_of_one hn (h.imp_right le_of_eq)

/-- Two layers, one micro-batch, one decode step. -/
theorem slots_not_inOrder_two :
    ¬ ∀ (numLayers numMb steps : ℕ) (cacheLine : ℕ → ℕ), 0 < numMb →
      InOrder SlotConflict
        (engineProgram numLayers numMb cacheLine 0 (forwardCalls numLayers 1 numMb steps)) :=
  fun hall => slots_not_inOrder (by decide) (by decide) 0 0 (hall 2 1 1 (· % 2) (by decide))

end HarvestMoE
