import HarvestMoE.Lib.Projection
import HarvestMoE.Lookahead

/-!
# Which attention result a layer consumes

`load_hidden` waits for the future of its micro-batch and takes what it finds in pinned
memory. The future does not know its layer: this module attaches to every attention
call, and to the query, key and value rows it works on, the decode step and the layer
they were computed for, and asks whether `load_hidden` of a layer finds its own.

## Main definitions

* `Tag`, `BatchTags`, `AttnState` — the decode step and layer behind each buffer.
* `attnStep` — how the calls move them.
* `FutureOwn` — `load_hidden` consumes the result of its own layer.
-/

namespace HarvestMoE

open Lib

/-- The decode step and the layer a value was computed for. -/
structure Tag where
  step : ℕ
  layerId : ℕ
  deriving DecidableEq, Repr

/-- An attention future: what `cpu_attention` was called for, and what the rows that it
reads from pinned memory were computed for. -/
structure AttnFuture where
  call : Tag
  qkv : Option Tag
  deriving DecidableEq, Repr

/-- The buffers of a micro-batch on the way to attention. -/
structure BatchTags where
  qkv : Option Tag
  qkvPin : Option Tag
  attnFuture : Option AttnFuture
  deriving DecidableEq, Repr

structure AttnState where
  /-- Decode steps started. -/
  decodeStep : ℕ
  batches : ℕ → BatchTags

/-- The state when decode starts: `create_micro_batches` has cleared the futures. -/
def AttnState.start : AttnState := ⟨0, fun _ => ⟨none, none, none⟩⟩

/-- Change the tags of one micro-batch. -/
def AttnState.modify (s : AttnState) (k : ℕ) (f : BatchTags → BatchTags) : AttnState :=
  { s with batches := Function.update s.batches k (f (s.batches k)) }

@[simp] theorem AttnState.modify_decodeStep (s : AttnState) (k : ℕ) (f : BatchTags → BatchTags) :
    (s.modify k f).decodeStep = s.decodeStep := rfl

@[simp] theorem AttnState.modify_self (s : AttnState) (k : ℕ) (f : BatchTags → BatchTags) :
    (s.modify k f).batches k = f (s.batches k) := by
  simp [modify]

theorem AttnState.modify_other (s : AttnState) {k k' : ℕ} (f : BatchTags → BatchTags)
    (h : k ≠ k') : (s.modify k' f).batches k = s.batches k := by
  simp [modify, h]

/-- The effect of a host call. The result of a missing future raises. -/
def attnStep (s : AttnState) : Call → Option AttnState
  | .prepareForDecode => some { s with decodeStep := s.decodeStep + 1 }
  | .preAttention i k => some (s.modify k fun b => { b with qkv := some ⟨s.decodeStep, i⟩ })
  | .offloadQkv _ k => some (s.modify k fun b => { b with qkvPin := b.qkv })
  | .cpuAttention i k =>
      some (s.modify k fun b => { b with attnFuture := some ⟨⟨s.decodeStep, i⟩, b.qkvPin⟩ })
  | .loadHidden _ k => if (s.batches k).attnFuture.isSome then some s else none
  | _ => some s

/-- `load_hidden(i, k)` finds the future of its own `pre_attention`, `offload_qkv` and
`cpu_attention`, all of this decode step. -/
def FutureOwn (s : AttnState) : Call → Prop
  | .loadHidden i k =>
      (s.batches k).attnFuture = some ⟨⟨s.decodeStep, i⟩, some ⟨s.decodeStep, i⟩⟩
  | _ => True

section Projection

/-- Two states agree on a micro-batch. -/
def SameTags (k : ℕ) (s u : AttnState) : Prop :=
  s.decodeStep = u.decodeStep ∧ s.batches k = u.batches k

/-- The calls of a micro-batch move its tags alone. -/
theorem attnStep_projects (k : ℕ) :
    Projects attnStep (Call.isOf k) (SameTags k) FutureOwn where
  own := by
    rintro s u a u' ha - ⟨hstep, hbatch⟩ hu
    cases a with
    | loadHidden i k' =>
        obtain rfl : k' = k := by simpa [Call.isOf, Call.batch] using ha
        simp only [attnStep, ← hbatch] at hu ⊢
        split_ifs at hu with hsome
        obtain rfl := Option.some.inj hu
        exact ⟨s, if_pos hsome, hstep, hbatch⟩
    | prepareForDecode =>
        obtain rfl := Option.some.inj hu
        exact ⟨_, rfl, by simp [hstep], hbatch⟩
    | preAttention i k' | offloadQkv i k' | cpuAttention i k' =>
        obtain rfl : k' = k := by simpa [Call.isOf, Call.batch] using ha
        obtain rfl := Option.some.inj hu
        exact ⟨_, rfl, by simp [hstep], by simp [hstep, hbatch]⟩
    | _ =>
        obtain rfl := Option.some.inj hu
        exact ⟨_, rfl, hstep, hbatch⟩
  other := by
    rintro s u a s' ha ⟨hstep, hbatch⟩ hs
    cases a with
    | loadHidden i k' =>
        simp only [attnStep] at hs
        split_ifs at hs
        obtain rfl := Option.some.inj hs
        exact ⟨hstep, hbatch⟩
    | prepareForDecode => simp [Call.isOf] at ha
    | preAttention i k' | offloadQkv i k' | cpuAttention i k' =>
        have hne : k ≠ k' := fun h => ha (by simp [Call.isOf, Call.batch, h])
        obtain rfl := Option.some.inj hs
        exact ⟨by simp [hstep], by rw [AttnState.modify_other _ _ hne, hbatch]⟩
    | _ =>
        obtain rfl := Option.some.inj hs
        exact ⟨hstep, hbatch⟩

/-- A micro-batch by itself consumes its own result at every layer of every step. -/
theorem aloneLayer_futures (k i : ℕ) :
    Runs attnStep FutureOwn (fun _ => True) (aloneLayerCalls k i) (fun _ => True) := by
  intro s _
  simp [aloneLayerCalls, attentionCalls, attnStep, FutureOwn]

theorem aloneRun_futures (numLayers k steps : ℕ) :
    Runs attnStep FutureOwn (fun _ => True)
      ((List.range steps).flatMap fun _ => aloneStepCalls numLayers k) (fun _ => True) := by
  have hprepare : Runs attnStep FutureOwn (fun _ => True) [.prepareForDecode] (fun _ => True) :=
    Runs.single fun s _ => ⟨trivial, _, rfl, trivial⟩
  refine Runs.loop steps fun d _ => Runs.cons hprepare ?_
  exact Runs.loop numLayers fun i _ => aloneLayer_futures k i

end Projection

section Coverage

variable {numLayers numMb steps : ℕ}

/-- Prefill sends nothing to attention and takes nothing back. -/
theorem attnStep_prefill {c : Call} (hc : c ∈ prefillCalls numLayers 1 numMb) (s : AttnState) :
    attnStep s c = some s ∧ ∀ i k, c ≠ .loadHidden i k := by
  have hof : ∀ k, ¬ Call.isOf k c := fun k =>
    List.filter_eq_nil_iff.mp (filter_prefillCalls (k := k)) c hc
  cases c with
  | preAttention i k | offloadQkv i k | cpuAttention i k | loadHidden i k =>
      exact absurd (hof k) (by simp [Call.isOf, Call.batch])
  | prepareForDecode => exact absurd (hof 0) (by simp [Call.isOf])
  | _ => exact ⟨rfl, by simp⟩

theorem loadHidden_of_mem {i k : ℕ}
    (h : Call.loadHidden i k ∈ forwardCalls numLayers 1 numMb steps) :
    0 < steps ∧ i < numLayers ∧ k < numMb := by
  have hprefill : Call.loadHidden i k ∉ prefillCalls numLayers 1 numMb := fun hmem =>
    (attnStep_prefill hmem AttnState.start).2 i k rfl
  simp only [forwardCalls, List.mem_append, List.mem_flatMap, hprefill, false_or,
    decodeStepCalls, List.mem_cons, reduceCtorEq, List.mem_range] at h
  obtain ⟨d, hd, hbody⟩ := h
  exact ⟨by omega, loadHidden_mem.mp hbody⟩

/-- When each micro-batch goes through decode as a sequential decoder would take it,
every `load_hidden` of the run finds its own future. -/
theorem futures_of_alone (hstep : ∀ k, k < numMb →
      (decodeStepCalls numLayers 1 numMb).filter (Call.isOf k) = aloneStepCalls numLayers k) :
    Along attnStep FutureOwn AttnState.start (forwardCalls numLayers 1 numMb steps) := by
  have hown : ∀ k, k < numMb → Along attnStep (fun s c => Call.isOf k c → FutureOwn s c)
      AttnState.start (forwardCalls numLayers 1 numMb steps) := by
    intro k hk
    have hfilter : (forwardCalls numLayers 1 numMb steps).filter (Call.isOf k) =
        (List.range steps).flatMap fun _ => aloneStepCalls numLayers k := by
      simp only [forwardCalls, List.filter_append, filter_prefillCalls, List.filter_flatMap,
        hstep k hk, List.nil_append]
    obtain ⟨hsafe, v, hv, -⟩ := aloneRun_futures numLayers k steps AttnState.start trivial
    rw [← hfilter] at hsafe hv
    refine (attnStep_projects k).along ?_ ⟨rfl, rfl⟩ hsafe hv
    rintro s u a ha ⟨hdecode, hbatch⟩ hu
    cases a with
    | loadHidden i k' =>
        obtain rfl : k' = k := by simpa [Call.isOf, Call.batch] using ha
        simpa [FutureOwn, hdecode, hbatch] using hu
    | _ => trivial
  refine (Along.forall hown).imp fun s c hc hs => ?_
  cases c with
  | loadHidden i k =>
      exact hs k (loadHidden_of_mem hc).2.2 (by simp [Call.isOf, Call.batch])
  | _ => trivial

/-- The futures of the first micro-batches are those of layer 0. -/
def SentOnce (sent : ℕ) (s : AttnState) : Prop :=
  ∀ k, k < sent → ∃ f, (s.batches k).attnFuture = some f ∧ f.call.layerId = 0

/-- When the first layer-1 result is loaded, the futures are still those of layer 0. -/
def LoadsEarly (numMb : ℕ) (s : AttnState) (c : Call) : Prop :=
  c = .loadHidden 1 0 → SentOnce numMb s

/-- The prologue sends the first micro-batches to attention, for layer 0. -/
theorem sentOnce_prologue :
    Runs attnStep (LoadsEarly numMb) (SentOnce 0)
      ((List.range (min 2 numMb)).flatMap (prologueCalls 1)) (SentOnce (min 2 numMb)) := by
  refine Runs.loop _ fun k _ s hs => ?_
  have hlater : ∀ s', (s'.batches k).attnFuture.map (fun f => f.call.layerId) = some 0 →
      (∀ k', k' ≠ k → s'.batches k' = s.batches k') → SentOnce (k + 1) s' := by
    intro s' hself hother k' hk'
    by_cases hkk : k' = k
    · subst hkk
      exact Option.map_eq_some_iff.mp hself
    · rw [hother k' hkk]
      exact hs k' (by omega)
  simp only [prologueCalls, attentionCalls, List.cons_append, List.nil_append, along_cons,
    along_nil, exec_cons, exec_nil, attnStep, Option.bind_some, Option.some.injEq, forall_eq',
    LoadsEarly, reduceCtorEq, false_implies, true_and, exists_eq_left']
  refine hlater _ (by simp) fun k' hne => ?_
  simp [AttnState.modify_other, hne]

/-- With one or two micro-batches the layers send nothing. -/
theorem sentOnce_layers (hn : numMb ≤ 2) :
    Runs attnStep (LoadsEarly numMb) (SentOnce numMb)
      ((List.range numLayers).flatMap (decodeLayerCalls numLayers 1 numMb)) (SentOnce numMb) := by
  refine Runs.skip fun c hc s hs => ?_
  obtain ⟨i, -, hc⟩ := List.mem_flatMap.mp hc
  rw [decodeLayerCalls_one, List.mem_flatMap] at hc
  obtain ⟨k, hk, hc⟩ := hc
  rw [decodeBatchCalls_one, lookAheadCalls_short hn] at hc
  simp only [relayCalls, List.append_nil, List.mem_append, List.mem_cons, List.not_mem_nil,
    or_false] at hc
  obtain ⟨f, hf, -⟩ := hs k (List.mem_range.mp hk)
  rcases hc with (rfl | rfl | rfl) | hc
  · exact ⟨fun _ => hs, by simp [attnStep, hf]⟩
  · exact ⟨fun _ => hs, rfl⟩
  · exact ⟨fun _ => hs, rfl⟩
  · split at hc
    · obtain rfl := List.mem_singleton.mp hc
      exact ⟨fun _ => hs, rfl⟩
    · simp at hc

/-- Up to the end of the first decode step. -/
theorem sentOnce_first (hn : numMb ≤ 2) :
    Runs attnStep (LoadsEarly numMb) (fun _ => True)
      (prefillCalls numLayers 1 numMb ++ decodeStepCalls numLayers 1 numMb) (SentOnce numMb) := by
  have hprefill : Runs attnStep (LoadsEarly numMb) (fun _ => True)
      (prefillCalls numLayers 1 numMb) (fun _ => True) := by
    refine Runs.skip fun c hc s _ => ?_
    obtain ⟨hstep, hload⟩ := attnStep_prefill hc s
    exact ⟨fun h => absurd h (hload 1 0), hstep⟩
  have hprepare : Runs attnStep (LoadsEarly numMb) (fun _ => True) [.prepareForDecode]
      (SentOnce 0) :=
    Runs.single fun s _ => ⟨by simp [LoadsEarly], _, rfl, fun k hk => absurd hk (by omega)⟩
  have hmin : min 2 numMb = numMb := by omega
  have hprologue : Runs attnStep (LoadsEarly numMb) (SentOnce 0)
      ((List.range (min 2 numMb)).flatMap (prologueCalls 1)) (SentOnce (min 2 numMb)) :=
    sentOnce_prologue
  rw [hmin] at hprologue
  rw [decodeStepCalls, decodeBodyCalls, hmin]
  exact hprefill.append (Runs.cons hprepare (hprologue.append (sentOnce_layers hn)))

/-- With one or two micro-batches nothing but the prologue sends anything to attention,
so the first decode step loads for layer 1 what it computed for layer 0. -/
theorem not_futures_of_short (hpos : 0 < numMb) (hn : numMb ≤ 2) (hL : 2 ≤ numLayers)
    (hsteps : 0 < steps) :
    ¬ Along attnStep FutureOwn AttnState.start (forwardCalls numLayers 1 numMb steps) := by
  obtain ⟨m, rfl⟩ : ∃ m, steps = m + 1 := ⟨steps - 1, by omega⟩
  intro hall
  rw [forwardCalls, List.range_succ_eq_map, List.flatMap_cons, ← List.append_assoc,
    along_append] at hall
  have hfirst : Runs attnStep (LoadsEarly numMb) (fun _ => True)
      (prefillCalls numLayers 1 numMb ++ decodeStepCalls numLayers 1 numMb) (SentOnce numMb) :=
    sentOnce_first hn
  obtain ⟨hearly, t, ht, -⟩ := hfirst AttnState.start trivial
  have hmem : Call.loadHidden 1 0 ∈
      prefillCalls numLayers 1 numMb ++ decodeStepCalls numLayers 1 numMb :=
    List.mem_append_right _ (List.mem_cons_of_mem _ (loadHidden_mem.mpr ⟨by omega, hpos⟩))
  obtain ⟨u, hown, hsent⟩ := (hall.1.and hearly).exists_of_mem ht hmem
  obtain ⟨f, hf, hlayer⟩ := hsent rfl 0 hpos
  rw [FutureOwn, hf, Option.some.injEq] at hown
  rw [hown] at hlayer
  exact one_ne_zero hlayer

/-- Every layer of every decode step consumes the attention result computed for it just
when there are three micro-batches or more, or no second layer, or no decode step. -/
theorem futuresOwn_iff (hpos : 0 < numMb) :
    Along attnStep FutureOwn AttnState.start (forwardCalls numLayers 1 numMb steps) ↔
      3 ≤ numMb ∨ numLayers ≤ 1 ∨ steps = 0 := by
  constructor
  · intro hall
    by_contra hcond
    exact not_futures_of_short hpos (by omega) (by omega) (by omega) hall
  · intro hcond
    by_cases hrun : 0 < steps ∧ 0 < numLayers
    · refine futures_of_alone fun k hk => ?_
      rcases Nat.lt_or_ge 2 numMb with hn | hn
      · exact decodeStepCalls_of hn hrun.2 hk
      · obtain rfl : numLayers = 1 := by omega
        exact decodeStepCalls_of_one hn hk
    · -- Nothing is loaded at all.
      refine Along.of_forall fun s c hc => ?_
      cases c with
      | loadHidden i k =>
          obtain ⟨h1, h2, -⟩ := loadHidden_of_mem hc
          exact absurd ⟨h1, by omega⟩ hrun
      | _ => trivial

/-- Four micro-batches of a model of two layers. -/
theorem futuresOwn_four :
    Along attnStep FutureOwn AttnState.start (forwardCalls 2 1 4 3) :=
  (futuresOwn_iff (by decide)).mpr (Or.inl (by decide))

/-- A single request on a model of two layers: layer 1 of its decode step consumes the
attention result of layer 0. -/
theorem futuresOwn_single_request :
    ¬ ∀ numMb numLayers steps : ℕ, 0 < numMb →
      Along attnStep FutureOwn AttnState.start (forwardCalls numLayers 1 numMb steps) := fun hall =>
  not_futures_of_short (by decide) (by decide) le_rfl (by decide) (hall 1 2 1 (by decide))

end Coverage

end HarvestMoE
