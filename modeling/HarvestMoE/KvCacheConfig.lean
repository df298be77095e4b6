import HarvestMoE.Lib.PyNum
import HarvestMoE.PagedCapacity

/-!
# Updates of the KV cache configuration

`update_kv_cache_config` checks a field of the request and assigns it, then goes on to the next
field, and at last converts the size to bytes. Where it answers with an error it has assigned
the fields before the one that failed (`updateKvCacheConfig_unchanged_iff`).

## Main definitions

* `KvServerArgs`, `KvCacheConfigUpdateRequest` — the configuration, and what is sent.
* `updateField`, `updateKvCacheConfig` — one field, and the endpoint.
* `Rejects`, `Keeps` — what a request does with a field.
-/

namespace HarvestMoE

open Lib

variable {α : Type*}

/-- `x * 1024`. The product of a float by a power of two is exact as long as it is in range. -/
def times1024 : PyNum ℚ → PyNum ℚ
  | .fin x =>
      if |x * 1024| < 2 ^ 1024 then .fin (x * 1024) else if 0 < x then .posInf else .negInf
  | x => x

/-- `int(x)`, or the text of what it raises. -/
def pyInt : PyNum ℚ → Except String ℤ
  | .fin x => .ok (truncToInt x)
  | .posInf | .negInf => .error "cannot convert float infinity to integer"
  | .nan => .error "cannot convert float NaN to integer"

/-- The arguments of the server that are about the KV cache. -/
@[ext]
structure KvServerArgs where
  kvCacheSizeGb : PyNum ℚ
  kvBlockSize : ℤ
  usePagedKvCache : Bool
  kvCacheOverrideCapacity : Option ℤ
  deriving DecidableEq

structure KvCacheConfigUpdateRequest where
  kvCacheSizeGb : Option (PyNum ℚ)
  kvBlockSize : Option ℤ
  overrideCapacity : Option ℤ

structure KvCacheConfigResponse where
  kvCacheSizeGb : PyNum ℚ
  kvBlockSize : ℤ
  kvCacheSizeBytes : ℤ
  usePagedKvCache : Bool
  computedCapacity : Option ℤ
  overrideCapacity : Option ℤ
  message : String

structure HttpException where
  statusCode : ℕ
  detail : String
  deriving DecidableEq

/-- `int(server_args.kv_cache_size_gb * 1024 * 1024 * 1024)` -/
def kvCacheSizeBytes (size : PyNum ℚ) : Except String ℤ :=
  pyInt (times1024 (times1024 (times1024 size)))

def checkCacheSize (size : PyNum ℚ) : Option String :=
  if size.le (.int 0) then some "KV cache size must be positive" else none

def checkBlockSize (size : ℤ) : Option String :=
  if size ≤ 0 then some "KV block size must be positive"
  else if size.toNat &&& (size.toNat - 1) ≠ 0 then some "KV block size should be a power of 2"
  else none

def checkOverrideCapacity (capacity : ℤ) : Option String :=
  if capacity < 0 then some "Override capacity must be non-negative" else none

/-- A field that is given is checked and assigned. -/
def updateField (field : Option α) (check : α → Option String) (assign : α → KvServerArgs)
    (a : KvServerArgs) : Except HttpException KvServerArgs :=
  match field with
  | none => .ok a
  | some x =>
      match check x with
      | some detail => .error ⟨400, detail⟩
      | none => .ok (assign x)

namespace KvCacheConfigUpdateRequest

variable (request : KvCacheConfigUpdateRequest) (a : KvServerArgs)

def updateCacheSize : Except HttpException KvServerArgs :=
  updateField request.kvCacheSizeGb checkCacheSize (fun size => { a with kvCacheSizeGb := size }) a

def updateBlockSize : Except HttpException KvServerArgs :=
  updateField request.kvBlockSize checkBlockSize (fun size => { a with kvBlockSize := size }) a

def updateOverrideCapacity : Except HttpException KvServerArgs :=
  updateField request.overrideCapacity checkOverrideCapacity
    (fun capacity => { a with kvCacheOverrideCapacity := some capacity }) a

end KvCacheConfigUpdateRequest

/-- The answer to an update. -/
def KvServerArgs.response (a : KvServerArgs) (computedCap : Option ℤ) :
    Except HttpException KvCacheConfigResponse :=
  match kvCacheSizeBytes a.kvCacheSizeGb with
  | .error e => .error ⟨500, e⟩
  | .ok bytes => .ok
      { kvCacheSizeGb := a.kvCacheSizeGb
        kvBlockSize := a.kvBlockSize
        kvCacheSizeBytes := bytes
        usePagedKvCache := a.usePagedKvCache
        computedCapacity := computedCap
        overrideCapacity := a.kvCacheOverrideCapacity
        message := "KV cache configuration updated" ++
          if a.usePagedKvCache then " (Changes will apply to new sequences with paged KV cache)"
          else " (Note: Using default continuous buffer, changes stored but not actively used)" }

/-- `update_kv_cache_config`: the arguments of the server afterwards, and the answer. -/
def updateKvCacheConfig (computedCap : Option ℤ) (request : KvCacheConfigUpdateRequest) :
    Option KvServerArgs → Option KvServerArgs × Except HttpException KvCacheConfigResponse
  | none => (none, .error ⟨503, "Server not fully initialized"⟩)
  | some a =>
      match request.updateCacheSize a with
      | .error e => (some a, .error e)
      | .ok a =>
          match request.updateBlockSize a with
          | .error e => (some a, .error e)
          | .ok a =>
              match request.updateOverrideCapacity a with
              | .error e => (some a, .error e)
              | .ok a => (some a, a.response computedCap)

/-- The field is given, and is not accepted. -/
def Rejects (field : Option α) (check : α → Option String) : Prop :=
  ∃ x, field = some x ∧ (check x).isSome = true

/-- The field is not given, or has the value that is there. -/
def Keeps (field current : Option α) : Prop := ∀ x, field = some x → current = some x

section Field

variable {field : Option α} {check : α → Option String} {assign : α → KvServerArgs}
  {a : KvServerArgs}

theorem updateField_of_rejects (h : Rejects field check) :
    ∃ e, updateField field check assign a = .error e := by
  have ⟨x, hx, hcheck⟩ := h
  have ⟨detail, hdetail⟩ := Option.isSome_iff_exists.mp hcheck
  exact ⟨⟨400, detail⟩, by simp [updateField, hx, hdetail]⟩

/-- What is accepted is assigned. -/
theorem updateField_of_not_rejects (h : ¬ Rejects field check) :
    updateField field check assign a = .ok (field.elim a assign) := by
  cases field with
  | none => rfl
  | some x =>
      have hcheck : check x = none := by
        by_contra hsome
        exact h ⟨x, rfl, Option.isSome_iff_ne_none.mpr hsome⟩
      simp [updateField, hcheck]

theorem getD_eq_iff_keeps {x : α} : field.getD x = x ↔ Keeps field (some x) := by
  cases field with
  | none => simp [Keeps]
  | some y => simp [Keeps, eq_comm]

theorem or_eq_iff_keeps {current : Option α} :
    field.or current = current ↔ Keeps field current := by
  cases field with
  | none => simp [Keeps]
  | some y => simp [Keeps, eq_comm]

end Field

namespace KvCacheConfigUpdateRequest

variable (request : KvCacheConfigUpdateRequest) {a : KvServerArgs}

/-- The size is given, and is not positive. -/
def RejectsSize : Prop := Rejects request.kvCacheSizeGb checkCacheSize

/-- The block size is given, and is not positive or no power of two. -/
def RejectsBlock : Prop := Rejects request.kvBlockSize checkBlockSize

/-- The capacity is given, and is negative. -/
def RejectsOverride : Prop := Rejects request.overrideCapacity checkOverrideCapacity

/-- The size that there is afterwards has a number of bytes. -/
def Converts (a : KvServerArgs) : Prop :=
  ∃ bytes, kvCacheSizeBytes (request.kvCacheSizeGb.getD a.kvCacheSizeGb) = .ok bytes

def Accepts (a : KvServerArgs) : Prop :=
  ¬ request.RejectsSize ∧ ¬ request.RejectsBlock ∧ ¬ request.RejectsOverride ∧ request.Converts a

variable {request}

theorem updateCacheSize_of_rejects (h : request.RejectsSize) (a : KvServerArgs) :
    ∃ e, request.updateCacheSize a = .error e :=
  updateField_of_rejects h

theorem updateBlockSize_of_rejects (h : request.RejectsBlock) (a : KvServerArgs) :
    ∃ e, request.updateBlockSize a = .error e :=
  updateField_of_rejects h

theorem updateOverrideCapacity_of_rejects (h : request.RejectsOverride) (a : KvServerArgs) :
    ∃ e, request.updateOverrideCapacity a = .error e :=
  updateField_of_rejects h

theorem updateCacheSize_of_not (h : ¬ request.RejectsSize) : request.updateCacheSize a =
    .ok { a with kvCacheSizeGb := request.kvCacheSizeGb.getD a.kvCacheSizeGb } := by
  rw [updateCacheSize, updateField_of_not_rejects h]
  cases request.kvCacheSizeGb <;> rfl

theorem updateBlockSize_of_not (h : ¬ request.RejectsBlock) : request.updateBlockSize a =
    .ok { a with kvBlockSize := request.kvBlockSize.getD a.kvBlockSize } := by
  rw [updateBlockSize, updateField_of_not_rejects h]
  cases request.kvBlockSize <;> rfl

theorem updateOverrideCapacity_of_not (h : ¬ request.RejectsOverride) :
    request.updateOverrideCapacity a =
      .ok { a with
        kvCacheOverrideCapacity := request.overrideCapacity.or a.kvCacheOverrideCapacity } := by
  rw [updateOverrideCapacity, updateField_of_not_rejects h]
  cases request.overrideCapacity <;> rfl

end KvCacheConfigUpdateRequest

/-- The arguments with what a request gives. -/
def KvServerArgs.updated (a : KvServerArgs) (request : KvCacheConfigUpdateRequest) :
    KvServerArgs where
  kvCacheSizeGb := request.kvCacheSizeGb.getD a.kvCacheSizeGb
  kvBlockSize := request.kvBlockSize.getD a.kvBlockSize
  usePagedKvCache := a.usePagedKvCache
  kvCacheOverrideCapacity := request.overrideCapacity.or a.kvCacheOverrideCapacity

section Update

variable (computedCap : Option ℤ) {request : KvCacheConfigUpdateRequest} {a : KvServerArgs}

theorem update_of_rejectsSize (h : request.RejectsSize) :
    ∃ e, updateKvCacheConfig computedCap request (some a) = (some a, .error e) := by
  have ⟨e, he⟩ := request.updateCacheSize_of_rejects h a
  exact ⟨e, by simp only [updateKvCacheConfig, he]⟩

theorem update_of_rejectsBlock (hsize : ¬ request.RejectsSize) (h : request.RejectsBlock) :
    ∃ e, updateKvCacheConfig computedCap request (some a) =
      (some { a with kvCacheSizeGb := request.kvCacheSizeGb.getD a.kvCacheSizeGb }, .error e) := by
  have ⟨e, he⟩ := request.updateBlockSize_of_rejects h
    { a with kvCacheSizeGb := request.kvCacheSizeGb.getD a.kvCacheSizeGb }
  exact ⟨e, by simp only [updateKvCacheConfig, request.updateCacheSize_of_not hsize, he]⟩

theorem update_of_rejectsOverride (hsize : ¬ request.RejectsSize) (hblock : ¬ request.RejectsBlock)
    (h : request.RejectsOverride) :
    ∃ e, updateKvCacheConfig computedCap request (some a) =
      (some { a with
        kvCacheSizeGb := request.kvCacheSizeGb.getD a.kvCacheSizeGb
        kvBlockSize := request.kvBlockSize.getD a.kvBlockSize }, .error e) := by
  have ⟨e, he⟩ := request.updateOverrideCapacity_of_rejects h
    { a with
      kvCacheSizeGb := request.kvCacheSizeGb.getD a.kvCacheSizeGb
      kvBlockSize := request.kvBlockSize.getD a.kvBlockSize }
  exact ⟨e, by simp only [updateKvCacheConfig, request.updateCacheSize_of_not hsize,
    request.updateBlockSize_of_not hblock, he]⟩

/-- All fields are assigned before the size is converted. -/
theorem update_of_not_rejects (hsize : ¬ request.RejectsSize) (hblock : ¬ request.RejectsBlock)
    (hoverride : ¬ request.RejectsOverride) :
    updateKvCacheConfig computedCap request (some a) =
      (some (a.updated request), (a.updated request).response computedCap) := by
  simp only [updateKvCacheConfig, request.updateCacheSize_of_not hsize,
    request.updateBlockSize_of_not hblock, request.updateOverrideCapacity_of_not hoverride]
  rfl

theorem response_ok_iff : (∃ response, a.response computedCap = .ok response) ↔
    ∃ bytes, kvCacheSizeBytes a.kvCacheSizeGb = .ok bytes := by
  unfold KvServerArgs.response
  cases kvCacheSizeBytes a.kvCacheSizeGb <;> simp

/-- A successful update has assigned what it gives. -/
theorem update_ok_iff {b : Option KvServerArgs} :
    (∃ response, updateKvCacheConfig computedCap request (some a) = (b, .ok response)) ↔
      request.Accepts a ∧ b = some (a.updated request) := by
  by_cases hsize : request.RejectsSize
  · have ⟨e, he⟩ := update_of_rejectsSize (a := a) computedCap hsize
    simp [he, KvCacheConfigUpdateRequest.Accepts, hsize]
  by_cases hblock : request.RejectsBlock
  · have ⟨e, he⟩ := update_of_rejectsBlock (a := a) computedCap hsize hblock
    simp [he, KvCacheConfigUpdateRequest.Accepts, hblock]
  by_cases hoverride : request.RejectsOverride
  · have ⟨e, he⟩ := update_of_rejectsOverride (a := a) computedCap hsize hblock hoverride
    simp [he, KvCacheConfigUpdateRequest.Accepts, hoverride]
  have hresponse := response_ok_iff computedCap (a := a.updated request)
  simp only [update_of_not_rejects computedCap hsize hblock hoverride, Prod.mk.injEq,
    exists_and_left, hresponse, KvCacheConfigUpdateRequest.Accepts, hsize, hblock, hoverride,
    not_false_eq_true, true_and]
  rw [and_comm, eq_comm]
  rfl

end Update

/-- **When a rejected update changes nothing.** An update that fails leaves the arguments as they
are just when the fields before the one that is not accepted, or all of them if the size cannot
be converted, have the values that are there. -/
theorem updateKvCacheConfig_unchanged_iff (computedCap : Option ℤ)
    (request : KvCacheConfigUpdateRequest) (serverArgs : Option KvServerArgs) :
    let r := updateKvCacheConfig computedCap request serverArgs
    (∀ e, r.2 = .error e → r.1 = serverArgs) ↔ ∀ a, serverArgs = some a →
      request.Accepts a ∨ request.RejectsSize ∨
      Keeps request.kvCacheSizeGb (some a.kvCacheSizeGb) ∧
        (request.RejectsBlock ∨
        Keeps request.kvBlockSize (some a.kvBlockSize) ∧
          (request.RejectsOverride ∨
          Keeps request.overrideCapacity a.kvCacheOverrideCapacity)) := by
  intro r
  cases serverArgs with
  | none => simp [r, updateKvCacheConfig]
  | some a =>
      simp only [r, Option.some.injEq, forall_eq']
      by_cases hsize : request.RejectsSize
      · have ⟨e, he⟩ := update_of_rejectsSize (a := a) computedCap hsize
        simp [he, hsize]
      by_cases hblock : request.RejectsBlock
      · have ⟨e, he⟩ := update_of_rejectsBlock (a := a) computedCap hsize hblock
        simp [he, hsize, hblock, KvCacheConfigUpdateRequest.Accepts, ← getD_eq_iff_keeps,
          KvServerArgs.ext_iff]
      by_cases hoverride : request.RejectsOverride
      · have ⟨e, he⟩ := update_of_rejectsOverride (a := a) computedCap hsize hblock hoverride
        simp [he, hsize, hblock, hoverride, KvCacheConfigUpdateRequest.Accepts,
          ← getD_eq_iff_keeps, KvServerArgs.ext_iff]
      have hupdated : a.updated request = a ↔ Keeps request.kvCacheSizeGb (some a.kvCacheSizeGb) ∧
          Keeps request.kvBlockSize (some a.kvBlockSize) ∧
          Keeps request.overrideCapacity a.kvCacheOverrideCapacity := by
        simp [KvServerArgs.ext_iff, KvServerArgs.updated, ← or_eq_iff_keeps]
      have hok : request.Accepts a ↔
          ∃ response, (a.updated request).response computedCap = .ok response := by
        rw [response_ok_iff]
        simp only [KvCacheConfigUpdateRequest.Accepts, hsize, hblock, hoverride, not_false_eq_true,
          true_and]
        rfl
      rw [update_of_not_rejects computedCap hsize hblock hoverride, hok]
      simp only [hsize, hblock, hoverride, false_or, ← hupdated, Option.some.injEq]
      cases (a.updated request).response computedCap with
      | error e => simp
      | ok response => simp

/-- A new size beside a block size that is no power of two. -/
theorem updateKvCacheConfig_changed :
    ¬ ∀ (computedCap : Option ℤ) (request : KvCacheConfigUpdateRequest)
      (serverArgs : Option KvServerArgs) (e : HttpException),
      (updateKvCacheConfig computedCap request serverArgs).2 = .error e →
        (updateKvCacheConfig computedCap request serverArgs).1 = serverArgs := by
  intro h
  have hsame := h none ⟨some (.fin 8), some 48, none⟩ (some ⟨.fin 4, 16, true, none⟩)
    ⟨400, "KV block size should be a power of 2"⟩ rfl
  revert hsame
  decide

/-- The arguments of the server process, and the engine of the router process. -/
structure Deployment (cfg : EngineConfig) (κ : Type*) where
  serverArgs : KvServerArgs
  kvCacheOverrideCapacity : Option ℤ
  pagedKvCache : PagedEngine cfg κ

section Deployment

variable {κ : Type*} {cfg : EngineConfig}

/-- The router process gets a copy of the arguments, from which its engine takes the capacity. -/
def Deployment.launch (serverArgs : KvServerArgs) (pagedKvCache : PagedEngine cfg κ) :
    Deployment cfg κ :=
  ⟨serverArgs, serverArgs.kvCacheOverrideCapacity, pagedKvCache⟩

inductive DeploymentStep (cfg : EngineConfig) (κ : Type*)
  | update (computedCap : Option ℤ) (request : KvCacheConfigUpdateRequest)
  /-- Batches take blocks and give them back. -/
  | work (pagedKvCache : PagedEngine cfg κ)

/-- A step; nothing where the update is answered with an error. -/
def deploymentStep (d : Deployment cfg κ) : DeploymentStep cfg κ → Option (Deployment cfg κ)
  | .update computedCap request =>
      match updateKvCacheConfig computedCap request (some d.serverArgs) with
      | (some a, .ok _) => some { d with serverArgs := a }
      | _ => none
  | .work pagedKvCache => some { d with pagedKvCache := pagedKvCache }

/-- What `create_micro_batches` compares with. -/
def Deployment.capacity (d : Deployment cfg κ) : ℤ :=
  calculatePagedCacheCapacity d.kvCacheOverrideCapacity (some d.pagedKvCache)

/-- The capacity that was given last, at the launch or by an update. -/
def latestOverride (launch : Option ℤ) (steps : List (DeploymentStep cfg κ)) : Option ℤ :=
  steps.foldl (fun latest step =>
    match step with
    | .update _ request => request.overrideCapacity.or latest
    | .work _ => latest) launch

theorem latestOverride_ne_none {launch : Option ℤ} (steps : List (DeploymentStep cfg κ))
    (h : launch ≠ none) : latestOverride launch steps ≠ none := by
  refine foldl_preserves (I := fun latest => latest ≠ none) ?_ h
  intro latest step _ hlatest
  cases step with
  | update computedCap request => simp [hlatest]
  | work pagedKvCache => exact hlatest

/-- A positive capacity is meant as it is, and without one, or with 0, the computed capacity. -/
def OverrideMeans (latest : Option ℤ) (computed capacity : ℤ) : Prop :=
  (∀ c, latest = some c → 0 < c → capacity = c) ∧
    (latest = none ∨ latest = some 0 → capacity = computed)

/-- An update reaches the arguments of the server process, and nothing else. -/
theorem deploymentStep_update_iff {d t : Deployment cfg κ} {computedCap : Option ℤ}
    {request : KvCacheConfigUpdateRequest} :
    deploymentStep d (.update computedCap request) = some t ↔
      request.Accepts d.serverArgs ∧ t = { d with serverArgs := d.serverArgs.updated request } := by
  have hok : ∀ b, (∃ response,
      updateKvCacheConfig computedCap request (some d.serverArgs) = (b, .ok response)) ↔
        request.Accepts d.serverArgs ∧ b = some (d.serverArgs.updated request) :=
    fun b => update_ok_iff computedCap
  simp only [deploymentStep]
  cases hupdate : updateKvCacheConfig computedCap request (some d.serverArgs) with
  | mk b answer =>
      cases answer with
      | error e =>
          have hrejected : ¬ request.Accepts d.serverArgs := by
            intro h
            have ⟨_, hb⟩ := (hok _).mpr ⟨h, rfl⟩
            simp [hupdate] at hb
          cases b <;> simp [hrejected]
      | ok response =>
          have ⟨haccepts, hb⟩ := (hok b).mp ⟨response, hupdate⟩
          simp [hb, haccepts, eq_comm]

theorem deployment_exec {d t : Deployment cfg κ} {steps : List (DeploymentStep cfg κ)}
    (ht : exec deploymentStep d steps = some t) :
    t.serverArgs.kvCacheOverrideCapacity =
        latestOverride d.serverArgs.kvCacheOverrideCapacity steps ∧
      t.kvCacheOverrideCapacity = d.kvCacheOverrideCapacity := by
  induction steps generalizing d with
  | nil =>
      obtain rfl : d = t := by simpa using ht
      exact ⟨rfl, rfl⟩
  | cons step steps ih =>
      have ⟨u, hu, ht⟩ := Option.bind_eq_some_iff.mp ht
      have hrest := ih ht
      cases step with
      | update computedCap request =>
          rw [(deploymentStep_update_iff.mp hu).2] at hrest
          exact hrest
      | work pagedKvCache =>
          cases hu
          exact hrest

/-- **Updates do not reach the engine.** The engine works with the capacity of the launch. That
is what the latest capacity means just when the latest is the one of the launch where it is
positive, and the computed one is that of the launch where it is 0; or, without a capacity at
the launch, when no positive one has been given last, unless it is the computed one. -/
theorem capacity_override_iff (serverArgs : KvServerArgs) (pagedKvCache : PagedEngine cfg κ)
    (steps : List (DeploymentStep cfg κ)) {d : Deployment cfg κ}
    (hd : exec deploymentStep (.launch serverArgs pagedKvCache) steps = some d) :
    let latest := latestOverride serverArgs.kvCacheOverrideCapacity steps
    let computed : ℤ := min d.pagedKvCache.totalTokenCapacity cfg.rooflineLimit
    d.serverArgs.kvCacheOverrideCapacity = latest ∧
      (OverrideMeans latest computed d.capacity ↔
        match serverArgs.kvCacheOverrideCapacity with
        | none => ∀ c, latest = some c → 0 < c → c = computed
        | some launch =>
            (∀ c, latest = some c → 0 < c → c = launch) ∧
              (latest = some 0 → launch = computed)) := by
  intro latest computed
  have ⟨hargs, hengine⟩ := deployment_exec hd
  refine ⟨hargs, ?_⟩
  rw [Deployment.capacity, hengine, Deployment.launch]
  cases hlaunch : serverArgs.kvCacheOverrideCapacity with
  | none => simp [OverrideMeans, calculatePagedCacheCapacity, computed, eq_comm]
  | some launch =>
      have hsome : latest ≠ none := by
        simp only [latest, hlaunch]
        exact latestOverride_ne_none steps (Option.some_ne_none launch)
      simp [OverrideMeans, calculatePagedCacheCapacity, hsome, eq_comm]

/-- An update of the capacity alone. -/
theorem exec_updateOverride {d : Deployment cfg κ} {bytes c : ℤ} (hc : 0 ≤ c)
    (hbytes : kvCacheSizeBytes d.serverArgs.kvCacheSizeGb = .ok bytes)
    (steps : List (DeploymentStep cfg κ)) :
    exec deploymentStep d (.update none ⟨none, none, some c⟩ :: steps) =
      exec deploymentStep { d with
        serverArgs := { d.serverArgs with kvCacheOverrideCapacity := some c } } steps := by
  have haccepts : (⟨none, none, some c⟩ : KvCacheConfigUpdateRequest).Accepts d.serverArgs := by
    refine ⟨?_, ?_, ?_, bytes, hbytes⟩
    · simp [KvCacheConfigUpdateRequest.RejectsSize, Rejects]
    · simp [KvCacheConfigUpdateRequest.RejectsBlock, Rejects]
    · simp [KvCacheConfigUpdateRequest.RejectsOverride, Rejects, checkOverrideCapacity, hc]
  rw [exec_cons, deploymentStep_update_iff.mpr ⟨haccepts, rfl⟩]
  rfl

/-- The defaults, in paged mode. -/
def defaultKvArgs : KvServerArgs := ⟨.fin 4, 16, true, none⟩

theorem kvCacheSizeBytes_default :
    kvCacheSizeBytes defaultKvArgs.kvCacheSizeGb = .ok (4 * 1024 ^ 3) := by
  decide +kernel

/-- A capacity is given and taken back. -/
theorem capacity_override_cleared :
    ∃ d, exec deploymentStep (.launch defaultKvArgs fourBlocks)
        [.update none ⟨none, none, some 5⟩, .update none ⟨none, none, some 0⟩] = some d ∧
      OverrideMeans (some 0) 12 d.capacity := by
  have hrun : exec deploymentStep (.launch defaultKvArgs fourBlocks)
      [.update none ⟨none, none, some 5⟩, .update none ⟨none, none, some 0⟩] =
        some ⟨⟨.fin 4, 16, true, some 0⟩, none, fourBlocks⟩ := by
    rw [exec_updateOverride (by decide) kvCacheSizeBytes_default,
      exec_updateOverride (by decide) kvCacheSizeBytes_default]
    rfl
  refine ⟨_, hrun, (capacity_override_iff defaultKvArgs fourBlocks _ hrun).2.mpr ?_⟩
  intro c hc hpos
  cases hc
  cases hpos

/-- The capacity that an update gives is not the one of the engine. -/
theorem capacity_override_ignored :
    ¬ ∀ (cfg : EngineConfig) (serverArgs : KvServerArgs) (e : PagedEngine cfg ℕ)
      (steps : List (DeploymentStep cfg ℕ)) (d : Deployment cfg ℕ),
      exec deploymentStep (.launch serverArgs e) steps = some d →
        OverrideMeans (latestOverride serverArgs.kvCacheOverrideCapacity steps)
          (min d.pagedKvCache.totalTokenCapacity cfg.rooflineLimit : ℕ) d.capacity := by
  intro h
  have hmeans := h _ defaultKvArgs fourBlocks [.update none ⟨none, none, some 5⟩] _
    (exec_updateOverride (by decide) kvCacheSizeBytes_default [])
  exact absurd (hmeans.1 5 rfl (by decide)) (by decide)

end Deployment

end HarvestMoE
