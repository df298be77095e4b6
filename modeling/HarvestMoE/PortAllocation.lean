import Mathlib.Data.Finset.Card
import Mathlib.Data.List.Nodup
import Mathlib.Tactic.SplitIfs

/-!
# Ports of the launcher

`handle_port_init` keeps the requested ports that are free, draws as many as are missing, and
then takes out of those it has drawn the main port and the requested ones, without drawing
again. It gives a port twice that is requested twice. So the launcher gets its ports just when
the requested ones that it gets are distinct and the draws miss the ports that are taken
(`handlePortInit_delivers_iff`).

## Main definitions

* `findFreePort`, `allocatePortsWithRetry` — the search, over a stream of random draws.
* `handlePortInit` — the main port and the additional ports.
* `Delivers` — what the launcher relies on.
-/

namespace HarvestMoE

/-- `range(lo, hi)` -/
def portRange (lo hi : ℤ) : List ℤ := (List.range (hi - lo).toNat).map fun i : ℕ => lo + i

theorem mem_portRange {lo hi p : ℤ} : p ∈ portRange lo hi ↔ lo ≤ p ∧ p < hi := by
  simp only [portRange, List.mem_map, List.mem_range]
  constructor
  · intro ⟨i, hlt, hp⟩
    omega
  · intro ⟨hle, hlt⟩
    exact ⟨(p - lo).toNat, by omega, by omega⟩

section Search

variable (isPortFree : ℤ → Bool) (draws : ℕ → ℕ)

/-- `random.randint(lo, hi)`, the draw number `k`. -/
def randint (k : ℕ) (lo hi : ℤ) : ℤ := lo + draws k % (hi - lo + 1)

/-- The random part of the search, with the number of draws so far. -/
def randomSearch (startPort endPort : ℤ) (excludePorts : List ℤ) : ℕ → ℕ → Option ℤ × ℕ
  | 0, k => (none, k)
  | n + 1, k =>
      let port := randint draws k startPort endPort
      if port ∈ excludePorts then randomSearch startPort endPort excludePorts n (k + 1)
      else if isPortFree port then (some port, k + 1)
      else randomSearch startPort endPort excludePorts n (k + 1)

/-- `find_free_port` -/
def findFreePort (startPort endPort : ℤ) (excludePorts : List ℤ) (k : ℕ) : Option ℤ × ℕ :=
  match randomSearch isPortFree draws startPort endPort excludePorts 100 k with
  | (some port, k) => (some port, k)
  | (none, k) =>
      ((portRange startPort (endPort + 1)).find? fun port =>
        decide (port ∉ excludePorts) && isPortFree port, k)

/-- The loop of one attempt. -/
def allocatePorts (startPort endPort : ℤ) : ℕ → List ℤ → ℕ → Option (List ℤ) × ℕ
  | 0, allocatedPorts, k => (some allocatedPorts, k)
  | n + 1, allocatedPorts, k =>
      match findFreePort isPortFree draws startPort endPort allocatedPorts k with
      | (none, k) => (none, k)
      | (some port, k) => allocatePorts startPort endPort n (allocatedPorts ++ [port]) k

/-- `allocate_ports_with_retry`; nothing where it raises. -/
def allocatePortsWithRetry (numPorts : ℕ) (startPort endPort : ℤ) : ℕ → ℕ → Option (List ℤ) × ℕ
  | 0, k => (none, k)
  | retries + 1, k =>
      match allocatePorts isPortFree draws startPort endPort numPorts [] k with
      | (some ports, k) =>
          if ports.all isPortFree then (some ports, k)
          else allocatePortsWithRetry numPorts startPort endPort retries k
      | (none, k) => allocatePortsWithRetry numPorts startPort endPort retries k

/-- The main port, and the number of draws that it took. -/
def mainPort (port : ℤ) : ℤ × ℕ :=
  if isPortFree port then (port, 0)
  else
    match (portRange port (port + 100)).find? isPortFree with
    | some testPort => (testPort, 0)
    | none => (randint draws 0 30000 40000, 1)

/-- The fallback: free ports in order, until there are enough. -/
def allocateSequentially (numRequiredPorts : ℕ) : List ℤ → List ℤ → List ℤ → List ℤ
  | [], validPorts, _ => validPorts
  | p :: ps, validPorts, excludedPorts =>
      if p ∉ excludedPorts ∧ isPortFree p then
        if (validPorts ++ [p]).length ≥ numRequiredPorts then validPorts ++ [p]
        else allocateSequentially numRequiredPorts ps (validPorts ++ [p]) (excludedPorts ++ [p])
      else allocateSequentially numRequiredPorts ps validPorts excludedPorts

/-- `additional_ports` -/
inductive AdditionalPorts
  | none
  | one (port : ℤ)
  | list (ports : List ℤ)

def AdditionalPorts.toList : AdditionalPorts → List ℤ
  | .none => []
  | .one port => [port]
  | .list ports => ports

/-- The requested ports that can be used. -/
def validPorts (additionalPorts : AdditionalPorts) (port : ℤ) : List ℤ :=
  additionalPorts.toList.filter fun p => decide (p ≠ port) && isPortFree p

/-- `handle_port_init` -/
def handlePortInit (port : Option ℤ) (additionalPorts : AdditionalPorts) (tpSize : ℕ) :
    ℤ × List ℤ :=
  let (port, k) := mainPort isPortFree draws (port.getD 30000)
  let numRequiredPorts := 4 + tpSize
  let valid := validPorts isPortFree additionalPorts port
  if valid.length < numRequiredPorts then
    let numNeeded := numRequiredPorts - valid.length
    let excludedPorts := port :: valid
    match (allocatePortsWithRetry isPortFree draws numNeeded 10000 50000 3 k).1 with
    | some newPorts =>
        let newPorts := newPorts.filter fun p => decide (p ∉ excludedPorts)
        (port, (valid ++ newPorts.take numNeeded).take numRequiredPorts)
    | none =>
        let candidates := [10000, 20000, 30000, 40000].flatMap fun start =>
          portRange start (start + 10000)
        (port, (allocateSequentially isPortFree numRequiredPorts candidates valid
          excludedPorts).take numRequiredPorts)
  else (port, valid.take numRequiredPorts)

end Search

/-- There are ports for the four sockets and the ranks, distinct, free, and none the main port. -/
structure Delivers (isPortFree : ℤ → Bool) (tpSize : ℕ) (port : ℤ) (ports : List ℤ) : Prop where
  length : ports.length = 4 + tpSize
  nodup : ports.Nodup
  free : ∀ p ∈ ports, isPortFree p = true
  ne_main : port ∉ ports

/-- So many ports of the range that the search goes over are free. -/
def FreeInRange (isPortFree : ℤ → Bool) (n : ℕ) : Prop :=
  ∃ free : Finset ℤ, n ≤ free.card ∧ ∀ p ∈ free, 10000 ≤ p ∧ p ≤ 50000 ∧ isPortFree p = true

section Search

variable {isPortFree : ℤ → Bool} {draws : ℕ → ℕ} {startPort endPort : ℤ} {exclude : List ℤ}

theorem randomSearch_some {n k : ℕ} {port : ℤ}
    (h : (randomSearch isPortFree draws startPort endPort exclude n k).1 = some port) :
    port ∉ exclude ∧ isPortFree port = true := by
  induction n generalizing k with
  | zero => cases h
  | succ n ih =>
      simp only [randomSearch] at h
      split_ifs at h with hmem hfree
      · exact ih h
      · cases h
        exact ⟨hmem, hfree⟩
      · exact ih h

/-- A search that finds a port finds a new one that is free. -/
theorem findFreePort_some {k : ℕ} {port : ℤ}
    (h : (findFreePort isPortFree draws startPort endPort exclude k).1 = some port) :
    port ∉ exclude ∧ isPortFree port = true := by
  unfold findFreePort at h
  split at h
  next p _ hrandom =>
    cases h
    exact randomSearch_some (congrArg Prod.fst hrandom)
  next _ hrandom =>
    have hfound := List.find?_some h
    simpa using hfound

/-- A free port of the range that is not excluded is enough. -/
theorem findFreePort_isSome (draws : ℕ → ℕ) (k : ℕ) {p : ℤ} (hlo : startPort ≤ p)
    (hhi : p ≤ endPort) (hnew : p ∉ exclude) (hfree : isPortFree p = true) :
    (findFreePort isPortFree draws startPort endPort exclude k).1.isSome = true := by
  unfold findFreePort
  split
  next => rfl
  next =>
    refine List.find?_isSome.mpr ⟨p, mem_portRange.mpr ⟨hlo, by omega⟩, ?_⟩
    simp [hnew, hfree]

/-- Ports that an attempt has got so far: they are distinct and free. -/
structure Allocated (isPortFree : ℤ → Bool) (ports : List ℤ) : Prop where
  nodup : ports.Nodup
  free : ∀ p ∈ ports, isPortFree p = true

theorem Allocated.push {ports : List ℤ} {port : ℤ} (h : Allocated isPortFree ports)
    (hnew : port ∉ ports) (hfree : isPortFree port = true) :
    Allocated isPortFree (ports ++ [port]) where
  nodup := by
    refine List.nodup_append.mpr ⟨h.nodup, List.nodup_singleton port, fun p hp q hq heq => ?_⟩
    rw [List.mem_singleton.mp hq] at heq
    exact hnew (heq ▸ hp)
  free := by
    intro p hp
    rcases List.mem_append.mp hp with hp | hp
    · exact h.free p hp
    · rwa [List.mem_singleton.mp hp]

/-- There is a free port beside those that are excluded. -/
theorem FreeInRange.exists_new {n : ℕ} (h : FreeInRange isPortFree n) (exclude : List ℤ)
    (hlen : exclude.length < n) :
    ∃ p, p ∉ exclude ∧ 10000 ≤ p ∧ p ≤ 50000 ∧ isPortFree p = true := by
  have ⟨free, hcard, hfree⟩ := h
  have hlt : exclude.toFinset.card < free.card :=
    (List.toFinset_card_le exclude).trans_lt (hlen.trans_le hcard)
  have ⟨p, hp, hnot⟩ := Finset.exists_mem_notMem_of_card_lt_card hlt
  exact ⟨p, by simpa using hnot, hfree p hp⟩

/-- **An attempt gets the ports it asks for** when enough are free, whatever it draws. -/
theorem allocatePorts_spec (draws : ℕ → ℕ) {n : ℕ} {ports : List ℤ}
    (h : Allocated isPortFree ports) (hfree : FreeInRange isPortFree (ports.length + n)) (k : ℕ) :
    ∃ found, (allocatePorts isPortFree draws 10000 50000 n ports k).1 = some found ∧
      Allocated isPortFree found ∧ found.length = ports.length + n := by
  induction n generalizing ports k with
  | zero => exact ⟨ports, rfl, h, rfl⟩
  | succ n ih =>
      have ⟨p, hnew, hlo, hhi, hp⟩ := hfree.exists_new ports (by omega)
      have ⟨port, hport⟩ := Option.isSome_iff_exists.mp
        (findFreePort_isSome draws k hlo hhi hnew hp)
      have ⟨hnew, hfound⟩ := findFreePort_some hport
      simp only [allocatePorts]
      split
      next hnone => simp [hnone] at hport
      next q k' hsome =>
        obtain rfl : q = port := by simpa [hsome] using hport
        have ⟨found, hrun, halloc, hlen⟩ := ih (h.push hnew hfound)
          (by simpa [Nat.add_assoc, Nat.add_comm 1] using hfree) k'
        exact ⟨found, hrun, halloc, by simp at hlen; omega⟩

theorem FreeInRange.mono {m n : ℕ} (h : FreeInRange isPortFree n) (hle : m ≤ n) :
    FreeInRange isPortFree m := by
  have ⟨free, hcard, hfree⟩ := h
  exact ⟨free, hle.trans hcard, hfree⟩

/-- The first attempt is the last. -/
theorem allocatePortsWithRetry_spec (draws : ℕ → ℕ) {n : ℕ} (hfree : FreeInRange isPortFree n)
    (k : ℕ) : ∃ found,
      (allocatePortsWithRetry isPortFree draws n 10000 50000 3 k).1 = some found ∧
        Allocated isPortFree found ∧ found.length = n := by
  have hstart : Allocated isPortFree [] := ⟨List.nodup_nil, by simp⟩
  have hroom : FreeInRange isPortFree (([] : List ℤ).length + n) := by simpa using hfree
  have ⟨found, hrun, halloc, hlen⟩ := allocatePorts_spec draws hstart hroom k
  have hall : found.all isPortFree = true := List.all_eq_true.mpr halloc.free
  refine ⟨found, ?_, halloc, by simpa using hlen⟩
  rw [allocatePortsWithRetry]
  split
  next ports k' hsome =>
    obtain rfl : ports = found := by simpa [hsome] using hrun
    rw [if_pos hall]
  next hnone => simp [hnone] at hrun

theorem mem_validPorts {additionalPorts : AdditionalPorts} {port p : ℤ}
    (h : p ∈ validPorts isPortFree additionalPorts port) : p ≠ port ∧ isPortFree p = true := by
  simpa using (List.mem_filter.mp h).2

end Search

section Result

variable {isPortFree : ℤ → Bool} {tpSize : ℕ} {main : ℤ} {valid found : List ℤ}

/-- What is drawn takes the places that are left, as far as it is not excluded. -/
theorem take_append_filter (q : ℤ → Bool) (hlen : valid.length < 4 + tpSize)
    (hfound : found.length = 4 + tpSize - valid.length) :
    (valid ++ (found.filter q).take (4 + tpSize - valid.length)).take (4 + tpSize) =
      valid ++ found.filter q := by
  have hle : (found.filter q).length ≤ 4 + tpSize - valid.length :=
    (List.length_filter_le _ _).trans hfound.le
  have htotal : (valid ++ found.filter q).length ≤ 4 + tpSize := by
    rw [List.length_append]
    omega
  rw [List.take_of_length_le hle, List.take_of_length_le htotal]

theorem delivers_take_iff (hvalid : ∀ p ∈ valid, p ≠ main ∧ isPortFree p = true)
    (hlen : 4 + tpSize ≤ valid.length) :
    Delivers isPortFree tpSize main (valid.take (4 + tpSize)) ↔
      (valid.take (4 + tpSize)).Nodup := by
  have hmem : ∀ p ∈ valid.take (4 + tpSize), p ≠ main ∧ isPortFree p = true :=
    fun p hp => hvalid p (List.mem_of_mem_take hp)
  refine ⟨Delivers.nodup, fun hnodup => ?_⟩
  constructor
  case length => rw [List.length_take, min_eq_left hlen]
  case nodup => exact hnodup
  case free => exact fun p hp => (hmem p hp).2
  case ne_main => exact fun hp => (hmem main hp).1 rfl

/-- Ports that are drawn make up for what is missing if none of them is taken out again. -/
theorem delivers_append_iff (hvalid : ∀ p ∈ valid, p ≠ main ∧ isPortFree p = true)
    (halloc : Allocated isPortFree found) (hlen : valid.length + found.length = 4 + tpSize) :
    Delivers isPortFree tpSize main (valid ++ found.filter fun p => decide (p ∉ main :: valid)) ↔
      valid.Nodup ∧ ∀ p ∈ found, p ≠ main ∧ p ∉ valid := by
  constructor
  · intro h
    refine ⟨(List.nodup_append.mp h.nodup).1, ?_⟩
    have hcount := h.length
    rw [List.length_append, ← hlen] at hcount
    have hkept := List.length_filter_eq_length_iff.mp (Nat.add_left_cancel hcount)
    exact fun p hp => by simpa using hkept p hp
  · intro ⟨hnodup, hmiss⟩
    have hall : (found.filter fun p => decide (p ∉ main :: valid)) = found :=
      List.filter_eq_self.mpr fun p hp => by simpa using hmiss p hp
    rw [hall]
    constructor
    case length => rw [List.length_append, hlen]
    case nodup =>
      refine List.nodup_append.mpr ⟨hnodup, halloc.nodup, fun p hp q hq heq => ?_⟩
      exact (hmiss q hq).2 (heq ▸ hp)
    case free =>
      intro p hp
      exact (List.mem_append.mp hp).elim (fun hp => (hvalid p hp).2) (halloc.free p)
    case ne_main =>
      intro hp
      exact (List.mem_append.mp hp).elim (fun hp => (hvalid main hp).1 rfl)
        fun hp => (hmiss main hp).1 rfl

/-- **When the launcher gets its ports.** The requested ports that are free come first, and it
gets those of them that it takes just as they are. If they are not enough, the ports that the
search finds for the rest, over whatever is drawn, must be neither the main port nor requested. -/
theorem handlePortInit_delivers_iff (hfree : FreeInRange isPortFree (5 + tpSize))
    (draws : ℕ → ℕ) (port : Option ℤ) (additionalPorts : AdditionalPorts) :
    let main := mainPort isPortFree draws (port.getD 30000)
    let valid := validPorts isPortFree additionalPorts main.1
    let search := allocatePortsWithRetry isPortFree draws (4 + tpSize - valid.length) 10000 50000 3
    let r := handlePortInit isPortFree draws port additionalPorts tpSize
    r.1 = main.1 ∧ (Delivers isPortFree tpSize r.1 r.2 ↔ (valid.take (4 + tpSize)).Nodup ∧
      (4 + tpSize ≤ valid.length ∨
        ∀ found, (search main.2).1 = some found → ∀ p ∈ found, p ≠ main.1 ∧ p ∉ valid)) := by
  intro main valid search r
  have hvalid : ∀ p ∈ valid, p ≠ main.1 ∧ isPortFree p = true := fun p => mem_validPorts
  by_cases hlen : valid.length < 4 + tpSize
  · have hneeded : 4 + tpSize - valid.length ≤ 5 + tpSize := by omega
    have ⟨found, hfound, halloc, hlength⟩ :=
      allocatePortsWithRetry_spec draws (hfree.mono hneeded) main.2
    have hr : r = (main.1, valid ++ found.filter fun p => decide (p ∉ main.1 :: valid)) := by
      simp only [r, handlePortInit]
      rw [if_pos hlen, hfound]
      exact congrArg (Prod.mk main.1) (take_append_filter _ hlen hlength)
    rw [hr, delivers_append_iff hvalid halloc (by omega), List.take_of_length_le hlen.le]
    refine ⟨rfl, and_congr_right fun _ => ?_⟩
    constructor
    · intro hmiss
      right
      intro ports hports
      obtain rfl : found = ports := Option.some.inj (hfound.symm.trans hports)
      exact hmiss
    · intro hmiss
      exact hmiss.resolve_left (by omega) found hfound
  · have hr : r = (main.1, valid.take (4 + tpSize)) := by
      simp only [r, handlePortInit]
      exact if_neg hlen
    have hge : 4 + tpSize ≤ valid.length := by omega
    rw [hr, delivers_take_iff hvalid hge]
    exact ⟨rfl, fun hnodup => ⟨hnodup, Or.inl hge⟩, And.left⟩

/-- All ports from 1024 on are free. -/
def userPorts (port : ℤ) : Bool := decide (1024 ≤ port ∧ port ≤ 65535)

theorem freeInRange_userPorts : FreeInRange userPorts (5 + 1) :=
  ⟨{10000, 10001, 10002, 10003, 10004, 10005}, by decide, by decide⟩

/-- Two ports are requested, and the draws miss them. -/
theorem handlePortInit_delivers_drawn :
    let r := handlePortInit userPorts (fun k => k) (some 30000) (.list [20000, 20001]) 1
    Delivers userPorts 1 r.1 r.2 := by
  have h := handlePortInit_delivers_iff freeInRange_userPorts (fun k => k) (some 30000)
    (.list [20000, 20001])
  refine h.2.mpr ⟨by decide, Or.inr fun found hfound => ?_⟩
  obtain rfl : [10000, 10001, 10002] = found := Option.some.inj hfound
  decide

/-- The main port is drawn, and a port is missing. -/
theorem handlePortInit_short :
    ¬ ∀ (isPortFree : ℤ → Bool) (tpSize : ℕ) (draws : ℕ → ℕ) (port : Option ℤ)
      (additionalPorts : AdditionalPorts), 1 ≤ tpSize → FreeInRange isPortFree (5 + tpSize) →
      let r := handlePortInit isPortFree draws port additionalPorts tpSize
      Delivers isPortFree tpSize r.1 r.2 := by
  intro h
  have hdelivers := h userPorts 1 (fun k => 20000 + k) none .none (by decide) freeInRange_userPorts
  exact absurd hdelivers.length (by decide)

end Result

end HarvestMoE
