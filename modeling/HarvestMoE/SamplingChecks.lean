import HarvestMoE.TopPTopK
import Mathlib.Data.Rat.Floor
import Mathlib.Tactic.Linarith

/-!
# Checks of the sampling parameters

A client sends the arguments of `SamplingParams` as a dictionary. `generate_request` builds the
object, checks it with `verify` unless no new tokens are asked for, and forwards it. What is
forwarded is sampled with, checked or not, after `torch.tensor` has made 32-bit numbers of it.

## Main definitions

* `PyValue` — a value of the dictionary.
* `PySamplingParams` — `SamplingParams`, with its constructor, `normalize` and `verify`.
* `generateParams` — what `generate_request` forwards.
* `SamplesSafely` — parameters under which no row is divided by zero.
-/

namespace HarvestMoE

open Lib

variable {F : Type}

/-- A value, as it is read from JSON. -/
inductive PyValue (F : Type)
  | none
  | bool (b : Bool)
  | num (x : PyNum F)
  | str (s : String)
  | list (xs : List (PyValue F))
  | dict (items : List (String × PyValue F))

inductive PyError (F : Type)
  | typeError
  | indexError
  | assertionError
  /-- A text of `verify`, and the value behind it. -/
  | valueError (text : String) (got : PyValue F)
  /-- Whatever the tokenizer raises. -/
  | tokenizer (text : String)

namespace PyValue

variable [Field F]

/-- The number a value is in a comparison. -/
def number : PyValue F → Option (PyNum F)
  | .num x => some x
  | .bool b => some (.fin (if b then 1 else 0))
  | _ => .none

/-- The entry that `torch.tensor([value, ...]).view(-1, 1)` gets; a list of one entry only adds
a dimension. -/
def scalar : PyValue F → Option (PyNum F)
  | .list [v] => v.scalar
  | v => v.number

/-- A comparison with numbers. -/
def test (v : PyValue F) (cmp : PyNum F → Bool) : Except (PyError F) Bool :=
  match v.number with
  | some x => .ok (cmp x)
  | .none => .error .typeError

/-- `v == y`, which does not raise. -/
def isNum [LinearOrder F] (v : PyValue F) (y : F) : Bool :=
  v.number.any fun x => x.eq (.fin y)

/-- `for x in v` -/
def iter : PyValue F → Except (PyError F) (List (PyValue F))
  | .list xs => .ok xs
  | .dict items => .ok (items.map fun item => .str item.1)
  | .str s => .ok (s.toList.map fun c => .str c.toString)
  | _ => .error .typeError

end PyValue

/-- The fields of `SamplingParams`; `stop_str_max_len` is set by `normalize`. -/
structure PySamplingParams (F : Type) where
  maxNewTokens : PyValue F
  stopStrs : PyValue F
  temperature : PyValue F
  topP : PyValue F
  topK : PyValue F
  frequencyPenalty : PyValue F
  presencePenalty : PyValue F
  ignoreEos : PyValue F
  skipSpecialTokens : PyValue F
  dtype : PyValue F
  regex : PyValue F
  stopStrMaxLen : Option ℕ

/-- A keyword argument, or its default. -/
def keyword (items : List (String × PyValue F)) (name : String) (default : PyValue F) : PyValue F :=
  (items.lookup name).getD default

namespace PySamplingParams

variable [Field F] [LinearOrder F]

/-- `_SAMPLING_EPS`, the float nearest to `1e-6`. -/
def samplingEps : F := ((4722366482869645 : ℕ) : F) / ((2 ^ 72 : ℕ) : F)

def argNames : List String :=
  ["max_new_tokens", "stop", "temperature", "top_p", "top_k", "frequency_penalty",
    "presence_penalty", "ignore_eos", "skip_special_tokens", "dtype", "regex"]

/-- The arguments as they are given. -/
def ofArgs (items : List (String × PyValue F)) : PySamplingParams F where
  maxNewTokens := keyword items "max_new_tokens" (.num (.int 16))
  stopStrs := keyword items "stop" .none
  temperature := keyword items "temperature" (.num (.fin 1))
  topP := keyword items "top_p" (.num (.fin 1))
  topK := keyword items "top_k" (.num (.fin (-1)))
  frequencyPenalty := keyword items "frequency_penalty" (.num (.fin 0))
  presencePenalty := keyword items "presence_penalty" (.num (.fin 0))
  ignoreEos := keyword items "ignore_eos" (.bool false)
  skipSpecialTokens := keyword items "skip_special_tokens" (.bool true)
  dtype := keyword items "dtype" .none
  regex := keyword items "regex" .none
  stopStrMaxLen := none

/-- `dtype == "int"` stops at blanks. -/
def intStops (p : PySamplingParams F) : PySamplingParams F :=
  match p.dtype with
  | .str "int" => { p with stopStrs := .list [.str " ", .str "\n"] }
  | _ => p

/-- "Process some special cases". -/
def specialCases (p : PySamplingParams F) : Except (PyError F) (PySamplingParams F) := do
  let cold ← p.temperature.test fun x => x.lt (.fin samplingEps)
  let p := if cold then { p with temperature := .num (.fin 1), topK := .num (.fin 1) } else p
  let p := if p.topK.isNum (-1) then { p with topK := .num (.int (2 ^ 30)) } else p
  return p.intStops

/-- `SamplingParams(**items)` -/
def init (items : List (String × PyValue F)) : Except (PyError F) (PySamplingParams F) :=
  if items.all fun item => item.1 ∈ argNames then (ofArgs items).specialCases
  else .error .typeError

/-- A check of `verify`. -/
def require (got : PyValue F) (accepts : PyNum F → Bool) (text : String) :
    Except (PyError F) Unit := do
  let ok ← got.test accepts
  if ok then return () else throw (.valueError text got)

def verify (p : PySamplingParams F) : Except (PyError F) Unit := do
  require p.temperature (fun x => !x.lt (.fin 0)) "temperature must be non-negative, got"
  require p.topP (fun x => PyNum.lt (.fin 0) x && x.le (.fin 1)) "top_p must be in (0, 1], got"
  require p.topK (fun x => !(x.lt (.fin (-1)) || x.eq (.fin 0)))
    "top_k must be -1 (disable), or at least 1, got"
  require p.frequencyPenalty (fun x => PyNum.le (.int (-2)) x && x.le (.int 2))
    "frequency_penalty must be in [-2, 2], got"
  require p.presencePenalty (fun x => PyNum.le (.int (-2)) x && x.le (.int 2))
    "presence_penalty must be in [-2, 2], got"
  require p.maxNewTokens (fun x => !x.lt (.fin 0)) "max_new_tokens must be at least 0, got"

/-- `normalize`, with the tokenizer's `encode`. -/
def normalize (encode : PyValue F → Except (PyError F) (List ℕ)) (p : PySamplingParams F) :
    Except (PyError F) (PySamplingParams F) :=
  match p.stopStrs with
  | .none => return { p with stopStrs := .list [], stopStrMaxLen := some 0 }
  | stop => do
      let stop := match stop with
        | .str s => .list [.str s]
        | stop => stop
      let strs ← stop.iter
      let stopStrMaxLen ← strs.foldlM (fun longest s => do
        let ids ← encode s
        return max longest ids.length) 0
      return { p with stopStrs := stop, stopStrMaxLen := some stopStrMaxLen }

end PySamplingParams

section GenerateRequest

variable [Field F] [LinearOrder F]

/-- `text`: one, or several. -/
inductive TextArg
  | str (text : String)
  | list (texts : List String)

structure GenerateReqInput (F : Type) where
  text : TextArg
  samplingParams : PyValue F
  stream : Bool
  batch : Bool

/-- `post_init`, and the entry for one text after it. -/
def GenerateReqInput.entry (obj : GenerateReqInput F) (i : ℕ) : Option (PyValue F) :=
  match obj.text, obj.samplingParams with
  | .str _, .none => some (.dict [])
  | .str _, params => some params
  | .list texts, .none => (List.replicate texts.length (.dict []))[i]?
  | .list _, .list params => params[i]?
  | .list texts, params => (List.replicate texts.length params)[i]?

/-- `SamplingParams(**entry)`, and its checks, which are left out if no new tokens are asked
for. -/
def checkedParams (encode : PyValue F → Except (PyError F) (List ℕ)) :
    Option (PyValue F) → Except (PyError F) (PySamplingParams F)
  | some (.dict items) => do
      let p ← PySamplingParams.init items
      if p.maxNewTokens.isNum 0 then return p
      let p ← p.normalize encode
      p.verify
      return p
  | some _ => .error .typeError
  | none => .error .indexError

/-- One message for each entry, up to the first that raises. -/
def sendEach (encode : PyValue F → Except (PyError F) (List ℕ)) :
    List (Option (PyValue F)) → List (PySamplingParams F) × Option (PyError F)
  | [] => ([], none)
  | entry :: rest =>
      match checkedParams encode entry with
      | .error e => ([], some e)
      | .ok p => (p :: (sendEach encode rest).1, (sendEach encode rest).2)

/-- `generate_request`: the parameters in the messages to the router, and what it raises. A
batch has one message, with the first of the entries. -/
def generateParams (encode : PyValue F → Except (PyError F) (List ℕ)) (obj : GenerateReqInput F) :
    List (PySamplingParams F) × Option (PyError F) :=
  match obj.text with
  | .str _ => sendEach encode [obj.entry 0]
  | .list texts =>
      if obj.stream then ([], some .assertionError)
      else if obj.batch then sendEach encode [obj.entry 0]
      else sendEach encode ((List.range texts.length).map obj.entry)

end GenerateRequest

section Tensors

variable [Field F] [LinearOrder F]

/-- Half of the least positive float of 32 bits. -/
def halfTiny : F := 1 / ((2 ^ 150 : ℕ) : F)

theorem halfTiny_pos [IsStrictOrderedRing F] : (0 : F) < halfTiny := by
  unfold halfTiny
  positivity

/-- A float is rounded to the nearest one of 32 bits: it stays positive if and only if it is
more than half of the least positive one. -/
def RoundsToFloat32 (toFloat : PyNum F → Option (PyNum F)) : Prop :=
  ∀ x y, toFloat x = some y → PyNum.lt (.fin 0) y = PyNum.lt (.fin halfTiny) x

/-- A number is truncated toward zero; an infinity or `nan` raises. -/
def TruncatesToInt (toInt : PyNum F → Option ℤ) : Prop :=
  ∀ x k, toInt x = some k → ∃ q : F, x = .fin q ∧
    (0 ≤ q → (k : F) ≤ q ∧ q < k + 1) ∧ (q < 0 → (k : F) - 1 < q ∧ q ≤ k)

/-- Parameters under which the maximum of every row is positive behind the masks. -/
structure SamplesSafely (topP : PyNum F) (topK : ℤ) : Prop where
  topP_pos : PyNum.lt (.fin 0) topP = true
  one_le_topK : 1 ≤ topK
  kept_ne : ∀ sort, SortsDescending sort → ∀ probs, ProbabilityRow probs →
    unmasked (sortedRow sort probs) topP topK ≠ []
  max_pos : ∀ sort, SortsDescending sort → ∀ probs, ProbabilityRow probs →
    0 < rowMax (maskedRow (sortedRow sort probs) topP topK)

/-- Every row is safe if its parameters are in range. -/
theorem samplesSafely_iff {topP : PyNum F} {topK : ℤ} :
    SamplesSafely topP topK ↔ PyNum.lt (.fin 0) topP = true ∧ 1 ≤ topK := by
  constructor
  · intro h
    exact ⟨h.topP_pos, h.one_le_topK⟩
  · intro h
    have hfirst : topP.lt (.fin 0) = false := PyNum.lt_asymm h.1
    have hrow : ∀ sort, SortsDescending sort → ∀ probs : List F, ProbabilityRow probs →
        unmasked (sortedRow sort probs) topP topK ≠ [] ∧
          0 < rowMax (maskedRow (sortedRow sort probs) topP topK) := by
      intro sort hsort probs hprobs
      have hsrow := hprobs.sortedRow hsort
      have hsorted := hsort.sorted probs
      rw [← sortedRow] at hsorted
      cases hcons : sortedRow sort probs with
      | nil => exact absurd hcons hsrow.ne_nil
      | cons p rest =>
          rw [hcons] at hsrow hsorted
          constructor
          · apply List.ne_nil_of_mem (a := 0)
            rw [mem_unmasked]
            exact ⟨by simp, by simpa using hfirst, by omega⟩
          · rw [rowMax_maskedRow hsrow.nonneg hsorted hfirst h.2]
            exact hsrow.head_pos hsorted
    constructor
    case topP_pos => exact h.1
    case one_le_topK => exact h.2
    case kept_ne => exact fun sort hsort probs hprobs => (hrow sort hsort probs hprobs).1
    case max_pos => exact fun sort hsort probs hprobs => (hrow sort hsort probs hprobs).2

/-- The truncated value is at least 1 if and only if the value is. -/
theorem one_le_toInt_iff [IsStrictOrderedRing F] {toInt : PyNum F → Option ℤ}
    (hint : TruncatesToInt toInt) {x : PyNum F} {k : ℤ} (hk : toInt x = some k) :
    1 ≤ k ↔ PyNum.le (.fin 1) x = true := by
  have ⟨q, hq, hnonneg, hneg⟩ := hint x k hk
  rw [hq, PyNum.fin_le_fin, decide_eq_true_iff]
  rcases le_or_gt 0 q with h0 | h0
  · have ⟨hle, hlt⟩ := hnonneg h0
    constructor
    · intro hk
      exact le_trans (by exact_mod_cast hk) hle
    · intro hq
      have hcast : ((0 : ℤ) : F) < k := by
        have h1 := hq.trans_lt hlt
        push_cast
        linarith
      exact Int.cast_lt.mp hcast
  · have ⟨hlt, _⟩ := hneg h0
    constructor
    · intro hk
      have hcast : ((1 : ℤ) : F) ≤ k := Int.cast_le.mpr hk
      push_cast at hcast
      linarith
    · intro hq
      linarith

end Tensors

section Forwarded

variable [Field F]

theorem bind_eq_ok {ε α β : Type} {x : Except ε α} {f : α → Except ε β} {b : β} :
    (x >>= f) = .ok b ↔ ∃ a, x = .ok a ∧ f a = .ok b := by
  cases x with
  | error e => simp [bind, Except.bind]
  | ok a => simp [bind, Except.bind]

theorem test_eq_ok {v : PyValue F} {cmp : PyNum F → Bool} {b : Bool} :
    v.test cmp = .ok b ↔ ∃ x, v.number = some x ∧ cmp x = b := by
  unfold PyValue.test
  cases v.number with
  | none => simp
  | some x => simp

/-- A value that is compared is one that `torch.tensor` takes as it is. -/
theorem scalar_of_number {v : PyValue F} {x : PyNum F} (h : v.number = some x) :
    v.scalar = some x := by
  cases v with
  | num y => exact h
  | bool b => exact h
  | none => cases h
  | str s => cases h
  | list xs => cases h
  | dict items => cases h

variable [LinearOrder F]

namespace PySamplingParams

omit [LinearOrder F] in
theorem require_eq_ok {got : PyValue F} {accepts : PyNum F → Bool} {text : String} :
    require got accepts text = .ok () ↔ ∃ x, got.number = some x ∧ accepts x = true := by
  rw [require, bind_eq_ok]
  constructor
  · intro h
    have ⟨ok, htest, hok⟩ := h
    have ⟨x, hx, hcmp⟩ := test_eq_ok.mp htest
    cases ok with
    | false => cases hok
    | true => exact ⟨x, hx, hcmp⟩
  · intro h
    have ⟨x, hx, hcmp⟩ := h
    exact ⟨true, test_eq_ok.mpr ⟨x, hx, hcmp⟩, rfl⟩

/-- What passes has its ranges, and `top_k` is a number. -/
theorem verify_ranges {p : PySamplingParams F} (h : p.verify = .ok ()) {x y : PyNum F}
    (hx : p.topP.scalar = some x) (hy : p.topK.scalar = some y) :
    PyNum.lt (.fin 0) x = true ∧ p.topK.number = some y ∧ y.lt (.fin (-1)) = false := by
  rw [verify] at h
  have ⟨_, _, h⟩ := bind_eq_ok.mp h
  have ⟨_, htopP, h⟩ := bind_eq_ok.mp h
  have ⟨_, htopK, _⟩ := bind_eq_ok.mp h
  have ⟨x', hx', hrange⟩ := require_eq_ok.mp htopP
  have ⟨y', hy', hcheck⟩ := require_eq_ok.mp htopK
  obtain rfl : x' = x := Option.some.inj ((scalar_of_number hx').symm.trans hx)
  obtain rfl : y' = y := Option.some.inj ((scalar_of_number hy').symm.trans hy)
  simp only [Bool.and_eq_true, Bool.not_eq_true', Bool.or_eq_false_iff] at hrange hcheck
  exact ⟨hrange.1, hy', hcheck.1⟩

/-- The constructor sets `top_k` itself. -/
def setsTopK (p : PySamplingParams F) : Bool :=
  p.temperature.scalar.any (fun x => x.lt (.fin samplingEps)) || p.topK.isNum (-1)

/-- What the special cases leave, and what they make of `top_k`. -/
structure Constructed (p q : PySamplingParams F) : Prop where
  topP_eq : q.topP = p.topP
  maxNewTokens_eq : q.maxNewTokens = p.maxNewTokens
  topK_eq : p.setsTopK = false → q.topK = p.topK ∧ q.topK.isNum (-1) = false
  topK_set : p.setsTopK = true → ∃ n : F, q.topK = .num (.fin n) ∧ 1 ≤ n

omit [Field F] [LinearOrder F] in
theorem intStops_eq (p : PySamplingParams F) :
    p.intStops = { p with stopStrs := p.intStops.stopStrs } := by
  unfold intStops
  split <;> rfl

theorem constructed_of_ok [IsStrictOrderedRing F] {p q : PySamplingParams F}
    (h : p.specialCases = .ok q) : Constructed p q := by
  rw [specialCases] at h
  have ⟨cold, htest, h⟩ := bind_eq_ok.mp h
  have ⟨x, hx, hcold⟩ := test_eq_ok.mp htest
  have hsets : p.setsTopK = (cold || p.topK.isNum (-1)) := by
    rw [setsTopK, scalar_of_number hx, Option.any_some, hcold]
  have hq := (Except.ok.inj h).symm
  rw [intStops_eq] at hq
  have hne : (1 : F) ≠ -1 := by
    intro h
    linarith [zero_lt_one (α := F)]
  have hone : PyValue.isNum (.num (.fin (1 : F))) (-1) = false := by
    simp [PyValue.isNum, PyValue.number, PyNum.eq, hne]
  cases cold with
  | true =>
      constructor <;> simp [hq, hsets, hone]
  | false =>
      cases hK : p.topK.isNum (-1) with
      | true =>
          constructor <;> simp [hq, hsets, hK, PyNum.int]
      | false => constructor <;> simp [hq, hsets, hK]

omit [Field F] [LinearOrder F] in
theorem normalize_ok {encode : PyValue F → Except (PyError F) (List ℕ)}
    {p q : PySamplingParams F} (h : p.normalize encode = .ok q) :
    q = { p with stopStrs := q.stopStrs, stopStrMaxLen := q.stopStrMaxLen } := by
  unfold normalize at h
  split at h
  · exact (Except.ok.inj h) ▸ rfl
  · have ⟨strs, _, h⟩ := bind_eq_ok.mp h
    have ⟨stopStrMaxLen, _, h⟩ := bind_eq_ok.mp h
    exact (Except.ok.inj h) ▸ rfl

end PySamplingParams

variable [IsStrictOrderedRing F] {encode : PyValue F → Except (PyError F) (List ℕ)}
  {items : List (String × PyValue F)} {p : PySamplingParams F}

/-- What is forwarded is as it was constructed and, if it asks for new tokens, was checked. -/
theorem checkedParams_ok (h : checkedParams encode (some (.dict items)) = .ok p) :
    ∃ q, PySamplingParams.Constructed (.ofArgs items) q ∧ p.topP = q.topP ∧ p.topK = q.topK ∧
      (q.maxNewTokens.isNum 0 = false → p.verify = .ok ()) := by
  rw [checkedParams] at h
  have ⟨q, hinit, h⟩ := bind_eq_ok.mp h
  have hq : (PySamplingParams.ofArgs items).specialCases = .ok q := by
    rw [PySamplingParams.init] at hinit
    split_ifs at hinit
    exact hinit
  refine ⟨q, PySamplingParams.constructed_of_ok hq, ?_⟩
  cases hzero : q.maxNewTokens.isNum 0 with
  | true =>
      rw [hzero] at h
      obtain rfl := Except.ok.inj h
      exact ⟨rfl, rfl, fun h => by cases h⟩
  | false =>
      rw [hzero] at h
      have ⟨r, hr, h⟩ := bind_eq_ok.mp h
      have ⟨_, hverify, h⟩ := bind_eq_ok.mp h
      obtain rfl := Except.ok.inj h
      have hkeep := PySamplingParams.normalize_ok hr
      exact ⟨by rw [hkeep], by rw [hkeep], fun _ => hverify⟩

/-- Arguments with which every row is safe: without the checks in range, not so small that
`top_p` becomes zero, and no fraction that `top_k` loses. -/
structure SafeArgs (args : PySamplingParams F) : Prop where
  unchecked : args.maxNewTokens.isNum 0 = true →
    args.topP.scalar.any (fun x => PyNum.lt (.fin 0) x) = true ∧
      (args.setsTopK = true ∨ args.topK.scalar.any (fun x => PyNum.le (.fin 1) x) = true)
  not_tiny :
    args.topP.scalar.any (fun x => PyNum.lt (.fin 0) x && x.le (.fin halfTiny)) = false
  not_fraction : args.setsTopK = true ∨
    args.topK.scalar.any (fun x => PyNum.lt (.fin (-1)) x && x.lt (.fin 1)) = false

omit [IsStrictOrderedRing F] in
theorem lt_iff_not_tiny {c : F} (hc : 0 < c) (x : PyNum F) :
    PyNum.lt (.fin c) x = true ↔
      PyNum.lt (.fin 0) x = true ∧ (PyNum.lt (.fin 0) x && x.le (.fin c)) = false := by
  cases x with
  | fin x =>
      rw [PyNum.fin_lt_fin, PyNum.fin_lt_fin, PyNum.fin_le_fin]
      constructor
      · intro h
        have hc : c < x := of_decide_eq_true h
        simp [hc, hc.trans' ‹0 < c›]
      · intro h
        simpa [of_decide_eq_true h.1] using h.2
  | posInf => simp [PyNum.lt, PyNum.le, PyNum.eq]
  | negInf => simp [PyNum.lt]
  | nan => simp [PyNum.lt]

omit [IsStrictOrderedRing F] in
/-- What `verify` lets pass is at least 1 or a fraction. -/
theorem one_le_iff_not_fraction {y : F} (hlow : PyNum.lt (.fin y) (.fin (-1)) = false)
    (hdisable : PyNum.eq (.fin y) (.fin (-1)) = false) :
    PyNum.le (.fin 1) (.fin y) = true ↔
      (PyNum.lt (.fin (-1)) (.fin y) && PyNum.lt (.fin y) (.fin 1)) = false := by
  simp only [PyNum.fin_lt_fin, PyNum.fin_le_fin, PyNum.eq, decide_eq_false_iff_not, not_lt]
    at hlow hdisable ⊢
  have hlt : -1 < y := lt_of_le_of_ne hlow (Ne.symm hdisable)
  simp [hlt]

/-- The values that are forwarded are in range if and only if the arguments are safe. -/
theorem forwarded_iff_safeArgs (h : checkedParams encode (some (.dict items)) = .ok p)
    {x : PyNum F} (hx : p.topP.scalar = some x) {y : F} (hy : p.topK.scalar = some (.fin y)) :
    (PyNum.lt (.fin halfTiny) x = true ∧ PyNum.le (.fin 1) (.fin y) = true) ↔
      SafeArgs (.ofArgs items) := by
  have ⟨q, hq, htopP, htopK, hverify⟩ := checkedParams_ok h
  generalize PySamplingParams.ofArgs items = args at hq
  have hargs : args.topP.scalar = some x := by rw [← hq.topP_eq, ← htopP, hx]
  -- With the checks, the values have the ranges of `verify`.
  have hranges : args.maxNewTokens.isNum 0 = false → PyNum.lt (.fin 0) x = true ∧
      p.topK.number = some (.fin y) ∧ PyNum.lt (.fin y) (.fin (-1)) = false := by
    intro hchecked
    exact PySamplingParams.verify_ranges (hverify (hq.maxNewTokens_eq ▸ hchecked)) hx hy
  rw [lt_iff_not_tiny halfTiny_pos]
  constructor
  · intro h
    have hone : args.setsTopK = true ∨ args.topK.scalar = some (.fin y) := by
      cases hsets : args.setsTopK with
      | true => exact Or.inl rfl
      | false => exact Or.inr (by rw [← (hq.topK_eq hsets).1, ← htopK, hy])
    constructor
    case unchecked =>
      intro _
      refine ⟨by rw [hargs, Option.any_some, h.1.1], hone.imp_right fun hy => ?_⟩
      rw [hy, Option.any_some, h.2]
    case not_tiny => rw [hargs, Option.any_some, h.1.2]
    case not_fraction =>
      refine hone.imp_right fun hy => ?_
      have hle : (1 : F) ≤ y := by simpa using h.2
      rw [hy, Option.any_some]
      simp [hle]
  · intro h
    have htiny := h.not_tiny
    rw [hargs, Option.any_some] at htiny
    refine ⟨⟨?_, htiny⟩, ?_⟩
    · cases hzero : args.maxNewTokens.isNum 0 with
      | true => simpa [hargs] using (h.unchecked hzero).1
      | false => exact (hranges hzero).1
    · cases hsets : args.setsTopK with
      | true =>
          have ⟨n, hn, hone⟩ := hq.topK_set hsets
          rw [htopK, hn] at hy
          obtain rfl : n = y := by simpa [PyValue.scalar, PyValue.number] using hy
          simpa using hone
      | false =>
          have ⟨hkeep, hdisable⟩ := hq.topK_eq hsets
          cases hzero : args.maxNewTokens.isNum 0 with
          | true => simpa [hsets, ← hkeep, ← htopK, hy] using (h.unchecked hzero).2
          | false =>
              have ⟨_, hnum, hle⟩ := hranges hzero
              rw [PyValue.isNum, ← htopK, hnum, Option.any_some] at hdisable
              rw [one_le_iff_not_fraction hle hdisable]
              simpa [hsets, ← hkeep, ← htopK, hy] using h.not_fraction

omit [IsStrictOrderedRing F] in
/-- Each message is made from the entry at its place. -/
theorem getElem?_sendEach {entries : List (Option (PyValue F))} {i : ℕ}
    (h : (sendEach encode entries).1[i]? = some p) :
    ∃ entry, entries[i]? = some entry ∧ checkedParams encode entry = .ok p := by
  induction entries generalizing i with
  | nil => cases h
  | cons entry rest ih =>
      rw [sendEach] at h
      cases hcheck : checkedParams encode entry with
      | error e =>
          rw [hcheck] at h
          cases h
      | ok q =>
          rw [hcheck] at h
          cases i with
          | zero => exact ⟨entry, rfl, hcheck.trans (congrArg _ (Option.some.inj h))⟩
          | succ i => exact ih h

omit [IsStrictOrderedRing F] in
theorem getElem?_generateParams {obj : GenerateReqInput F} {i : ℕ}
    (h : (generateParams encode obj).1[i]? = some p) :
    checkedParams encode (obj.entry i) = .ok p := by
  have hone : ∀ {i : ℕ}, (sendEach encode [obj.entry 0]).1[i]? = some p →
      checkedParams encode (obj.entry i) = .ok p := by
    intro i h
    have ⟨entry, hentry, hcheck⟩ := getElem?_sendEach h
    rw [List.getElem?_singleton] at hentry
    split_ifs at hentry with hi
    rw [hi, Option.some.inj hentry, hcheck]
  rw [generateParams] at h
  split at h
  · exact hone h
  · split_ifs at h
    · cases h
    · exact hone h
    · have ⟨entry, hentry, hcheck⟩ := getElem?_sendEach h
      rw [List.getElem?_map] at hentry
      have ⟨j, hj, hji⟩ := Option.map_eq_some_iff.mp hentry
      have hij : i = j := by
        have ⟨_, hget⟩ := List.getElem?_eq_some_iff.mp hj
        simpa using hget
      rw [hij, hji, hcheck]

/-- Sampling is safe for what `generate_request` forwards if and only if the arguments are in
range, where they are not checked, and neither rounding nor truncation takes them out of it. -/
theorem forwarded_samplesSafely_iff {toFloat : PyNum F → Option (PyNum F)}
    {toInt : PyNum F → Option ℤ} (hfloat : RoundsToFloat32 toFloat) (hint : TruncatesToInt toInt)
    {obj : GenerateReqInput F} {i : ℕ} (hsent : (generateParams encode obj).1[i]? = some p)
    (hitems : obj.entry i = some (.dict items)) {topP : PyNum F} {topK : ℤ}
    (htopP : p.topP.scalar.bind toFloat = some topP)
    (htopK : p.topK.scalar.bind toInt = some topK) :
    SamplesSafely topP topK ↔ SafeArgs (.ofArgs items) := by
  have hcheck := getElem?_generateParams hsent
  rw [hitems] at hcheck
  have ⟨x, hx, hxp⟩ := Option.bind_eq_some_iff.mp htopP
  have ⟨y, hy, hyk⟩ := Option.bind_eq_some_iff.mp htopK
  have ⟨r, hr, _⟩ := hint y topK hyk
  rw [hr] at hy hyk
  rw [samplesSafely_iff, ← forwarded_iff_safeArgs hcheck hx hy, hfloat x topP hxp,
    one_le_toInt_iff hint hyk]

end Forwarded

section Rationals

/-- The rounding of `torch.tensor` below the least positive float. -/
def roundTiny : PyNum ℚ → Option (PyNum ℚ)
  | .fin x => some (.fin (if -halfTiny ≤ x ∧ x ≤ halfTiny then 0 else x))
  | x => some x

theorem roundTiny_rounds : RoundsToFloat32 roundTiny := by
  intro x y h
  cases x with
  | fin x =>
      rw [roundTiny, Option.some.injEq] at h
      rw [← h, PyNum.fin_lt_fin, PyNum.fin_lt_fin, decide_eq_decide]
      have hc : (0 : ℚ) < halfTiny := halfTiny_pos
      split_ifs with htiny
      · simpa using htiny.2
      · constructor
        · intro hx
          by_contra hle
          exact htiny ⟨by linarith, by linarith⟩
        · intro hx
          linarith
  | posInf => cases h; rfl
  | negInf => cases h; rfl
  | nan => cases h; rfl

/-- Truncation of the finite numbers. -/
def truncate : PyNum ℚ → Option ℤ
  | .fin x => some (if 0 ≤ x then ⌊x⌋ else ⌈x⌉)
  | _ => none

theorem truncate_truncates : TruncatesToInt truncate := by
  intro x k h
  cases x with
  | fin x =>
      rw [truncate, Option.some.injEq] at h
      refine ⟨x, rfl, ?_, ?_⟩
      · intro h0
        rw [← h, if_pos h0]
        exact ⟨Int.floor_le x, Int.lt_floor_add_one x⟩
      · intro h0
        rw [← h, if_neg (not_le.mpr h0)]
        exact ⟨by linarith [Int.ceil_lt_add_one x], Int.le_ceil x⟩
  | posInf => cases h
  | negInf => cases h
  | nan => cases h

/-- One prompt, as a batch, with some arguments. -/
def GenerateReqInput.one (items : List (String × PyValue ℚ)) : GenerateReqInput ℚ where
  text := .list ["a"]
  samplingParams := .dict items
  stream := false
  batch := true

/-- What `torch.tensor` makes of the first message. -/
def firstTensors (items : List (String × PyValue ℚ)) : Option (Option (PyNum ℚ) × Option ℤ) :=
  (generateParams (fun _ => .ok []) (.one items)).1[0]?.map fun p =>
    (p.topP.scalar.bind roundTiny, p.topK.scalar.bind truncate)

/-- Eight new tokens, with `top_p = 0.5` and `top_k = 50`. -/
theorem forwarded_samplesSafely_half : SamplesSafely (.fin (1 / 2 : ℚ)) 50 := by
  have htensors : firstTensors [("max_new_tokens", .num (.fin 8)), ("top_p", .num (.fin (1 / 2))),
      ("top_k", .num (.fin 50))] = some (some (.fin (1 / 2)), some 50) := by decide +kernel
  have ⟨p, hsent, hp⟩ := Option.map_eq_some_iff.mp htensors
  rw [Prod.mk.injEq] at hp
  have hiff := forwarded_samplesSafely_iff roundTiny_rounds truncate_truncates hsent rfl hp.1 hp.2
  apply hiff.mpr
  constructor
  case unchecked => decide +kernel
  case not_tiny => decide +kernel
  case not_fraction => decide +kernel

/-- No new tokens, and `top_k = 0`: nothing is checked, and every entry is masked. -/
theorem forwarded_unsafe :
    ¬ ∀ (obj : GenerateReqInput ℚ) (i : ℕ) (p : PySamplingParams ℚ),
      (generateParams (fun _ => .ok []) obj).1[i]? = some p →
      ∀ topP topK, p.topP.scalar.bind roundTiny = some topP →
        p.topK.scalar.bind truncate = some topK → SamplesSafely topP topK := by
  intro hall
  have htensors : firstTensors [("max_new_tokens", .num (.fin 0)), ("top_k", .num (.fin 0))] =
      some (some (.fin 1), some 0) := by decide +kernel
  have ⟨p, hsent, hp⟩ := Option.map_eq_some_iff.mp htensors
  rw [Prod.mk.injEq] at hp
  have hsafe := hall _ 0 p hsent _ _ hp.1 hp.2
  exact absurd hsafe.one_le_topK (by decide)

end Rationals

end HarvestMoE
