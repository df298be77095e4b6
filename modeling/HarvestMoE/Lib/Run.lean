import Mathlib.Data.List.Basic
import Mathlib.Data.List.Flatten
import Mathlib.Data.Set.Basic

/-!
# Straight-line runs of fallible actions

A host program is a list of actions; an action moves the machine to its next
state or raises, and an exception ends the run. `exec` is the run itself, `Along`
asserts a predicate of every action at the state it starts from, and `Runs` is
the triple the proofs are written in: from every state of the precondition the
whole list executes, meets its safety predicate all along, and ends in the
postcondition.

## Main definitions

* `exec step s as` — the final state, `none` once an action raises.
* `exec_accumulates` — the facts that the actions of a run bring about.
* `Along step P s as` — `P` holds of every action the run reaches.
* `reach step s as` — where a run gets to that may raise.
* `Always`, `EachStep` — states and steps of a run that cannot raise.
* `Runs step P pre as post` — total correctness with safety along the way.
* `Runs.loop`, `Runs.collect` — the rules for loops.
* `issued`, `issueStep` — actions that issue commands to another machine.
-/

namespace Lib

variable {σ α : Type*} {step : σ → α → Option σ} {P Q : σ → α → Prop}

/-- Execute the actions in order. -/
def exec (step : σ → α → Option σ) (s : σ) (as : List α) : Option σ := as.foldlM step s

@[simp] theorem exec_nil (s : σ) : exec step s [] = some s := rfl

@[simp] theorem exec_cons (s : σ) (a : α) (as : List α) :
    exec step s (a :: as) = (step s a).bind fun t => exec step t as := rfl

theorem exec_append (s : σ) (as bs : List α) :
    exec step s (as ++ bs) = (exec step s as).bind fun t => exec step t bs :=
  List.foldlM_append

/-- Actions that all go through, each of which brings about some facts and undoes none,
have brought about all of them in the end. -/
theorem exec_accumulates {β : Type*} {R : β → σ → Prop} (makes : α → Set β) (s : σ) {as : List α}
    (hstep : ∀ a ∈ as, ∀ s, ∃ t, step s a = some t ∧ (∀ b ∈ makes a, R b t) ∧
      ∀ b, R b s → R b t) :
    ∃ t, exec step s as = some t ∧ (∀ a ∈ as, ∀ b ∈ makes a, R b t) ∧ ∀ b, R b s → R b t := by
  induction as generalizing s with
  | nil => exact ⟨s, rfl, by simp, fun _ => id⟩
  | cons a as ih =>
      have ⟨u, hu, ha, hkeep⟩ := hstep a List.mem_cons_self s
      have ⟨t, ht, has, hkeep'⟩ := ih u fun a' ha' => hstep a' (List.mem_cons_of_mem _ ha')
      refine ⟨t, by rw [exec_cons, hu, Option.bind_some, ht], fun a' ha' b hb => ?_,
        fun b hb => hkeep' b (hkeep b hb)⟩
      cases ha' with
      | head => exact hkeep' b (ha b hb)
      | tail _ ha' => exact has a' ha' b hb

/-- `P` holds of every action of the run, at the state the action starts from. An
action that raises is the last one reached. -/
def Along (step : σ → α → Option σ) (P : σ → α → Prop) : σ → List α → Prop
  | _, [] => True
  | s, a :: as => P s a ∧ ∀ t, step s a = some t → Along step P t as

@[simp] theorem along_nil (s : σ) : Along step P s [] := trivial

@[simp] theorem along_cons (s : σ) (a : α) (as : List α) :
    Along step P s (a :: as) ↔ P s a ∧ ∀ t, step s a = some t → Along step P t as := Iff.rfl

theorem along_append (s : σ) (as bs : List α) :
    Along step P s (as ++ bs) ↔
      Along step P s as ∧ ∀ t, exec step s as = some t → Along step P t bs := by
  induction as generalizing s with
  | nil => simp
  | cons a as ih =>
      simp only [List.cons_append, along_cons, exec_cons, ih]
      constructor
      · rintro ⟨hP, h⟩
        refine ⟨⟨hP, fun t ht => (h t ht).1⟩, ?_⟩
        intro u hu
        obtain ⟨t, ht, hu⟩ := Option.bind_eq_some_iff.mp hu
        exact (h t ht).2 u hu
      · rintro ⟨⟨hP, h⟩, hbs⟩
        refine ⟨hP, fun t ht => ⟨h t ht, fun u hu => hbs u ?_⟩⟩
        rw [ht]
        exact hu

theorem Along.of_forall {s : σ} {as : List α} (h : ∀ s, ∀ a ∈ as, P s a) : Along step P s as := by
  induction as generalizing s with
  | nil => trivial
  | cons a as ih => exact ⟨h s a (by simp), fun t _ => ih fun s b hb => h s b (by simp [hb])⟩

theorem Along.imp {s : σ} {as : List α} (hP : Along step P s as)
    (h : ∀ s, ∀ a ∈ as, P s a → Q s a) : Along step Q s as := by
  induction as generalizing s with
  | nil => trivial
  | cons a as ih =>
      exact ⟨h s a (by simp) hP.1, fun t ht => ih (hP.2 t ht) fun s b hb => h s b (by simp [hb])⟩

theorem Along.and {s : σ} {as : List α} (hP : Along step P s as) (hQ : Along step Q s as) :
    Along step (fun s a => P s a ∧ Q s a) s as := by
  induction as generalizing s with
  | nil => trivial
  | cons a as ih => exact ⟨⟨hP.1, hQ.1⟩, fun t ht => ih (hP.2 t ht) (hQ.2 t ht)⟩

theorem Along.forall {ι : Type*} {p : ι → Prop} {R : ι → σ → α → Prop} {s : σ} {as : List α}
    (h : ∀ k, p k → Along step (R k) s as) : Along step (fun s a => ∀ k, p k → R k s a) s as := by
  induction as generalizing s with
  | nil => trivial
  | cons a as ih => exact ⟨fun k hk => (h k hk).1, fun t ht => ih fun k hk => (h k hk).2 t ht⟩

/-- An action in the middle of the run meets the predicate where it starts. -/
theorem Along.at {s t : σ} {as bs : List α} {a : α} (h : Along step P s (as ++ a :: bs))
    (ht : exec step s as = some t) : P t a :=
  (((along_append s as (a :: bs)).mp h).2 t ht).1

/-- The actions of a run that completes do not raise. -/
theorem exec_step {s t u : σ} {as bs : List α} {a : α} (h : exec step s (as ++ a :: bs) = some u)
    (ht : exec step s as = some t) : ∃ v, step t a = some v := by
  rw [exec_append, ht, Option.bind_some, exec_cons] at h
  obtain ⟨v, hv, -⟩ := Option.bind_eq_some_iff.mp h
  exact ⟨v, hv⟩

/-- A predicate holds along a run when it holds of every action that is reached. -/
theorem Along.of_split {s : σ} {as : List α}
    (h : ∀ bs a cs t, as = bs ++ a :: cs → exec step s bs = some t → P t a) : Along step P s as := by
  induction as generalizing s with
  | nil => trivial
  | cons a as ih =>
      refine ⟨h [] a as s rfl rfl, fun t ht => ih fun bs b cs u hsplit hu => ?_⟩
      refine h (a :: bs) b cs u (by rw [hsplit, List.cons_append]) ?_
      rw [exec_cons, ht]
      exact hu

/-- What holds along the image of a run under a map of its states holds along the run. -/
theorem Along.of_map {σ' : Type*} {step' : σ' → α → Option σ'} {R : σ' → α → Prop} {f : σ → σ'}
    (hstep : ∀ s a t, step s a = some t → step' (f s) a = some (f t))
    (hP : ∀ s a, R (f s) a → P s a) {s : σ} {as : List α} (h : Along step' R (f s) as) :
    Along step P s as := by
  induction as generalizing s with
  | nil => trivial
  | cons a as ih => exact ⟨hP s a h.1, fun t ht => ih (h.2 (f t) (hstep s a t ht))⟩

/-- Every action of a run that completes is reached: it meets the predicate in some
state. -/
theorem Along.exists_of_mem {s t : σ} {as : List α} {a : α} (h : Along step P s as)
    (ht : exec step s as = some t) (ha : a ∈ as) : ∃ u, P u a := by
  obtain ⟨bs, cs, rfl⟩ := List.append_of_mem ha
  rw [exec_append] at ht
  obtain ⟨u, hu, -⟩ := Option.bind_eq_some_iff.mp ht
  exact ⟨u, h.at hu⟩

/-- What every action of a run preserves holds at its end. -/
theorem exec_preserves {I : σ → Prop} {s t : σ} {as : List α}
    (hstep : ∀ s, ∀ a ∈ as, ∀ t, I s → step s a = some t → I t) (hs : I s)
    (ht : exec step s as = some t) : I t := by
  induction as generalizing s with
  | nil =>
      obtain rfl : s = t := by simpa using ht
      exact hs
  | cons a as ih =>
      obtain ⟨u, hu, ht⟩ := Option.bind_eq_some_iff.mp ht
      exact ih (fun s b hb => hstep s b (by simp [hb])) (hstep s a (by simp) u hs hu) ht

/-- A property that each step keeps where it is safe is kept by a safe run. -/
theorem Along.preserves {I : σ → Prop} {s t : σ} {as : List α} (h : Along step P s as)
    (hstep : ∀ s, ∀ a ∈ as, ∀ t, I s → P s a → step s a = some t → I t) (hs : I s)
    (ht : exec step s as = some t) : I t := by
  induction as generalizing s with
  | nil =>
      obtain rfl : s = t := by simpa using ht
      exact hs
  | cons a as ih =>
      obtain ⟨u, hu, ht⟩ := Option.bind_eq_some_iff.mp ht
      exact ih (h.2 u hu) (fun s b hb => hstep s b (by simp [hb])) (hstep s a (by simp) u hs h.1 hu)
        ht

/-- Where the run gets to: the last state, and whether every action was executed. -/
def reach (step : σ → α → Option σ) : σ → List α → σ × Bool
  | s, [] => (s, true)
  | s, a :: as =>
      match step s a with
      | some t => reach step t as
      | none => (s, false)

theorem reach_eq_true {s t : σ} {as : List α} :
    reach step s as = (t, true) ↔ exec step s as = some t := by
  induction as generalizing s with
  | nil => simp [reach]
  | cons a as ih =>
      simp only [reach, exec_cons]
      cases step s a with
      | none => simp
      | some u => simpa using ih

/-- A run that stops in its second part has executed the first. -/
theorem reach_append {s t : σ} {as bs : List α} (h : exec step s as = some t) :
    reach step s (as ++ bs) = reach step t bs := by
  induction as generalizing s with
  | nil =>
      obtain rfl : s = t := by simpa using h
      rfl
  | cons a as ih =>
      obtain ⟨u, hu, h⟩ := Option.bind_eq_some_iff.mp h
      simpa [reach, hu] using ih h

/-- What every successful action preserves holds where a run gets to. -/
theorem reach_preserves {I : σ → Prop} (hstep : ∀ s a t, I s → step s a = some t → I t) {s : σ}
    (as : List α) (hs : I s) : I (reach step s as).1 := by
  induction as generalizing s with
  | nil => exact hs
  | cons a as ih =>
      simp only [reach]
      cases ht : step s a with
      | none => exact hs
      | some t => exact ih (hstep s a t hs ht)

/-- A run gets to where it has executed its first actions. -/
theorem reach_prefix (step : σ → α → Option σ) (s : σ) (as : List α) :
    ∃ bs, bs <+: as ∧ exec step s bs = some (reach step s as).1 := by
  induction as generalizing s with
  | nil => exact ⟨[], List.nil_prefix, rfl⟩
  | cons a as ih =>
      simp only [reach]
      cases ht : step s a with
      | none => exact ⟨[], List.nil_prefix, rfl⟩
      | some t =>
          obtain ⟨bs, hbs, hexec⟩ := ih t
          refine ⟨a :: bs, List.cons_prefix_cons.mpr ⟨rfl, hbs⟩, ?_⟩
          rw [exec_cons, ht, Option.bind_some, hexec]

/-- Runs through `f` get to corresponding states when the actions correspond. -/
theorem reach_map {f : σ → σ} (hf : ∀ s a, step (f s) a = (step s a).map f) (s : σ) (as : List α) :
    reach step (f s) as = (f (reach step s as).1, (reach step s as).2) := by
  induction as generalizing s with
  | nil => rfl
  | cons a as ih =>
      simp only [reach, hf]
      cases step s a with
      | none => rfl
      | some t => exact ih t

/-- `I` holds of every state that a run of total steps goes through. -/
def Always (step : σ → α → σ) (I : σ → Prop) : σ → List α → Prop
  | s, [] => I s
  | s, a :: as => I s ∧ Always step I (step s a) as

theorem Always.last {step : σ → α → σ} {I : σ → Prop} {s : σ} {as : List α}
    (h : Always step I s as) : I (as.foldl step s) := by
  induction as generalizing s with
  | nil => exact h
  | cons a as ih => exact ih h.2

/-- `C` holds of every step of the run, at the state it starts from. -/
def EachStep (step : σ → α → σ) (C : σ → α → Prop) : σ → List α → Prop
  | _, [] => True
  | s, a :: as => C s a ∧ EachStep step C (step s a) as

/-- A condition that decides, under the invariant `J`, whether a step keeps `I`, decides
whether the run does. -/
theorem always_iff_eachStep {step : σ → α → σ} {I J : σ → Prop} {C : σ → α → Prop}
    (hJ : ∀ s a, J s → J (step s a)) (h : ∀ s a, J s → I s → (I (step s a) ↔ C s a)) {s : σ}
    (hs : J s) (hI : I s) (as : List α) : Always step I s as ↔ EachStep step C s as := by
  induction as generalizing s with
  | nil => simp [Always, EachStep, hI]
  | cons a as ih =>
      simp only [Always, EachStep, hI, true_and]
      constructor
      · intro hrun
        have hnext : I (step s a) := by
          cases as with
          | nil => exact hrun
          | cons b as => exact hrun.1
        exact ⟨(h s a hs hI).mp hnext, (ih (hJ s a hs) hnext).mp hrun⟩
      · rintro ⟨hC, hrun⟩
        exact (ih (hJ s a hs) ((h s a hs hI).mpr hC)).mpr hrun

/-- While `K` lasts `I` holds, and the first step that does not meet the condition ends both. -/
theorem always_iff_eachStep_of_kept {step : σ → α → σ} {I K : σ → Prop} {C : σ → α → Prop}
    (hI : ∀ s, K s → I s) (hkeep : ∀ s a, K s → C s a → K (step s a))
    (hbreak : ∀ s a, K s → ¬ C s a → ¬ I (step s a)) {s : σ} (hs : K s) (as : List α) :
    Always step I s as ↔ EachStep step C s as := by
  induction as generalizing s with
  | nil => simp [Always, EachStep, hI s hs]
  | cons a as ih =>
      simp only [Always, EachStep, hI s hs, true_and]
      by_cases hC : C s a
      · simp only [hC, true_and]
        exact ih (hkeep s a hs hC)
      · have hnext : ¬ Always step I (step s a) as := by
          intro hrun
          refine hbreak s a hs hC ?_
          cases as with
          | nil => exact hrun
          | cons b as => exact hrun.1
        simp only [hC, false_and, iff_false]
        exact hnext

/-- Under an invariant that the steps meeting `C` keep, what follows from `C` at one step
follows along the run. -/
theorem EachStep.imp {step : σ → α → σ} {C R : σ → α → Prop} {J : σ → Prop} {s : σ} {as : List α}
    (hC : EachStep step C s as) (hs : J s)
    (hJ : ∀ s, ∀ a ∈ as, J s → C s a → J (step s a))
    (h : ∀ s, ∀ a ∈ as, J s → C s a → R s a) : EachStep step R s as := by
  induction as generalizing s with
  | nil => trivial
  | cons a as ih =>
      refine ⟨h s a (by simp) hs hC.1, ih hC.2 (hJ s a (by simp) hs hC.1) ?_ ?_⟩
      · exact fun s b hb => hJ s b (by simp [hb])
      · exact fun s b hb => h s b (by simp [hb])

theorem eachStep_iff_split {step : σ → α → σ} {C : σ → α → Prop} {s : σ} {as : List α} :
    EachStep step C s as ↔
      ∀ bs a cs, as = bs ++ a :: cs → C (bs.foldl step s) a := by
  induction as generalizing s with
  | nil => simp [EachStep]
  | cons b as ih =>
      simp only [EachStep, ih]
      constructor
      · intro h bs a cs hsplit
        cases bs with
        | nil =>
            obtain ⟨rfl, rfl⟩ := List.cons.inj hsplit
            exact h.1
        | cons b' bs =>
            obtain ⟨rfl, rfl⟩ := List.cons.inj hsplit
            exact h.2 bs a cs rfl
      · intro h
        refine ⟨h [] b as rfl, fun bs a cs hsplit => ?_⟩
        exact h (b :: bs) a cs (by rw [hsplit, List.cons_append])

/-- The invariant rule for a run whose steps meet a condition. -/
theorem EachStep.always {step : σ → α → σ} {C : σ → α → Prop} {I J : σ → Prop} {s : σ}
    {as : List α} (hC : EachStep step C s as) (hs : J s)
    (hJ : ∀ s a, J s → C s a → J (step s a)) (hI : ∀ s, J s → I s) : Always step I s as := by
  induction as generalizing s with
  | nil => exact hI s hs
  | cons a as ih => exact ⟨hI s hs, ih hC.2 (hJ s a hs hC.1)⟩

theorem EachStep.and {step : σ → α → σ} {C D : σ → α → Prop} {s : σ} {as : List α}
    (hC : EachStep step C s as) (hD : EachStep step D s as) :
    EachStep step (fun s a => C s a ∧ D s a) s as := by
  induction as generalizing s with
  | nil => trivial
  | cons a as ih => exact ⟨⟨hC.1, hD.1⟩, ih hC.2 hD.2⟩

/-- What every step preserves holds at the end of a run of total steps. -/
theorem foldl_preserves {step : σ → α → σ} {I : σ → Prop} {s : σ} {as : List α}
    (hstep : ∀ s, ∀ a ∈ as, I s → I (step s a)) (hs : I s) : I (as.foldl step s) := by
  induction as generalizing s with
  | nil => exact hs
  | cons a as ih => exact ih (fun s b hb => hstep s b (by simp [hb])) (hstep s a (by simp) hs)

/-- A run seen through a map of its states and actions. -/
theorem exec_map {σ' α' : Type*} {step' : σ' → α' → Option σ'} {f : σ → σ'} {g : α' → α}
    (h : ∀ s a t, step s (g a) = some t → step' (f s) a = some (f t)) {s t : σ} {as : List α'}
    (ht : exec step s (as.map g) = some t) : exec step' (f s) as = some (f t) := by
  induction as generalizing s with
  | nil =>
      obtain rfl : s = t := by simpa using ht
      rfl
  | cons a as ih =>
      obtain ⟨u, hu, ht⟩ := Option.bind_eq_some_iff.mp ht
      rw [exec_cons, h s a u hu]
      exact ih ht

/-- From every state of `pre` the actions execute without raising, each meets
`safe` where it starts, and the last state satisfies `post`. -/
def Runs (step : σ → α → Option σ) (safe : σ → α → Prop) (pre : σ → Prop)
    (as : List α) (post : σ → Prop) : Prop :=
  ∀ s, pre s → Along step safe s as ∧ ∃ t, exec step s as = some t ∧ post t

namespace Runs

variable {pre mid post : σ → Prop}

theorem nil (h : ∀ s, pre s → post s) : Runs step P pre [] post :=
  fun s hs => ⟨trivial, s, rfl, h s hs⟩

/-- The rule for one action. -/
theorem single {a : α} (h : ∀ s, pre s → P s a ∧ ∃ t, step s a = some t ∧ post t) :
    Runs step P pre [a] post := by
  intro s hs
  obtain ⟨hP, t, ht, hpost⟩ := h s hs
  refine ⟨⟨hP, fun _ _ => trivial⟩, t, ?_, hpost⟩
  simp [ht]

theorem append {as bs : List α} (h₁ : Runs step P pre as mid) (h₂ : Runs step P mid bs post) :
    Runs step P pre (as ++ bs) post := by
  intro s hs
  obtain ⟨ha, t, ht, hmid⟩ := h₁ s hs
  obtain ⟨hb, u, hu, hpost⟩ := h₂ t hmid
  refine ⟨(along_append s as bs).mpr ⟨ha, ?_⟩, u, ?_, hpost⟩
  · intro t' ht'
    obtain rfl : t = t' := Option.some.inj (ht.symm.trans ht')
    exact hb
  · rw [exec_append, ht]
    exact hu

theorem cons {a : α} {as : List α} (h₁ : Runs step P pre [a] mid)
    (h₂ : Runs step P mid as post) : Runs step P pre (a :: as) post :=
  append h₁ h₂

theorem conseq {pre' post' : σ → Prop} {as : List α} (h : Runs step P pre as post)
    (hpre : ∀ s, pre' s → pre s) (hpost : ∀ s, post s → post' s) :
    Runs step P pre' as post' := by
  intro s hs
  obtain ⟨ha, t, ht, hp⟩ := h s (hpre s hs)
  exact ⟨ha, t, ht, hpost t hp⟩

/-- Actions that leave the state as it is. -/
theorem skip {as : List α} (h : ∀ a ∈ as, ∀ s, pre s → P s a ∧ step s a = some s) :
    Runs step P pre as pre := by
  induction as with
  | nil => exact nil fun _ hs => hs
  | cons a as ih =>
      refine cons (single fun s hs => ?_) (ih fun b hb => h b (by simp [hb]))
      obtain ⟨hP, hstep⟩ := h a (by simp) s hs
      exact ⟨hP, s, hstep, hs⟩

/-- The invariant rule for `for i in range(n)`: `I i` holds when iteration `i`
starts. -/
theorem loop {f : ℕ → List α} {I : ℕ → σ → Prop} (n : ℕ)
    (h : ∀ i, i < n → Runs step P (I i) (f i) (I (i + 1))) :
    Runs step P (I 0) ((List.range n).flatMap f) (I n) := by
  induction n with
  | zero => exact nil fun _ hs => hs
  | succ n ih =>
      rw [List.range_succ, List.flatMap_append, List.flatMap_singleton]
      exact append (ih fun i hi => h i (by omega)) (h n (by omega))

/-- The collecting rule: what every iteration adds to a set of facts, and does not
take away, the whole loop has added, in whatever order the iterations come. -/
theorem collect {β ι : Type*} {f : β → List α} {K : Set ι → σ → Prop} {new : β → Set ι}
    (xs : List β) (h : ∀ x ∈ xs, ∀ D, Runs step P (K D) (f x) (K (D ∪ new x))) (D : Set ι) :
    Runs step P (K D) (xs.flatMap f) (K (D ∪ {a | ∃ x ∈ xs, a ∈ new x})) := by
  induction xs generalizing D with
  | nil =>
      have hD : D ∪ {a | ∃ x ∈ ([] : List β), a ∈ new x} = D := by
        ext a
        simp
      rw [hD]
      exact nil fun _ hs => hs
  | cons x xs ih =>
      have hD : D ∪ {a | ∃ y ∈ x :: xs, a ∈ new y} = D ∪ new x ∪ {a | ∃ y ∈ xs, a ∈ new y} := by
        ext a
        simp [or_assoc]
      rw [hD, List.flatMap_cons]
      exact append (h x (by simp) D)
        (ih (fun y hy => h y (List.mem_cons_of_mem _ hy)) (D ∪ new x))

/-- Actions that keep an invariant, and meet the predicate under it. -/
theorem keep {as : List α} (h : ∀ s, ∀ a ∈ as, pre s → P s a ∧ ∃ t, step s a = some t ∧ pre t) :
    Runs step P pre as pre := by
  induction as with
  | nil => exact nil fun _ hs => hs
  | cons a as ih =>
      exact cons (single fun s hs => h s a (by simp) hs)
        (ih fun s b hb hs => h s b (by simp [hb]) hs)

end Runs

section Issue

variable {η β : Type*} (hostNext : η → α → η) (emit : η → α → List β) (next : σ → β → σ)
  {Q : σ → β → Prop}

/-- The commands that a list of actions issues, where what an action issues depends on
the state of the host. -/
def issued : η → List α → List β
  | _, [] => []
  | h, a :: as => emit h a ++ issued (hostNext h a) as

/-- An action moves the host, and the machine by the commands it issues. -/
def issueStep (s : η × σ) (a : α) : Option (η × σ) :=
  some (hostNext s.1 a, (emit s.1 a).foldl next s.2)

variable {hostNext emit next}

theorem exec_total (s : σ) (bs : List β) :
    exec (fun s b => some (next s b)) s bs = some (bs.foldl next s) := by
  induction bs generalizing s with
  | nil => rfl
  | cons b bs ih => exact ih (next s b)

/-- What holds of the commands of every action holds of all that are issued. -/
theorem forall_mem_issued {p : β → Prop} {h : η} {as : List α}
    (hemit : ∀ h, ∀ a ∈ as, ∀ b ∈ emit h a, p b) : ∀ b ∈ issued hostNext emit h as, p b := by
  induction as generalizing h with
  | nil => simp [issued]
  | cons a as ih =>
      intro b hb
      rcases List.mem_append.mp hb with hb | hb
      · exact hemit h a (by simp) b hb
      · exact ih (fun h a ha => hemit h a (by simp [ha])) b hb

/-- What holds along the commands holds along the commands of each action. -/
theorem along_issued {h : η} {s : σ} {as : List α} :
    Along (fun s b => some (next s b)) Q s (issued hostNext emit h as) ↔
      Along (issueStep hostNext emit next)
        (fun s a => Along (fun s b => some (next s b)) Q s.2 (emit s.1 a)) (h, s) as := by
  induction as generalizing h s with
  | nil => simp [issued]
  | cons a as ih =>
      simp only [issued, along_append, along_cons, exec_total, issueStep, Option.some.injEq,
        forall_eq', ih]

end Issue

end Lib
