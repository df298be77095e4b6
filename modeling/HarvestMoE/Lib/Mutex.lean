import Mathlib.Data.Nat.Notation
import Mathlib.Logic.Function.Basic
import Mathlib.Tactic.SplitIfs

/-!
# Threads and a lock that is not reentrant

Threads run programs over data that one lock guards. A thread that asks for the lock while
anybody holds it, itself included, waits. So a thread that asks twice waits for itself:
nobody else gives the lock back, because nobody else gets it.

## Main definitions

* `LockOp`, `Threads`, `Threads.step`, `Threads.run` — programs and their schedules.
* `Bracketed`, `Threads.Disciplined` — who gives the lock back has asked for it.
* `Threads.Completes` — some schedule brings a thread to the end of its program.
* `Threads.completes_of_block`, `Threads.not_completes_of_reentry` — one block completes,
  a block that asks again does not.
-/

namespace Lib

variable {σ : Type*}

/-- What a thread does next. -/
inductive LockOp (σ : Type*)
  | acquire
  | release
  | act (f : σ → σ)

/-- The lock and its holder, the data, and what every thread has left to do. -/
structure Threads (σ : Type*) where
  owner : Option ℕ
  data : σ
  code : ℕ → List (LockOp σ)

namespace Threads

/-- Thread `i` is scheduled. It stays where it is when it has to wait. -/
def step (s : Threads σ) (i : ℕ) : Threads σ :=
  match s.code i with
  | [] => s
  | .acquire :: rest =>
      if s.owner = none then
        { s with
          owner := some i
          code := Function.update s.code i rest }
      else s
  | .release :: rest =>
      { s with
        owner := none
        code := Function.update s.code i rest }
  | .act f :: rest =>
      { s with
        data := f s.data
        code := Function.update s.code i rest }

def run (s : Threads σ) (schedule : List ℕ) : Threads σ := schedule.foldl step s

/-- Some schedule brings the thread to its end. -/
def Completes (s : Threads σ) (i : ℕ) : Prop := ∃ schedule, (s.run schedule).code i = []

end Threads

/-- Blocks that ask for the lock and give it back; `inside` says whether the program is in
one. What follows a second request in a block is never reached. -/
def Bracketed (inside : Prop) : List (LockOp σ) → Prop
  | [] => ¬ inside
  | .acquire :: rest => inside ∨ Bracketed True rest
  | .release :: rest => inside ∧ Bracketed False rest
  | .act _ :: rest => Bracketed inside rest

theorem bracketed_nil : Bracketed False ([] : List (LockOp σ)) := not_false

namespace Threads

variable {s : Threads σ} {i : ℕ}

/-- A thread advances only when it is scheduled. -/
theorem step_code_of_ne {j : ℕ} (h : i ≠ j) : (s.step j).code i = s.code i := by
  simp only [step]
  split
  · rfl
  · split_ifs
    · exact Function.update_of_ne h ..
    · rfl
  · exact Function.update_of_ne h ..
  · exact Function.update_of_ne h ..

/-- The thread that holds the lock is in a block, and no other is. -/
def Disciplined (s : Threads σ) : Prop := ∀ j, Bracketed (s.owner = some j) (s.code j)

theorem Disciplined.step (h : s.Disciplined) (i : ℕ) : (s.step i).Disciplined := by
  have hi := h i
  cases hcode : s.code i with
  | nil =>
      have hstay : s.step i = s := by simp only [Threads.step, hcode]
      rwa [hstay]
  | cons op rest =>
      rw [hcode] at hi
      cases op with
      | acquire =>
          by_cases hfree : s.owner = none
          · have hstep : s.step i =
                { s with
                  owner := some i
                  code := Function.update s.code i rest } := by
              simp only [Threads.step, hcode, hfree, if_true]
            rw [hstep]
            intro j
            by_cases hj : j = i
            · subst hj
              simpa [hfree, Bracketed] using hi
            · have hother := h j
              simp only [hfree, reduceCtorEq] at hother
              simpa [hj, Ne.symm hj] using hother
          · have hstay : s.step i = s := by simp only [Threads.step, hcode, hfree, if_false]
            rwa [hstay]
      | release =>
          have hstep : s.step i =
              { s with
                owner := none
                code := Function.update s.code i rest } := by
            simp only [Threads.step, hcode]
          rw [hstep]
          intro j
          by_cases hj : j = i
          · subst hj
            simpa using hi.2
          · have hother := h j
            have howner : s.owner = some i := hi.1
            simpa [howner, hj, Ne.symm hj] using hother
      | act f =>
          have hstep : s.step i =
              { s with
                data := f s.data
                code := Function.update s.code i rest } := by
            simp only [Threads.step, hcode]
          rw [hstep]
          intro j
          by_cases hj : j = i
          · subst hj
            simpa [Bracketed] using hi
          · simpa [hj] using h j

/-- The thread will ask for the lock while it holds it. -/
def Reenters (s : Threads σ) (i : ℕ) : Prop :=
  (s.owner ≠ some i ∧
      ∃ fs rest, s.code i = .acquire :: ((fs : List (σ → σ)).map .act ++ .acquire :: rest)) ∨
    (s.owner = some i ∧
      ∃ fs rest, s.code i = (fs : List (σ → σ)).map .act ++ .acquire :: rest)

/-- Whoever is scheduled, it still will. -/
theorem Reenters.step (h : s.Reenters i) (hdisciplined : s.Disciplined) (j : ℕ) :
    (s.step j).Reenters i := by
  by_cases hj : j = i
  · subst hj
    rcases h with ⟨howner, fs, rest, hcode⟩ | ⟨howner, fs, rest, hcode⟩
    · by_cases hfree : s.owner = none
      · right
        exact ⟨by simp [Threads.step, hcode, hfree], fs, rest,
          by simp [Threads.step, hcode, hfree]⟩
      · left
        have hstay : s.step j = s := by simp only [Threads.step, hcode, hfree, if_false]
        rw [hstay]
        exact ⟨howner, fs, rest, hcode⟩
    · right
      cases fs with
      | nil =>
          have hstay : s.step j = s := by simp [Threads.step, hcode, howner]
          rw [hstay]
          exact ⟨howner, [], rest, hcode⟩
      | cons f fs =>
          exact ⟨by simp [Threads.step, hcode, howner], fs, rest, by simp [Threads.step, hcode]⟩
  · have hkeep : (s.step j).code i = s.code i := step_code_of_ne (Ne.symm hj)
    have hblock := hdisciplined j
    rcases h with ⟨howner, hcode⟩ | ⟨howner, hcode⟩
    · left
      refine ⟨?_, hkeep ▸ hcode⟩
      simp only [Threads.step]
      split
      · exact howner
      · split_ifs
        · simpa using hj
        · exact howner
      · simp
      · exact howner
    · right
      refine ⟨?_, hkeep ▸ hcode⟩
      -- The others neither get the lock nor have it to give back.
      simp only [howner, Option.some.injEq, Ne.symm hj] at hblock
      simp only [Threads.step]
      split
      · exact howner
      · simp [howner]
      · next rest hcodej =>
          rw [hcodej] at hblock
          exact absurd hblock.1 not_false
      · exact howner

theorem Reenters.run (h : s.Reenters i) (hdisciplined : s.Disciplined) (schedule : List ℕ) :
    (s.run schedule).Reenters i := by
  induction schedule generalizing s with
  | nil => exact h
  | cons j schedule ih => exact ih (h.step hdisciplined j) (hdisciplined.step j)

/-- A thread that asks for the lock inside a block of its own does not complete. -/
theorem not_completes_of_reentry (hdisciplined : s.Disciplined) (h : s.Reenters i) :
    ¬ s.Completes i := by
  intro hcompletes
  have ⟨schedule, hend⟩ := hcompletes
  rcases h.run hdisciplined schedule with ⟨-, fs, rest, hcode⟩ | ⟨-, fs, rest, hcode⟩ <;>
    simp [hcode] at hend

/-- A block that does not ask again completes, if the lock is free. -/
theorem completes_of_block (hfree : s.owner = none) {fs : List (σ → σ)}
    (hcode : s.code i = .acquire :: (fs.map .act ++ [.release])) : s.Completes i := by
  have hacts : ∀ (fs : List (σ → σ)) (t : Threads σ), t.code i = fs.map .act ++ [.release] →
      t.Completes i := by
    intro fs
    induction fs with
    | nil => exact fun t ht => ⟨[i], by simp [run, step, ht]⟩
    | cons f fs ih =>
        intro t ht
        have ⟨schedule, hend⟩ := ih (t.step i) (by simp [step, ht])
        exact ⟨i :: schedule, hend⟩
  have ⟨schedule, hend⟩ := hacts fs (s.step i) (by simp [step, hcode, hfree])
  exact ⟨i :: schedule, hend⟩

end Threads

end Lib
