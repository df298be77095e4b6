import HarvestMoE.Lib.Streams
import Mathlib.Order.BooleanAlgebra.Set

/-!
# Invariants of a clock

Two kinds of invariants decide what a clock orders. That a program is in order rests on
classes of tasks: the host, a stream or an event knows all tasks of a class. A
`ClassClock` keeps these classes and runs over the program like the clock does; what it
orders, the clock orders (`along_of_classes`). That a program is out of order rests on
one task that reaches neither the host nor the stream of a later launch: a set of
streams and events that have not seen the task stays so while nothing flows into the
set (`Unseen.run`).

## Main definitions

* `Classifies` — the classes a task needs cover the tasks it conflicts with.
* `ClassClock` — the classes that are known whole.
* `ClassOrdered` — the classes a launch needs are known.
* `ClassClock.run_start` — all is known until a task of a class is launched.
* `inOrder_of_classes` — a program whose launches are all ordered by classes.
* `Unseen`, `StreamCmd.Closed` — a task that streams and events have not seen, and
  the commands that do not show it to them.
* `Unseen.not_ordered` — a launch that should have seen the task.
-/

namespace Lib

variable {S E T κ : Type*}

/-- `cls` gives the class of a task and `need` the classes whose tasks come before it:
they cover the tasks it conflicts with. -/
def Classifies (cls : T → Option κ) (need : T → Set κ) (conflict : T → T → Prop) : Prop :=
  ∀ u t, conflict u t → ∃ x, cls u = some x ∧ x ∈ need t

/-- The classes of which the host, a stream or an event knows every task. -/
structure ClassClock (κ S E : Type*) where
  host : Set κ
  stream : S → Set κ
  event : E → Set κ

def ClassClock.start : ClassClock κ S E := ⟨Set.univ, fun _ => Set.univ, fun _ => Set.univ⟩

/-- A task of the class is new to all. -/
def ClassClock.forget (k : ClassClock κ S E) (x : Option κ) : ClassClock κ S E where
  host := k.host \ {y | x = some y}
  stream := fun s => k.stream s \ {y | x = some y}
  event := fun e => k.event e \ {y | x = some y}

@[simp] theorem ClassClock.forget_none (k : ClassClock κ S E) : k.forget none = k := by
  simp [forget, Set.sdiff_empty]

@[simp] theorem ClassClock.mem_forget_host {k : ClassClock κ S E} {x : Option κ} {y : κ} :
    y ∈ (k.forget x).host ↔ y ∈ k.host ∧ x ≠ some y := Iff.rfl

@[simp] theorem ClassClock.mem_forget_stream {k : ClassClock κ S E} {x : Option κ} {y : κ} {s : S} :
    y ∈ (k.forget x).stream s ↔ y ∈ k.stream s ∧ x ≠ some y := Iff.rfl

@[simp] theorem ClassClock.mem_forget_event {k : ClassClock κ S E} {x : Option κ} {y : κ} {e : E} :
    y ∈ (k.forget x).event e ↔ y ∈ k.event e ∧ x ≠ some y := Iff.rfl

variable [DecidableEq S] [DecidableEq E] {cls : T → Option κ}

/-- The classes after a command. -/
def ClassClock.next (cls : T → Option κ) (k : ClassClock κ S E) :
    StreamCmd S E T → ClassClock κ S E
  | .launch s t =>
      { k.forget (cls t) with
        stream := Function.update (k.forget (cls t)).stream s (k.host ∪ k.stream s) }
  | .record e s => { k with event := Function.update k.event e (k.stream s) }
  | .wait e s => { k with stream := Function.update k.stream s (k.stream s ∪ k.event e) }
  | .synchronize e => { k with host := k.host ∪ k.event e }
  | .drain s => { k with host := k.host ∪ k.stream s }

/-- The classes after the commands. -/
def ClassClock.run (cls : T → Option κ) (k : ClassClock κ S E) (cmds : List (StreamCmd S E T)) :
    ClassClock κ S E :=
  cmds.foldl (ClassClock.next cls) k

def classStep (cls : T → Option κ) (k : ClassClock κ S E) (cmd : StreamCmd S E T) :
    Option (ClassClock κ S E) :=
  some (k.next cls cmd)

/-- Draining a stream again adds nothing. -/
theorem ClassClock.run_drains (k : ClassClock κ S E) (s : S) (n : ℕ) :
    k.run cls (List.replicate (n + 1) (.drain s)) = { k with host := k.host ∪ k.stream s } := by
  induction n generalizing k with
  | zero => rfl
  | succ n ih =>
      rw [List.replicate_succ]
      refine (ih (k.next cls (.drain s))).trans ?_
      simp [next, Set.union_assoc]

/-- The host, or the stream of a launch, knows the classes that it needs. -/
def ClassOrdered (need : T → Set κ) (k : ClassClock κ S E) : StreamCmd S E T → Prop
  | .launch s t => need t ⊆ k.host ∪ k.stream s
  | _ => True

/-- The command launches no task of a class. -/
def StreamCmd.Unclassed (cls : T → Option κ) : StreamCmd S E T → Prop
  | .launch _ t => cls t = none
  | _ => True

/-- Until a task of a class is launched, all is known. -/
theorem ClassClock.run_start {cmds : List (StreamCmd S E T)} (h : ∀ cmd ∈ cmds, cmd.Unclassed cls) :
    (ClassClock.start : ClassClock κ S E).run cls cmds = ClassClock.start := by
  refine foldl_preserves (I := fun k : ClassClock κ S E => k = ClassClock.start) ?_ rfl
  rintro _ cmd hcmd rfl
  cases cmd with
  | launch s t =>
      have hnone : cls t = none := h _ hcmd
      simp [next, start, hnone]
  | record e s | wait e s | synchronize e | drain s => simp [next, start]

theorem ClassClock.along_start {need : T → Set κ} {cmds : List (StreamCmd S E T)}
    (h : ∀ cmd ∈ cmds, cmd.Unclassed cls) :
    Along (classStep cls) (ClassOrdered need) (ClassClock.start : ClassClock κ S E) cmds := by
  refine Along.of_split fun bs cmd cs k hsplit hk => ?_
  have hbs : ∀ cmd ∈ bs, cmd.Unclassed cls := fun b hb => h b (by simp [hsplit, hb])
  have hrun : ClassClock.start.run cls bs = k := Option.some.inj ((exec_total _ bs).symm.trans hk)
  obtain rfl : ClassClock.start = k := (ClassClock.run_start hbs).symm.trans hrun
  cases cmd with
  | launch s t => exact fun _ _ => .inl trivial
  | _ => trivial

/-- The set holds the tasks of the classes. -/
def HasClasses (cls : T → Option κ) (tasks : List T) (X : Set ℕ) (K : Set κ) : Prop :=
  ∀ (a : ℕ) t x, tasks[a]? = some t → cls t = some x → x ∈ K → a ∈ X

section HasClasses

variable {tasks : List T} {X Y : Set ℕ} {K L : Set κ}

theorem HasClasses.union (hX : HasClasses cls tasks X K) (hY : HasClasses cls tasks Y L) :
    HasClasses cls tasks (X ∪ Y) (K ∪ L) := by
  intro a t x ha hx hmem
  rcases hmem with hmem | hmem
  · exact .inl (hX a t x ha hx hmem)
  · exact .inr (hY a t x ha hx hmem)

/-- A new task is missing, and its class with it. -/
theorem HasClasses.forget (h : HasClasses cls tasks X K) (u : T) :
    HasClasses cls (tasks ++ [u]) X (K \ {y | cls u = some y}) := by
  intro a t x ha hx hmem
  rw [List.getElem?_append] at ha
  split_ifs at ha with hlt
  · exact h a t x ha hx hmem.1
  · obtain rfl : t = u := by simpa using List.mem_of_getElem? ha
    exact absurd hx hmem.2

/-- The stream of the new task has it. -/
theorem HasClasses.insert (h : HasClasses cls tasks X K) (u : T) :
    HasClasses cls (tasks ++ [u]) (insert tasks.length X) K := by
  intro a t x ha hx hmem
  rw [List.getElem?_append] at ha
  split_ifs at ha with hlt
  · exact .inr (h a t x ha hx hmem)
  · left
    have hend := (List.getElem?_eq_some_iff.mp ha).1
    simp only [List.length_singleton] at hend
    omega

end HasClasses

/-- The clock knows the classes. -/
structure StreamClock.Covers (cls : T → Option κ) (c : StreamClock S E T) (k : ClassClock κ S E) :
    Prop where
  host : HasClasses cls c.tasks c.host k.host
  stream : ∀ s, HasClasses cls c.tasks (c.stream s) (k.stream s)
  event : ∀ e, HasClasses cls c.tasks (c.event e) (k.event e)

section Covers

variable {need : T → Set κ} {conflict : T → T → Prop} {c : StreamClock S E T}
  {k : ClassClock κ S E}

omit [DecidableEq S] [DecidableEq E] in
theorem StreamClock.Covers.start :
    (StreamClock.start : StreamClock S E T).Covers cls ClassClock.start :=
  ⟨by simp [HasClasses, StreamClock.start], by simp [HasClasses, StreamClock.start],
    by simp [HasClasses, StreamClock.start]⟩

theorem StreamClock.Covers.next (h : c.Covers cls k) (cmd : StreamCmd S E T) :
    (c.next cmd).Covers cls (k.next cls cmd) := by
  cases cmd with
  | launch s t =>
      refine ⟨h.host.forget t, fun s' => ?_, fun e => (h.event e).forget t⟩
      by_cases hs : s' = s
      · subst hs
        simp only [StreamClock.next, ClassClock.next, Function.update_self]
        exact (h.host.union (h.stream s')).insert t
      · simp only [StreamClock.next, ClassClock.next, Function.update_of_ne hs]
        exact (h.stream s').forget t
  | record e s =>
      refine ⟨h.host, h.stream, fun e' => ?_⟩
      by_cases he : e' = e
      · subst he
        simp only [StreamClock.next, ClassClock.next, Function.update_self]
        exact h.stream s
      · simp only [StreamClock.next, ClassClock.next, Function.update_of_ne he]
        exact h.event e'
  | wait e s =>
      refine ⟨h.host, fun s' => ?_, h.event⟩
      by_cases hs : s' = s
      · subst hs
        simp only [StreamClock.next, ClassClock.next, Function.update_self]
        exact (h.stream s').union (h.event e)
      · simp only [StreamClock.next, ClassClock.next, Function.update_of_ne hs]
        exact h.stream s'
  | synchronize e => exact ⟨h.host.union (h.event e), h.stream, h.event⟩
  | drain s => exact ⟨h.host.union (h.stream s), h.stream, h.event⟩

omit [DecidableEq S] [DecidableEq E] in
/-- A launch that is ordered by classes is ordered by the clock. -/
theorem StreamClock.Covers.launchOrdered (h : c.Covers cls k)
    (hclass : Classifies cls need conflict) {cmd : StreamCmd S E T}
    (hcmd : ClassOrdered need k cmd) : LaunchOrdered conflict c cmd := by
  cases cmd with
  | launch s t =>
      intro a u hu hconflict
      obtain ⟨x, hx, hmem⟩ := hclass u t hconflict
      exact (h.host.union (h.stream s)) a u x hu hx (hcmd hmem)
  | _ => trivial

theorem along_of_classes (hclass : Classifies cls need conflict) {cmds : List (StreamCmd S E T)}
    (h : c.Covers cls k) (hcmds : Along (classStep cls) (ClassOrdered need) k cmds) :
    Along clockStep (LaunchOrdered conflict) c cmds := by
  induction cmds generalizing c k with
  | nil => trivial
  | cons cmd cmds ih =>
      refine ⟨h.launchOrdered hclass hcmds.1, fun c' hc' => ?_⟩
      obtain rfl : c.next cmd = c' := Option.some.inj hc'
      exact ih (h.next cmd) (hcmds.2 _ rfl)

/-- A program whose launches are ordered by classes keeps its conflicting tasks in
order. -/
theorem inOrder_of_classes (hclass : Classifies cls need conflict)
    {cmds : List (StreamCmd S E T)}
    (h : Along (classStep cls) (ClassOrdered need) ClassClock.start cmds) :
    InOrder conflict cmds :=
  inOrder_of_along (along_of_classes hclass StreamClock.Covers.start h)

end Covers

section Unseen

variable {c : StreamClock S E T} {a : ℕ} {Ss Ss' : Set S} {Es Es' : Set E}

/-- The task `a` has been launched, and neither the host nor the given streams and events
have seen it. -/
structure Unseen (a : ℕ) (Ss : Set S) (Es : Set E) (c : StreamClock S E T) : Prop where
  launched : a < c.tasks.length
  host : a ∉ c.host
  stream : ∀ s ∈ Ss, a ∉ c.stream s
  event : ∀ e ∈ Es, a ∉ c.event e

/-- The command moves nothing into the given streams and events from outside, and
nothing to the host. -/
def StreamCmd.Closed (Ss : Set S) (Es : Set E) : StreamCmd S E T → Prop
  | .launch _ _ => True
  | .record e s => e ∈ Es → s ∈ Ss
  | .wait e s => s ∈ Ss → e ∈ Es
  | .synchronize e => e ∈ Es
  | .drain s => s ∈ Ss

omit [DecidableEq S] [DecidableEq E] in
theorem Unseen.mono (h : Unseen a Ss Es c) (hs : Ss' ⊆ Ss) (he : Es' ⊆ Es) : Unseen a Ss' Es' c :=
  ⟨h.launched, h.host, fun s hmem => h.stream s (hs hmem), fun e hmem => h.event e (he hmem)⟩

/-- A new task is unseen but by its stream. -/
theorem Unseen.launch (h : c.Sane) (s : S) (t : T) :
    Unseen c.tasks.length {s' | s' ≠ s} Set.univ (c.next (.launch s t)) := by
  refine ⟨by simp [StreamClock.next], fun hn => ?_, fun s' hs hn => ?_, fun e _ hn => ?_⟩
  · exact (h.host _ hn).1.false
  · have hold : c.tasks.length ∈ c.stream s' := by
      simpa [StreamClock.next, Function.update_of_ne (Set.mem_ofPred_eq.mp hs)] using hn
    exact (h.stream s' _ hold).1.false
  · exact (h.event e _ hn).1.false

theorem Unseen.next (h : Unseen a Ss Es c) {cmd : StreamCmd S E T} (hcmd : cmd.Closed Ss Es) :
    Unseen a Ss Es (c.next cmd) := by
  cases cmd with
  | launch s t =>
      refine ⟨?_, h.host, fun s' hs' => ?_, h.event⟩
      · simp only [StreamClock.next, List.length_append]
        have := h.launched
        omega
      · by_cases hs : s' = s
        · subst hs
          have hne := h.launched.ne
          simp [StreamClock.next, hne, h.host, h.stream s' hs']
        · simpa [StreamClock.next, Function.update_of_ne hs] using h.stream s' hs'
  | record e s =>
      refine ⟨h.launched, h.host, h.stream, fun e' he' => ?_⟩
      by_cases he : e' = e
      · subst he
        simpa [StreamClock.next] using h.stream s (hcmd he')
      · simpa [StreamClock.next, Function.update_of_ne he] using h.event e' he'
  | wait e s =>
      refine ⟨h.launched, h.host, fun s' hs' => ?_, h.event⟩
      by_cases hs : s' = s
      · subst hs
        simpa [StreamClock.next, h.stream s' hs'] using h.event e (hcmd hs')
      · simpa [StreamClock.next, Function.update_of_ne hs] using h.stream s' hs'
  | synchronize e =>
      refine ⟨h.launched, ?_, h.stream, h.event⟩
      simpa [StreamClock.next, h.host] using h.event e hcmd
  | drain s =>
      refine ⟨h.launched, ?_, h.stream, h.event⟩
      simpa [StreamClock.next, h.host] using h.stream s hcmd

theorem Unseen.run {cmds : List (StreamCmd S E T)} (h : Unseen a Ss Es c)
    (hcmds : ∀ cmd ∈ cmds, cmd.Closed Ss Es) : Unseen a Ss Es (c.run cmds) :=
  foldl_preserves (fun _ cmd hcmd hc => hc.next (hcmds cmd hcmd)) h

/-- A launched task keeps its number. -/
theorem StreamClock.tasks_run (c : StreamClock S E T) (cmds : List (StreamCmd S E T)) {u : T}
    (ha : c.tasks[a]? = some u) : (c.run cmds).tasks[a]? = some u := by
  refine foldl_preserves (I := fun c : StreamClock S E T => c.tasks[a]? = some u) ?_ ha
  intro c cmd _ hc
  cases cmd with
  | launch s t =>
      have hlt := (List.getElem?_eq_some_iff.mp hc).1
      simpa [StreamClock.next, List.getElem?_append_left hlt] using hc
  | _ => exact hc

omit [DecidableEq S] [DecidableEq E] in
/-- A launch that conflicts with a task its stream has not seen is not ordered. -/
theorem Unseen.not_ordered {conflict : T → T → Prop} (h : Unseen a Ss Es c) {s : S} (hs : s ∈ Ss)
    {u t : T} (ha : c.tasks[a]? = some u) (hconflict : conflict u t) :
    ¬ LaunchOrdered conflict c (.launch s t) := by
  intro hordered
  rcases hordered a u ha hconflict with hseen | hseen
  · exact h.host hseen
  · exact h.stream s hs hseen

end Unseen

end Lib
