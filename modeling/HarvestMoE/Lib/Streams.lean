import HarvestMoE.Lib.Run
import Mathlib.Data.Set.Insert
import Mathlib.Logic.Function.Basic
import Mathlib.Logic.Relation

/-!
# Streams and events

A host enqueues tasks on streams. A stream executes its queue in order, and two
streams are ordered with one another by events alone: a wait refers to the latest
record of its event when it is enqueued. The host goes on at once, unless it waits for
an event or for a stream.

The machine interleaves the host and the streams in every possible way. What it may
do is decided by a clock that runs over the program once: the clock collects, for the
host, every stream and every event, the tasks that are behind them, and a task can run
before another exactly when the clock does not have that one in its past
(`inOrder_iff`).

## Main definitions

* `StreamCmd` — a command of the host.
* `StreamMachine`, `StreamStep` — host and streams, and their steps.
* `InOrder` — no task runs before an earlier one that it conflicts with is done.
* `StreamClock`, `clockStep` — the tasks behind the host, the streams and the events.
* `LaunchOrdered` — a launch has the earlier tasks it conflicts with in its past.
-/

namespace Lib

variable {S E T : Type*}

/-- A command of the host. -/
inductive StreamCmd (S E T : Type*)
  | launch (s : S) (t : T)
  | record (e : E) (s : S)
  | wait (e : E) (s : S)
  | synchronize (e : E)
  | drain (s : S)

/-- An entry of a queue. Tasks are numbered as they are launched, and the records of an
event from 1 on. -/
inductive QueueItem (E : Type*)
  | task (n : ℕ)
  | record (e : E) (v : ℕ)
  | wait (e : E) (v : ℕ)

/-- The host, with the commands it has still to issue, and the streams. -/
structure StreamMachine (S E T : Type*) where
  todo : List (StreamCmd S E T)
  tasks : List T
  queue : S → List (QueueItem E)
  version : E → ℕ
  /-- The records that have been executed. -/
  reached : Set (E × ℕ)
  /-- The tasks that have been executed. -/
  done : Set ℕ

/-- The machine before the first command. An event that was never recorded holds
nothing up. -/
def StreamMachine.start (cmds : List (StreamCmd S E T)) : StreamMachine S E T where
  todo := cmds
  tasks := []
  queue := fun _ => []
  version := fun _ => 0
  reached := {p | p.2 = 0}
  done := ∅

variable [DecidableEq S] [DecidableEq E]

namespace StreamMachine

/-- Append to the queue of a stream. -/
def enqueue (m : StreamMachine S E T) (s : S) (x : QueueItem E) : S → List (QueueItem E) :=
  Function.update m.queue s (m.queue s ++ [x])

end StreamMachine

/-- A step of the host, or of a stream. -/
inductive StreamStep : StreamMachine S E T → StreamMachine S E T → Prop
  | launch {m s t cs} (h : m.todo = .launch s t :: cs) : StreamStep m
      { m with
        todo := cs
        tasks := m.tasks ++ [t]
        queue := m.enqueue s (.task m.tasks.length) }
  | record {m e s cs} (h : m.todo = .record e s :: cs) : StreamStep m
      { m with
        todo := cs
        version := Function.update m.version e (m.version e + 1)
        queue := m.enqueue s (.record e (m.version e + 1)) }
  | wait {m e s cs} (h : m.todo = .wait e s :: cs) : StreamStep m
      { m with
        todo := cs
        queue := m.enqueue s (.wait e (m.version e)) }
  | synchronize {m e cs} (h : m.todo = .synchronize e :: cs)
      (hreached : (e, m.version e) ∈ m.reached) : StreamStep m { m with todo := cs }
  | drain {m s cs} (h : m.todo = .drain s :: cs) (hempty : m.queue s = []) :
      StreamStep m { m with todo := cs }
  | finish {m s n q} (h : m.queue s = .task n :: q) : StreamStep m
      { m with
        queue := Function.update m.queue s q
        done := insert n m.done }
  | reach {m s e v q} (h : m.queue s = .record e v :: q) : StreamStep m
      { m with
        queue := Function.update m.queue s q
        reached := insert (e, v) m.reached }
  | pass {m s e v q} (h : m.queue s = .wait e v :: q) (hreached : (e, v) ∈ m.reached) :
      StreamStep m { m with queue := Function.update m.queue s q }

/-- Whenever a task is at the head of its queue, so that it may be running, the tasks
launched before it that it conflicts with are done. -/
def InOrder (conflict : T → T → Prop) (cmds : List (StreamCmd S E T)) : Prop :=
  ∀ m, Relation.ReflTransGen StreamStep (StreamMachine.start cmds) m →
    ∀ s n q, m.queue s = .task n :: q → ∀ t, m.tasks[n]? = some t →
      ∀ a u, a < n → m.tasks[a]? = some u → conflict u t → a ∈ m.done

/-- The tasks behind the host, the streams and the latest record of each event. -/
structure StreamClock (S E T : Type*) where
  tasks : List T
  /-- The tasks that each task waits for. -/
  past : ℕ → Set ℕ
  host : Set ℕ
  stream : S → Set ℕ
  event : E → Set ℕ

def StreamClock.start : StreamClock S E T := ⟨[], fun _ => ∅, ∅, fun _ => ∅, fun _ => ∅⟩

/-- The clock after a command. -/
def StreamClock.next (c : StreamClock S E T) : StreamCmd S E T → StreamClock S E T
  | .launch s t =>
      { c with
        tasks := c.tasks ++ [t]
        past := Function.update c.past c.tasks.length (c.host ∪ c.stream s)
        stream := Function.update c.stream s (insert c.tasks.length (c.host ∪ c.stream s)) }
  | .record e s => { c with event := Function.update c.event e (c.stream s) }
  | .wait e s => { c with stream := Function.update c.stream s (c.stream s ∪ c.event e) }
  | .synchronize e => { c with host := c.host ∪ c.event e }
  | .drain s => { c with host := c.host ∪ c.stream s }

def clockStep (c : StreamClock S E T) (cmd : StreamCmd S E T) : Option (StreamClock S E T) :=
  some (c.next cmd)

/-- A launch has the earlier tasks that it conflicts with in its past. -/
def LaunchOrdered (conflict : T → T → Prop) (c : StreamClock S E T) : StreamCmd S E T → Prop
  | .launch s t => ∀ a u, c.tasks[a]? = some u → conflict u t → a ∈ c.host ∪ c.stream s
  | _ => True

section Sound

variable {conflict : T → T → Prop} {tasks : List T} {hist hist' : E → ℕ → Set ℕ} {done done' : Set ℕ}

/-- What is done once an entry has been executed; `hist` gives the tasks behind each
record of an event. -/
def afterItem (hist : E → ℕ → Set ℕ) (done : Set ℕ) : QueueItem E → Set ℕ
  | .task n => insert n done
  | .record _ _ => done
  | .wait e v => done ∪ hist e v

/-- What an entry needs is done: for a task, the earlier ones it conflicts with; for a
record, the tasks behind it. -/
def ItemOk (conflict : T → T → Prop) (tasks : List T) (hist : E → ℕ → Set ℕ) (done : Set ℕ) :
    QueueItem E → Prop
  | .task n => ∀ t, tasks[n]? = some t → ∀ a u, a < n → tasks[a]? = some u → conflict u t → a ∈ done
  | .record e v => hist e v ⊆ done
  | .wait _ _ => True

/-- Every entry of a queue comes when what it needs is done. -/
def QueueOk (conflict : T → T → Prop) (tasks : List T) (hist : E → ℕ → Set ℕ) :
    Set ℕ → List (QueueItem E) → Prop
  | _, [] => True
  | done, x :: q => ItemOk conflict tasks hist done x ∧
      QueueOk conflict tasks hist (afterItem hist done x) q

/-- The entry names a task that has been launched, or a record that has been issued. -/
def QueueItem.Issued (len : ℕ) (version : E → ℕ) : QueueItem E → Prop
  | .task n => n < len
  | .record e v | .wait e v => v ≤ version e

omit [DecidableEq E] in
theorem afterItem_mono (h : done ⊆ done') (x : QueueItem E) :
    afterItem hist done x ⊆ afterItem hist done' x := by
  cases x with
  | task n => exact Set.insert_subset_insert h
  | record e v => exact h
  | wait e v => exact Set.union_subset_union_left _ h

omit [DecidableEq E] in
theorem afterQueue_mono (h : done ⊆ done') (q : List (QueueItem E)) :
    q.foldl (afterItem hist) done ⊆ q.foldl (afterItem hist) done' := by
  induction q generalizing done done' with
  | nil => exact h
  | cons x q ih => exact ih (afterItem_mono h x)

omit [DecidableEq E] in
theorem subset_afterQueue (q : List (QueueItem E)) : done ⊆ q.foldl (afterItem hist) done := by
  induction q generalizing done with
  | nil => exact subset_rfl
  | cons x q ih =>
      have hitem : done ⊆ afterItem hist done x := by
        cases x with
        | task n => exact Set.subset_insert n done
        | record e v => exact subset_rfl
        | wait e v => exact Set.subset_union_left
      exact hitem.trans ih

omit [DecidableEq E] in
theorem ItemOk.mono {x : QueueItem E} (hx : ItemOk conflict tasks hist done x)
    (h : done ⊆ done') : ItemOk conflict tasks hist done' x := by
  cases x with
  | task n => exact fun t ht a u ha hu hc => h (hx t ht a u ha hu hc)
  | record e v => exact hx.trans h
  | wait e v => trivial

omit [DecidableEq E] in
theorem QueueOk.mono {q : List (QueueItem E)} (hq : QueueOk conflict tasks hist done q)
    (h : done ⊆ done') : QueueOk conflict tasks hist done' q := by
  induction q generalizing done done' with
  | nil => trivial
  | cons x q ih => exact ⟨hq.1.mono h, ih hq.2 (afterItem_mono h x)⟩

omit [DecidableEq E] in
theorem queueOk_append (q : List (QueueItem E)) (x : QueueItem E) :
    QueueOk conflict tasks hist done (q ++ [x]) ↔
      QueueOk conflict tasks hist done q ∧
        ItemOk conflict tasks hist (q.foldl (afterItem hist) done) x := by
  induction q generalizing done with
  | nil => simp [QueueOk]
  | cons y q ih => simp only [List.cons_append, QueueOk, ih, List.foldl_cons, and_assoc]

omit [DecidableEq E] in
theorem foldl_afterItem_append (q : List (QueueItem E)) (x : QueueItem E) :
    (q ++ [x]).foldl (afterItem hist) done = afterItem hist (q.foldl (afterItem hist) done) x := by
  rw [List.foldl_append, List.foldl_cons, List.foldl_nil]

omit [DecidableEq E] in
theorem afterItem_later {version : E → ℕ} {len : ℕ} {x : QueueItem E} (hx : x.Issued len version)
    (hhist : ∀ e v, v ≤ version e → hist' e v = hist e v) :
    afterItem hist' done x = afterItem hist done x := by
  cases x with
  | wait e v => exact congrArg (done ∪ ·) (hhist e v hx)
  | _ => rfl

omit [DecidableEq E] in
theorem ItemOk.later {version : E → ℕ} {x : QueueItem E} (more : List T)
    (hx : x.Issued tasks.length version) (hhist : ∀ e v, v ≤ version e → hist' e v = hist e v)
    (h : ItemOk conflict tasks hist done x) : ItemOk conflict (tasks ++ more) hist' done x := by
  cases x with
  | task n =>
      intro t ht a u ha hu hc
      rw [List.getElem?_append_left hx] at ht
      rw [List.getElem?_append_left (ha.trans hx)] at hu
      exact h t ht a u ha hu hc
  | record e v => exact (hhist e v hx).trans_subset h
  | wait e v => trivial

/-- A queue that is in order: its entries have been issued, each comes when what it needs
is done, and at its end the tasks behind its stream are done. -/
structure Fed (conflict : T → T → Prop) (hist : E → ℕ → Set ℕ) (tasks : List T) (version : E → ℕ)
    (done : Set ℕ) (q : List (QueueItem E)) (behind : Set ℕ) : Prop where
  issued : ∀ x ∈ q, x.Issued tasks.length version
  ok : QueueOk conflict tasks hist done q
  behind : behind ⊆ q.foldl (afterItem hist) done

namespace Fed

variable {version version' : E → ℕ} {q : List (QueueItem E)} {behind behind' : Set ℕ}

omit [DecidableEq E] in
theorem mono (h : Fed conflict hist tasks version done q behind) (hdone : done ⊆ done') :
    Fed conflict hist tasks version done' q behind :=
  ⟨h.issued, h.ok.mono hdone, h.behind.trans (afterQueue_mono hdone q)⟩

omit [DecidableEq E] in
theorem pop {x : QueueItem E} (h : Fed conflict hist tasks version done (x :: q) behind) :
    Fed conflict hist tasks version (afterItem hist done x) q behind :=
  ⟨fun y hy => h.issued y (by simp [hy]), h.ok.2, h.behind⟩

omit [DecidableEq E] in
theorem push (h : Fed conflict hist tasks version done q behind) {x : QueueItem E}
    (hx : x.Issued tasks.length version)
    (hok : ItemOk conflict tasks hist (q.foldl (afterItem hist) done) x)
    (hbehind : behind' ⊆ afterItem hist (q.foldl (afterItem hist) done) x) :
    Fed conflict hist tasks version done (q ++ [x]) behind' := by
  refine ⟨fun y hy => ?_, (queueOk_append q x).mpr ⟨h.ok, hok⟩, ?_⟩
  · rcases List.mem_append.mp hy with hy | hy
    · exact h.issued y hy
    · exact List.mem_singleton.mp hy ▸ hx
  · rwa [foldl_afterItem_append]

omit [DecidableEq E] in
/-- Entries that were issued do not see later tasks and records. -/
theorem later (more : List T) (hversion : ∀ e, version e ≤ version' e)
    (hhist : ∀ e v, v ≤ version e → hist' e v = hist e v)
    (h : Fed conflict hist tasks version done q behind) :
    Fed conflict hist' (tasks ++ more) version' done q behind := by
  obtain ⟨hissued, hok, hbehind⟩ := h
  suffices hq : QueueOk conflict (tasks ++ more) hist' done q ∧
      q.foldl (afterItem hist') done = q.foldl (afterItem hist) done by
    refine ⟨fun x hx => ?_, hq.1, hq.2 ▸ hbehind⟩
    have := hissued x hx
    cases x with
    | task n => exact Nat.lt_of_lt_of_le this (by simp)
    | record e v | wait e v => exact Nat.le_trans this (hversion e)
  clear hbehind
  induction q generalizing done with
  | nil => exact ⟨trivial, rfl⟩
  | cons x q ih =>
      have hx := hissued x (by simp)
      obtain ⟨hrest, heq⟩ := ih (fun y hy => hissued y (by simp [hy])) hok.2
      have hafter : afterItem hist' done x = afterItem hist done x := afterItem_later hx hhist
      refine ⟨⟨hok.1.later more hx hhist, hafter ▸ hrest⟩, ?_⟩
      rw [List.foldl_cons, List.foldl_cons, hafter, heq]

end Fed

/-- The clock of the commands issued so far explains the machine. -/
structure Tracks (conflict : T → T → Prop) (hist : E → ℕ → Set ℕ) (m : StreamMachine S E T)
    (c : StreamClock S E T) : Prop where
  tasks_eq : c.tasks = m.tasks
  host : c.host ⊆ m.done
  event : ∀ e, hist e (m.version e) = c.event e
  reached : ∀ e v, (e, v) ∈ m.reached → v ≤ m.version e ∧ hist e v ⊆ m.done
  fed : ∀ s, Fed conflict hist m.tasks m.version m.done (m.queue s) (c.stream s)
  ordered : Along clockStep (LaunchOrdered conflict) c m.todo

namespace Tracks

variable {m m' : StreamMachine S E T} {c : StreamClock S E T} {s : S} {e : E}
  {cs : List (StreamCmd S E T)}

/-- A stream executes the entry at the head of its queue. -/
theorem advance (h : Tracks conflict hist m c) {x : QueueItem E} {q : List (QueueItem E)}
    (hq : m.queue s = x :: q) {reached' : Set (E × ℕ)}
    (hreached : ∀ e v, (e, v) ∈ reached' → v ≤ m.version e ∧ hist e v ⊆ m.done)
    (hdone : afterItem hist m.done x = done') :
    Tracks conflict hist
      { m with queue := Function.update m.queue s q, reached := reached', done := done' } c := by
  have hsub : m.done ⊆ done' := by
    rw [← hdone]
    exact subset_afterQueue [x]
  refine ⟨h.tasks_eq, h.host.trans hsub, h.event,
    fun e v hv => ⟨(hreached e v hv).1, (hreached e v hv).2.trans hsub⟩, fun s' => ?_, h.ordered⟩
  by_cases hs : s' = s
  · subst hs
    have hpop := (hq ▸ h.fed s').pop
    simpa [hdone] using hpop
  · simpa [Function.update_of_ne hs] using (h.fed s').mono hsub

theorem launch (h : Tracks conflict hist m c) {t : T} (htodo : m.todo = .launch s t :: cs) :
    Tracks conflict hist
      { m with
        todo := cs
        tasks := m.tasks ++ [t]
        queue := m.enqueue s (.task m.tasks.length) } (c.next (.launch s t)) := by
  obtain ⟨hlaunch, hrest⟩ := htodo ▸ h.ordered
  have hlater : ∀ s', Fed conflict hist (m.tasks ++ [t]) m.version m.done (m.queue s') (c.stream s') :=
    fun s' => (h.fed s').later [t] (fun _ => le_rfl) fun _ _ _ => rfl
  have hpast : c.host ∪ c.stream s ⊆ (m.queue s).foldl (afterItem hist) m.done :=
    Set.union_subset (h.host.trans (subset_afterQueue _)) (h.fed s).behind
  refine ⟨?_, h.host, h.event, h.reached, fun s' => ?_, hrest _ rfl⟩
  · simp [StreamClock.next, h.tasks_eq]
  · by_cases hs : s' = s
    · subst hs
      simp only [StreamMachine.enqueue, StreamClock.next, Function.update_self]
      refine (hlater s').push ?_ (fun t' ht' a u ha hu hc => ?_) ?_
      · simp [QueueItem.Issued]
      · obtain rfl : t = t' := by simpa using ht'
        rw [List.getElem?_append_left ha, ← h.tasks_eq] at hu
        exact hpast (hlaunch a u hu hc)
      · rw [h.tasks_eq]
        exact Set.insert_subset_insert hpast
    · simpa [StreamMachine.enqueue, StreamClock.next, Function.update_of_ne hs] using hlater s'

/-- A new record is behind what its stream has been given. -/
theorem record (h : Tracks conflict hist m c) (htodo : m.todo = .record e s :: cs) :
    ∃ hist', Tracks conflict hist'
      { m with
        todo := cs
        version := Function.update m.version e (m.version e + 1)
        queue := m.enqueue s (.record e (m.version e + 1)) } (c.next (.record e s)) := by
  obtain ⟨-, hrest⟩ := htodo ▸ h.ordered
  let hist' : E → ℕ → Set ℕ := fun e' v =>
    if e' = e ∧ v = m.version e + 1 then c.stream s else hist e' v
  have hold : ∀ e' v, v ≤ m.version e' → hist' e' v = hist e' v := by
    intro e' v hv
    refine if_neg ?_
    rintro ⟨rfl, rfl⟩
    omega
  have hnew : hist' e (m.version e + 1) = c.stream s := if_pos ⟨rfl, rfl⟩
  have hle : ∀ e', m.version e' ≤ Function.update m.version e (m.version e + 1) e' := by
    intro e'
    by_cases he : e' = e
    · subst he
      simp
    · simp [Function.update_of_ne he]
  have hlater := fun s' => (h.fed s').later [] hle hold
  simp only [List.append_nil] at hlater
  refine ⟨hist', h.tasks_eq, h.host, fun e' => ?_, fun e' v hv => ?_, fun s' => ?_, hrest _ rfl⟩
  · by_cases he : e' = e
    · subst he
      simpa [StreamClock.next] using hnew
    · simp only [StreamClock.next, Function.update_of_ne he]
      exact (hold e' _ le_rfl).trans (h.event e')
  · obtain ⟨hv', hdone⟩ := h.reached e' v hv
    exact ⟨hv'.trans (hle e'), (hold e' v hv').trans_subset hdone⟩
  · by_cases hs : s' = s
    · subst hs
      simp only [StreamMachine.enqueue, StreamClock.next, Function.update_self]
      refine (hlater s').push ?_ ?_ (hlater s').behind
      · simp [QueueItem.Issued]
      · exact hnew.trans_subset (hlater s').behind
    · simpa [StreamMachine.enqueue, StreamClock.next, Function.update_of_ne hs] using hlater s'

theorem wait (h : Tracks conflict hist m c) (htodo : m.todo = .wait e s :: cs) :
    Tracks conflict hist
      { m with
        todo := cs
        queue := m.enqueue s (.wait e (m.version e)) } (c.next (.wait e s)) := by
  obtain ⟨-, hrest⟩ := htodo ▸ h.ordered
  refine ⟨h.tasks_eq, h.host, h.event, h.reached, fun s' => ?_, hrest _ rfl⟩
  by_cases hs : s' = s
  · subst hs
    simp only [StreamMachine.enqueue, StreamClock.next, Function.update_self]
    refine (h.fed s').push (Nat.le_refl _) trivial ?_
    exact Set.union_subset_union (h.fed s').behind (h.event e).ge
  · simpa [StreamMachine.enqueue, StreamClock.next, Function.update_of_ne hs] using h.fed s'

/-- Every step of the machine is explained by the clock. -/
theorem step (h : Tracks conflict hist m c) (hstep : StreamStep m m') :
    ∃ hist' c', Tracks conflict hist' m' c' := by
  cases hstep with
  | launch htodo => exact ⟨hist, _, h.launch htodo⟩
  | record htodo =>
      obtain ⟨hist', h'⟩ := h.record htodo
      exact ⟨hist', _, h'⟩
  | wait htodo => exact ⟨hist, _, h.wait htodo⟩
  | @synchronize e cs htodo hreached =>
      obtain ⟨-, hrest⟩ := htodo ▸ h.ordered
      have hevent : c.event e ⊆ m.done := (h.event e).ge.trans (h.reached _ _ hreached).2
      exact ⟨hist, c.next (.synchronize e), h.tasks_eq, Set.union_subset h.host hevent, h.event,
        h.reached, h.fed, hrest _ rfl⟩
  | @drain s cs htodo hempty =>
      obtain ⟨-, hrest⟩ := htodo ▸ h.ordered
      have hstream : c.stream s ⊆ m.done := by simpa [hempty] using (h.fed s).behind
      exact ⟨hist, c.next (.drain s), h.tasks_eq, Set.union_subset h.host hstream, h.event,
        h.reached, h.fed, hrest _ rfl⟩
  | finish hq => exact ⟨hist, c, h.advance hq h.reached rfl⟩
  | @reach s e v q hq =>
      have hitem : v ≤ m.version e ∧ hist e v ⊆ m.done := by
        have hfed := hq ▸ h.fed s
        exact ⟨hfed.issued (.record e v) (by simp), hfed.ok.1⟩
      refine ⟨hist, c, h.advance hq (fun e' v' hv => ?_) rfl⟩
      rcases Set.mem_insert_iff.mp hv with heq | hv
      · obtain ⟨rfl, rfl⟩ := Prod.mk.inj heq
        exact hitem
      · exact h.reached e' v' hv
  | @pass s e v q hq hreached =>
      exact ⟨hist, c, h.advance hq h.reached (Set.union_eq_left.mpr (h.reached _ _ hreached).2)⟩

end Tracks

/-- What the clock orders, the machine does in order. -/
theorem inOrder_of_along {cmds : List (StreamCmd S E T)}
    (h : Along clockStep (LaunchOrdered conflict) StreamClock.start cmds) :
    InOrder conflict cmds := by
  intro m hm
  have htracks : ∃ hist c, Tracks conflict hist m c := by
    induction hm with
    | refl =>
        refine ⟨fun _ _ => ∅, StreamClock.start, rfl, subset_rfl, fun _ => rfl, ?_, ?_, h⟩
        · intro e v hv
          exact ⟨le_of_eq hv, Set.empty_subset _⟩
        · exact fun s => ⟨by simp [StreamMachine.start], trivial, Set.empty_subset _⟩
    | tail _ hstep ih =>
        obtain ⟨hist, c, htracks⟩ := ih
        exact htracks.step hstep
  obtain ⟨hist, c, htracks⟩ := htracks
  intro s n q hq t ht a u ha hu hc
  have hfed := hq ▸ htracks.fed s
  exact hfed.ok.1 t ht a u ha hu hc

end Sound

section Complete

variable {conflict : T → T → Prop} {m : StreamMachine S E T} {c c' : StreamClock S E T} {D : Set ℕ}

/-- The machine has done the tasks of `D` launched so far, and a stream or a record that
only they are behind is through. -/
structure Lazy (D : Set ℕ) (m : StreamMachine S E T) (c : StreamClock S E T) : Prop where
  tasks_eq : c.tasks = m.tasks
  done_iff : ∀ n, n ∈ m.done ↔ n ∈ D ∧ n < m.tasks.length
  stream : ∀ s, c.stream s ⊆ D → m.queue s = []
  event : ∀ e, c.event e ⊆ D → (e, m.version e) ∈ m.reached

namespace Lazy

variable {s : S} {e : E} {cs : List (StreamCmd S E T)}

/-- The machine can launch a task and stay lazy, when all that a task of `D` waits for is
in `D`: then its stream is idle, and executes it at once. -/
theorem launch (h : Lazy D m c) {t : T} (htodo : m.todo = .launch s t :: cs)
    (hpast : c.tasks.length ∈ D → c.host ∪ c.stream s ⊆ D) :
    ∃ m', Relation.ReflTransGen StreamStep m m' ∧ m'.todo = cs ∧ Lazy D m' (c.next (.launch s t)) := by
  have hissue := Relation.ReflTransGen.single (StreamStep.launch htodo)
  by_cases hn : c.tasks.length ∈ D
  · have hidle := h.stream s (Set.subset_union_right.trans (hpast hn))
    refine ⟨_, hissue.tail (.finish (s := s) (n := m.tasks.length) (q := []) ?_), rfl,
      by simp [StreamClock.next, h.tasks_eq], fun n => ?_, fun s' hs' => ?_, h.event⟩
    · simp [StreamMachine.enqueue, hidle]
    · rw [h.tasks_eq] at hn
      simp only [Set.mem_insert_iff, h.done_iff, List.length_append, List.length_singleton]
      constructor
      · rintro (rfl | ⟨hD, hlt⟩)
        · exact ⟨hn, by omega⟩
        · exact ⟨hD, by omega⟩
      · rintro ⟨hD, hlt⟩
        by_cases hlast : n = m.tasks.length
        · exact Or.inl hlast
        · exact Or.inr ⟨hD, by omega⟩
    · by_cases hs : s' = s
      · subst hs
        simp
      · simp only [StreamClock.next, Function.update_of_ne hs] at hs'
        simpa [StreamMachine.enqueue, Function.update_of_ne hs] using h.stream s' hs'
  · refine ⟨_, hissue, rfl, by simp [StreamClock.next, h.tasks_eq], fun n => ?_,
      fun s' hs' => ?_, h.event⟩
    · rw [h.tasks_eq] at hn
      simp only [h.done_iff, List.length_append, List.length_singleton]
      constructor
      · rintro ⟨hD, hlt⟩
        exact ⟨hD, by omega⟩
      · rintro ⟨hD, hlt⟩
        have hne : n ≠ m.tasks.length := fun heq => hn (heq ▸ hD)
        exact ⟨hD, by omega⟩
    · by_cases hs : s' = s
      · subst hs
        simp only [StreamClock.next, Function.update_self] at hs'
        exact absurd (hs' (Set.mem_insert _ _)) hn
      · simp only [StreamClock.next, Function.update_of_ne hs] at hs'
        simpa [StreamMachine.enqueue, Function.update_of_ne hs] using h.stream s' hs'

theorem record (h : Lazy D m c) (htodo : m.todo = .record e s :: cs) :
    ∃ m', Relation.ReflTransGen StreamStep m m' ∧ m'.todo = cs ∧ Lazy D m' (c.next (.record e s)) := by
  have hissue := Relation.ReflTransGen.single (StreamStep.record htodo)
  by_cases hs : c.stream s ⊆ D
  · have hidle := h.stream s hs
    refine ⟨_, hissue.tail (.reach (s := s) (e := e) (v := m.version e + 1) (q := []) ?_), rfl,
      h.tasks_eq, h.done_iff, fun s' hs' => ?_, fun e' he' => ?_⟩
    · simp [StreamMachine.enqueue, hidle]
    · by_cases hss : s' = s
      · subst hss
        simp
      · simpa [StreamMachine.enqueue, Function.update_of_ne hss] using h.stream s' hs'
    · by_cases hee : e' = e
      · subst hee
        simp
      · simp only [StreamClock.next, Function.update_of_ne hee] at he' ⊢
        exact Set.mem_insert_of_mem _ (h.event e' he')
  · refine ⟨_, hissue, rfl, h.tasks_eq, h.done_iff, fun s' hs' => ?_, fun e' he' => ?_⟩
    · have hss : s' ≠ s := by
        rintro rfl
        exact hs hs'
      simpa [StreamMachine.enqueue, Function.update_of_ne hss] using h.stream s' hs'
    · have hee : e' ≠ e := by
        rintro rfl
        exact hs (by simpa [StreamClock.next] using he')
      simp only [StreamClock.next, Function.update_of_ne hee] at he' ⊢
      exact h.event e' he'

theorem wait (h : Lazy D m c) (htodo : m.todo = .wait e s :: cs) :
    ∃ m', Relation.ReflTransGen StreamStep m m' ∧ m'.todo = cs ∧ Lazy D m' (c.next (.wait e s)) := by
  have hissue := Relation.ReflTransGen.single (StreamStep.wait htodo)
  have hother : ∀ s', s' ≠ s → (c.next (.wait e s)).stream s' ⊆ D →
      m.enqueue s (.wait e (m.version e)) s' = [] := by
    intro s' hss hs'
    simp only [StreamClock.next, Function.update_of_ne hss] at hs'
    simpa [StreamMachine.enqueue, Function.update_of_ne hss] using h.stream s' hs'
  by_cases hs : c.stream s ∪ c.event e ⊆ D
  · have hidle := h.stream s (Set.subset_union_left.trans hs)
    have hreached := h.event e (Set.subset_union_right.trans hs)
    refine ⟨_, hissue.tail (.pass (s := s) (q := []) ?_ hreached), rfl, h.tasks_eq, h.done_iff,
      fun s' hs' => ?_, h.event⟩
    · simp [StreamMachine.enqueue, hidle]
    · by_cases hss : s' = s
      · subst hss
        simp
      · simpa [Function.update_of_ne hss] using hother s' hss hs'
  · refine ⟨_, hissue, rfl, h.tasks_eq, h.done_iff, fun s' hs' => hother s' ?_ hs', h.event⟩
    rintro rfl
    exact hs (by simpa [StreamClock.next] using hs')

/-- The machine can issue a command and stay lazy, when what the host would wait for is
in `D`, and what a task of `D` waits for is too. -/
theorem next (h : Lazy D m c) {cmd : StreamCmd S E T} (htodo : m.todo = cmd :: cs)
    (hhost : (c.next cmd).host ⊆ D)
    (hlaunch : ∀ s t, cmd = .launch s t → c.tasks.length ∈ D → c.host ∪ c.stream s ⊆ D) :
    ∃ m', Relation.ReflTransGen StreamStep m m' ∧ m'.todo = cs ∧ Lazy D m' (c.next cmd) := by
  cases cmd with
  | launch s t => exact h.launch htodo (hlaunch s t rfl)
  | record e s => exact h.record htodo
  | wait e s => exact h.wait htodo
  | synchronize e =>
      have hreached := h.event e (Set.subset_union_right.trans hhost)
      exact ⟨_, .single (.synchronize htodo hreached), rfl, h.tasks_eq, h.done_iff, h.stream,
        h.event⟩
  | drain s =>
      have hidle := h.stream s (Set.subset_union_right.trans hhost)
      exact ⟨_, .single (.drain htodo hidle), rfl, h.tasks_eq, h.done_iff, h.stream, h.event⟩

end Lazy

/-- The clock after the commands. -/
def StreamClock.run (c : StreamClock S E T) (cmds : List (StreamCmd S E T)) : StreamClock S E T :=
  cmds.foldl StreamClock.next c

theorem exec_clockStep (c : StreamClock S E T) (cmds : List (StreamCmd S E T)) :
    exec clockStep c cmds = some (c.run cmds) :=
  exec_total c cmds

theorem StreamClock.host_subset_run (c : StreamClock S E T) (cmds : List (StreamCmd S E T)) :
    c.host ⊆ (c.run cmds).host := by
  induction cmds generalizing c with
  | nil => exact subset_rfl
  | cons cmd cmds ih =>
      refine Set.Subset.trans ?_ (ih (c.next cmd))
      cases cmd with
      | synchronize e | drain s => exact Set.subset_union_left
      | _ => exact subset_rfl

/-- The past of a launched task does not change any more. -/
theorem StreamClock.past_run (c : StreamClock S E T) (cmds : List (StreamCmd S E T)) {n : ℕ}
    (hn : n < c.tasks.length) : (c.run cmds).past n = c.past n := by
  induction cmds generalizing c with
  | nil => rfl
  | cons cmd cmds ih =>
      cases cmd with
      | launch s t =>
          have hlt : n < (c.next (.launch s t)).tasks.length := by
            simp only [StreamClock.next, List.length_append, List.length_singleton]
            omega
          exact (ih (c.next (.launch s t)) hlt).trans (Function.update_of_ne (by omega) _ _)
      | record e s => exact ih (c.next (.record e s)) hn
      | wait e s => exact ih (c.next (.wait e s)) hn
      | synchronize e => exact ih (c.next (.synchronize e)) hn
      | drain s => exact ih (c.next (.drain s)) hn

/-- What the host, a stream or an event knows consists of launched tasks, and has their
pasts in it. -/
def StreamClock.Known (c : StreamClock S E T) (X : Set ℕ) : Prop :=
  ∀ n ∈ X, n < c.tasks.length ∧ c.past n ⊆ X

structure StreamClock.Sane (c : StreamClock S E T) : Prop where
  host : c.Known c.host
  stream : ∀ s, c.Known (c.stream s)
  event : ∀ e, c.Known (c.event e)

omit [DecidableEq S] [DecidableEq E] in
theorem StreamClock.Known.union {X Y : Set ℕ} (hX : c.Known X) (hY : c.Known Y) :
    c.Known (X ∪ Y) := by
  rintro n (hn | hn)
  · exact ⟨(hX n hn).1, (hX n hn).2.trans Set.subset_union_left⟩
  · exact ⟨(hY n hn).1, (hY n hn).2.trans Set.subset_union_right⟩

theorem StreamClock.Sane.next (h : c.Sane) (cmd : StreamCmd S E T) : (c.next cmd).Sane := by
  cases cmd with
  | launch s t =>
      have hold : ∀ X, c.Known X → (c.next (.launch s t)).Known X := by
        intro X hX n hn
        obtain ⟨hlt, hpast⟩ := hX n hn
        refine ⟨?_, ?_⟩
        · simp only [StreamClock.next, List.length_append, List.length_singleton]
          omega
        · simpa [StreamClock.next, Function.update_of_ne hlt.ne] using hpast
      refine ⟨hold _ h.host, fun s' => ?_, fun e => hold _ (h.event e)⟩
      by_cases hs : s' = s
      · subst hs
        have hpast := hold _ (h.host.union (h.stream s'))
        simp only [StreamClock.next, Function.update_self]
        rintro n (rfl | hn)
        · exact ⟨by simp, by simp⟩
        · exact ⟨(hpast n hn).1, (hpast n hn).2.trans (Set.subset_insert _ _)⟩
      · simpa [StreamClock.next, Function.update_of_ne hs] using hold _ (h.stream s')
  | record e s =>
      refine ⟨h.host, h.stream, fun e' => ?_⟩
      by_cases he : e' = e
      · subst he
        simp only [StreamClock.next, Function.update_self]
        exact h.stream s
      · simp only [StreamClock.next, Function.update_of_ne he]
        exact h.event e'
  | wait e s =>
      refine ⟨h.host, fun s' => ?_, h.event⟩
      by_cases hs : s' = s
      · subst hs
        simp only [StreamClock.next, Function.update_self]
        exact (h.stream s').union (h.event e)
      · simp only [StreamClock.next, Function.update_of_ne hs]
        exact h.stream s'
  | synchronize e => exact ⟨h.host.union (h.event e), h.stream, h.event⟩
  | drain s => exact ⟨h.host.union (h.stream s), h.stream, h.event⟩

theorem StreamClock.sane_run (cmds : List (StreamCmd S E T)) :
    (StreamClock.start.run cmds : StreamClock S E T).Sane :=
  foldl_preserves (fun _ cmd _ h => h.next cmd)
    ⟨fun _ h => h.elim, fun _ _ h => h.elim, fun _ _ h => h.elim⟩

/-- From a lazy state the machine can issue commands and stay lazy, up to a point where
`D` has what the host has waited for, and the pasts of its tasks. -/
theorem Lazy.run (h : Lazy D m c) {pre post : List (StreamCmd S E T)} (htodo : m.todo = pre ++ post)
    (hhost : (c.run pre).host ⊆ D) (hpast : ∀ n ∈ D, (c.run pre).past n ⊆ D) :
    ∃ m', Relation.ReflTransGen StreamStep m m' ∧ m'.todo = post ∧ Lazy D m' (c.run pre) := by
  induction pre generalizing m c with
  | nil => exact ⟨m, .refl, htodo, h⟩
  | cons cmd pre ih =>
      obtain ⟨m₁, hm₁, htodo₁, h₁⟩ := h.next htodo
        ((StreamClock.host_subset_run (c.next cmd) pre).trans hhost) (fun s t hcmd hn => by
          subst hcmd
          have hnew : (c.next (.launch s t)).past c.tasks.length = c.host ∪ c.stream s := by
            simp [StreamClock.next]
          rw [← hnew, ← StreamClock.past_run (c.next (.launch s t)) pre
            (by simp [StreamClock.next])]
          exact hpast _ hn)
      obtain ⟨m₂, hm₂, htodo₂, h₂⟩ := ih h₁ htodo₁ hhost hpast
      exact ⟨m₂, hm₁.trans hm₂, htodo₂, h₂⟩

/-- A task can run when exactly its past is done. -/
theorem exists_running (pre post : List (StreamCmd S E T)) (s : S) (t : T) :
    ∃ m, Relation.ReflTransGen StreamStep
        (StreamMachine.start (pre ++ .launch s t :: post)) m ∧
      m.tasks = (StreamClock.start.run pre : StreamClock S E T).tasks ++ [t] ∧
      m.queue s = [.task (StreamClock.start.run pre : StreamClock S E T).tasks.length] ∧
      m.done = (StreamClock.start.run pre : StreamClock S E T).host ∪
        (StreamClock.start.run pre : StreamClock S E T).stream s := by
  let c : StreamClock S E T := StreamClock.start.run pre
  have hsane : c.Sane := StreamClock.sane_run pre
  have hknown : c.Known (c.host ∪ c.stream s) := hsane.host.union (hsane.stream s)
  have hstart : Lazy (c.host ∪ c.stream s)
      (StreamMachine.start (pre ++ .launch s t :: post)) StreamClock.start :=
    ⟨rfl, by simp [StreamMachine.start], fun _ _ => rfl, fun _ _ => rfl⟩
  have htodo : (StreamMachine.start (pre ++ .launch s t :: post)).todo = pre ++ .launch s t :: post := rfl
  obtain ⟨m, hm, htodo, h⟩ := hstart.run htodo Set.subset_union_left fun n hn => (hknown n hn).2
  have hidle := h.stream s Set.subset_union_right
  refine ⟨_, hm.tail (.launch htodo), ?_, ?_, ?_⟩
  · simp [h.tasks_eq]
  · simp [StreamMachine.enqueue, hidle, h.tasks_eq]
  · ext n
    simp only [h.done_iff, ← h.tasks_eq]
    exact ⟨fun hn => hn.1, fun hn => ⟨hn, (hknown n hn).1⟩⟩

/-- The machine keeps the order of conflicting tasks in every interleaving exactly when
the clock finds, at every launch, the earlier tasks it conflicts with in its past. -/
theorem inOrder_iff {cmds : List (StreamCmd S E T)} :
    InOrder conflict cmds ↔ Along clockStep (LaunchOrdered conflict) StreamClock.start cmds := by
  refine ⟨fun h => ?_, inOrder_of_along⟩
  refine Along.of_split fun pre cmd post c hcmds hc => ?_
  obtain rfl : StreamClock.start.run pre = c :=
    Option.some.inj ((exec_clockStep _ pre).symm.trans hc)
  cases cmd with
  | launch s t =>
      subst hcmds
      obtain ⟨m, hm, htasks, hq, hdone⟩ := exists_running pre post s t
      intro a u hu hconflict
      have ha : a < (StreamClock.start.run pre : StreamClock S E T).tasks.length :=
        (List.getElem?_eq_some_iff.mp hu).1
      rw [← hdone]
      refine h m hm s _ [] hq t ?_ a u ha ?_ hconflict
      · simp [htasks]
      · rw [htasks, List.getElem?_append_left ha, hu]
  | _ => trivial

end Complete

end Lib
