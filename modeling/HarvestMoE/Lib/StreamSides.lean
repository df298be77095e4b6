import HarvestMoE.Lib.StreamInvariants

/-!
# Streams that only the host orders

Streams, events and tasks may fall into sides that share nothing: a task runs on a
stream of its side, and a record or a wait joins a stream and an event of one side. What
a side knows of another's tasks then came by the host (`ThroughHost`). If only tasks of
different sides conflict, the program is in order exactly when the host has waited, at
every launch, for the earlier tasks it conflicts with (`inOrder_iff_host`).

## Main definitions

* `StreamCmd.map` — a command under other names.
* `Sides`, `StreamCmd.Keeps` — the sides, and the commands that keep to them.
* `StreamCmd.WaitsOn` — the host waits for one side only.
* `StreamClock.Awaited` — the host has waited for all that a task conflicts with.
* `HostOrdered` — a launch comes when the host has waited.
-/

namespace Lib

variable {S S' E E' T T' κ : Type*}

/-- The same command on other streams, events and tasks. -/
def StreamCmd.map (f : S → S') (g : E → E') (h : T → T') : StreamCmd S E T → StreamCmd S' E' T'
  | .launch s t => .launch (f s) (h t)
  | .record e s => .record (g e) (f s)
  | .wait e s => .wait (g e) (f s)
  | .synchronize e => .synchronize (g e)
  | .drain s => .drain (f s)

/-- The side of each stream, event and task. -/
structure Sides (S E T κ : Type*) where
  stream : S → κ
  event : E → κ
  task : T → κ

/-- The command joins nothing of two sides, but for the host. -/
def StreamCmd.Keeps (p : Sides S E T κ) : StreamCmd S E T → Prop
  | .launch s t => p.task t = p.stream s
  | .record e s | .wait e s => p.event e = p.stream s
  | _ => True

/-- Commands under names of one side. -/
theorem StreamCmd.keeps_map {p : Sides S' E' T' κ} {k : κ} {f : S → S'} {g : E → E'} {h : T → T'}
    (hf : ∀ s, p.stream (f s) = k) (hg : ∀ e, p.event (g e) = k) (hh : ∀ t, p.task (h t) = k)
    (cmd : StreamCmd S E T) : (cmd.map f g h).Keeps p := by
  cases cmd with
  | launch s t => exact (hh t).trans (hf s).symm
  | record e s | wait e s => exact (hg e).trans (hf s).symm
  | synchronize e | drain s => trivial

/-- If the host waits, it waits for this side. -/
def StreamCmd.WaitsOn (p : Sides S E T κ) (k : κ) : StreamCmd S E T → Prop
  | .synchronize e => p.event e = k
  | .drain s => p.stream s = k
  | _ => True

/-- Such a command shows nothing of the other sides to this one. -/
theorem StreamCmd.Keeps.closed {p : Sides S E T κ} {k : κ} {cmd : StreamCmd S E T}
    (h : cmd.Keeps p) (hk : cmd.WaitsOn p k) :
    cmd.Closed {s | p.stream s = k} {e | p.event e = k} := by
  cases cmd with
  | launch s t => trivial
  | record e s => exact fun he => Eq.trans (Eq.symm h) he
  | wait e s => exact fun hs => Eq.trans h hs
  | synchronize e | drain s => exact hk

/-- The host has waited for the tasks that conflict with a new one. -/
def StreamClock.Awaited (conflict : T → T → Prop) (c : StreamClock S E T) (t : T) : Prop :=
  ∀ (a : ℕ) u, c.tasks[a]? = some u → conflict u t → a ∈ c.host

/-- A launch comes when the host has waited for what it conflicts with. -/
def HostOrdered (conflict : T → T → Prop) (c : StreamClock S E T) : StreamCmd S E T → Prop
  | .launch _ t => c.Awaited conflict t
  | _ => True

section Awaited

variable {conflict : T → T → Prop} {c : StreamClock S E T} {t u : T} {s : S} {e : E}

theorem StreamClock.awaited_of_never (h : ∀ u, ¬ conflict u t) : c.Awaited conflict t :=
  fun _ u _ hconflict => absurd hconflict (h u)

variable [DecidableEq S] [DecidableEq E]

@[simp] theorem StreamClock.awaited_record :
    (c.next (.record e s)).Awaited conflict t ↔ c.Awaited conflict t := Iff.rfl

@[simp] theorem StreamClock.awaited_wait :
    (c.next (.wait e s)).Awaited conflict t ↔ c.Awaited conflict t := Iff.rfl

/-- A task without a conflict makes no difference. -/
theorem StreamClock.awaited_launch (h : ¬ conflict u t) :
    (c.next (.launch s u)).Awaited conflict t ↔ c.Awaited conflict t := by
  constructor
  · intro hall a v hv hconflict
    refine hall a v ?_ hconflict
    simp only [StreamClock.next]
    rw [List.getElem?_append_left (List.getElem?_eq_some_iff.mp hv).1]
    exact hv
  · intro hall a v hv hconflict
    simp only [StreamClock.next, List.getElem?_append] at hv
    split_ifs at hv with hlt
    · exact hall a v hv hconflict
    · obtain rfl : v = u := by simpa using List.mem_of_getElem? hv
      exact absurd hconflict h

end Awaited

/-- What a side knows of the tasks of another, the host knows. -/
structure ThroughHost (p : Sides S E T κ) (c : StreamClock S E T) : Prop where
  sane : c.Sane
  stream : ∀ s a u, c.tasks[a]? = some u → a ∈ c.stream s → p.task u = p.stream s ∨ a ∈ c.host
  event : ∀ e a u, c.tasks[a]? = some u → a ∈ c.event e → p.task u = p.event e ∨ a ∈ c.host

variable [DecidableEq S] [DecidableEq E] {p : Sides S E T κ} {conflict : T → T → Prop}
  {c : StreamClock S E T}

namespace ThroughHost

omit [DecidableEq S] [DecidableEq E] in
theorem start (p : Sides S E T κ) : ThroughHost p StreamClock.start :=
  ⟨⟨fun _ h => h.elim, fun _ _ h => h.elim, fun _ _ h => h.elim⟩, fun _ _ _ _ h => h.elim,
    fun _ _ _ _ h => h.elim⟩

theorem launch (h : ThroughHost p c) {s : S} {t : T} (ht : p.task t = p.stream s) :
    ThroughHost p (c.next (.launch s t)) := by
  -- what was known before the launch has a number below the new one
  have hold : ∀ X, c.Known X → ∀ a u, (c.tasks ++ [t])[a]? = some u → a ∈ X →
      c.tasks[a]? = some u := by
    intro X hX a u hu ha
    rwa [List.getElem?_append_left (hX a ha).1] at hu
  refine ⟨h.sane.next _, fun s' a u hu ha => ?_, fun e a u hu ha => ?_⟩
  · simp only [StreamClock.next] at hu ha ⊢
    by_cases hs : s' = s
    · subst hs
      simp only [Function.update_self, Set.mem_insert_iff, Set.mem_union] at ha
      rcases ha with rfl | ha | ha
      · obtain rfl : t = u := by simpa using hu
        exact .inl ht
      · exact .inr ha
      · exact h.stream s' a u (hold _ (h.sane.stream s') a u hu ha) ha
    · simp only [Function.update_of_ne hs] at ha
      exact h.stream s' a u (hold _ (h.sane.stream s') a u hu ha) ha
  · exact h.event e a u (hold _ (h.sane.event e) a u hu ha) ha

theorem next (h : ThroughHost p c) {cmd : StreamCmd S E T} (hcmd : cmd.Keeps p) :
    ThroughHost p (c.next cmd) := by
  cases cmd with
  | launch s t => exact h.launch hcmd
  | record e s =>
      refine ⟨h.sane.next _, h.stream, fun e' a u hu ha => ?_⟩
      by_cases he : e' = e
      · subst he
        have hside : p.event e' = p.stream s := hcmd
        simp only [StreamClock.next, Function.update_self] at ha
        rw [hside]
        exact h.stream s a u hu ha
      · simp only [StreamClock.next, Function.update_of_ne he] at ha
        exact h.event e' a u hu ha
  | wait e s =>
      refine ⟨h.sane.next _, fun s' a u hu ha => ?_, h.event⟩
      by_cases hs : s' = s
      · subst hs
        have hside : p.event e = p.stream s' := hcmd
        simp only [StreamClock.next, Function.update_self] at ha
        rcases ha with ha | ha
        · exact h.stream s' a u hu ha
        · rw [← hside]
          exact h.event e a u hu ha
      · simp only [StreamClock.next, Function.update_of_ne hs] at ha
        exact h.stream s' a u hu ha
  | synchronize e | drain s =>
      exact ⟨h.sane.next _, fun s a u hu ha => (h.stream s a u hu ha).imp_right .inl,
        fun e a u hu ha => (h.event e a u hu ha).imp_right .inl⟩

omit [DecidableEq S] [DecidableEq E] in
/-- Between two sides, a launch is ordered by the host or not at all. -/
theorem launchOrdered_iff (h : ThroughHost p c)
    (hconflict : ∀ u t, conflict u t → p.task u ≠ p.task t) {cmd : StreamCmd S E T}
    (hcmd : cmd.Keeps p) : LaunchOrdered conflict c cmd ↔ HostOrdered conflict c cmd := by
  cases cmd with
  | launch s t =>
      refine forall₂_congr fun a u => forall₂_congr fun hu hc => ⟨fun ha => ?_, .inl⟩
      have ht : p.task t = p.stream s := hcmd
      have hside : p.task u ≠ p.stream s := ht ▸ hconflict u t hc
      rcases ha with ha | ha
      · exact ha
      · exact (h.stream s a u hu ha).resolve_left hside
  | _ => exact Iff.rfl

theorem along_iff (h : ThroughHost p c) (hconflict : ∀ u t, conflict u t → p.task u ≠ p.task t)
    {cmds : List (StreamCmd S E T)} (hcmds : ∀ cmd ∈ cmds, cmd.Keeps p) :
    Along clockStep (LaunchOrdered conflict) c cmds ↔
      Along clockStep (HostOrdered conflict) c cmds := by
  induction cmds generalizing c with
  | nil => exact Iff.rfl
  | cons cmd cmds ih =>
      have hcmd : cmd.Keeps p := hcmds cmd (by simp)
      have hrest : ∀ c' ∈ cmds, c'.Keeps p := fun c' hc' => hcmds c' (by simp [hc'])
      simp only [along_cons, clockStep, Option.some.injEq, forall_eq',
        h.launchOrdered_iff hconflict hcmd, ih (h.next hcmd) hrest]

end ThroughHost

/-- A program whose sides share nothing keeps the order of conflicting tasks of different
sides exactly when the host has waited for them. -/
theorem inOrder_iff_host (hconflict : ∀ u t, conflict u t → p.task u ≠ p.task t)
    {cmds : List (StreamCmd S E T)} (hcmds : ∀ cmd ∈ cmds, cmd.Keeps p) :
    InOrder conflict cmds ↔ Along clockStep (HostOrdered conflict) StreamClock.start cmds :=
  inOrder_iff.trans ((ThroughHost.start p).along_iff hconflict hcmds)

end Lib
