import Mathlib.Data.List.Induction
import Mathlib.Data.List.Nodup
import Mathlib.Data.List.Perm.Subperm
import Mathlib.Logic.Function.Basic

/-!
# Exclusive holdings

Owners hold slots of a finite stock, each owner at most one and no slot twice. Taking a
free slot and giving one back keep the holding exclusive, and the owners are never more
than the slots: there are fewer of them exactly when a slot is free.

## Main definitions

* `Exclusive` — no slot has two holders.
* `put`, `lastWrite` — writes to a table with two indices.
-/

namespace Lib

variable {ι κ β : Type*}

/-- No slot has two holders. -/
def Exclusive (held : ι → Option κ) : Prop :=
  ∀ i j k, held i = some k → held j = some k → i = j

namespace Exclusive

variable [DecidableEq ι] {held : ι → Option κ}

/-- An owner takes a free slot. -/
theorem take (h : Exclusive held) (i : ι) {k : κ} (hfree : ∀ j, held j ≠ some k) :
    Exclusive (Function.update held i (some k)) := by
  intro a b c ha hb
  by_cases hai : a = i <;> by_cases hbi : b = i
  · rw [hai, hbi]
  · subst hai
    rw [Function.update_self] at ha
    rw [Function.update_of_ne hbi] at hb
    exact absurd (hb.trans ha.symm) (hfree b)
  · subst hbi
    rw [Function.update_self] at hb
    rw [Function.update_of_ne hai] at ha
    exact absurd (ha.trans hb.symm) (hfree a)
  · rw [Function.update_of_ne hai] at ha
    rw [Function.update_of_ne hbi] at hb
    exact h a b c ha hb

/-- An owner gives its slot back. -/
theorem release (h : Exclusive held) (i : ι) : Exclusive (Function.update held i none) := by
  intro a b c ha hb
  by_cases hai : a = i
  · simp [hai] at ha
  · by_cases hbi : b = i
    · simp [hbi] at hb
    · rw [Function.update_of_ne hai] at ha
      rw [Function.update_of_ne hbi] at hb
      exact h a b c ha hb

end Exclusive

section Count

variable {held : ι → Option κ} {owners : List ι} {slots : List κ}

theorem Exclusive.nodup_filterMap (h : Exclusive held) (hown : owners.Nodup) :
    (owners.filterMap held).Nodup :=
  hown.filterMap fun i j k hi hj => h i j k hi hj

/-- The owners are no more than the slots. -/
theorem Exclusive.countP_le (h : Exclusive held) (hown : owners.Nodup)
    (hmem : ∀ i ∈ owners, ∀ k, held i = some k → k ∈ slots) :
    owners.countP (fun i => (held i).isSome) ≤ slots.length := by
  rw [← List.length_filterMap_eq_countP]
  apply List.Subperm.length_le
  apply (h.nodup_filterMap hown).subperm
  intro k hk
  obtain ⟨i, hi, hik⟩ := List.mem_filterMap.mp hk
  exact hmem i hi k hik

/-- They are fewer exactly when a slot is free. -/
theorem Exclusive.countP_lt_iff [DecidableEq κ] (h : Exclusive held) (hown : owners.Nodup)
    (hslots : slots.Nodup) (hmem : ∀ i ∈ owners, ∀ k, held i = some k → k ∈ slots) :
    owners.countP (fun i => (held i).isSome) < slots.length ↔
      ∃ k ∈ slots, ∀ i ∈ owners, held i ≠ some k := by
  constructor
  · intro hlt
    by_contra hall
    push Not at hall
    -- Every slot is held, so the holders are at least as many.
    have hsub : slots ⊆ owners.filterMap held := by
      intro k hk
      obtain ⟨i, hi, hik⟩ := hall k hk
      exact List.mem_filterMap.mpr ⟨i, hi, hik⟩
    have hle := (hslots.subperm hsub).length_le
    rw [List.length_filterMap_eq_countP] at hle
    omega
  · rintro ⟨k, hk, hfree⟩
    have hrest : ∀ i ∈ owners, ∀ c, held i = some c → c ∈ slots.erase k := by
      intro i hi c hc
      refine (List.mem_erase_of_ne ?_).mpr (hmem i hi c hc)
      rintro rfl
      exact hfree i hi hc
    have hle := h.countP_le hown hrest
    rw [List.length_erase_of_mem hk] at hle
    have := List.length_pos_of_mem hk
    omega

end Count

section Table

variable [DecidableEq ι] [DecidableEq κ]

/-- Write one entry of a table. -/
def put (f : ι → κ → β) (i : ι) (j : κ) (v : β) : ι → κ → β :=
  fun a b => if a = i ∧ b = j then v else f a b

variable {f : ι → κ → β} {i a : ι} {j b : κ} {v : β}

@[simp] theorem put_self : put f i j v i j = v := by simp [put]

@[simp] theorem put_of_ne (h : ¬ (a = i ∧ b = j)) : put f i j v a b = f a b := by simp [put, h]

theorem put_row : put f i j v i = Function.update (f i) j v := by
  ext b
  by_cases hb : b = j <;> simp [put, hb]

theorem put_row_of_ne (h : a ≠ i) : put f i j v a = f a := by
  ext b
  simp [put, h]

/-- The last value written to an entry. -/
def lastWrite (ws : List (ι × κ × β)) (i : ι) (j : κ) : Option β :=
  ((ws.filter fun w => w.1 = i ∧ w.2.1 = j).map fun w => w.2.2).getLast?

/-- After a list of writes an entry holds the last value written to it, or its old one. -/
theorem foldl_put (ws : List (ι × κ × β)) (f : ι → κ → β) (i : ι) (j : κ) :
    ws.foldl (fun f w => put f w.1 w.2.1 w.2.2) f i j = (lastWrite ws i j).getD (f i j) := by
  induction ws using List.reverseRecOn with
  | nil => rfl
  | append_singleton ws w ih =>
      rw [List.foldl_append, List.foldl_cons, List.foldl_nil]
      by_cases h : i = w.1 ∧ j = w.2.1
      · obtain ⟨rfl, rfl⟩ := h
        simp [lastWrite]
      · have h' : ¬ (w.1 = i ∧ w.2.1 = j) := fun hw => h ⟨hw.1.symm, hw.2.symm⟩
        rw [put_of_ne h, ih]
        simp [lastWrite, h']

/-- The writes leave an entry as it was exactly when the last of them restores it. -/
theorem foldl_put_eq_self_iff (ws : List (ι × κ × β)) (f : ι → κ → β) (i : ι) (j : κ) :
    ws.foldl (fun f w => put f w.1 w.2.1 w.2.2) f i j = f i j ↔
      ∀ v, lastWrite ws i j = some v → v = f i j := by
  rw [foldl_put]
  cases lastWrite ws i j <;> simp

end Table

end Lib
