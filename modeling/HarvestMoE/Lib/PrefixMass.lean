import Mathlib.Algebra.Order.BigOperators.Group.List
import Mathlib.Algebra.Order.Group.Defs

/-!
# Masses of prefixes

For a list of non-negative entries, the sums of its prefixes grow. The places with at most
a given mass before them are therefore a prefix too, and it ends where the mass is first
exceeded.

## Main definitions

* `runningSums` — at each place, the sum up to it.
* `massCut` — the least length of a prefix with more than a given mass.
* `sum_map_le_take` — a prefix of a descending list has the largest mass for its length.
-/

namespace Lib

variable {M : Type*}

/-- At each place the sum of the entries up to it, this one included. -/
def runningSums [AddMonoid M] (xs : List M) : List M := (xs.scanl (· + ·) 0).tail

@[simp] theorem length_runningSums [AddMonoid M] (xs : List M) :
    (runningSums xs).length = xs.length := by
  simp [runningSums]

/-- Without the entry itself, what is left is the mass before it. -/
theorem runningSums_sub [AddCommGroup M] (xs : List M) {i : ℕ} (hi : i < xs.length)
    (hc : i < (runningSums xs).length) : (runningSums xs)[i] - xs[i] = (xs.take i).sum := by
  have hsum : (runningSums xs)[i] = (xs.take (i + 1)).sum := by
    simp [runningSums, List.sum_eq_foldl]
  rw [hsum, List.sum_take_succ xs i hi, add_sub_cancel_right]

section Cut

variable [AddCommMonoid M] [LinearOrder M] {xs : List M} {bound : M} {i : ℕ}

/-- The least length of a prefix whose mass exceeds the bound; the whole list, if there is
none. -/
def massCut (bound : M) (xs : List M) : ℕ :=
  ((List.range (xs.length + 1)).find? fun n => bound < (xs.take n).sum).getD xs.length

theorem massCut_le : massCut bound xs ≤ xs.length := by
  unfold massCut
  cases hfind : (List.range (xs.length + 1)).find? fun n => bound < (xs.take n).sum with
  | none => exact le_rfl
  | some n =>
      have hmem := List.mem_of_find?_eq_some hfind
      exact Nat.lt_succ_iff.mp (List.mem_range.mp hmem)

variable [IsOrderedAddMonoid M]

theorem mass_mono (hxs : ∀ x ∈ xs, 0 ≤ x) : Monotone fun n => (xs.take n).sum := by
  intro m n hmn
  apply List.Sublist.sum_le_sum
  · exact (List.take_prefix_take_left hmn).sublist
  · intro x hx
    exact hxs x (List.mem_of_mem_take hx)

/-- Before the cut are the places with no more than the bound before them. -/
theorem lt_massCut_iff (hxs : ∀ x ∈ xs, 0 ≤ x) (hi : i < xs.length) :
    i < massCut bound xs ↔ (xs.take i).sum ≤ bound := by
  unfold massCut
  cases hfind : (List.range (xs.length + 1)).find? fun n => bound < (xs.take n).sum with
  | none =>
      have hle := List.find?_eq_none.mp hfind i (List.mem_range.mpr (Nat.lt_succ_of_lt hi))
      simpa [hi] using hle
  | some n =>
      have hn := List.find?_range_eq_some.mp hfind
      constructor
      · intro hlt
        simpa using hn.2.2 i hlt
      · intro hle
        by_contra hge
        have hmass : bound < (xs.take n).sum := by simpa using hn.1
        exact absurd (mass_mono hxs (not_lt.mp hge)) (not_le.mpr (hle.trans_lt hmass))

/-- The first entry is before the cut. -/
theorem massCut_pos (hxs : ∀ x ∈ xs, 0 ≤ x) (hne : xs ≠ []) (hbound : 0 ≤ bound) :
    0 < massCut bound xs := by
  rw [lt_massCut_iff hxs (List.length_pos_iff.mpr hne)]
  simpa using hbound

end Cut

section Largest

variable [AddCommMonoid M] [PartialOrder M] [IsOrderedAddMonoid M] [CanonicallyOrderedAdd M]
  {α : Type*} {f : α → M}

/-- Of the sublists of a descending list, a prefix has the largest mass for its length. -/
theorem sum_map_le_take {xs ys : List α} (hsub : ys.Sublist xs)
    (hdesc : xs.Pairwise fun a b => f b ≤ f a) {n : ℕ} (hn : ys.length ≤ n) :
    (ys.map f).sum ≤ ((xs.take n).map f).sum := by
  induction xs generalizing ys n with
  | nil => simp [List.sublist_nil.mp hsub]
  | cons x xs ih =>
      cases ys with
      | nil => simp
      | cons y ys =>
          obtain ⟨m, rfl⟩ : ∃ m, n = m + 1 := ⟨n - 1, by simp at hn; omega⟩
          have hlen : ys.length ≤ m := Nat.le_of_succ_le_succ hn
          have hhead : f y ≤ f x ∧ ys.Sublist xs := by
            cases hsub with
            | cons _ hrest =>
                refine ⟨(List.pairwise_cons.mp hdesc).1 y (hrest.subset List.mem_cons_self), ?_⟩
                exact (List.sublist_cons_self y ys).trans hrest
            | cons_cons _ hrest => exact ⟨le_rfl, hrest⟩
          have htail := ih hhead.2 (List.pairwise_cons.mp hdesc).2 hlen
          rw [List.take_succ_cons, List.map_cons, List.map_cons, List.sum_cons, List.sum_cons]
          exact add_le_add hhead.1 htail

theorem sum_map_le_take_of_subperm {xs ys : List α} (hsub : ys.Subperm xs)
    (hdesc : xs.Pairwise fun a b => f b ≤ f a) {n : ℕ} (hn : ys.length ≤ n) :
    (ys.map f).sum ≤ ((xs.take n).map f).sum := by
  obtain ⟨zs, hperm, hsub⟩ := hsub
  rw [← (hperm.map f).sum_eq]
  exact sum_map_le_take hsub hdesc (hperm.length_eq.trans_le hn)

end Largest

end Lib
