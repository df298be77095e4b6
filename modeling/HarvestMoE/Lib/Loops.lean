import Mathlib.Data.List.Flatten
import Mathlib.Data.List.Range

/-!
# Loops that concern one index

A loop `for k in range(n)` unrolls to `(List.range n).flatMap f`. When only one or two
iterations emit anything, or when every iteration emits the start of the next one, the
unrolled list has a simpler form.

## Main definitions

* `flatMap_range_single`, `flatMap_range_pair` — one or two iterations count.
* `flatMap_range_shift` — each iteration starts the next one.
* `mul_add_div_mod`, `flatMap_range_mul`, `map_range_mul` — one loop instead of two nested ones.
-/

namespace Lib

variable {α : Type*} {f : ℕ → List α}

theorem flatMap_range_nil (n : ℕ) (h : ∀ k, k < n → f k = []) :
    (List.range n).flatMap f = [] :=
  List.flatMap_eq_nil_iff.mpr fun k hk => h k (List.mem_range.mp hk)

/-- Only iteration `a` emits anything. -/
theorem flatMap_range_single {n a : ℕ} (ha : a < n) (h : ∀ k, k < n → k ≠ a → f k = []) :
    (List.range n).flatMap f = f a := by
  obtain ⟨m, rfl⟩ := Nat.exists_eq_add_of_lt ha
  have hlater : (List.map (a + ·) (List.range (m + 1))).flatMap f = f a := by
    rw [List.range_succ_eq_map, List.map_cons, List.flatMap_cons, List.map_map, List.flatMap_map,
      flatMap_range_nil m fun k hk => h _ (by simp; omega) (by simp)]
    simp
  rw [Nat.add_assoc, List.range_add, List.flatMap_append, hlater,
    flatMap_range_nil a fun k hk => h k (by omega) (by omega), List.nil_append]

/-- Only iterations `a` and `b` emit anything. -/
theorem flatMap_range_pair {n a b : ℕ} (hab : a < b) (hb : b < n)
    (h : ∀ k, k < n → k ≠ a → k ≠ b → f k = []) : (List.range n).flatMap f = f a ++ f b := by
  obtain ⟨m, rfl⟩ := Nat.exists_eq_add_of_lt hb
  have hlater : (List.map (b + ·) (List.range (m + 1))).flatMap f = f b := by
    rw [List.range_succ_eq_map, List.map_cons, List.flatMap_cons, List.map_map, List.flatMap_map,
      flatMap_range_nil m fun k hk => h _ (by simp; omega) (by simp; omega) (by simp)]
    simp
  rw [Nat.add_assoc, List.range_add, List.flatMap_append, hlater,
    flatMap_range_single hab fun k hk hne => h k (by omega) hne (by omega)]

/-- When the first part of each iteration is emitted at the end of the one before it,
the loop emits both parts in turn. -/
theorem flatMap_range_shift (f g : ℕ → List α) (n : ℕ) :
    f 0 ++ (List.range (n + 1)).flatMap (fun i => g i ++ if i < n then f (i + 1) else []) =
      (List.range (n + 1)).flatMap fun i => f i ++ g i := by
  have hopen : ∀ m, m ≤ n →
      f 0 ++ (List.range m).flatMap (fun i => g i ++ if i < n then f (i + 1) else []) =
        (List.range m).flatMap (fun i => f i ++ g i) ++ f m := by
    intro m
    induction m with
    | zero => simp
    | succ m ih =>
        intro hm
        rw [List.range_succ, List.flatMap_append, List.flatMap_append, ← List.append_assoc,
          ih (by omega)]
        simp [show m < n by omega]
  rw [List.range_succ, List.flatMap_append, List.flatMap_append, ← List.append_assoc,
    hopen n le_rfl]
  simp

/-- An index of a pair gives back both numbers. -/
theorem mul_add_div_mod {i j n : ℕ} (hj : j < n) : (i * n + j) / n = i ∧ (i * n + j) % n = j :=
  (Nat.div_mod_unique (Nat.zero_lt_of_lt hj)).mpr ⟨by rw [Nat.add_comm, Nat.mul_comm], hj⟩

/-- A loop over pairs in one index. -/
theorem flatMap_range_mul (f : ℕ → List α) (m n : ℕ) :
    (List.range (m * n)).flatMap f =
      (List.range m).flatMap fun i => (List.range n).flatMap fun j => f (i * n + j) := by
  induction m with
  | zero => simp
  | succ m ih =>
      rw [Nat.succ_mul, List.range_add, List.flatMap_append, ih, List.range_succ,
        List.flatMap_append, List.flatMap_map, List.flatMap_singleton]

theorem map_range_mul (f : ℕ → α) (m n : ℕ) :
    (List.range (m * n)).map f =
      (List.range m).flatMap fun i => (List.range n).map fun j => f (i * n + j) := by
  rw [List.map_eq_flatMap, flatMap_range_mul]
  exact List.flatMap_congr fun i _ => List.map_eq_flatMap.symm

end Lib
