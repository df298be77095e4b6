import Mathlib.Data.Int.Cast.Defs
import Mathlib.Order.Lattice

/-!
# Numbers as Python compares them

Integers and floats compare by their exact value. A float can also be an infinity, or `nan`,
which is in no relation to anything.

## Main definitions

* `PyNum` — a number, over an ordered type of finite values.
* `PyNum.lt`, `PyNum.le`, `PyNum.eq` — the comparisons.
-/

namespace Lib

variable {F : Type*}

inductive PyNum (F : Type*)
  | fin (x : F)
  | posInf
  | negInf
  | nan
  deriving DecidableEq, Repr

namespace PyNum

/-- An integer. -/
def int [IntCast F] (n : ℤ) : PyNum F := .fin n

variable [LinearOrder F] {x y : F} {a b : PyNum F}

def lt : PyNum F → PyNum F → Bool
  | .fin x, .fin y => x < y
  | .fin _, .posInf | .negInf, .fin _ | .negInf, .posInf => true
  | _, _ => false

def eq : PyNum F → PyNum F → Bool
  | .fin x, .fin y => x = y
  | .posInf, .posInf | .negInf, .negInf => true
  | _, _ => false

def le (a b : PyNum F) : Bool := a.lt b || a.eq b

@[simp] theorem fin_lt_fin : (PyNum.fin x).lt (.fin y) = decide (x < y) := rfl

@[simp] theorem fin_le_fin : (PyNum.fin x).le (.fin y) = decide (x ≤ y) := by
  simp [le, lt, eq, le_iff_lt_or_eq]

theorem lt_asymm (h : a.lt b = true) : b.lt a = false := by
  cases a <;> cases b <;> simp_all [lt, le_of_lt]

end PyNum

end Lib
