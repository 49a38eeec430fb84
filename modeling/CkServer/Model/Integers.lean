import Mathlib.Algebra.Group.Int.Defs
import Mathlib.Algebra.Group.Nat.Defs

/-! # Machine integers -/

namespace CkServer

/-- The conversion of an `int` to `size_t`. -/
def toSize_t (i : ℤ) : ℕ := if 0 ≤ i then i.toNat else (2 ^ 64 + i).toNat

/-- The conversion of a number to `int`. -/
def toInt (i : ℤ) : ℤ := (i + 2 ^ 31) % 2 ^ 32 - 2 ^ 31

theorem toInt_of_mem {i : ℤ} (h : -2 ^ 31 ≤ i) (h' : i < 2 ^ 31) : toInt i = i := by
  unfold toInt
  omega

theorem toInt_lt (i : ℤ) : toInt i < 2 ^ 31 := by
  unfold toInt
  omega

/-- `++` on an `int`. -/
def increment (n : ℤ) : ℤ := if n = 2 ^ 31 - 1 then -2 ^ 31 else n + 1

theorem increment_of_lt {n : ℤ} (h : n < 2 ^ 31 - 1) : increment n = n + 1 :=
  if_neg (Int.ne_of_lt h)

end CkServer
