import Mathlib.Algebra.Group.Int.Defs
import Mathlib.Algebra.Group.Nat.Defs

/-!
The size of the table of tasks in `sched.h`, and the arithmetic of a `long`.
-/

set_option autoImplicit false

namespace EasyKernels.Linux

/-- `NR_TASKS`. -/
def nrTasks : ℕ := 64

theorem nrTasks_pos : 0 < nrTasks := Nat.succ_pos 63

theorem one_lt_nrTasks : 1 < nrTasks := Nat.one_lt_succ_succ 62

/-- A `long`. -/
def long (x : ℤ) : ℤ := x.bmod (2 ^ 32)

theorem long_eq {x : ℤ} (hlow : -2 ^ 31 ≤ x) (hhigh : x < 2 ^ 31) : long x = x :=
  Int.bmod_eq_of_le (by omega) (by omega)

end EasyKernels.Linux
