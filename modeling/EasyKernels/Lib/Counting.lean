import Mathlib.Data.Fintype.BigOperators

/-!
# Counting under a point update

How a weighted count over an index set moves when one value of a function is replaced. The weight
of a value may depend on the index it stands at.
-/

set_option autoImplicit false

namespace EasyKernels.Lib.Counting

open Finset Function

variable {ι α : Type*} [DecidableEq ι]

/-- Replacing one value of a function trades that value's weight in a sum: what the sum gains and
what it loses balance. -/
theorem sum_update_add (S : Finset ι) {i : ι} (hi : i ∈ S) (f : ι → α) (a : α) (w : ι → α → ℕ) :
    ∑ j ∈ S, w j (update f i a j) + w i (f i) = ∑ j ∈ S, w j (f j) + w i a := by
  have hrest : ∑ j ∈ S.erase i, w j (update f i a j) = ∑ j ∈ S.erase i, w j (f j) := by
    refine sum_congr rfl fun j hj ↦ ?_
    rw [update_of_ne (ne_of_mem_erase hj)]
  have hnew := sum_erase_add S (fun j ↦ w j (update f i a j)) hi
  have hold := sum_erase_add S (fun j ↦ w j (f j)) hi
  simp only [update_self] at hnew
  omega

end EasyKernels.Lib.Counting
