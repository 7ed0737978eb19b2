import Mathlib.Algebra.Order.BigOperators.Group.Finset
import EasyKernels.Lib.Counting

/-!
# Counting the slots that hold an object

Each slot of a table holds one object or none, and `holders` counts the slots that hold an object.
This is what a reference count is to be compared with when references are kept in tables.
`holders_put` and `holders_clear` say how the number moves when one slot is filled or emptied, and
`holders_pos` that it is positive while a slot holds the object.
-/

set_option autoImplicit false

namespace EasyKernels.Lib.Holders

open Finset Function Counting

variable {κ α : Type*} [Fintype κ] [DecidableEq κ] [DecidableEq α] {slot : κ → Option α}

/-- The number of slots that hold an object. -/
def holders (slot : κ → Option α) (a : α) : ℕ := ∑ k, if slot k = some a then 1 else 0

theorem holders_update (slot : κ → Option α) (k : κ) (v : Option α) (b : α) :
    holders (update slot k v) b + (if slot k = some b then 1 else 0) =
      holders slot b + if v = some b then 1 else 0 :=
  sum_update_add univ (mem_univ k) slot v fun _ u ↦ if u = some b then 1 else 0

theorem holders_put {k : κ} (hempty : slot k = none) (a b : α) :
    holders (update slot k (some a)) b = holders slot b + if a = b then 1 else 0 := by
  have hupdate := holders_update slot k (some a) b
  simpa [hempty] using hupdate

theorem holders_clear {k : κ} {a : α} (hfull : slot k = some a) (b : α) :
    holders (update slot k none) b + (if a = b then 1 else 0) = holders slot b := by
  have hupdate := holders_update slot k none b
  simpa [hfull] using hupdate

omit [DecidableEq κ] in
theorem holders_none (a : α) : holders (fun _ : κ ↦ none) a = 0 := by simp [holders]

omit [DecidableEq κ] in
theorem holders_pos {k : κ} {a : α} (hfull : slot k = some a) : 0 < holders slot a := by
  refine sum_pos' (fun _ _ ↦ Nat.zero_le _) ⟨k, mem_univ k, ?_⟩
  simp [hfull]

end EasyKernels.Lib.Holders
