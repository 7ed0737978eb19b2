import Mathlib.Algebra.BigOperators.Group.List.Basic
import Mathlib.Tactic.Ring

/-!
# Lists of delays

A list of items in the order in which they come due, where the delay of an item counts from the
item before it. `due` gives the times at which the items come due. An item at the end comes due its
delay after the whole list (`due_concat`), a unit of time passes by taking one from the first delay
alone (`due_tick`), and with positive delays everything is still to come (`lt_of_mem_due`).
-/

set_option autoImplicit false

namespace EasyKernels.Lib.Delays

open List

variable {α : Type*}

/-- The items with the times at which they come due, from the time `now` on. -/
def due : ℤ → List (ℤ × α) → List (ℤ × α)
  | _, [] => []
  | now, x :: l => (now + x.1, x.2) :: due (now + x.1) l

/-- The delay of the last item from now on. -/
def total (l : List (ℤ × α)) : ℤ := (l.map Prod.fst).sum

@[simp] theorem due_nil (now : ℤ) : due now ([] : List (ℤ × α)) = [] := rfl

@[simp] theorem total_nil : total ([] : List (ℤ × α)) = 0 := rfl

@[simp] theorem total_cons (x : ℤ × α) (l : List (ℤ × α)) : total (x :: l) = x.1 + total l := by
  simp [total]

theorem due_concat (now : ℤ) (l : List (ℤ × α)) (x : ℤ × α) :
    due now (l ++ [x]) = due now l ++ [(now + total l + x.1, x.2)] := by
  induction l generalizing now with
  | nil => simp [due]
  | cons y l ih =>
    simp only [cons_append, due, ih, total_cons]
    rw [show now + y.1 + total l = now + (y.1 + total l) by ring]

theorem due_tick (now : ℤ) (x : ℤ × α) (l : List (ℤ × α)) :
    due (now + 1) ((x.1 - 1, x.2) :: l) = due now (x :: l) := by
  simp only [due]
  rw [show now + 1 + (x.1 - 1) = now + x.1 by ring]

theorem lt_of_mem_due {now : ℤ} {l : List (ℤ × α)} (hpos : ∀ x ∈ l, 0 < x.1) {x : ℤ × α}
    (hx : x ∈ due now l) : now < x.1 := by
  induction l generalizing now with
  | nil => simp at hx
  | cons y l ih =>
    have hy := hpos y mem_cons_self
    rcases mem_cons.mp hx with rfl | hx
    · exact lt_add_of_pos_right now hy
    · exact (lt_add_of_pos_right now hy).trans
        (ih (fun z hz ↦ hpos z (mem_cons_of_mem y hz)) hx)

end EasyKernels.Lib.Delays
