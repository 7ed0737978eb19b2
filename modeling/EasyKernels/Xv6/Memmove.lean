import Mathlib.Data.Int.Notation
import Mathlib.Data.Nat.Notation
import Mathlib.Logic.Function.Basic
import Mathlib.Tactic.SplitIfs

/-!
# `memmove` of the kernel and of the user library

Both are loops over bytes. The kernel's `memmove` copies from the last byte down where the
destination starts inside the source, and from the first byte up otherwise. The one of the user
library always copies up. `memmove_moves` says where that is right: the kernel's for all pointers,
the user library's exactly where the destination does not start inside the source. There an upward
copy reads back what it has written, so its result repeats the bytes before the destination
(`copyUp_repeats`).

Scope. Pointers are natural numbers: the ranges are objects of C, which do not wrap around.
-/

set_option autoImplicit false

namespace EasyKernels.Xv6.Memmove

open Function

/-- `while(n-- > 0) *d++ = *s++`. -/
def copyUp (m : ℕ → UInt8) (d s : ℕ) : ℕ → ℕ → UInt8
  | 0 => m
  | n + 1 => copyUp (update m d (m s)) (d + 1) (s + 1) n

/-- `while(n-- > 0) *--d = *--s`. -/
def copyDown (m : ℕ → UInt8) (d s : ℕ) : ℕ → ℕ → UInt8
  | 0 => m
  | n + 1 => copyDown (update m (d - 1) (m (s - 1))) (d - 1) (s - 1) n

variable (m : ℕ → UInt8)

/-- `memmove` of string.c. -/
def memmove (dst src n : ℕ) : ℕ → UInt8 :=
  if src < dst ∧ src + n > dst then copyDown m (dst + n) (src + n) n else copyUp m dst src n

/-- `memmove` of ulib.c, whose count is signed. -/
def ulibMemmove (dst src : ℕ) (n : ℤ) : ℕ → UInt8 := copyUp m dst src n.toNat

/-- What a move is for: the destination gets the old bytes of the source, and nothing else
changes. -/
def moved (dst src n a : ℕ) : UInt8 :=
  if dst ≤ a ∧ a < dst + n then m (src + (a - dst)) else m a

variable {m : ℕ → UInt8} {d s n : ℕ}

theorem copyUp_eq (h : d ≤ s ∨ s + n ≤ d) : copyUp m d s n = moved m d s n := by
  induction n generalizing m d s with
  | zero =>
    funext a
    exact (if_neg (by omega)).symm
  | succ n ih =>
    rw [copyUp, ih (by omega)]
    funext a
    unfold moved
    by_cases ha : a = d
    · rw [if_neg (by omega), if_pos (by omega), ha, update_self, Nat.sub_self, Nat.add_zero]
    · by_cases hin : d + 1 ≤ a ∧ a < d + 1 + n
      · rw [if_pos hin, if_pos (by omega), update_of_ne (by omega)]
        congr 1
        omega
      · rw [if_neg hin, if_neg (by omega), update_of_ne ha]

theorem copyDown_eq (h : s < d) : copyDown m (d + n) (s + n) n = moved m d s n := by
  induction n generalizing m with
  | zero =>
    funext a
    exact (if_neg (by omega)).symm
  | succ n ih =>
    rw [copyDown, ← Nat.add_assoc, ← Nat.add_assoc, Nat.add_sub_cancel, Nat.add_sub_cancel, ih]
    funext a
    unfold moved
    by_cases ha : a = d + n
    · rw [if_neg (by omega), if_pos (by omega), ha, update_self, Nat.add_sub_cancel_left]
    · by_cases hin : d ≤ a ∧ a < d + n
      · rw [if_pos hin, if_pos (by omega), update_of_ne (by omega)]
      · rw [if_neg hin, if_neg (by omega), update_of_ne ha]

theorem copyUp_of_lt {a : ℕ} (ha : a < d) : copyUp m d s n a = m a := by
  induction n generalizing m d s with
  | zero => rfl
  | succ n ih => rw [copyUp, ih (by omega), update_of_ne (by omega)]

/-- An upward copy from below its destination repeats what stands before the destination. -/
theorem copyUp_repeats (h : s < d) {i : ℕ} (hi : i < n) :
    copyUp m d s n (d + i) = copyUp m d s n (s + i) := by
  induction n generalizing m d s i with
  | zero => omega
  | succ n ih =>
    rw [copyUp]
    cases i with
    | zero => rw [copyUp_of_lt (by omega), copyUp_of_lt (by omega), Nat.add_zero, Nat.add_zero,
        update_self, update_of_ne (by omega)]
    | succ i =>
      have hrest := ih (m := update m d (m s)) (Nat.add_lt_add_right h 1)
        (Nat.lt_of_succ_lt_succ hi)
      rw [Nat.add_right_comm, Nat.add_right_comm s] at hrest
      exact hrest

/-- The kernel's `memmove` is a move, and the user library's where the destination does not start
inside the source. -/
theorem memmove_moves (dst src n : ℕ) : (∀ m, memmove m dst src n = moved m dst src n) ∧
    ((∀ m, ulibMemmove m dst src n = moved m dst src n) ↔ ¬ (src < dst ∧ dst < src + n)) := by
  refine ⟨fun m ↦ ?_, ?_, fun h m ↦ copyUp_eq (by omega)⟩
  · unfold memmove
    split_ifs with h
    · exact copyDown_eq h.1
    · exact copyUp_eq (by omega)
  · rintro h ⟨hlt, hin⟩
    have hle := Nat.le_of_lt hlt
    -- the byte at `dst` is overwritten before it is read
    have hread := congrFun (h fun a ↦ if a = dst then 1 else 0) (dst + (dst - src))
    rw [ulibMemmove, copyUp_repeats hlt (by omega), Nat.add_sub_cancel' hle, moved,
      if_pos (by omega), Nat.add_sub_cancel_left, Nat.add_sub_cancel' hle, if_pos rfl] at hread
    have hfirst := copyUp_repeats (m := fun a ↦ if a = dst then 1 else 0) hlt
      (show 0 < Int.toNat n by omega)
    rw [Nat.add_zero, Nat.add_zero, copyUp_of_lt hlt, if_neg (Nat.ne_of_lt hlt), hread] at hfirst
    exact absurd hfirst (by decide)

/-- Two bytes moved up by one: the user library's `memmove` writes the first one twice. -/
theorem ulibMemmove_overlap : ∃ m : ℕ → UInt8, memmove m 1 0 2 2 = 7 ∧ moved m 1 0 2 2 = 7 ∧
    ulibMemmove m 1 0 2 2 = 0 :=
  ⟨fun a ↦ if a = 1 then 7 else 0, by decide⟩

end EasyKernels.Xv6.Memmove
