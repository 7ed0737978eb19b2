import Mathlib.Data.Nat.ModEq

/-!
# Ring buffers

The cells of a ring of a given size, read from a position on. `Holds size data r q` says that the
cells from `r` on, modulo the size, hold the items of `q`. Writing the cell after the last item of
a queue that is shorter than the ring adds that item at the end (`Holds.put`). `toNat_add_mod` is
for rings with 32-bit indices that are never reduced.
-/

set_option autoImplicit false

namespace EasyKernels.Lib.Ring

open Nat Function

variable {α : Type*}

/-- The cells of a ring from a position on hold the items of a list. -/
def Holds (size : ℕ) (data : ℕ → α) : ℕ → List α → Prop
  | _, [] => True
  | r, b :: q => data (r % size) = b ∧ Holds size data (r + 1) q

variable {size r : ℕ} {data : ℕ → α} {q q' : List α}

@[simp] theorem holds_nil : Holds size data r [] := trivial

@[simp] theorem holds_cons {b : α} :
    Holds size data r (b :: q) ↔ data (r % size) = b ∧ Holds size data (r + 1) q := .rfl

theorem holds_append :
    Holds size data r (q ++ q') ↔ Holds size data r q ∧ Holds size data (r + q.length) q' := by
  induction q generalizing r with
  | nil => simp
  | cons b q ih =>
    rw [List.cons_append, holds_cons, holds_cons, ih, and_assoc, List.length_cons, add_assoc,
      add_comm 1]

/-- Only the place in the ring of the first cell matters. -/
theorem Holds.start (h : Holds size data r q) {r' : ℕ} (hr : r' % size = r % size) :
    Holds size data r' q := by
  induction q generalizing r r' with
  | nil => trivial
  | cons b q ih =>
    refine ⟨hr ▸ h.1, ih h.2 ?_⟩
    rw [add_mod, hr, ← add_mod]

theorem Holds.update (h : Holds size data r q) {w : ℕ} (hw : ∀ k < q.length, (r + k) % size ≠ w)
    (b : α) : Holds size (update data w b) r q := by
  induction q generalizing r with
  | nil => trivial
  | cons c q ih =>
    obtain ⟨hc, hq⟩ := h
    have hfirst : r % size ≠ w := hw 0 (zero_lt_succ _)
    refine ⟨?_, ih hq fun k hk ↦ ?_⟩
    · rw [update_of_ne hfirst, hc]
    · rw [add_assoc, add_comm 1]
      exact hw (k + 1) (succ_lt_succ hk)

theorem mod_ne_mod {k l : ℕ} (hkl : k < l) (hl : l < size) : (r + k) % size ≠ (r + l) % size := by
  intro heq
  have hmod : k % size = l % size := Nat.ModEq.add_left_cancel' r heq
  rw [mod_eq_of_lt (hkl.trans hl), mod_eq_of_lt hl] at hmod
  exact hkl.ne hmod

theorem Holds.put (h : Holds size data r q) (hroom : q.length < size) (b : α) :
    Holds size (Function.update data ((r + q.length) % size) b) r (q ++ [b]) := by
  rw [holds_append]
  refine ⟨h.update (fun k hk ↦ mod_ne_mod hk hroom) b, ?_, trivial⟩
  rw [update_self]

/-- An index that wraps at 2³² goes round a ring whose size divides 2³². -/
theorem toNat_add_mod (hdvd : size ∣ 2 ^ 32) (n : UInt32) (k : ℕ) :
    (n + UInt32.ofNat k).toNat % size = (n.toNat + k) % size := by
  rw [UInt32.toNat_add, mod_mod_of_dvd _ hdvd, UInt32.toNat_ofNat', add_mod,
    mod_mod_of_dvd _ hdvd, ← add_mod]

end EasyKernels.Lib.Ring
