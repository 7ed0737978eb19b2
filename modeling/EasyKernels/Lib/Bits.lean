import Mathlib.Data.Nat.Bitwise
import EasyKernels.Lib.Bytes

/-!
# Bits of a block of bytes

A block of bytes seen as an array of bits, eight to a byte with the least significant first, and the
operations of a bit map on it: `bit` tests a bit, `setBit` and `clearBit` change one and leave the
others (`bit_setBit`, `bit_clearBit`).
-/

set_option autoImplicit false

namespace EasyKernels.Lib.Bytes

open Nat

/-- The byte with one bit set. -/
def mask (k : ℕ) : UInt8 := 1 <<< UInt8.ofNat k

theorem toNat_mask {k : ℕ} (hk : k < 8) : (mask k).toNat = 2 ^ k := by
  have hall : ∀ k : Fin 8, (mask k).toNat = 2 ^ k.val := by decide
  exact hall ⟨k, hk⟩

theorem and_mask_ne_zero (x : UInt8) {k : ℕ} (hk : k < 8) :
    x &&& mask k ≠ 0 ↔ x.toNat.testBit k = true := by
  rw [Ne, ← UInt8.toNat_inj, UInt8.toNat_and, toNat_mask hk, UInt8.toNat_zero, and_two_pow]
  cases x.toNat.testBit k <;> simp

theorem testBit_or_mask (x : UInt8) {k j : ℕ} (hk : k < 8) :
    (x ||| mask k).toNat.testBit j = if j = k then true else x.toNat.testBit j := by
  rw [UInt8.toNat_or, toNat_mask hk, testBit_or, testBit_two_pow]
  by_cases hj : j = k
  · simp [hj]
  · simp [hj, Ne.symm hj]

theorem testBit_and_not_mask (x : UInt8) {k j : ℕ} (hk : k < 8) (hj : j < 8) :
    (x &&& ~~~mask k).toNat.testBit j = if j = k then false else x.toNat.testBit j := by
  have hall : ∀ k j : Fin 8, (~~~mask k).toNat.testBit j.val = !decide (j = k) := by decide
  rw [UInt8.toNat_and, testBit_and, hall ⟨k, hk⟩ ⟨j, hj⟩]
  by_cases hjk : j = k
  · simp [hjk]
  · simp [hjk]

variable {size : ℕ} (b : Bytes size)

/-- Whether a bit is set. -/
def bit (i : ℕ) : Bool := b.get (i / 8) &&& mask (i % 8) ≠ 0

def setBit (i : ℕ) : Bytes size :=
  b.put (i / 8) [b.get (i / 8) ||| mask (i % 8)]

def clearBit (i : ℕ) : Bytes size :=
  b.put (i / 8) [b.get (i / 8) &&& ~~~mask (i % 8)]

theorem bit_eq_testBit (i : ℕ) : b.bit i = (b.get (i / 8)).toNat.testBit (i % 8) := by
  have hmask := and_mask_ne_zero (b.get (i / 8)) (mod_lt i (by decide : 0 < 8))
  rw [bit, Bool.eq_iff_iff, decide_eq_true_eq]
  exact hmask

/-- A bit after a change of the byte that holds bit `i`: the changed byte's, or the old one. -/
theorem bit_put {b : Bytes size} {i j : ℕ} (byte : UInt8) (hi : i < 8 * size) :
    (b.put (i / 8) [byte]).bit j =
      if j / 8 = i / 8 then byte.toNat.testBit (j % 8) else b.bit j := by
  rw [bit_eq_testBit]
  split_ifs with hj
  · rw [hj, get_put (by omega), if_pos le_rfl]
    simp
  · rw [get_put_of_disjoint (by simp; omega), bit_eq_testBit]

theorem bit_setBit {b : Bytes size} {i : ℕ} (hi : i < 8 * size) (j : ℕ) :
    (b.setBit i).bit j = if j = i then true else b.bit j := by
  rw [setBit, bit_put _ hi]
  by_cases hbyte : j / 8 = i / 8
  · rw [if_pos hbyte, testBit_or_mask _ (mod_lt i (by decide)), bit_eq_testBit b j, hbyte]
    have hiff : j % 8 = i % 8 ↔ j = i := by omega
    simp only [hiff]
  · rw [if_neg hbyte, if_neg fun heq ↦ hbyte (by rw [heq])]

theorem bit_clearBit {b : Bytes size} {i : ℕ} (hi : i < 8 * size) (j : ℕ) :
    (b.clearBit i).bit j = if j = i then false else b.bit j := by
  rw [clearBit, bit_put _ hi]
  by_cases hbyte : j / 8 = i / 8
  · rw [if_pos hbyte, testBit_and_not_mask _ (mod_lt i (by decide)) (mod_lt j (by decide)),
      bit_eq_testBit b j, hbyte]
    have hiff : j % 8 = i % 8 ↔ j = i := by omega
    simp only [hiff]
  · rw [if_neg hbyte, if_neg fun heq ↦ hbyte (by rw [heq])]

end EasyKernels.Lib.Bytes
