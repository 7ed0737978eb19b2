import Mathlib.Algebra.Order.BigOperators.Group.Finset
import Mathlib.Data.Fintype.BigOperators

/-!
# Counting references

Threads hold references to objects, each a list of them, and `refs` counts the references to an
object over all threads. This is what a reference count is to be compared with. `refs_congr`,
`refs_cons` and `refs_pos` say how the number moves when threads only reorder their references,
when one thread gains one, and that it is positive while somebody holds one. `eq_of_refs_le_one`
says that an object with one reference has one holder. A count that is kept in a byte or a word goes
up and down with the number while it does not wrap.
-/

set_option autoImplicit false

namespace EasyKernels.Lib.References

open Finset List

variable {τ ι X : Type*} [Fintype τ] [DecidableEq ι] (obj : X → ι)

/-- The number of references that the threads hold to an object. -/
def refs (held : τ → List X) (i : ι) : ℕ := ∑ t, (held t).countP fun x ↦ obj x = i

variable {f g : τ → List X}

theorem refs_congr (h : ∀ t, (g t).Perm (f t)) (i : ι) : refs obj g i = refs obj f i :=
  sum_congr rfl fun t _ ↦ (h t).countP_eq _

/-- What one thread takes and gives back. -/
theorem refs_move [DecidableEq τ] {t : τ} (hothers : ∀ u, u ≠ t → (g u).Perm (f u)) (i : ι) :
    refs obj g i + (f t).countP (fun x ↦ obj x = i) =
      refs obj f i + (g t).countP fun x ↦ obj x = i := by
  have hrest : ∑ u ∈ univ.erase t, (g u).countP (fun y ↦ obj y = i) =
      ∑ u ∈ univ.erase t, (f u).countP fun y ↦ obj y = i :=
    sum_congr rfl fun u hu ↦ (hothers u (ne_of_mem_erase hu)).countP_eq _
  have hnew := sum_erase_add univ (fun u ↦ (g u).countP fun y ↦ obj y = i) (mem_univ t)
  have hold := sum_erase_add univ (fun u ↦ (f u).countP fun y ↦ obj y = i) (mem_univ t)
  simp only [refs]
  omega

/-- One thread holds one reference more. -/
theorem refs_cons [DecidableEq τ] {t : τ} {x : X} (hself : (g t).Perm (x :: f t))
    (hothers : ∀ u, u ≠ t → (g u).Perm (f u)) (i : ι) :
    refs obj g i = refs obj f i + if obj x = i then 1 else 0 := by
  have hmove := refs_move obj hothers i
  rw [hself.countP_eq, countP_cons] at hmove
  simp only [decide_eq_true_eq] at hmove
  omega

/-- An object to which somebody holds a reference. -/
theorem refs_pos {t : τ} {x : X} (hx : x ∈ f t) : 0 < refs obj f (obj x) := by
  refine sum_pos' (fun _ _ ↦ Nat.zero_le _) ⟨t, mem_univ t, ?_⟩
  exact countP_pos_iff.mpr ⟨x, hx, by simp⟩

/-- Nobody else holds a reference to an object with only one. -/
theorem eq_of_refs_le_one [DecidableEq τ] {t u : τ} {x y : X} (hx : x ∈ f t) (hy : y ∈ f u)
    (heq : obj x = obj y) (hle : refs obj f (obj x) ≤ 1) : t = u := by
  by_contra hne
  have hsub := sum_le_sum_of_subset (f := fun v ↦ (f v).countP fun z ↦ obj z = obj x)
    (subset_univ {t, u})
  rw [sum_pair hne] at hsub
  have ht : 0 < (f t).countP fun z ↦ obj z = obj x :=
    countP_pos_iff.mpr ⟨x, hx, by simp⟩
  have hu : 0 < (f u).countP fun z ↦ obj z = obj x :=
    countP_pos_iff.mpr ⟨y, hy, by simp [heq]⟩
  simp only [refs] at hle
  omega

/-! ### Counts in bytes and words -/

theorem byte_add_one {c : UInt8} (hc : c ≠ 255) : (c + 1).toNat = c.toNat + 1 := by
  have hlt := c.toNat_lt
  have hne : c.toNat ≠ 255 := fun heq ↦ hc (UInt8.toNat_inj.mp heq)
  rw [UInt8.toNat_add, UInt8.toNat_one]
  omega

theorem byte_sub_one {c : UInt8} (hc : 0 < c.toNat) : (c - 1).toNat = c.toNat - 1 :=
  UInt8.toNat_sub_of_le c 1 (UInt8.le_iff_toNat_le.mpr hc)

theorem word_add_one {c : UInt16} (hc : c ≠ 65535) : (c + 1).toNat = c.toNat + 1 := by
  have hlt := c.toNat_lt
  have hne : c.toNat ≠ 65535 := fun heq ↦ hc (UInt16.toNat_inj.mp heq)
  rw [UInt16.toNat_add, UInt16.toNat_one]
  omega

end EasyKernels.Lib.References
