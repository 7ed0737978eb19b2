import Mathlib.Data.Set.Basic

/-!
# Ownership of the items of a pool

Slots own items of a pool, each item at most once, and a map of used items records which. This is
what a block allocator keeps: the slots are the places that can hold a block number, the map is the
free map. `Owns.take` gives an unused item to an empty slot, `Owns.release` empties slots and
returns what they owned, and `Owns.used_iff_existsUnique` reads the map: an item is used exactly
when one slot owns it.
-/

set_option autoImplicit false

namespace EasyKernels.Lib

open Option

variable {σ β : Type*}

/-- Slots own items of `pool`, no item twice, and `used` tells the items that are owned. -/
structure Owns (r : σ → Option β) (used : β → Bool) (pool : Set β) : Prop where
  mem_pool : ∀ s b, r s = some b → b ∈ pool
  inj : ∀ s t b, r s = some b → r t = some b → s = t
  used_iff : ∀ b ∈ pool, used b = true ↔ ∃ s, r s = some b

namespace Owns

variable {r r' : σ → Option β} {used used' : β → Bool} {pool : Set β}

section

variable (h : Owns r used pool)

include h

theorem used_of_owned {s : σ} {b : β} (hs : r s = some b) : used b = true :=
  (h.used_iff b (h.mem_pool s b hs)).mpr ⟨s, hs⟩

theorem used_iff_existsUnique {b : β} (hb : b ∈ pool) : used b = true ↔ ∃! s, r s = some b := by
  rw [h.used_iff b hb]
  constructor
  · rintro ⟨s, hs⟩
    exact ⟨s, hs, fun t ht ↦ h.inj t s b ht hs⟩
  · rintro ⟨s, hs, -⟩
    exact ⟨s, hs⟩

theorem congr (hr : ∀ s, r' s = r s) (hused : ∀ b ∈ pool, used' b = used b) :
    Owns r' used' pool where
  mem_pool := fun s b hs ↦ h.mem_pool s b (hr s ▸ hs)
  inj := fun s t b hs ht ↦ h.inj s t b (hr s ▸ hs) (hr t ▸ ht)
  used_iff := fun b hb ↦ by simp only [hused b hb, hr, h.used_iff b hb]

/-- An empty slot takes an unused item. -/
theorem take [DecidableEq σ] [DecidableEq β] {s : σ} {b : β} (hs : r s = none) (hb : b ∈ pool)
    (hfree : used b = false) (hr : ∀ t, r' t = if t = s then some b else r t)
    (hused : ∀ c ∈ pool, used' c = if c = b then true else used c) : Owns r' used' pool := by
  have hfresh : ∀ t, r t ≠ some b := by
    intro t ht
    rw [h.used_of_owned ht] at hfree
    simp at hfree
  refine ⟨fun t c ht ↦ ?_, fun t u c ht hu ↦ ?_, fun c hc ↦ ?_⟩
  · rw [hr] at ht
    split_ifs at ht with hts
    · exact some.inj ht ▸ hb
    · exact h.mem_pool t c ht
  · rw [hr] at ht hu
    split_ifs at ht hu with hts hus hus
    · exact hts.trans hus.symm
    · exact absurd (some.inj ht ▸ hu) (hfresh u)
    · exact absurd (some.inj hu ▸ ht) (hfresh t)
    · exact h.inj t u c ht hu
  · rw [hused c hc]
    split_ifs with hcb
    · simp only [true_iff]
      exact ⟨s, by rw [hr, if_pos rfl, hcb]⟩
    · rw [h.used_iff c hc]
      constructor
      · rintro ⟨t, ht⟩
        refine ⟨t, ?_⟩
        rw [hr, if_neg fun hts ↦ ?_, ht]
        rw [hts, hs] at ht
        simp at ht
      · rintro ⟨t, ht⟩
        rw [hr] at ht
        split_ifs at ht with hts
        · exact absurd (some.inj ht).symm hcb
        · exact ⟨t, ht⟩

/-- Some slots give up what they own. -/
theorem release (drop : Set σ) (hdrop : ∀ s ∈ drop, r' s = none)
    (hkeep : ∀ s, s ∉ drop → r' s = r s)
    (hused : ∀ b ∈ pool, used' b = true ↔ used b = true ∧ ∀ s ∈ drop, r s ≠ some b) :
    Owns r' used' pool := by
  have hold : ∀ s b, r' s = some b → s ∉ drop ∧ r s = some b := by
    intro s b hs
    have hsd : s ∉ drop := by
      intro hmem
      rw [hdrop s hmem] at hs
      simp at hs
    exact ⟨hsd, hkeep s hsd ▸ hs⟩
  refine ⟨fun s b hs ↦ h.mem_pool s b (hold s b hs).2, fun s t b hs ht ↦ ?_, fun b hb ↦ ?_⟩
  · exact h.inj s t b (hold s b hs).2 (hold t b ht).2
  · rw [hused b hb, h.used_iff b hb]
    constructor
    · rintro ⟨⟨s, hs⟩, hnone⟩
      have hsd : s ∉ drop := fun hmem ↦ hnone s hmem hs
      exact ⟨s, by rw [hkeep s hsd, hs]⟩
    · rintro ⟨s, hs⟩
      obtain ⟨hsd, hs'⟩ := hold s b hs
      refine ⟨⟨s, hs'⟩, fun t ht hrt ↦ hsd ?_⟩
      exact h.inj t s b hrt hs' ▸ ht

end

end Owns

end EasyKernels.Lib
