import Mathlib.Data.List.Nodup

/-!
# Linked lists through a pointer field

A linked list is a pointer to its first cell and a function `next` from a cell to the cell after
it. `Chain next h l` says that `l` lists the cells met from `h` on, up to the null pointer. A chain
is determined by its first pointer (`Chain.unique`), it meets no cell twice (`Chain.nodup`), and it
does not see the pointers of cells outside it (`Chain.congr`). `Chain.concat` puts a cell at
the end.
-/

set_option autoImplicit false

namespace EasyKernels.Lib.Chains

open List Function

variable {α : Type*}

/-- The list of the cells that are met from a pointer on by following `next`. -/
def Chain (next : α → Option α) : Option α → List α → Prop
  | h, [] => h = none
  | h, a :: l => h = some a ∧ Chain next (next a) l

variable {next next' : α → Option α} {h : Option α} {a : α} {l l' : List α}

@[simp] theorem chain_nil : Chain next h [] ↔ h = none := .rfl

@[simp] theorem chain_cons : Chain next h (a :: l) ↔ h = some a ∧ Chain next (next a) l := .rfl

theorem Chain.eq_nil (hl : Chain next none l) : l = [] := by
  cases l with
  | nil => rfl
  | cons a l => simp at hl

theorem Chain.eq_cons (hl : Chain next (some a) l) :
    ∃ l', l = a :: l' ∧ Chain next (next a) l' := by
  cases l with
  | nil => simp at hl
  | cons b l =>
    obtain ⟨hb, hl⟩ := hl
    cases hb
    exact ⟨l, rfl, hl⟩

theorem Chain.unique (hl : Chain next h l) (hl' : Chain next h l') : l = l' := by
  induction l generalizing h l' with
  | nil =>
    subst hl
    exact hl'.eq_nil.symm
  | cons a l ih =>
    obtain ⟨rfl, hl⟩ := hl
    obtain ⟨l'', rfl, hl''⟩ := hl'.eq_cons
    rw [ih hl hl'']

theorem Chain.of_append (hl : Chain next h (l ++ a :: l')) : Chain next (some a) (a :: l') := by
  induction l generalizing h with
  | nil => exact ⟨rfl, hl.2⟩
  | cons b l ih => exact ih hl.2

/-- A chain that ends meets no cell twice: what follows a cell is determined by the cell. -/
theorem Chain.nodup (hl : Chain next h l) : l.Nodup := by
  induction l generalizing h with
  | nil => exact nodup_nil
  | cons a l ih =>
    refine nodup_cons.mpr ⟨fun hmem ↦ ?_, ih hl.2⟩
    obtain ⟨before, after, rfl⟩ := append_of_mem hmem
    have hsame := hl.2.unique (hl.2.of_append).2
    have hlength := congrArg length hsame
    simp at hlength
    omega

theorem Chain.congr (hl : Chain next h l) (hsame : ∀ b ∈ l, next' b = next b) :
    Chain next' h l := by
  induction l generalizing h with
  | nil => exact hl
  | cons a l ih =>
    obtain ⟨hh, hl⟩ := hl
    refine ⟨hh, ?_⟩
    rw [hsame a mem_cons_self]
    exact ih hl fun b hb ↦ hsame b (mem_cons_of_mem a hb)

/-- The last pointer of a chain is set. -/
theorem Chain.concat [DecidableEq α] {last : α} (hl : Chain next h (l ++ [last]))
    (ha : a ∉ l ++ [last]) (hnext : next a = none) :
    Chain (update next last (some a)) h (l ++ [last] ++ [a]) := by
  have hnodup := hl.nodup
  induction l generalizing h with
  | nil =>
    have hne : a ≠ last := fun heq ↦ ha (mem_singleton.mpr heq)
    refine ⟨hl.1, ?_⟩
    rw [update_self]
    exact ⟨rfl, (update_of_ne hne _ _).trans hnext⟩
  | cons b l ih =>
    obtain ⟨rfl, hrest⟩ := hl
    have hb : b ≠ last := by
      rintro rfl
      exact (nodup_cons.mp hnodup).1 (mem_append_right _ (mem_singleton_self _))
    refine ⟨rfl, ?_⟩
    rw [update_of_ne hb]
    exact ih hrest (fun hmem ↦ ha (mem_cons_of_mem _ hmem)) hrest.nodup

end EasyKernels.Lib.Chains
