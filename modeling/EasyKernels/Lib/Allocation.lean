import Mathlib.Algebra.Order.BigOperators.Group.Finset
import Mathlib.Data.Fintype.BigOperators

/-!
# Programs that take items from a free list and put them back

`Prog` is the type of such programs: a program returns, stops with a fault, asks for an item, which
may be refused, or gives one back. Several programs may run on one free list; `Prog.step` is one
step of one of them.

`Safe post p M` is the rule of ownership. A program that owns the items `M` gives back only what it
owns, and when it returns, what it owns then and its value satisfy `post`. `Safe.bind`, `Safe.frame`
and `Safe.mono` are the rules by which programs are put together, and `Safe.step` says that a step
moves items between the free list and the owner, so that none is lost or listed twice.

`pool f` collects what a family of places holds. `pool_take` and `pool_release` fill and empty one
place, and `existsUnique_of_count_pool` finds the only place of an item that is in the pool once.
-/

set_option autoImplicit false

namespace EasyKernels.Lib.Allocation

open Finset Function

/-! ### Programs -/

inductive Prog (π β α : Type) : Type
  | ret (a : α)
  | fault (e : π)
  | alloc (next : Option β → Prog π β α)
  | free (v : β) (next : Prog π β α)

variable {π β α γ : Type}

namespace Prog

def bind : Prog π β α → (α → Prog π β γ) → Prog π β γ
  | ret a, f => f a
  | fault e, _ => .fault e
  | alloc next, f => .alloc fun r ↦ (next r).bind f
  | free v next, f => .free v (next.bind f)

instance : Monad (Prog π β) where
  pure := ret
  bind := bind

/-- A request for an item. -/
def take : Prog π β (Option β) := .alloc .ret

/-- An item is given back. -/
def give (v : β) : Prog π β Unit := .free v (.ret ())

/-- The items that a program gives back, one after the other, and the value that it returns, if it
neither asks for an item nor stops with a fault. -/
def gives : Prog π β α → Option (List β × α)
  | .ret a => some ([], a)
  | .free v next => next.gives.map fun r ↦ (v :: r.1, r.2)
  | .fault _ | .alloc _ => none

/-- A step of a program on a free list. A request is refused when the list is empty, and perhaps
also when it is not. -/
def step (refuse : Bool) (list : List β) : Prog π β α → Option (Prog π β α × List β)
  | .alloc next =>
    match refuse, list with
    | false, v :: rest => some (next (some v), rest)
    | _, _ => some (next none, list)
  | .free v next => some (next, v :: list)
  | .ret _ | .fault _ => none

end Prog

/-! ### Ownership -/

/-- A program that owns `M` gives back only what it owns; when it returns, its value and what it
owns satisfy `post`. -/
def Safe (post : α → Multiset β → Prop) : Prog π β α → Multiset β → Prop
  | .ret a, M => post a M
  | .fault _, _ => True
  | .alloc next, M => Safe post (next none) M ∧ ∀ v, Safe post (next (some v)) (v ::ₘ M)
  | .free v next, M => ∃ N, M = v ::ₘ N ∧ Safe post next N

variable {post : α → Multiset β → Prop} {p : Prog π β α} {M : Multiset β}

variable {last : γ → Multiset β → Prop}

theorem Safe.bind {f : α → Prog π β γ} (h : Safe post p M)
    (hnext : ∀ a N, post a N → Safe last (f a) N) : Safe last (p >>= f) M := by
  induction p generalizing M with
  | ret a => exact hnext a M h
  | fault e => trivial
  | alloc next ih => exact ⟨ih none h.1, fun v ↦ ih (some v) (h.2 v)⟩
  | free v next ih =>
    obtain ⟨N, rfl, hN⟩ := h
    exact ⟨N, rfl, ih hN⟩

theorem Safe.mono {post' : α → Multiset β → Prop} (h : Safe post p M)
    (himp : ∀ a N, post a N → post' a N) : Safe post' p M := by
  induction p generalizing M with
  | ret a => exact himp a M h
  | fault e => trivial
  | alloc next ih => exact ⟨ih none h.1, fun v ↦ ih (some v) (h.2 v)⟩
  | free v next ih =>
    obtain ⟨N, rfl, hN⟩ := h
    exact ⟨N, rfl, ih hN⟩

/-- What a program owns besides is left alone. -/
theorem Safe.frame (F : Multiset β) (h : Safe post p M) :
    Safe (fun a N ↦ ∃ K, N = K + F ∧ post a K) p (M + F) := by
  induction p generalizing M with
  | ret a => exact ⟨M, rfl, h⟩
  | fault e => trivial
  | alloc next ih =>
    refine ⟨ih none h.1, fun v ↦ ?_⟩
    rw [← Multiset.cons_add]
    exact ih (some v) (h.2 v)
  | free v next ih =>
    obtain ⟨N, rfl, hN⟩ := h
    exact ⟨N + F, Multiset.cons_add v N F, ih hN⟩

/-- A program whose value says what it owns, before another one. -/
theorem Safe.bindOwn {own : α → Multiset β} {f : α → Prog π β γ} (F : Multiset β)
    (h : Safe (fun a N ↦ N = own a) p M) (hnext : ∀ a, Safe last (f a) (own a + F)) :
    Safe last (p >>= f) (M + F) := by
  refine (h.frame F).bind fun a N hN ↦ ?_
  obtain ⟨K, rfl, rfl⟩ := hN
  exact hnext a

theorem Safe.take {f : Option β → Prog π β γ} (hnone : Safe last (f none) M)
    (hsome : ∀ v, Safe last (f (some v)) (v ::ₘ M)) : Safe last (Prog.take >>= f) M :=
  ⟨hnone, hsome⟩

theorem Safe.give {f : Unit → Prog π β γ} {v : β} (h : Safe last (f ()) M) :
    Safe last (Prog.give v >>= f) (v ::ₘ M) :=
  ⟨M, rfl, h⟩

/-- A step of a program moves items between the free list and the program. -/
theorem Safe.step {refuse : Bool} {list list' : List β} {q : Prog π β α} (h : Safe post p M)
    (hstep : p.step refuse list = some (q, list')) :
    ∃ N, Safe post q N ∧ (list' : Multiset β) + N = list + M := by
  cases p with
  | ret a => cases hstep
  | fault e => cases hstep
  | alloc =>
    simp only [Prog.step] at hstep
    split at hstep
    · rename_i v rest
      cases hstep
      refine ⟨v ::ₘ M, h.2 v, ?_⟩
      rw [← Multiset.cons_coe, Multiset.cons_add, Multiset.add_cons]
    · cases hstep
      exact ⟨M, h.1, rfl⟩
  | free =>
    cases hstep
    obtain ⟨N, rfl, hN⟩ := h
    refine ⟨N, hN, ?_⟩
    rw [← Multiset.cons_coe, Multiset.cons_add, Multiset.add_cons]

/-! ### Places that hold items -/

section Pool

variable {ι κ : Type*} [Fintype ι] [Fintype κ]

/-- What the places hold. -/
@[irreducible]
def pool (f : ι → Option β) : Multiset β := ∑ i, (f i).elim 0 singleton

variable {f : ι → Option β} {v : β}

theorem pool_take [DecidableEq ι] {i : ι} (hi : f i = none) :
    pool (update f i (some v)) = v ::ₘ pool f := by
  have hrest : ∑ j ∈ univ.erase i, (update f i (some v) j).elim 0 singleton =
      ∑ j ∈ univ.erase i, (f j).elim 0 (singleton : β → Multiset β) :=
    sum_congr rfl fun j hj ↦ by rw [update_of_ne (ne_of_mem_erase hj)]
  rw [pool, pool, ← add_sum_erase _ _ (mem_univ i),
    ← add_sum_erase _ _ (mem_univ i), hrest, update_self, hi]
  simp only [Option.elim, zero_add, Multiset.singleton_add]

theorem pool_release [DecidableEq ι] {i : ι} (hi : f i = some v) :
    pool f = v ::ₘ pool (update f i none) := by
  have hback : update (update f i none) i (some v) = f := by
    rw [update_idem, ← hi, update_eq_self]
  rw [← pool_take (update_self i none f), hback]

theorem pool_none : pool (fun _ : ι ↦ (none : Option β)) = 0 := by
  rw [pool]
  exact sum_eq_zero fun _ _ ↦ rfl

theorem pool_sum (f : ι ⊕ κ → Option β) :
    pool f = pool (fun i ↦ f (.inl i)) + pool fun k ↦ f (.inr k) := by
  rw [pool, pool, pool]
  exact Fintype.sum_sum_type _

theorem pool_prod (f : ι × κ → Option β) : pool f = ∑ i, pool fun k ↦ f (i, k) := by
  simp only [pool]
  exact Fintype.sum_prod_type _

theorem pool_option (f : Option ι → Option β) :
    pool f = (f none).elim 0 singleton + pool fun i ↦ f (some i) := by
  rw [pool, pool]
  exact Fintype.sum_option _

theorem pool_equiv (e : ι ≃ κ) (f : κ → Option β) : pool (fun i ↦ f (e i)) = pool f := by
  rw [pool, pool]
  exact e.sum_comp fun k ↦ (f k).elim 0 singleton

variable [DecidableEq β]

theorem count_pool (f : ι → Option β) (v : β) :
    (pool f).count v = (univ.filter fun i ↦ f i = some v).card := by
  rw [pool, Multiset.count_sum', card_filter]
  refine sum_congr rfl fun i _ ↦ ?_
  cases hi : f i with
  | none => simp
  | some w => simp [Multiset.count_singleton, eq_comm]

theorem eq_none_of_count_pool (h : (pool f).count v = 0) (i : ι) : f i ≠ some v := by
  rw [count_pool, card_eq_zero, filter_eq_empty_iff] at h
  exact h (mem_univ i)

/-- An item that is in the pool once is in one place. -/
theorem existsUnique_of_count_pool (h : (pool f).count v = 1) : ∃! i, f i = some v := by
  rw [count_pool, card_eq_one] at h
  obtain ⟨i, hi⟩ := h
  have hmem : ∀ j, f j = some v ↔ j = i := fun j ↦ by
    have hj : j ∈ univ.filter (fun i ↦ f i = some v) ↔ j ∈ ({i} : Finset ι) := by rw [hi]
    rwa [mem_filter, and_iff_right (mem_univ j), mem_singleton] at hj
  exact ⟨i, (hmem i).mpr rfl, fun j hj ↦ (hmem j).mp hj⟩

end Pool

end EasyKernels.Lib.Allocation
