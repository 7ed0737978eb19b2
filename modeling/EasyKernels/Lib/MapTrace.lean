import Mathlib.Logic.Function.Basic

/-!
# Accesses to a plain map

The abstract memory that a cache or a paged memory has to look like: a map from keys to values, a
write that replaces one value and a read that returns one. A list of accesses is `Faithful` to a
first map when every read in it returns the last value written to its key before, or the first
map's value when nothing was written. `faithful_concat_write` and `faithful_concat_read` add one
access at the end, which is how a run of a machine grows its list, and `Faithful.map` looks at the
values through a function.
-/

set_option autoImplicit false

namespace EasyKernels.Lib.MapTrace

/-- A write of a value to a key, or a read that returned one. -/
inductive Access (κ α : Type*)
  | write (key : κ) (value : α)
  | read (key : κ) (value : α)
  deriving DecidableEq, Repr

variable {κ α : Type*} [DecidableEq κ] (m : κ → α)

/-- The map after one access. -/
def Access.apply : Access κ α → κ → α
  | .write k a => Function.update m k a
  | .read _ _ => m

/-- The map after a list of accesses. -/
def replay (accesses : List (Access κ α)) : κ → α :=
  accesses.foldl Access.apply m

/-- Every read of the list returns what the map holds at that moment. -/
def Faithful (m : κ → α) : List (Access κ α) → Prop
  | [] => True
  | .write k a :: rest => Faithful (Function.update m k a) rest
  | .read k a :: rest => m k = a ∧ Faithful m rest

theorem replay_concat (accesses : List (Access κ α)) (access : Access κ α) :
    replay m (accesses ++ [access]) = access.apply (replay m accesses) := by
  simp [replay]

variable {m : κ → α} {accesses : List (Access κ α)}

theorem faithful_concat_write {k : κ} {a : α} :
    Faithful m (accesses ++ [.write k a]) ↔ Faithful m accesses := by
  induction accesses generalizing m with
  | nil => simp [Faithful]
  | cons first rest ih =>
    cases first with
    | write => exact ih
    | read => exact and_congr_right fun _ ↦ ih

theorem faithful_concat_read {k : κ} {a : α} : Faithful m (accesses ++ [.read k a]) ↔
      Faithful m accesses ∧ replay m accesses k = a := by
  induction accesses generalizing m with
  | nil => simp [Faithful, replay]
  | cons first rest ih =>
    cases first with
    | write => exact ih
    | read =>
      simp only [List.cons_append, Faithful, ih, and_assoc]
      rfl

/-- What is seen of an access when the values are seen through a function. -/
def Access.map {β : Type*} (f : α → β) : Access κ α → Access κ β
  | .write k a => .write k (f a)
  | .read k a => .read k (f a)

theorem Faithful.map {β : Type*} (f : α → β) (h : Faithful m accesses) :
    Faithful (f ∘ m) (accesses.map (Access.map f)) := by
  induction accesses generalizing m with
  | nil => trivial
  | cons first rest ih =>
    cases first with
    | write k a =>
      change Faithful (Function.update (f ∘ m) k (f a)) _
      rw [← Function.comp_update]
      exact ih h
    | read => exact ⟨congrArg f h.1, ih h.2⟩

end EasyKernels.Lib.MapTrace
