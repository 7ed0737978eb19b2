import Mathlib.Data.List.Induction

/-!
# Runs of event-driven machines

A machine is a function `step` from a state and an event to an `Outcome`: the event is not enabled,
it stops the machine with a fault, or it leads to a next state. `run` folds a list of events over a
state and is defined when every event in turn leads to a next state. `run_induction` is the
invariant rule: a relation between the events so far and the state holds along every run when it
holds at the start and every step keeps it. `Meets` says that every step of a run satisfies a
condition on the state before it, and `run_induction_of_meets` is the invariant rule for such runs;
where the condition is decidable, `decidableMeets` decides it along a concrete run, as
`decidableEnds` and `decidableFails` decide what a run or a step leads to, and `run_get` and
`step_get` name the state there. `stays_iff_meets` is the two-sided form, for a property that a step
keeps exactly under a condition. `trace` lists what an observer sees of a run, where a label says
what is seen of each step.

The definitions are computable, so a run on a concrete list of events can be evaluated.
-/

set_option autoImplicit false

namespace EasyKernels.Lib.Runs

open List

/-- What an event does in a state: nothing, because it is not enabled; it stops the machine with a
fault; or it leads to a next state. -/
inductive Outcome (π σ : Type*)
  | blocked
  | fault (reason : π)
  | next (state : σ)
  deriving DecidableEq, Repr

variable {σ ε π : Type*}

/-- The state after a list of events, when every one of them in turn leads to a next state. -/
def run (step : σ → ε → Outcome π σ) : σ → List ε → Option σ
  | s, [] => some s
  | s, e :: es =>
    match step s e with
    | .next t => run step t es
    | _ => none

variable {step : σ → ε → Outcome π σ}

@[simp] theorem run_nil (s : σ) : run step s [] = some s := rfl

variable {s t : σ} {e : ε} {es : List ε} {C : σ → ε → Prop}

theorem run_cons_eq_some :
    run step s (e :: es) = some t ↔ ∃ u, step s e = .next u ∧ run step u es = some t := by
  simp only [run]
  cases hstep : step s e <;> simp

theorem run_append (s : σ) (es fs : List ε) :
    run step s (es ++ fs) = (run step s es).bind fun u ↦ run step u fs := by
  induction es generalizing s with
  | nil => rfl
  | cons e es ih =>
    simp only [cons_append, run]
    cases step s e with
    | next u => exact ih u
    | blocked => rfl
    | fault reason => rfl

/-- An event with a guard leads to a next state when the guard holds. -/
theorem guard_eq_next {c : Prop} [Decidable c] {o : Outcome π σ} :
    (if c then o else .blocked) = .next t ↔ c ∧ o = .next t := by
  split_ifs with hc <;> simp [hc]

variable {fs : List ε} {I : List ε → σ → Prop} {u : σ}

theorem run_append_eq_some :
    run step s (es ++ fs) = some t ↔ ∃ u, run step s es = some u ∧ run step u fs = some t := by
  rw [run_append, Option.bind_eq_some_iff]

theorem run_concat_eq_some :
    run step s (es ++ [e]) = some t ↔ ∃ u, run step s es = some u ∧ step u e = .next t := by
  rw [run_append_eq_some]
  simp only [run_cons_eq_some, run_nil, Option.some.injEq, exists_eq_right]

/-- The invariant rule: a relation between the events so far and the state that holds at the start
and is kept by every step holds along every run. -/
theorem run_induction (hstart : I [] s)
    (hstep : ∀ es u e t, run step s es = some u → I es u → step u e = .next t → I (es ++ [e]) t)
    (hrun : run step s es = some t) : I es t := by
  induction es using reverseRecOn generalizing t with
  | nil =>
    obtain rfl : s = t := by simpa using hrun
    exact hstart
  | append_singleton es e ih =>
    obtain ⟨u, hu, hnext⟩ := run_concat_eq_some.mp hrun
    exact hstep es u e t hu (ih hu) hnext

/-- The invariant rule for a property of the state alone. -/
theorem run_invariant {I : σ → Prop} (hstart : I s)
    (hstep : ∀ u e t, I u → step u e = .next t → I t) (hrun : run step s es = some t) : I t :=
  run_induction (I := fun _ ↦ I) hstart (fun _ u e t _ hu hnext ↦ hstep u e t hu hnext) hrun

/-- Every step of the run of `es` from `s` satisfies `C`, a condition on the state before the step
and the event. -/
def Meets (step : σ → ε → Outcome π σ) (C : σ → ε → Prop) (s : σ) (es : List ε) : Prop :=
  ∀ before e after u, es = before ++ e :: after → run step s before = some u → C u e

theorem Meets.of_append (h : Meets step C s (es ++ fs)) : Meets step C s es :=
  fun before e after u heq hu ↦ h before e (after ++ fs) u (by simp [heq]) hu

theorem Meets.last (h : Meets step C s (es ++ [e])) (hu : run step s es = some u) : C u e :=
  h es e [] u rfl hu

theorem meets_nil (C : σ → ε → Prop) (s : σ) : Meets step C s [] := by
  intro before e after u heq
  simp at heq

theorem meets_cons :
    Meets step C s (e :: es) ↔ C s e ∧ ∀ t, step s e = .next t → Meets step C t es := by
  constructor
  · intro h
    refine ⟨h [] e es s rfl rfl, fun t ht before e' after u heq hu ↦ ?_⟩
    exact h (e :: before) e' after u (by simp [heq]) (run_cons_eq_some.mpr ⟨t, ht, hu⟩)
  · rintro ⟨hfirst, hrest⟩ before e' after u heq hu
    cases before with
    | nil =>
      obtain ⟨rfl, -⟩ := cons.inj heq
      obtain rfl : s = u := by simpa using hu
      exact hfirst
    | cons b before =>
      obtain ⟨rfl, hes⟩ := cons.inj heq
      obtain ⟨t, ht, hu⟩ := run_cons_eq_some.mp hu
      exact hrest t ht before e' after u hes hu

instance decidableMeets (C : σ → ε → Prop) [∀ s e, Decidable (C s e)] :
    (s : σ) → (es : List ε) → Decidable (Meets step C s es)
  | s, [] => .isTrue (meets_nil C s)
  | s, e :: es =>
    match h : step s e with
    | .next t =>
      have := decidableMeets C t es
      decidable_of_iff (C s e ∧ Meets step C t es) (by rw [meets_cons, h]; simp)
    | .blocked => decidable_of_iff (C s e) (by rw [meets_cons, h]; simp)
    | .fault _ => decidable_of_iff (C s e) (by rw [meets_cons, h]; simp)

/-- A run that comes to its end, and the state there. -/
theorem run_get (h : (run step s es).isSome) : run step s es = some ((run step s es).get h) :=
  (Option.some_get h).symm

/-- The state that a step leads to. -/
def Outcome.state? : Outcome π σ → Option σ
  | .next t => some t
  | _ => none

theorem step_get : {o : Outcome π σ} → (h : o.state?.isSome) → o = .next (o.state?.get h)
  | .next _, _ => rfl

section Decidable

variable {P : σ → Prop} [DecidablePred P]

/-- Whether a run ends in a state with a property. -/
instance decidableEnds (o : Option σ) : Decidable (∃ t, o = some t ∧ P t) :=
  decidable_of_iff (o.any fun t ↦ decide (P t)) (by cases o <;> simp)

instance decidableFails [DecidableEq π] (reason : π) :
    (o : Outcome π σ) → Decidable (o = .fault reason)
  | .fault r => decidable_of_iff (r = reason) (by simp)
  | .blocked | .next _ => .isFalse (by simp)

end Decidable

/-- The invariant rule for runs whose steps all satisfy a condition. -/
theorem run_induction_of_meets (hstart : I [] s)
    (hstep : ∀ es u e t, run step s es = some u → I es u → C u e → step u e = .next t →
      I (es ++ [e]) t) (hmeets : Meets step C s es) (hrun : run step s es = some t) : I es t := by
  refine run_induction (I := fun es t ↦ Meets step C s es → I es t) (fun _ ↦ hstart) ?_ hrun hmeets
  intro es u e t hu ih hnext hall
  exact hstep es u e t hu (ih hall.of_append) (hall.last hu) hnext

/-- A property that each step keeps exactly when it satisfies a condition holds at every point of a
run exactly when all its steps satisfy the condition. -/
theorem stays_iff_meets {I : σ → Prop} (hstart : I s)
    (hkeep : ∀ es u e v, run step s es = some u → I u → step u e = .next v → (I v ↔ C u e))
    (hrun : run step s es = some t) :
    (∀ before after u, es = before ++ after → run step s before = some u → I u) ↔
      Meets step C s es := by
  constructor
  · intro hstays before e after u heq hu
    obtain ⟨v, hv⟩ : ∃ v, step u e = .next v := by
      rw [heq, run_append_eq_some] at hrun
      obtain ⟨w, hw, hrest⟩ := hrun
      rw [hu] at hw
      cases hw
      obtain ⟨v, hv, -⟩ := run_cons_eq_some.mp hrest
      exact ⟨v, hv⟩
    have hafter : run step s (before ++ [e]) = some v := run_concat_eq_some.mpr ⟨u, hu, hv⟩
    refine (hkeep before u e v hu (hstays before _ u heq hu) hv).mp ?_
    exact hstays (before ++ [e]) after v (by rw [heq, append_assoc]; rfl) hafter
  · intro hmeets before after u heq hu
    refine run_induction_of_meets (I := fun _ u ↦ I u) hstart
      (fun es v e w hv hI hC hstep ↦ ?_) (heq ▸ hmeets).of_append hu
    exact (hkeep es v e w hv hI hstep).mpr hC

/-- What an observer sees of the run of `es` from `s`, as long as the events lead to next states. -/
def trace {α : Type*} (step : σ → ε → Outcome π σ) (label : σ → ε → Option α) :
    σ → List ε → List α
  | _, [] => []
  | s, e :: es =>
    match step s e with
    | .next t => (label s e).toList ++ trace step label t es
    | _ => []

theorem trace_concat {α : Type*} (label : σ → ε → Option α) (hrun : run step s es = some u)
    (hstep : step u e = .next t) :
    trace step label s (es ++ [e]) = trace step label s es ++ (label u e).toList := by
  induction es generalizing s with
  | nil =>
    obtain rfl : s = u := by simpa using hrun
    simp [trace, hstep]
  | cons first rest ih =>
    obtain ⟨v, hv, hrest⟩ := run_cons_eq_some.mp hrun
    simp only [cons_append, trace, hv, ih hrest, append_assoc]

end EasyKernels.Lib.Runs
