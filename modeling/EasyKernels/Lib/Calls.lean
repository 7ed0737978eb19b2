import EasyKernels.Lib.Runs

/-!
# Calls that return or stop with a fault

A call is a value of `Except`. `bind_eq_ok` takes a sequence of calls that returned apart, and
`Outcome.ofExcept` makes a call that returns the next state an event of a machine.

`Post r Q` says that `Q` holds of what a call returns, if it does. A call that can also return an
error number returns it with the state after the call, and `Ends r ok err` says what holds after it
in either case. `Post.bind` and `Ends.andThen` are the rules for a sequence of calls.
-/

set_option autoImplicit false

namespace EasyKernels.Lib.Runs

universe u

variable {π : Type*} {α β : Type u}

variable {r : Except π α} {e : π} {ρ : Type*} {Q : ρ → Prop} {P : α → Prop}

theorem bind_eq_ok {f : α → Except π β} {b : β} :
    (r >>= f) = .ok b ↔ ∃ a, r = .ok a ∧ f a = .ok b := by
  cases r <;> simp [bind, Except.bind]

theorem map_eq_ok {f : α → β} {b : β} : r.map f = .ok b ↔ ∃ a, r = .ok a ∧ f a = b := by
  cases r <;> simp [Except.map]

/-- The outcome of a call. -/
def Outcome.ofExcept : Except π α → Outcome π α
  | .ok a => .next a
  | .error e => .fault e

theorem Outcome.ofExcept_eq_next {a : α} : Outcome.ofExcept r = .next a ↔ r = .ok a := by
  cases r <;> simp [Outcome.ofExcept]

theorem Outcome.ofExcept_eq_fault : Outcome.ofExcept r = .fault e ↔ r = .error e := by
  cases r <;> simp [Outcome.ofExcept]

/-! ### Postconditions -/

/-- What holds of the value that a call returns. -/
def Post {ρ : Type*} (r : Except π ρ) (Q : ρ → Prop) : Prop := ∀ a, r = .ok a → Q a

theorem Post.ok {a : ρ} (h : Q a) : Post (.ok a : Except π ρ) Q := by
  intro b hb
  cases hb
  exact h

theorem Post.error : Post (.error e : Except π ρ) Q := by
  intro b hb
  cases hb

theorem Post.bind {f : α → Except π β} {Q : β → Prop} (hr : Post r P)
    (hf : ∀ a, P a → Post (f a) Q) : Post (r >>= f) Q := by
  intro b hb
  obtain ⟨a, ha, hfa⟩ := bind_eq_ok.mp hb
  exact hf a (hr a ha) b hfa

theorem Post.mono {Q : α → Prop} (hr : Post r P) (h : ∀ a, P a → Q a) : Post r Q :=
  fun a ha ↦ h a (hr a ha)

theorem Post.map {f : α → β} {Q : β → Prop} (hr : Post r fun a ↦ Q (f a)) : Post (r.map f) Q := by
  intro b hb
  obtain ⟨a, ha, rfl⟩ := map_eq_ok.mp hb
  exact hr a ha

/-- The value that is spoken of is the one that is returned. -/
theorem Post.self {r : Except π ρ} (hr : Post r Q) : Post r fun a ↦ r = .ok a ∧ Q a :=
  fun a ha ↦ ⟨ha, hr a ha⟩

variable {ε σ γ δ : Type*}

/-- The second call is made with what the first one returns, unless that is an error. -/
def andThen : Except π (Except ε γ × σ) → (γ → σ → Except π (Except ε δ × σ)) →
    Except π (Except ε δ × σ)
  | .error e, _ => .error e
  | .ok (.error e, s), _ => .ok (.error e, s)
  | .ok (.ok a, s), f => f a s

/-- What holds after a call that returns a value, and after one that returns an error. -/
def Ends (r : Except π (Except ε γ × σ)) (ok : γ → σ → Prop) (err : σ → Prop) : Prop :=
  Post r fun p ↦
    match p.1 with
    | .error _ => err p.2
    | .ok a => ok a p.2

theorem Ends.ok {a : γ} {s : σ} {ok : γ → σ → Prop} {err : σ → Prop} (h : ok a s) :
    Ends (.ok (.ok a, s) : Except π (Except ε γ × σ)) ok err :=
  Post.ok h

theorem Ends.error {e : ε} {s : σ} {ok : γ → σ → Prop} {err : σ → Prop} (h : err s) :
    Ends (.ok (.error e, s) : Except π (Except ε γ × σ)) ok err :=
  Post.ok h

theorem Ends.bind {σ : Type u} {γ ε : Type} {f : α → Except π (Except ε γ × σ)} {ok : γ → σ → Prop}
    {err : σ → Prop} (hr : Post r P) (hf : ∀ a, P a → Ends (f a) ok err) : Ends (r >>= f) ok err :=
  Post.bind hr hf

theorem Ends.andThen {r : Except π (Except ε γ × σ)} {f : γ → σ → Except π (Except ε δ × σ)}
    {mid : γ → σ → Prop}
    {ok : δ → σ → Prop} {err : σ → Prop} (hr : Ends r mid err)
    (hf : ∀ a s, mid a s → Ends (f a s) ok err) : Ends (andThen r f) ok err := by
  match r, hr with
  | .error _, _ => exact Post.error
  | .ok (.error _, s), hr => exact .error (hr _ rfl)
  | .ok (.ok a, s), hr => exact hf a s (hr _ rfl)

end EasyKernels.Lib.Runs
