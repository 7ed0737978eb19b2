import EasyKernels.Linux.Tty

/-!
# The line counter of a tty

`tty->secondary->data` should be the number of line delimiters in the secondary queue.
`copy_to_cooked` counts a delimiter before it calls the driver and puts the byte in the queue after
it, so the count includes the bytes that are about to be put (`counted`). `Counted.step` says that
every step keeps this, and `ttyLines` is the result for whole runs, under a condition on each step:

* a change of the settings leaves the number of delimiters as it was (`Steady`): if it makes another
  byte the EOF character while that byte is queued, then the counter is wrong from then on;
* when the driver has been called in the middle of `copy_to_cooked`, an interrupt that came in
  between has not filled the secondary queue, or put a delimiter where a byte is about to be
  erased.

A canonical `tty_read` then waits exactly when no delimiter is queued and the raw queue is not full,
except when the secondary queue is empty and the raw queue is full: there it waits as well.
-/

set_option autoImplicit false

namespace EasyKernels.Linux.Tty

open List Lib.Runs

variable {κ : Type} {con : κ → UInt8 → κ × Reaction} {s t : State κ}

/-- The number of delimiters. -/
def Termios.lines (t : Termios) (cs : List UInt8) : ℕ := cs.countP t.delimiter

/-- The byte that a frame is about to put in the secondary queue. -/
def Frame.pending : Frame → Option UInt8
  | .put c => some c
  | _ => none

/-- The delimiters that are queued or about to be, as the settings `t` see them. -/
def State.counted (s : State κ) (t : Termios) : ℕ :=
  t.lines s.secondary.items + t.lines (s.stack.filterMap Frame.pending)

/-- The counter is right. -/
def Counted (s : State κ) : Prop := s.secondary.data = UInt32.ofNat (s.counted s.termios)

/-- What a step must find for the counter to stay right. -/
def Steady (con : κ → UInt8 → κ × Reaction) (s : State κ) : Event → Prop
  | .advance =>
    match s.stack with
    | .put _ :: _ => ¬ s.secondary.full
    | .dec :: _ => ¬ s.secondary.empty ∧ s.termios.delimiter s.secondary.last = false
    | .write (_ + 1) :: _ =>
      s.stopped = false → (s.shown con).2 = .reset →
        s.counted defTermios = s.counted s.termios
    | _ => True
  | .setTermios t => s.counted t = s.counted s.termios
  | _ => True

instance (s : State κ) (e : Event) : Decidable (Steady con s e) := by
  unfold Steady
  split
  · split <;> infer_instance
  · infer_instance
  · infer_instance

/-! ### The pieces of the steps -/

variable (u : Termios)

theorem Termios.lines_append (cs ds : List UInt8) :
    u.lines (cs ++ ds) = u.lines cs + u.lines ds := countP_append

theorem Termios.lines_singleton (c : UInt8) : u.lines [c] = (u.delimiter c).toNat := by
  rw [lines, countP_singleton]
  cases u.delimiter c <;> rfl

open UInt32

theorem ofNat_succ (n : ℕ) : ofNat (n + 1) = ofNat n + 1 := ofNat_add n 1

open State

/-- The counter depends on the settings, the secondary queue and the bytes about to be put only. -/
theorem Counted.of_eq (h : Counted s) (htermios : t.termios = s.termios)
    (hsecondary : t.secondary = s.secondary)
    (hstack : t.stack.filterMap Frame.pending = s.stack.filterMap Frame.pending) : Counted t := by
  rw [Counted, counted, htermios, hsecondary, hstack]
  exact h

theorem Counted.callWrite (h : Counted s) {after : List Frame}
    (hafter : after.filterMap Frame.pending = s.stack.filterMap Frame.pending) :
    Counted (s.callWrite after) := by
  refine h.of_eq rfl rfl ?_
  rw [State.callWrite]
  split_ifs
  · exact hafter
  · exact hafter

/-- A pass counts a line exactly when it is about to put a delimiter. -/
theorem Termios.lines_pass (secondary : Queue) (c : UInt8) :
    u.lines ((u.pass secondary c).frames.filterMap Frame.pending) =
      (u.pass secondary c).counts.toNat := by
  unfold Termios.pass
  split_ifs
  all_goals first | exact u.lines_singleton c | rfl

section

variable (h : Counted s)

include h

theorem Counted.proceed (echo : List UInt8) (write : Bool) {after : List Frame}
    (hafter : after.filterMap Frame.pending = s.stack.filterMap Frame.pending) :
    Counted (s.proceed echo write after) := by
  rw [State.proceed]
  split_ifs
  · exact .callWrite (s := s.putWrite echo) h hafter
  · exact h.of_eq rfl rfl hafter

theorem Counted.applyPass {p : Pass}
    (hlines : s.termios.lines (p.frames.filterMap Frame.pending) = p.counts.toNat) :
    Counted (s.applyPass p s.stack) := by
  have hframes : (p.frames ++ s.stack).filterMap Frame.pending =
      p.frames.filterMap Frame.pending ++ s.stack.filterMap Frame.pending := filterMap_append
  -- the frames are put on the stack first: then the rest of the pass leaves the count alone
  refine Counted.proceed (s := { s with
    stopped := p.stopped.getD s.stopped
    secondary := { s.secondary with
      data := if p.counts then s.secondary.data + 1 else s.secondary.data }
    stack := p.frames ++ s.stack }) ?_ _ _ rfl
  show (if p.counts then s.secondary.data + 1 else s.secondary.data) =
    ofNat (s.termios.lines s.secondary.items +
      s.termios.lines ((p.frames ++ s.stack).filterMap Frame.pending))
  rw [hframes, Termios.lines_append, hlines, Nat.add_left_comm]
  rw [Counted, counted] at h
  cases p.counts with
  | true => rw [h, Bool.toNat_true, Nat.add_comm 1, ofNat_succ, if_pos rfl]
  | false => rw [h, Bool.toNat_false, Nat.zero_add, if_neg Bool.false_ne_true]

theorem Counted.take (hsome : ¬ s.secondary.empty) : Counted s.take := by
  rw [Queue.empty_iff] at hsome
  obtain ⟨c, rest, hitems⟩ := exists_cons_of_ne_nil hsome
  obtain ⟨hc, hrest⟩ := Queue.items_getch hitems
  rw [Counted, counted, hitems, ← singleton_append, Termios.lines_append,
    Termios.lines_singleton] at h
  show (if s.termios.delimiter s.secondary.getch.1 then s.secondary.data - 1
    else s.secondary.data) = ofNat (s.termios.lines s.secondary.getch.2.items +
      s.termios.lines (s.stack.filterMap Frame.pending))
  rw [hc, hrest, h, Nat.add_assoc]
  cases s.termios.delimiter c with
  | true => rw [Bool.toNat_true, Nat.add_comm 1, ofNat_succ, UInt32.add_sub_cancel, if_pos rfl]
  | false => rw [Bool.toNat_false, Nat.zero_add, if_neg Bool.false_ne_true]

theorem Counted.leave (i : ℕ) (r : Reader) : Counted (s.leave i r) := by
  rw [State.leave]
  split_ifs
  · exact h
  · exact h

theorem Counted.readPass (hsome : ¬ s.secondary.empty) (i : ℕ) (r : Reader) :
    Counted (s.readPass i r) := by
  rw [State.readPass]
  split_ifs
  · exact (h.take hsome).leave i r
  · exact h.take hsome

/-! ### The steps -/

variable {rest : List Frame}

theorem Counted.cook (hstack : s.stack = .loop :: rest) : Counted (s.cook rest) := by
  rw [State.cook]
  split_ifs
  · refine h.of_eq rfl rfl ?_
    rw [hstack]
    rfl
  · cases s.termios.translate s.readQ.getch.1 with
    | none => exact h
    | some c =>
      rw [← hstack]
      exact .applyPass (s := { s with readQ := s.readQ.getch.2 }) h
        (s.termios.lines_pass s.secondary c)

theorem Counted.killLine (hstack : s.stack = .kill :: rest) : Counted (s.killLine rest) := by
  rw [State.killLine]
  split_ifs
  · refine h.of_eq rfl rfl ?_
    rw [hstack]
    rfl
  · refine h.proceed _ _ ?_
    rw [hstack]
    rfl

theorem Counted.dec (hstack : s.stack = .dec :: rest) (hsome : ¬ s.secondary.empty)
    (hlast : s.termios.delimiter s.secondary.last = false) :
    Counted { s with secondary := s.secondary.dec, stack := rest } := by
  rw [Queue.empty_iff] at hsome
  have hitems := (dropLast_append_getLast hsome).symm
  obtain ⟨hc, hdec⟩ := Queue.items_dec hitems
  rw [Counted, counted, hstack, hitems, Termios.lines_append, Termios.lines_singleton, ← hc,
    hlast] at h
  show s.secondary.data = ofNat (s.termios.lines s.secondary.dec.items +
    s.termios.lines (rest.filterMap Frame.pending))
  rw [hdec]
  exact h

theorem Counted.put {c : UInt8} (hstack : s.stack = .put c :: rest) (hroom : ¬ s.secondary.full) :
    Counted { s.putSecondary [c] with stack := rest } := by
  have hpending : (Frame.put c :: rest).filterMap Frame.pending =
      [c] ++ rest.filterMap Frame.pending := rfl
  rw [Counted, counted, hstack, hpending, Termios.lines_append, ← Nat.add_assoc,
    ← Termios.lines_append, ← Queue.items_putch hroom] at h
  exact h

theorem Counted.conWrite {nr : ℕ} (hstack : s.stack = .write (nr + 1) :: rest)
    (hreset : s.stopped = false → (s.shown con).2 = .reset →
      s.counted defTermios = s.counted s.termios) : Counted (s.conWrite con nr rest) := by
  have hrest : rest.filterMap Frame.pending = s.stack.filterMap Frame.pending := by
    rw [hstack]
    rfl
  rw [State.conWrite]
  split_ifs with hstopped
  · exact h.of_eq rfl rfl hrest
  · rw [Bool.not_eq_true] at hstopped
    cases hreaction : (s.shown con).2 with
    | none => exact h.of_eq rfl rfl hrest
    | respond =>
      -- which bytes are put does not matter, and they are in the way of the unifier
      generalize response = cs
      exact h.of_eq rfl rfl hrest
    | reset =>
      rw [Counted, ← hreset hstopped hreaction, counted, ← hrest] at h
      exact h

theorem Counted.advance (hsteady : Steady con s .advance) (hstep : advance con s = .next t) :
    Counted t := by
  unfold Tty.advance at hstep
  unfold Steady at hsteady
  split at hstep
  all_goals cases hstep
  · next hstack => exact h.cook hstack
  · next hstack => exact h.killLine hstack
  · next hstack =>
    simp only [hstack] at hsteady
    exact h.dec hstack hsteady.1 hsteady.2
  · next hstack =>
    simp only [hstack] at hsteady
    exact h.put hstack hsteady
  · next hstack =>
    refine h.of_eq rfl rfl ?_
    rw [hstack]
    rfl
  · next hstack =>
    simp only [hstack] at hsteady
    exact h.conWrite hstack hsteady

theorem Counted.readStep {i : ℕ} {r : Reader} (hstep : s.readStep i r = .next t) : Counted t := by
  unfold State.readStep at hstep
  split at hstep
  · split_ifs at hstep with _ hwaits
    · cases hstep
      exact h
    · cases hstep
      exact h
    · cases hstep
      exact h.readPass (fun hempty ↦ hwaits (.inl hempty)) i r
  · dsimp only at hstep
    split_ifs at hstep with hlast
    · cases hstep
      exact h.leave i _
    · cases hstep
      exact h.readPass (fun hempty ↦ hlast (.inr (.inr hempty))) i _

theorem Counted.writeStep (hstack : s.stack = []) {i : ℕ} {w : Writer}
    (hstep : s.writeStep i w = .next t) : Counted t := by
  unfold State.writeStep at hstep
  split at hstep
  · split_ifs at hstep
    all_goals
      cases hstep
      exact h
  · split_ifs at hstep
    cases hstep
    exact h
  · split_ifs at hstep
    -- `tty->write` is called, by a call that has written everything or by one that goes on
    iterate 2
      cases hstep
      refine .callWrite (s := s.setWriter i _) h ?_
      show _ = s.stack.filterMap Frame.pending
      rw [hstack]
    · cases hstep
      exact h
  · split at hstep <;> cases hstep
    exact h

theorem Counted.flow (hstack : s.stack = []) (arg : Flow) : Counted (s.flow arg) := by
  have hcharacter : ∀ v, Counted (s.putCharacter v) := by
    intro v
    rw [putCharacter]
    split_ifs
    · exact h
    · exact h
  cases arg with
  | tcooff =>
    refine .callWrite (s := { s with stopped := true }) h ?_
    rw [hstack]
  | tcoon =>
    refine .callWrite (s := { s with stopped := false }) h ?_
    rw [hstack]
  | tcioff => exact hcharacter vstop
  | tcion => exact hcharacter vstart

end

theorem task_eq_next {o : Outcome Empty (State κ)} (h : s.task o = .next t) :
    s.stack = [] ∧ o = .next t := by
  obtain ⟨hstack, h⟩ := guard_eq_next.mp h
  exact ⟨hstack, h⟩

/-- A steady step keeps the counter right. -/
theorem Counted.step (h : Counted s) {e : Event} (hsteady : Steady con s e)
    (hstep : step con s e = .next t) : Counted t := by
  cases e with
  | input | crFlag =>
    cases hstep
    exact h
  | transmit =>
    rw [Tty.step] at hstep
    split_ifs at hstep
    cases hstep
    exact h
  | advance => exact h.advance hsteady hstep
  | read | write =>
    obtain ⟨-, hstep⟩ := task_eq_next hstep
    split at hstep <;> cases hstep
    exact h
  | reader i =>
    obtain ⟨-, hstep⟩ := task_eq_next hstep
    split at hstep
    · cases hstep
    · exact h.readStep hstep
  | stopReading | stopWriting =>
    obtain ⟨-, hstep⟩ := task_eq_next hstep
    (repeat' split at hstep) <;> cases hstep
    exact h
  | writer i =>
    obtain ⟨hstack, hstep⟩ := task_eq_next hstep
    split at hstep
    · cases hstep
    · exact h.writeStep hstack hstep
  | setTermios u =>
    obtain ⟨-, hstep⟩ := task_eq_next hstep
    cases hstep
    rw [Counted, ← show s.counted u = s.counted s.termios from hsteady] at h
    exact h
  | tcxonc arg =>
    obtain ⟨hstack, hstep⟩ := task_eq_next hstep
    cases hstep
    exact h.flow hstack arg

/-! ### Runs -/

theorem counted_start (u : Termios) (serial : Bool) (k : κ) : Counted (start u serial k) := by
  show 0 = ofNat (u.lines emptyQueue.items + u.lines [])
  rfl

/-- The counter is right along every steady run. -/
theorem counted_run {u : Termios} {serial : Bool} {k : κ} {es : List Event}
    (hrun : run (step con) (start u serial k) es = some s)
    (hsteady : Meets (step con) (Steady con) (start u serial k) es) : Counted s := by
  refine run_induction_of_meets (I := fun _ s ↦ Counted s) (counted_start u serial k) ?_
    hsteady hrun
  intro es u e t _ hcounted hsteady hstep
  exact hcounted.step hsteady hstep

theorem Counted.toNat_data (h : Counted s) (hstack : s.stack = []) :
    s.secondary.data.toNat = s.termios.lines s.secondary.items := by
  have hlines : s.termios.lines s.secondary.items ≤ s.secondary.items.length :=
    countP_le_length
  have hlength := s.secondary.length_items
  have hchars := s.secondary.chars_lt
  rw [Counted, counted, hstack] at h
  rw [h]
  show (ofNat (s.termios.lines s.secondary.items)).toNat = _
  apply toNat_ofNat_of_lt'
  rw [size]
  omega

theorem Termios.lines_eq_zero_iff (u : Termios) (cs : List UInt8) :
    u.lines cs = 0 ↔ ∀ c ∈ cs, u.delimiter c = false := by
  rw [lines, countP_eq_zero]
  simp only [Bool.not_eq_true]

theorem Counted.data_eq_zero_iff (h : Counted s) (hstack : s.stack = []) :
    s.secondary.data = 0 ↔ ∀ c ∈ s.secondary.items, s.termios.delimiter c = false := by
  rw [← Termios.lines_eq_zero_iff, ← h.toNat_data hstack, ← UInt32.toNat_inj]
  rfl

/-- Along a steady run the counter is the number of delimiters in the secondary queue, with those
that `copy_to_cooked` is about to put there. When none of its calls is on the stack these are the
queued ones, and a canonical `tty_read` waits exactly when none is queued and the raw queue is not
full, unless the secondary queue is empty and the raw queue full. -/
theorem ttyLines {u : Termios} {serial : Bool} {k : κ} {es : List Event}
    (hrun : run (step con) (State.start u serial k) es = some s)
    (hsteady : Meets (step con) (Steady con) (State.start u serial k) es) :
    s.secondary.data = UInt32.ofNat (s.counted s.termios) ∧
    (s.stack = [] → s.secondary.data.toNat = s.termios.lines s.secondary.items) ∧
    (s.stack = [] → s.termios.icanon = true →
      ((s.Waits ↔ (∀ c ∈ s.secondary.items, s.termios.delimiter c = false) ∧ ¬ s.readQ.full) ↔
        ¬ (s.secondary.empty ∧ s.readQ.full))) := by
  have hcounted := counted_run hrun hsteady
  refine ⟨hcounted, hcounted.toNat_data, fun hstack hcanon ↦ ?_⟩
  rw [State.Waits, hcounted.data_eq_zero_iff hstack]
  by_cases hempty : s.secondary.empty
  · have hnone : ∀ c ∈ s.secondary.items, s.termios.delimiter c = false := by
      rw [s.secondary.empty_iff.mp hempty]
      exact fun c hc ↦ absurd hc not_mem_nil
    simp only [hempty, true_or, true_iff, true_and]
    exact and_iff_right hnone
  · simp only [hempty, hcanon, false_or, false_and, not_false_eq_true, true_and, iff_true]
    exact and_comm

/-- A console that only shows what it gets. -/
def plain : Unit → UInt8 → Unit × Reaction := fun _ _ ↦ ((), .none)

/-- Settings that are not canonical, with another EOF character. -/
def rawTermios (eof : UInt8) : Termios :=
  { defTermios with lflag := 0o7011, cc := Function.update defTermios.cc veof eof }

/-- A line is typed, and read after a change to settings that are not canonical. -/
def typedLine : List Event :=
  [.input [97, 10]] ++ List.replicate 10 .advance ++
    [.setTermios (rawTermios 4), .read 0 1, .reader 0, .reader 0]

theorem ttyLines_typedLine :
    ∃ s, run (step plain) (State.start defTermios false ()) typedLine = some s ∧
      s.secondary.items = [10] ∧ s.secondary.data.toNat = s.termios.lines s.secondary.items :=
  ⟨_, run_get (by decide +kernel), by decide +kernel,
    (ttyLines (run_get _) (by decide +kernel)).2.1 (by decide +kernel)⟩

/-- The byte 5 is typed and becomes the EOF character while it is queued. `tty_read` counts down for
it although it was not counted: the counter goes below zero. After that the canonical settings come
back and a byte is typed: a canonical `tty_read` does not wait, with no line queued. -/
theorem counterBelowZero :
    ((run (step plain) (State.start defTermios false ())
      ([.input [5]] ++ List.replicate 6 .advance ++
        [.setTermios (rawTermios 5), .read 0 1, .reader 0, .reader 0, .setTermios defTermios,
          .input [65]] ++ List.replicate 5 .advance)).map fun s ↦
      (s.stack, s.secondary.data, s.secondary.items, s.termios.icanon, decide s.Waits)) =
    some ([], 0xffffffff, [65], true, false) ∧ defTermios.lines [65] = 0 := by
  decide +kernel

end EasyKernels.Linux.Tty
