import EasyKernels.Linux.Tty

/-!
# Writers of several ttys

`tty_write` for any number of tasks and ttys. A newline is put as CR LF, and `cr_flag` remembers
between two rounds of the loop that the CR is out. It is a static variable, so all calls share it.
A call that sleeps on a full queue between CR and LF can find the flag cleared, and puts another CR;
a call that starts with a newline in the meantime finds it set, and puts none (`bareNewline`). The
bytes of all calls are right exactly when each newline meets the flag of its own call
(`translated_iff`).

Scope. A call is left out when it is turned away at the start, and `tty->write` is an event of its
own, which takes a byte off the queue. A call may be interrupted before any byte, which includes
the faults of `get_fs_byte`. The bytes that a call has put are recorded.
-/

set_option autoImplicit false

namespace EasyKernels.Linux.TtyWriters

open Function Lib.Runs Tty

/-- Where a call of `tty_write` is: at the head of the outer loop, asleep in `sleep_if_full`, at
the test of the inner loop, or back. -/
inductive Pc
  | outer
  | asleep
  | inner
  | returned
  deriving DecidableEq, Repr

/-- A call with its data, of which `sent` is done and `left` is to do, and the bytes it has put. -/
structure Writer where
  tty : ℕ
  data : List UInt8
  sent : List UInt8
  left : List UInt8
  put : List UInt8
  pc : Pc
  deriving DecidableEq, Repr

structure State where
  termios : ℕ → Termios
  writeQ : ℕ → Queue
  crFlag : Bool
  writer : ℕ → Option Writer

variable (s : State)

def State.setWriter (i : ℕ) (w : Writer) : State :=
  { s with writer := update s.writer i (some w) }

variable (w : Writer)

/-- The call after `o` went out for its byte `c`; `b` and `nr` move if `c` is done. -/
def Writer.putOut (c : UInt8) (rest : List UInt8) (o : UInt8 × Bool) : Writer :=
  { w with
    sent := if o.2 then w.sent ++ [c] else w.sent
    left := if o.2 then rest else w.left
    put := w.put ++ [o.1] }

/-- A round of the inner loop with the byte `c`. -/
def State.putByte (i : ℕ) (w : Writer) (c : UInt8) (rest : List UInt8) : State :=
  let o := (s.termios w.tty).output s.crFlag c
  { s with
    writeQ := update s.writeQ w.tty ((s.writeQ w.tty).putch o.1)
    crFlag := !o.2
    writer := update s.writer i (some (w.putOut c rest o)) }

/-- A call goes on; `signalled` says that a signal is pending. -/
def State.tick (i : ℕ) (w : Writer) (signalled : Bool) : Outcome Empty State :=
  match w.pc with
  | .outer =>
    if w.left = [] then .next (s.setWriter i { w with pc := .returned })
    else if (s.writeQ w.tty).full then .next (s.setWriter i { w with pc := .asleep })
    else .next (s.setWriter i { w with pc := if signalled then .returned else .inner })
  | .asleep =>
    if signalled then .next (s.setWriter i { w with pc := .returned })
    else if (s.writeQ w.tty).left < 128 then .blocked
    else .next (s.setWriter i { w with pc := .inner })
  | .inner =>
    match w.left with
    | [] => .next (s.setWriter i { w with pc := .outer })
    | c :: rest =>
      if (s.writeQ w.tty).full then .next (s.setWriter i { w with pc := .outer })
      else .next (s.putByte i w c rest)
  | .returned => .blocked

/-- A task calls `tty_write`, its call goes on, or the driver of a tty takes a byte. -/
inductive Event
  | call (i tty : ℕ) (data : List UInt8)
  | tick (i : ℕ) (signalled : Bool)
  | take (tty : ℕ)
  deriving DecidableEq, Repr

def step : Event → Outcome Empty State
  | .call i tty data =>
    if (s.writer i).all (·.pc = .returned) then
      .next (s.setWriter i ⟨tty, data, [], data, [], .outer⟩)
    else .blocked
  | .tick i signalled =>
    match s.writer i with
    | none => .blocked
    | some w => s.tick i w signalled
  | .take tty =>
    if (s.writeQ tty).empty then .blocked
    else .next { s with writeQ := update s.writeQ tty (s.writeQ tty).getch.2 }

/-! ### What a call should put -/

/-- Some bytes with every newline replaced by CR LF. -/
def crlf (cs : List UInt8) : List UInt8 := cs.flatMap fun c ↦ if c = 10 then [13, 10] else [c]

theorem crlf_concat (cs : List UInt8) (c : UInt8) :
    crlf (cs ++ [c]) = crlf cs ++ if c = 10 then [13, 10] else [c] := by
  simp [crlf]

/-- The call has put the translation of what is done, and at most the CR of a newline that is next.
So a call with nothing left has put the translation of its data. -/
def Writer.Exact : Prop :=
  w.sent ++ w.left = w.data ∧
    (w.put = crlf w.sent ∨ w.put = crlf w.sent ++ [13] ∧ w.left.head? = some 10)

theorem Writer.Exact.put_eq {w : Writer} (h : w.Exact) (hleft : w.left = []) :
    w.put = crlf w.data := by
  obtain ⟨hdata, hput⟩ := h
  rw [hleft, List.append_nil] at hdata
  rw [← hdata]
  exact hput.resolve_right fun hcr ↦ by simp [hleft] at hcr

/-- If a newline is next, `cr_flag` says whether this call has put the CR of it. -/
def Writer.OwnFlag (s : State) : Prop :=
  w.pc = .inner → ¬ (s.writeQ w.tty).full → w.left.head? = some 10 →
    (s.crFlag = true ↔ w.put ≠ crlf w.sent)

instance (s : State) : Decidable (w.OwnFlag s) :=
  inferInstanceAs (Decidable (_ → ¬ _ → _ → (_ ↔ _ ≠ _)))

/-- The call that goes on finds its own flag. -/
def OwnFlag : Event → Prop
  | .tick i _ => ∀ w ∈ s.writer i, w.OwnFlag s
  | _ => True

instance : (e : Event) → Decidable (OwnFlag s e)
  | .tick i _ => inferInstanceAs (Decidable (∀ w ∈ s.writer i, w.OwnFlag s))
  | .call _ _ _ => .isTrue trivial
  | .take _ => .isTrue trivial

/-! ### One step -/

section Step

variable {s t : State} {i : ℕ} {w : Writer}

/-- All ttys have `OPOST` and `ONLCR` set and no other output flag. -/
def Newlines (s : State) : Prop := ∀ k, (s.termios k).oflag = 0o5

theorem output_eq (hs : Newlines s) (k : ℕ) (crFlag : Bool) (c : UInt8) :
    (s.termios k).output crFlag c =
      if c = 10 ∧ crFlag = false then (13, false) else (c, true) := by
  have hopost : (s.termios k).opost = true := by rw [Termios.opost, hs k]; rfl
  have holcuc : (s.termios k).olcuc = false := by rw [Termios.olcuc, hs k]; rfl
  have honlcr : (s.termios k).onlcr = true := by rw [Termios.onlcr, hs k]; rfl
  have hocrnl : (s.termios k).ocrnl = false := by rw [Termios.ocrnl, hs k]; rfl
  have honlret : (s.termios k).onlret = false := by rw [Termios.onlret, hs k]; rfl
  simp [Termios.output, hopost, holcuc, honlcr, hocrnl, honlret]

def AllExact (s : State) : Prop := ∀ i w, s.writer i = some w → w.Exact

theorem AllExact.update (hs : AllExact s) (w' : Writer) (u : State)
    (hu : u.writer = update s.writer i (some w')) : AllExact u ↔ w'.Exact := by
  constructor
  · intro h
    exact h i w' (by rw [hu, update_self])
  · intro h j v hv
    rw [hu, update_apply] at hv
    split_ifs at hv
    · cases hv
      exact h
    · exact hs j v hv

/-- A round of the inner loop keeps the bytes of its call right exactly if a newline meets the flag
of the call. -/
theorem AllExact.putByte {c : UInt8} {rest : List UInt8} (hall : AllExact s) (hs : Newlines s)
    (hw : w.Exact) (hleft : w.left = c :: rest) :
    AllExact (s.putByte i w c rest) ↔ (c = 10 → (s.crFlag = true ↔ w.put ≠ crlf w.sent)) := by
  obtain ⟨hdata, hput⟩ := hw
  refine (hall.update (w.putOut c rest ((s.termios w.tty).output s.crFlag c)) _ rfl).trans ?_
  rw [output_eq hs]
  by_cases hc : c = 10
  · -- Without the flag a CR goes out, with it the LF does.
    subst hc
    cases s.crFlag with
    | false =>
      rcases hput with hput | ⟨hput, -⟩
      all_goals simp [Writer.Exact, Writer.putOut, hput, hleft, ← hdata]
    | true =>
      rcases hput with hput | ⟨hput, -⟩
      all_goals simp [Writer.Exact, Writer.putOut, hput, hleft, ← hdata, crlf_concat]
  · have hplain : w.put = crlf w.sent :=
      hput.resolve_right fun hcr ↦ hc (by simpa [hleft] using hcr.2)
    simp [Writer.Exact, Writer.putOut, hc, hplain, crlf_concat, ← hdata, hleft]

theorem AllExact.setWriter (hall : AllExact s) (hw : s.writer i = some w) (pc : Pc) :
    AllExact (s.setWriter i { w with pc := pc }) :=
  (hall.update { w with pc := pc } _ rfl).mpr (hall i w hw)

theorem allExact_step {e : Event} (hs : Newlines s) (hall : AllExact s)
    (hstep : step s e = .next t) : AllExact t ↔ OwnFlag s e := by
  cases e with
  | call =>
    rw [step] at hstep
    split_ifs at hstep
    cases hstep
    exact iff_of_true ((hall.update _ _ rfl).mpr ⟨rfl, .inl rfl⟩) trivial
  | take =>
    rw [step] at hstep
    split_ifs at hstep
    cases hstep
    exact iff_of_true hall trivial
  | tick i =>
    simp only [step, OwnFlag, Writer.OwnFlag] at hstep ⊢
    cases hw : s.writer i with
    | none => simp [hw] at hstep
    | some w =>
      have hset := hall.setWriter hw
      simp only [hw, State.tick, Option.mem_some_iff, forall_eq'] at hstep ⊢
      cases hpc : w.pc with
      | outer | asleep =>
        simp only [hpc] at hstep
        split_ifs at hstep <;> cases hstep <;> exact iff_of_true (hset _) (by simp)
      | returned => simp [hpc] at hstep
      | inner =>
        simp only [hpc] at hstep
        have houter := hset .outer
        cases hleft : w.left with simp only [hleft] at hstep houter
        | nil =>
          cases hstep
          exact iff_of_true houter (by simp)
        | cons =>
          split_ifs at hstep with hfull
          · cases hstep
            exact iff_of_true houter (by simp [hfull])
          · cases hstep
            refine (hall.putByte hs (hall i w hw) hleft).trans ?_
            simp [hfull]

theorem termios_step {e : Event} (hstep : step s e = .next t) : t.termios = s.termios := by
  cases e <;> simp only [step, State.tick] at hstep <;> repeat' split at hstep
  all_goals first | cases hstep; rfl | cases hstep

end Step

/-! ### Runs -/

/-- From a state without calls, what every call has put is the translation of its data as far as it
has come, at every point of a run, exactly if each newline meets the flag of its own call. -/
theorem translated_iff (s t : State) (es : List Event) (hs : Newlines s)
    (hidle : ∀ i, s.writer i = none) (hrun : run step s es = some t) :
    (∀ before after u, es = before ++ after → run step s before = some u →
      ∀ i w, u.writer i = some w → w.Exact) ↔ Meets step OwnFlag s es := by
  have hstart : AllExact s := fun i w hw ↦ by simp [hidle i] at hw
  refine stays_iff_meets (I := AllExact) hstart (fun es u e v hu hall hstep ↦ ?_) hrun
  have htermios : u.termios = s.termios :=
    run_invariant (I := fun u ↦ u.termios = s.termios) rfl
      (fun _ _ _ ih hnext ↦ (termios_step hnext).trans ih) hu
  have hu : Newlines u := fun k ↦ htermios ▸ hs k
  exact allExact_step hu hall hstep

/-- Two ttys with empty queues, but for `used` bytes in the queue of the first one. -/
def twoTtys (used : BitVec 10) : State where
  termios := fun _ ↦ defTermios
  writeQ := fun k ↦ ⟨0, if k = 0 then used else 0, 0, fun _ ↦ 0⟩
  crFlag := false
  writer := fun _ ↦ none

/-- Two tasks write `a`, a newline and `b`, and `c` and a newline. The second goes on between any
two bytes of the first, but not between a CR and its LF. -/
def twoLines : List Event :=
  [.call 0 0 [97, 10, 98], .call 1 1 [99, 10]] ++
    [0, 1, 0, 1, 0, 0, 1, 1, 0, 1, 0].map fun i ↦ .tick i false

theorem translated_twoLines : ∃ t v w, run step (twoTtys 0) twoLines = some t ∧
    t.writer 0 = some v ∧ v.put = crlf v.data ∧ t.writer 1 = some w ∧ w.put = crlf w.data := by
  have hrun : run step (twoTtys 0) twoLines = some _ := rfl
  have hexact := (translated_iff (twoTtys 0) _ twoLines (fun _ ↦ rfl) (fun _ ↦ rfl) hrun).mpr
    (by decide +kernel) twoLines [] _ rfl hrun
  exact ⟨_, _, _, hrun, rfl, (hexact 0 _ rfl).put_eq rfl, rfl, (hexact 1 _ rfl).put_eq rfl⟩

/-- A task puts a newline in a queue with one free place and has to wait after the CR. Then another
task writes a newline to another tty, where it goes out without a CR. -/
theorem bareNewline :
    ∃ t, run step (twoTtys 1022) [.call 0 0 [10], .tick 0 false, .tick 0 false, .tick 0 false,
      .tick 0 false, .call 1 1 [10], .tick 1 false, .tick 1 false, .tick 1 false, .tick 1 false]
        = some t ∧ ∃ w, t.writer 1 = some w ∧ w.pc = .returned ∧ w.data = [10] ∧ w.put = [10] :=
  ⟨_, rfl, _, rfl, rfl, rfl, rfl⟩

end EasyKernels.Linux.TtyWriters
