import EasyKernels.Xv6.Processes

/-!
# `sleep`, `wakeup` and `kill`

Kernel threads at the granularity of spin locks. The code of a thread is a `Program`: at each
position it acquires or releases a spin lock, reads and writes the shared data, calls `sleep`,
`wakeup` or `kill`, or is in user space, where it may start a call. `sleep` is taken apart as in
`proc.c`. It acquires `ptable.lock`, releases the lock of the condition, marks the process
`SLEEPING` and hands `ptable.lock` to the scheduler, in three steps between which other threads run;
a process that is scheduled again clears `chan`, releases `ptable.lock` and acquires the lock of the
condition. `wakeup` and `kill` hold `ptable.lock` around one pass over the table.

`Move` is the inversion of a step. `move_view` says that a step which neither starts a call nor
accesses the data changes neither the data nor what the code keeps from one position to the next.

Scope. The timer takes the processor from a thread only between two steps and has no effect here. An
interrupt is a call of the process that it interrupts.
-/

set_option autoImplicit false

namespace EasyKernels.Xv6.SleepWakeup

open Lib.Runs Function
open Processes (ProcState)

/-! ### The machine -/

/-- The entries of `ptable.proc`. -/
abbrev Slot := Processes.Slot

/-- A pass over the process table. -/
inductive Op (C : Type)
  | wakeup (chan : C)
  | kill (pid : Int32)
  deriving DecidableEq

/-- What a thread does at a position of its code. `access` is given the pid and the `killed` flag of
the process. -/
inductive Instr (L C D PC π : Type)
  | user
  | acquire (lk : L) (next : PC)
  | release (lk : L) (next : PC)
  | access (f : Int32 → Bool → D → Except π (D × PC))
  | table (op : Op C) (next : PC)
  | sleep (chan : C) (lk : L) (next : PC)

/-- The code of the threads, and where a call starts that is made at a position. -/
structure Program (L C D PC π Call : Type) where
  code : PC → Instr L C D PC π
  start : PC → Call → Option PC

/-- How far a call of `sleep` is. -/
inductive Stage
  /-- It holds `ptable.lock` and the lock of the condition. -/
  | locked
  /-- It holds `ptable.lock`, and is about to become `SLEEPING`. -/
  | released
  /-- It is in `sched`. -/
  | asleep
  /-- It is scheduled again, and holds `ptable.lock`. -/
  | resumed
  /-- It is about to acquire the lock of the condition. -/
  | relock
  deriving DecidableEq

/-- Where a thread is: at a position of its code, in a pass over the table, which is `done` or not,
or in `sleep`. -/
inductive Mode (L C PC : Type)
  | run (pc : PC)
  | table (op : Op C) (done : Bool) (next : PC)
  | sleep (stage : Stage) (chan : C) (lk : L) (next : PC)

/-- `struct proc`. -/
structure Proc (C : Type) where
  state : ProcState
  pid : Int32
  chan : Option C
  killed : Bool

/-- The process table, the threads, the holders of the spin locks and of `ptable.lock`, and what the
spin locks protect. -/
structure State (L C D PC : Type) where
  proc : Slot → Proc C
  mode : Slot → Mode L C PC
  spin : L → Option Slot
  ptable : Option Slot
  data : D

inductive Event (Call : Type)
  | call (p : Slot) (call : Call)
  | step (p : Slot)
  | schedule (p : Slot)

/-- The panics of `acquire` and `release`, and those of the code. -/
inductive Fault (π : Type)
  | acquire
  | release
  | panic (reason : π)

variable {L C D PC π Call : Type}

def State.setMode (s : State L C D PC) (p : Slot) (mode : Mode L C PC) : State L C D PC :=
  { s with mode := update s.mode p mode }

variable (proc : Slot → Proc C)

/-- `wakeup1`. -/
def wakeup1 [DecidableEq C] (chan : C) : Slot → Proc C := fun p ↦
  if (proc p).state = .sleeping ∧ (proc p).chan = some chan then
    { proc p with state := .runnable }
  else proc p

/-- The slot that `kill` finds. -/
def findPid (pid : Int32) : Option Slot :=
  (List.finRange nProc).find? fun p ↦ (proc p).pid = pid

/-- The loop of `kill`. -/
def kill (pid : Int32) : Slot → Proc C :=
  match findPid proc pid with
  | none => proc
  | some p => update proc p
    { proc p with
      killed := true
      state := if (proc p).state = .sleeping then .runnable else (proc p).state }

def Op.apply [DecidableEq C] : Op C → Slot → Proc C
  | .wakeup chan => wakeup1 proc chan
  | .kill pid => SleepWakeup.kill proc pid

section Step

variable [DecidableEq L] [DecidableEq C] (prog : Program L C D PC π Call) (s : State L C D PC)

/-- The next step of a thread at a position of its code. -/
def stepCode (p : Slot) : Instr L C D PC π → Outcome (Fault π) (State L C D PC)
  | .user => .blocked
  | .acquire lk next =>
    if s.spin lk = some p then .fault .acquire
    else if s.spin lk = none then
      .next { s.setMode p (.run next) with spin := update s.spin lk (some p) }
    else .blocked
  | .release lk next =>
    if s.spin lk = some p then
      .next { s.setMode p (.run next) with spin := update s.spin lk none }
    else .fault .release
  | .access f =>
    match f (s.proc p).pid (s.proc p).killed s.data with
    | .error reason => .fault (.panic reason)
    | .ok (data, next) => .next { s.setMode p (.run next) with data := data }
  | .table op next =>
    if s.ptable = none then .next { s.setMode p (.table op false next) with ptable := some p }
    else .blocked
  | .sleep chan lk next =>
    if s.ptable = none then
      .next { s.setMode p (.sleep .locked chan lk next) with ptable := some p }
    else .blocked

/-- The next step of a thread. -/
def stepThread (p : Slot) : Outcome (Fault π) (State L C D PC) :=
  match s.mode p with
  | .run pc => stepCode s p (prog.code pc)
  | .table op false next =>
    .next { s.setMode p (.table op true next) with proc := op.apply s.proc }
  | .table _ true next => .next { s.setMode p (.run next) with ptable := none }
  | .sleep .locked chan lk next =>
    if s.spin lk = some p then
      .next { s.setMode p (.sleep .released chan lk next) with
        spin := update s.spin lk none }
    else .fault .release
  | .sleep .released chan lk next =>
    .next { s.setMode p (.sleep .asleep chan lk next) with
      proc := update s.proc p { s.proc p with chan := some chan, state := .sleeping }
      ptable := none }
  | .sleep .asleep _ _ _ => .blocked
  | .sleep .resumed chan lk next =>
    .next { s.setMode p (.sleep .relock chan lk next) with
      proc := update s.proc p { s.proc p with chan := none }
      ptable := none }
  | .sleep .relock _ lk next =>
    if s.spin lk = none then
      .next { s.setMode p (.run next) with spin := update s.spin lk (some p) }
    else .blocked

/-- One step. -/
def step : Event Call → Outcome (Fault π) (State L C D PC)
  | .call p call =>
    match s.mode p with
    | .run pc =>
      match prog.start pc call with
      | some next => .next (s.setMode p (.run next))
      | none => .blocked
    | _ => .blocked
  | .step p => stepThread prog s p
  | .schedule p =>
    match s.mode p with
    | .sleep .asleep chan lk next =>
      if (s.proc p).state = .runnable ∧ s.ptable = none then
        .next { s.setMode p (.sleep .resumed chan lk next) with
          proc := update s.proc p { s.proc p with state := .running }
          ptable := some p }
      else .blocked
    | _ => .blocked

/-- The ways a step ends. -/
inductive Move (s : State L C D PC) : Event Call → State L C D PC → Prop
  | call (p : Slot) (call : Call) (pc next : PC) (hmode : s.mode p = .run pc)
      (hstart : prog.start pc call = some next) : Move s (.call p call) (s.setMode p (.run next))
  | acquire (p : Slot) (pc : PC) (lk : L) (next : PC) (hmode : s.mode p = .run pc)
      (hcode : prog.code pc = .acquire lk next) (hfree : s.spin lk = none) :
      Move s (.step p)
        { s.setMode p (.run next) with spin := update s.spin lk (some p) }
  | release (p : Slot) (pc : PC) (lk : L) (next : PC) (hmode : s.mode p = .run pc)
      (hcode : prog.code pc = .release lk next) (hheld : s.spin lk = some p) :
      Move s (.step p) { s.setMode p (.run next) with spin := update s.spin lk none }
  | access (p : Slot) (pc : PC) (f : Int32 → Bool → D → Except π (D × PC)) (data : D) (next : PC)
      (hmode : s.mode p = .run pc) (hcode : prog.code pc = .access f)
      (hf : f (s.proc p).pid (s.proc p).killed s.data = .ok (data, next)) :
      Move s (.step p) { s.setMode p (.run next) with data := data }
  | enter (p : Slot) (pc : PC) (op : Op C) (next : PC) (hmode : s.mode p = .run pc)
      (hcode : prog.code pc = .table op next) (hfree : s.ptable = none) :
      Move s (.step p) { s.setMode p (.table op false next) with ptable := some p }
  | pass (p : Slot) (op : Op C) (next : PC) (hmode : s.mode p = .table op false next) :
      Move s (.step p) { s.setMode p (.table op true next) with proc := op.apply s.proc }
  | leave (p : Slot) (op : Op C) (next : PC) (hmode : s.mode p = .table op true next) :
      Move s (.step p) { s.setMode p (.run next) with ptable := none }
  | sleep (p : Slot) (pc : PC) (chan : C) (lk : L) (next : PC) (hmode : s.mode p = .run pc)
      (hcode : prog.code pc = .sleep chan lk next) (hfree : s.ptable = none) :
      Move s (.step p) { s.setMode p (.sleep .locked chan lk next) with ptable := some p }
  | unlock (p : Slot) (chan : C) (lk : L) (next : PC)
      (hmode : s.mode p = .sleep .locked chan lk next) (hheld : s.spin lk = some p) :
      Move s (.step p) { s.setMode p (.sleep .released chan lk next) with
        spin := update s.spin lk none }
  | sched (p : Slot) (chan : C) (lk : L) (next : PC)
      (hmode : s.mode p = .sleep .released chan lk next) :
      Move s (.step p) { s.setMode p (.sleep .asleep chan lk next) with
        proc := update s.proc p { s.proc p with chan := some chan, state := .sleeping }
        ptable := none }
  | schedule (p : Slot) (chan : C) (lk : L) (next : PC)
      (hmode : s.mode p = .sleep .asleep chan lk next) (hrunnable : (s.proc p).state = .runnable)
      (hfree : s.ptable = none) :
      Move s (.schedule p) { s.setMode p (.sleep .resumed chan lk next) with
        proc := update s.proc p { s.proc p with state := .running }
        ptable := some p }
  | resume (p : Slot) (chan : C) (lk : L) (next : PC)
      (hmode : s.mode p = .sleep .resumed chan lk next) :
      Move s (.step p) { s.setMode p (.sleep .relock chan lk next) with
        proc := update s.proc p { s.proc p with chan := none }
        ptable := none }
  | relock (p : Slot) (chan : C) (lk : L) (next : PC)
      (hmode : s.mode p = .sleep .relock chan lk next) (hfree : s.spin lk = none) :
      Move s (.step p)
        { s.setMode p (.run next) with spin := update s.spin lk (some p) }

variable {prog}

theorem stepCode_move {s t : State L C D PC} {p : Slot} {pc : PC} (hmode : s.mode p = .run pc)
    (h : stepCode s p (prog.code pc) = .next t) : Move prog s (.step p) t := by
  cases hcode : prog.code pc with rw [hcode, stepCode] at h
  | user => cases h
  | acquire lk next =>
    split_ifs at h with hself hfree
    cases h
    exact .acquire p pc lk next hmode hcode hfree
  | release lk next =>
    split_ifs at h with hheld
    cases h
    exact .release p pc lk next hmode hcode hheld
  | access f =>
    split at h <;> cases h
    rename_i data next hf
    exact .access p pc f data next hmode hcode hf
  | table op next =>
    split_ifs at h with hfree
    cases h
    exact .enter p pc op next hmode hcode hfree
  | sleep chan lk next =>
    split_ifs at h with hfree
    cases h
    exact .sleep p pc chan lk next hmode hcode hfree

theorem step_move {s t : State L C D PC} {e : Event Call} (h : step prog s e = .next t) :
    Move prog s e t := by
  cases e with
  | call p call =>
    simp only [step] at h
    (repeat' split at h) <;> cases h
    rename_i pc hmode _ next hstart
    exact .call p call pc next hmode hstart
  | step p =>
    simp only [step, stepThread] at h
    split at h
    · rename_i pc hmode
      exact stepCode_move hmode h
    · rename_i op next hmode
      cases h
      exact .pass p op next hmode
    · rename_i op next hmode
      cases h
      exact .leave p op next hmode
    · rename_i chan lk next hmode
      split_ifs at h with hheld
      cases h
      exact .unlock p chan lk next hmode hheld
    · rename_i chan lk next hmode
      cases h
      exact .sched p chan lk next hmode
    · cases h
    · rename_i chan lk next hmode
      cases h
      exact .resume p chan lk next hmode
    · rename_i chan lk next hmode
      split_ifs at h with hfree
      cases h
      exact .relock p chan lk next hmode hfree
  | schedule p =>
    simp only [step] at h
    (repeat' split at h) <;> cases h
    rename_i chan lk next hmode hready
    exact .schedule p chan lk next hmode hready.1 hready.2

end Step

/-! ### Facts that only an access changes -/

/-- The position at which a thread is, or to which it returns. -/
def Mode.pc : Mode L C PC → PC
  | .run pc => pc
  | .table _ _ next => next
  | .sleep _ _ _ next => next

/-- The code goes on from one position to another without an access. -/
inductive Flows (prog : Program L C D PC π Call) : PC → PC → Prop
  | acquire {pc next : PC} {lk : L} (hcode : prog.code pc = .acquire lk next) : Flows prog pc next
  | release {pc next : PC} {lk : L} (hcode : prog.code pc = .release lk next) : Flows prog pc next
  | table {pc next : PC} {op : Op C} (hcode : prog.code pc = .table op next) : Flows prog pc next
  | sleep {pc next : PC} {chan : C} {lk : L} (hcode : prog.code pc = .sleep chan lk next) :
      Flows prog pc next

/-- A step starts a call or accesses the data, or it leaves the data as they are and everything that
the code keeps from a position to the next. -/
theorem move_view [DecidableEq L] [DecidableEq C] {prog : Program L C D PC π Call}
    {s t : State L C D PC} {e : Event Call} (hmove : Move prog s e t) {V : Type} (view : PC → V)
    (hview : ∀ pc next, Flows prog pc next → view next = view pc) :
    (∃ p call pc next, s.mode p = .run pc ∧ prog.start pc call = some next ∧
        t = s.setMode p (.run next)) ∨
      (∃ p pc f data next, e = .step p ∧ s.mode p = .run pc ∧ prog.code pc = .access f ∧
        f (s.proc p).pid (s.proc p).killed s.data = .ok (data, next) ∧
        t = { s.setMode p (.run next) with data := data }) ∨
      t.data = s.data ∧ ∀ q, view (t.mode q).pc = view (s.mode q).pc := by
  have hsame : ∀ {p : Slot} {mode : Mode L C PC}, view mode.pc = view (s.mode p).pc → ∀ q,
      view (update s.mode p mode q).pc = view (s.mode q).pc := by
    intro p mode heq q
    rw [Function.update_apply]
    split_ifs with hqp
    · rw [hqp, heq]
    · rfl
  cases hmove with
  | call p call pc next hmode hstart => exact .inl ⟨p, call, pc, next, hmode, hstart, rfl⟩
  | access p pc f data next hmode hcode hf =>
    exact .inr (.inl ⟨p, pc, f, data, next, rfl, hmode, hcode, hf, rfl⟩)
  | acquire p pc lk next hmode hcode =>
    exact .inr (.inr ⟨rfl, hsame (by rw [hmode]; exact hview pc next (.acquire hcode))⟩)
  | release p pc lk next hmode hcode =>
    exact .inr (.inr ⟨rfl, hsame (by rw [hmode]; exact hview pc next (.release hcode))⟩)
  | enter p pc op next hmode hcode =>
    exact .inr (.inr ⟨rfl, hsame (by rw [hmode]; exact hview pc next (.table hcode))⟩)
  | sleep p pc chan lk next hmode hcode =>
    exact .inr (.inr ⟨rfl, hsame (by rw [hmode]; exact hview pc next (.sleep hcode))⟩)
  | pass p op next hmode | leave p op next hmode | unlock p chan lk next hmode hheld
  | sched p chan lk next hmode | resume p chan lk next hmode | relock p chan lk next hmode =>
    exact .inr (.inr ⟨rfl, hsame (by rw [hmode]; rfl)⟩)
  | schedule p chan lk next hmode =>
    exact .inr (.inr ⟨rfl, hsame (by rw [hmode]; rfl)⟩)

end EasyKernels.Xv6.SleepWakeup
