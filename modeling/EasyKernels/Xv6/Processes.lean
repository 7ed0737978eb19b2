import Mathlib.Data.Fintype.Basic
import EasyKernels.Lib.Runs
import EasyKernels.Xv6.Param

/-!
# The process table of `proc.c`

`fork`, `exit`, `wait` and `kill` as a machine whose steps are the sections that `ptable.lock` makes
atomic, together with the stores that `allocproc` and `fork` make to a slot without the lock. A
process is a slot of the table. `Pos` says where its kernel thread is: in `fork` with the slot that
`allocproc` gave it, in the loop of `wait`, or elsewhere. Elsewhere it may sleep on some address and
be woken. `yield` and `schedule` stand for the timer and the scheduler. A process that `wait` put to
sleep is still in the section of `ptable.lock` when the scheduler switches to it, so `schedule` runs
the loop of `wait` on.

`serial` and `allocs` are no variables of the source. They number the calls of `allocproc`, so that
a process keeps its name when its slot, and after `2 ^ 32` calls its pid, is used again. `record`
says what an observer sees of a step.

`step_move` takes a step apart. `ProcessTree` is about the parents and the children in the table.

Scope. The address space, the kernel stack, the open files and the name of a process are not
modelled. `exit` closes files before it takes the lock and may sleep there, which `sleep` covers.
-/

set_option autoImplicit false

namespace EasyKernels.Xv6.Processes

open List Lib.Runs Function

/-! ### The table -/

/-- A pointer into `ptable.proc`. -/
abbrev Slot := Fin nProc

theorem nProc_pos : 0 < nProc := Nat.succ_pos 63

/-- The first slot, which is that of init. -/
def first : Slot := ⟨0, nProc_pos⟩

/-- `enum procstate`. -/
inductive ProcState
  | unused
  | embryo
  | sleeping
  | runnable
  | running
  | zombie
  deriving DecidableEq, Repr

/-- The process has started and has not exited. -/
def ProcState.live : ProcState → Bool
  | .sleeping | .runnable | .running => true
  | _ => false

/-- An address to sleep on: a slot of the process table, as in `wait`, or another one. -/
inductive Chan
  | proc (p : Slot)
  | other (addr : ℕ)
  deriving DecidableEq, Repr

/-- `struct proc`. -/
structure Proc where
  state : ProcState
  pid : Int32
  parent : Option Slot
  chan : Option Chan
  killed : Bool
  deriving DecidableEq

/-- Where the kernel thread of a process is. -/
inductive Pos
  /-- Not in `fork` or `wait`. -/
  | elsewhere
  /-- In `fork`, with the slot from `allocproc`; `copied` once `np->parent` is set. -/
  | forking (np : Slot) (copied : Bool)
  /-- In `sleep(curproc, &ptable.lock)` of `wait`. -/
  | waiting
  deriving DecidableEq, Repr

structure State where
  proc : Slot → Proc
  nextpid : Int32
  initproc : Option Slot
  pos : Slot → Pos
  serial : Slot → ℕ
  allocs : ℕ

variable (s : State) (p : Slot)

def State.setProc (proc : Proc) : State :=
  { s with proc := update s.proc p proc }

def State.setPos (pos : Pos) : State :=
  { s with pos := update s.pos p pos }

/-- `p->state = state`. -/
def State.setState (state : ProcState) : State :=
  s.setProc p { s.proc p with state := state }

/-- The locked section of `allocproc`: the first slot that is `UNUSED`. -/
def allocproc : Option (Slot × State) :=
  match (List.finRange nProc).find? fun p ↦ (s.proc p).state = .unused with
  | none => none
  | some p =>
    some (p, { s.setProc p { s.proc p with state := .embryo, pid := s.nextpid } with
      nextpid := s.nextpid + 1
      serial := update s.serial p s.allocs
      allocs := s.allocs + 1 })

/-- `ptable` and `nextpid` before the first process. -/
def zeroed : State where
  proc := fun _ ↦ ⟨.unused, 0, none, none, false⟩
  nextpid := 1
  initproc := none
  pos := fun _ ↦ .elsewhere
  serial := fun _ ↦ 0
  allocs := 0

/-- `userinit`, which does not look at what `allocproc` returns. -/
def userinit : State :=
  match allocproc s with
  | none => s
  | some (p, s) => { s.setState p .runnable with initproc := some p }

/-- `wakeup1`. -/
def wakeup1 (chan : Option Chan) : State :=
  { s with proc := fun p ↦
      if (s.proc p).state = .sleeping ∧ (s.proc p).chan = chan then
        { s.proc p with state := .runnable }
      else s.proc p }

variable (curproc : Slot)

/-- The stores `p->parent = initproc` of the loop of `exit`. -/
def reparent : State :=
  { s with proc := fun p ↦
      if (s.proc p).parent = some curproc then { s.proc p with parent := s.initproc }
      else s.proc p }

/-- The loop of `exit` that passes the abandoned children to init, which is woken if one of them is
a zombie. -/
def passChildren : State :=
  if ∃ p, (s.proc p).parent = some curproc ∧ (s.proc p).state = .zombie then
    wakeup1 (reparent s curproc) (s.initproc.map .proc)
  else reparent s curproc

/-- The locked section of `exit`. -/
def exit : State :=
  (passChildren (wakeup1 s ((s.proc curproc).parent.map .proc)) curproc).setState curproc .zombie

/-- How a turn of the loop of `wait` ends. -/
inductive Waited
  /-- It returns the pid of a child that exited. -/
  | pid (pid : Int32)
  /-- It returns -1. -/
  | failed
  /-- It sleeps. -/
  | asleep
  deriving DecidableEq, Repr

/-- The child that the scan of `wait` stops at. -/
def exitedChild : Option Slot :=
  (List.finRange nProc).find? fun p ↦
    (s.proc p).parent = some curproc ∧ (s.proc p).state = .zombie

/-- `havekids` after a scan that found no child that exited. -/
def haveKids : Bool :=
  (List.finRange nProc).any fun p ↦ (s.proc p).parent = some curproc

/-- What `wait` leaves of the slot of a child that it reports. -/
def Proc.reap (p : Proc) : Proc :=
  { p with pid := 0, parent := none, killed := false, state := .unused }

/-- One turn of the loop of `wait`. -/
def wait : Waited × State :=
  match exitedChild s curproc with
  | some p => (.pid (s.proc p).pid, (s.setProc p (s.proc p).reap).setPos curproc .elsewhere)
  | none =>
    if haveKids s curproc = false ∨ (s.proc curproc).killed then
      (.failed, s.setPos curproc .elsewhere)
    else
      (.asleep, (s.setProc curproc
        { s.proc curproc with chan := some (.proc curproc), state := .sleeping }).setPos
          curproc .waiting)

/-- The slot that `kill` finds. -/
def findPid (pid : Int32) : Option Slot :=
  (List.finRange nProc).find? fun p ↦ (s.proc p).pid = pid

/-- What `kill` does to the process it finds. -/
def Proc.kill (p : Proc) : Proc :=
  { p with
    killed := true
    state := if p.state = .sleeping then .runnable else p.state }

def kill (pid : Int32) : State :=
  match findPid s pid with
  | none => s
  | some p => s.setProc p (s.proc p).kill

/-- The scheduler switches to a process, which leaves `sched`; `sleep` then clears `p->chan`. -/
def resume : State :=
  s.setProc p { s.proc p with state := .running, chan := none }

inductive Panic
  | initExiting
  deriving DecidableEq, Repr

inductive Event
  /-- `fork` calls `allocproc`. -/
  | fork (p : Slot)
  /-- `kalloc` of the kernel stack or `copyuvm` fails, and `fork` gives up the slot. -/
  | forkFail (p : Slot)
  /-- `np->parent = curproc`. -/
  | forkCopy (p : Slot)
  /-- `np->state = RUNNABLE`. -/
  | forkDone (p : Slot)
  | exit (p : Slot)
  | wait (p : Slot)
  | kill (pid : Int32)
  | schedule (p : Slot)
  | yield (p : Slot)
  | sleep (p : Slot) (addr : ℕ)
  | wakeup (addr : ℕ)
  deriving DecidableEq, Repr

/-- The process is running and its kernel thread is at `pos`. -/
def At (pos : Pos) : Prop := (s.proc p).state = .running ∧ s.pos p = pos

instance (pos : Pos) : Decidable (At s p pos) :=
  inferInstanceAs (Decidable (_ ∧ _))

/-- One atomic section. -/
def step : Event → Outcome Panic State
  | .fork p =>
    if At s p .elsewhere then
      match allocproc s with
      | none => .next s
      | some (np, t) => .next (t.setPos p (.forking np false))
    else .blocked
  | .forkFail p =>
    match s.pos p with
    | .forking np false =>
      if (s.proc p).state = .running then
        .next ((s.setState np .unused).setPos p .elsewhere)
      else .blocked
    | _ => .blocked
  | .forkCopy p =>
    match s.pos p with
    | .forking np false =>
      if (s.proc p).state = .running then
        .next ((s.setProc np { s.proc np with parent := some p }).setPos p (.forking np true))
      else .blocked
    | _ => .blocked
  | .forkDone p =>
    match s.pos p with
    | .forking np true =>
      if (s.proc p).state = .running then
        .next ((s.setState np .runnable).setPos p .elsewhere)
      else .blocked
    | _ => .blocked
  | .exit p =>
    if At s p .elsewhere then
      if s.initproc = some p then .fault .initExiting else .next (exit s p)
    else .blocked
  | .wait p => if At s p .elsewhere then .next (wait s p).2 else .blocked
  | .kill pid => .next (kill s pid)
  | .schedule p =>
    if (s.proc p).state = .runnable then
      if s.pos p = .waiting then .next (wait (resume s p) p).2 else .next (resume s p)
    else .blocked
  | .yield p =>
    if (s.proc p).state = .running then .next (s.setState p .runnable) else .blocked
  | .sleep p addr =>
    if At s p .elsewhere then
      .next (s.setProc p { s.proc p with chan := some (.other addr), state := .sleeping })
    else .blocked
  | .wakeup addr => .next (wakeup1 s (some (.other addr)))

/-- The table after `userinit`. -/
def booted : State := userinit zeroed

/-! ### What an observer sees -/

/-- Processes are named by their serial numbers. -/
inductive Record
  | allocated (child : ℕ) (pid : Int32)
  | exited (child : ℕ) (pid : Int32) (parent : Option ℕ)
  | reported (child : ℕ) (pid : Int32) (caller : ℕ)
  | kill (pid : Int32)
  deriving DecidableEq, Repr

/-- What `wait` reports. -/
def report : Option Record :=
  (exitedChild s curproc).map fun p ↦
    .reported (s.serial p) (s.proc p).pid (s.serial curproc)

def record : Event → Option Record
  | .fork _ => (allocproc s).map fun r ↦ .allocated (r.2.serial r.1) (r.2.proc r.1).pid
  | .exit p =>
    some (.exited (s.serial p) (s.proc p).pid ((s.proc p).parent.map s.serial))
  | .wait p => report s p
  | .schedule p => if s.pos p = .waiting then report (resume s p) p else none
  | .kill pid => some (.kill pid)
  | _ => none

/-- What is seen of a run of the machine, after the `allocproc` of `userinit`. -/
def history (es : List Event) : List Record := .allocated 0 1 :: trace step record booted es

variable {s t : State} {curproc : Slot}

theorem history_concat {es : List Event} {e : Event} (hrun : run step booted es = some s)
    (hstep : step s e = .next t) : history (es ++ [e]) = history es ++ (record s e).toList := by
  simp only [history, trace_concat _ hrun hstep, cons_append]

/-! ### Reading the updates -/

theorem proc_setProc (s : State) (p q : Slot) (proc : Proc) :
    (s.setProc p proc).proc q = if q = p then proc else s.proc q :=
  Function.update_apply s.proc p proc q

theorem proc_setState (s : State) (p q : Slot) (state : ProcState) :
    (s.setState p state).proc q = if q = p then { s.proc p with state := state } else s.proc q :=
  proc_setProc s p q _

@[simp] theorem proc_setPos (s : State) (p : Slot) (pos : Pos) : (s.setPos p pos).proc = s.proc :=
  rfl

theorem pos_setPos (s : State) (p q : Slot) (pos : Pos) :
    (s.setPos p pos).pos q = if q = p then pos else s.pos q :=
  Function.update_apply s.pos p pos q

theorem exitedChild_eq_some {p : Slot} (h : exitedChild s curproc = some p) :
    (s.proc p).parent = some curproc ∧ (s.proc p).state = .zombie := by
  simpa using find?_some h

theorem exitedChild_eq_none (h : exitedChild s curproc = none) (p : Slot)
    (hp : (s.proc p).parent = some curproc) : (s.proc p).state ≠ .zombie := by
  have hall := find?_eq_none.mp h p (mem_finRange p)
  simpa [hp] using hall

theorem haveKids_eq_false (h : haveKids s curproc = false) (p : Slot) :
    (s.proc p).parent ≠ some curproc := by
  have hall := any_eq_false.mp h p (mem_finRange p)
  simpa using hall

theorem findPid_eq_some {pid : Int32} {p : Slot} (h : findPid s pid = some p) :
    (s.proc p).pid = pid := by
  simpa using find?_some h

/-- `allocproc` with the slot `np`. -/
def fill (s : State) (np : Slot) : State :=
  { s.setProc np { s.proc np with state := .embryo, pid := s.nextpid } with
    nextpid := s.nextpid + 1
    serial := update s.serial np s.allocs
    allocs := s.allocs + 1 }

theorem allocproc_eq_some {np : Slot} (h : allocproc s = some (np, t)) :
    (s.proc np).state = .unused ∧ t = fill s np := by
  unfold allocproc at h
  split at h
  · cases h
  · rename_i found hfound
    obtain ⟨rfl, rfl⟩ := h
    exact ⟨by simpa using find?_some hfound, rfl⟩

/-- The ways a turn of the loop of `wait` ends. -/
inductive Turn (s : State) (curproc : Slot) : State → Prop
  | reap (p : Slot) (hfound : exitedChild s curproc = some p)
      (hparent : (s.proc p).parent = some curproc) (hstate : (s.proc p).state = .zombie) :
      Turn s curproc ((s.setProc p (s.proc p).reap).setPos curproc .elsewhere)
  | failed (hfound : exitedChild s curproc = none) :
      Turn s curproc (s.setPos curproc .elsewhere)
  | sleep (hfound : exitedChild s curproc = none) :
      Turn s curproc ((s.setProc curproc
        { s.proc curproc with chan := some (.proc curproc), state := .sleeping }).setPos
          curproc .waiting)

theorem wait_turn (s : State) (curproc : Slot) : Turn s curproc (wait s curproc).2 := by
  unfold wait
  split
  · rename_i p hfound
    obtain ⟨hparent, hstate⟩ := exitedChild_eq_some hfound
    exact .reap p hfound hparent hstate
  · rename_i hfound
    split_ifs
    · exact .failed hfound
    · exact .sleep hfound

/-- The ways a step ends. -/
inductive Move (s : State) : Event → State → Prop
  | forkNone (p : Slot) (hnone : allocproc s = none) : Move s (.fork p) s
  | fork (p np : Slot) (hat : At s p .elsewhere) (halloc : allocproc s = some (np, fill s np))
      (hunused : (s.proc np).state = .unused) :
      Move s (.fork p) ((fill s np).setPos p (.forking np false))
  | forkFail (p np : Slot) (hat : At s p (.forking np false)) :
      Move s (.forkFail p) ((s.setState np .unused).setPos p .elsewhere)
  | forkCopy (p np : Slot) (hat : At s p (.forking np false)) :
      Move s (.forkCopy p)
        ((s.setProc np { s.proc np with parent := some p }).setPos p (.forking np true))
  | forkDone (p np : Slot) (hat : At s p (.forking np true)) :
      Move s (.forkDone p) ((s.setState np .runnable).setPos p .elsewhere)
  | exit (p : Slot) (hat : At s p .elsewhere) (hinit : s.initproc ≠ some p) :
      Move s (.exit p) (exit s p)
  | wait (p : Slot) (t : State) (hat : At s p .elsewhere) (hturn : Turn s p t) : Move s (.wait p) t
  | killNone (pid : Int32) : Move s (.kill pid) s
  | kill (pid : Int32) (p : Slot) (hfind : findPid s pid = some p) :
      Move s (.kill pid) (s.setProc p (s.proc p).kill)
  | schedule (p : Slot) (hrunnable : (s.proc p).state = .runnable) (hpos : s.pos p ≠ .waiting) :
      Move s (.schedule p) (resume s p)
  | goOn (p : Slot) (t : State) (hrunnable : (s.proc p).state = .runnable)
      (hpos : s.pos p = .waiting) (hturn : Turn (resume s p) p t) : Move s (.schedule p) t
  | yield (p : Slot) (hrunning : (s.proc p).state = .running) :
      Move s (.yield p) (s.setState p .runnable)
  | sleep (p : Slot) (addr : ℕ) (hat : At s p .elsewhere) :
      Move s (.sleep p addr)
        (s.setProc p { s.proc p with chan := some (.other addr), state := .sleeping })
  | wakeup (addr : ℕ) : Move s (.wakeup addr) (wakeup1 s (some (.other addr)))

theorem step_move {e : Event} (h : step s e = .next t) : Move s e t := by
  cases e with simp only [step] at h
  | fork p =>
    obtain ⟨hat, h⟩ := guard_eq_next.mp h
    split at h
    · rename_i hnone
      cases h
      exact .forkNone p hnone
    · rename_i np u halloc
      cases h
      obtain ⟨hunused, rfl⟩ := allocproc_eq_some halloc
      exact .fork p np hat halloc hunused
  | forkFail p | forkCopy p | forkDone p =>
    (repeat' split at h) <;> cases h
    rename_i hpos hrunning
    constructor
    exact ⟨hrunning, hpos⟩
  | exit p =>
    split_ifs at h with hat hinit
    cases h
    exact .exit p hat hinit
  | wait p =>
    obtain ⟨hat, ⟨⟩⟩ := guard_eq_next.mp h
    exact .wait p _ hat (wait_turn s p)
  | kill pid =>
    simp only [kill] at h
    cases h
    split
    · exact .killNone pid
    · rename_i p hfind
      exact .kill pid p hfind
  | schedule p =>
    split_ifs at h with hrunnable hpos
    · cases h
      exact .goOn p _ hrunnable hpos (wait_turn _ p)
    · cases h
      exact .schedule p hrunnable hpos
  | yield p =>
    obtain ⟨hrunning, ⟨⟩⟩ := guard_eq_next.mp h
    exact .yield p hrunning
  | sleep p addr =>
    obtain ⟨hat, ⟨⟩⟩ := guard_eq_next.mp h
    exact .sleep p addr hat
  | wakeup addr =>
    cases h
    exact .wakeup addr

end EasyKernels.Xv6.Processes
