import EasyKernels.Lib.Runs
import EasyKernels.Linux.Param
import Mathlib.Data.Int.Order.Basic
import Mathlib.Order.Basic

/-!
# The scheduler

`schedule`, the accounting part of `do_timer`, and `sys_nice` of `kernel/sched.c`, with the
counters and priorities as 32-bit numbers. `schedule` looks for the running task with the largest
counter, and computes all counters anew when that is 0; the second round then ends it, because
priorities are positive (`loop_spec`).

`sys_nice` lets a task raise its priority without limit, and then a sum in `schedule` overflows:
the counter of a sleeping task becomes negative, and after it wakes up `schedule` prefers the idle
task (`idlesOverflowed`). If no call leaves a priority above 2³⁰, counters stay non-negative and
the choice is right (`schedulerChoice`).

Scope. The calls that put tasks to sleep or wake them, and those that set timeouts, alarms and
signals, are events that write the fields which `schedule` reads.
-/

set_option autoImplicit false

namespace EasyKernels.Linux.Scheduler

open Nat Function Lib.Runs

inductive TaskState
  | running
  | interruptible
  | uninterruptible
  | zombie
  | stopped
  deriving DecidableEq, Repr

/-- The fields of `struct task_struct` that `schedule` reads. -/
structure Task where
  state : TaskState
  counter : ℤ
  priority : ℤ
  signal : UInt32
  blocked : UInt32
  timeout : UInt32
  alarm : UInt32
  deriving DecidableEq, Repr

/-- The array `task`. -/
abbrev Tasks : Type := ℕ → Option Task

structure State where
  task : Tasks
  current : ℕ
  jiffies : UInt32

/-- `_BLOCKABLE`, all signals but `SIGKILL` and `SIGSTOP`. -/
def blockable : UInt32 := ~~~(0x100 ||| 0x40000)

/-! ### The source -/

/-- What `schedule` does first with each task: its timeout, its alarm, and a signal that wakes it.
-/
def Task.check (jiffies : UInt32) (p : Task) : Task :=
  let wake (p : Task) : Task :=
    { p with state := if p.state = .interruptible then .running else p.state }
  let p := if p.timeout ≠ 0 ∧ p.timeout < jiffies then wake { p with timeout := 0 } else p
  let p :=
    if p.alarm ≠ 0 ∧ p.alarm < jiffies then { p with signal := p.signal ||| 0x2000, alarm := 0 }
    else p
  if p.signal &&& ~~~(blockable &&& p.blocked) ≠ 0 then wake p else p

/-- A loop from `LAST_TASK` down to the task after `FIRST_TASK`. -/
def forTasks (f : Task → Task) (task : Tasks) : Tasks :=
  fun i ↦ if 0 < i ∧ i < nrTasks then (task i).map f else task i

/-- `p->counter = (p->counter >> 1) + p->priority`. -/
def Task.recount (p : Task) : Task := { p with counter := long (p.counter / 2 + p.priority) }

variable (task : Tasks)

/-- The body of the inner loop of `schedule` for task `i`, with `c` and `next`. -/
def better (i : ℕ) (best : ℤ × ℕ) : ℤ × ℕ :=
  match task i with
  | some p => if p.state = .running ∧ best.1 < p.counter then (p.counter, i) else best
  | none => best

/-- The inner loop over the tasks from the given one down to 1. -/
def scan (task : Tasks) : ℕ → ℤ × ℕ → ℤ × ℕ
  | 0, best => best
  | i + 1, best => scan task i (better task (i + 1) best)

/-- At most `rounds` rounds of the outer loop, with the task that it finds. -/
def loop : ℕ → Tasks → Option (Tasks × ℕ)
  | 0, _ => none
  | rounds + 1, task =>
    let best := scan task (nrTasks - 1) (-1, 0)
    if best.1 ≠ 0 then some (task, best.2) else loop rounds (forTasks Task.recount task)

variable (s : State)

/-- `schedule`; more than two rounds are never needed. -/
def schedule : Option State :=
  (loop 2 (forTasks (Task.check s.jiffies) s.task)).map fun r ↦
    { s with task := r.1, current := r.2 }

def State.setTask (i : ℕ) (p : Task) : State :=
  { s with task := update s.task i (some p) }

/-- The end of `do_timer`, with the interrupt's `incl jiffies`. -/
def doTimer (p : Task) (cpl : Bool) : Option State :=
  let s := { s with jiffies := s.jiffies + 1 }
  let counter := long (p.counter - 1)
  if 0 < counter then some (s.setTask s.current { p with counter := counter })
  else
    let s := s.setTask s.current { p with counter := 0 }
    if cpl then schedule s else some s

def sysNice (p : Task) (increment : ℤ) : State :=
  if 0 < long (p.priority - increment) then
    s.setTask s.current { p with priority := long (p.priority - increment) }
  else s

/-- The child of `p`, when `copy_process` returns. -/
def Task.child (p : Task) : Task :=
  { p with state := .running, counter := p.priority, signal := 0, alarm := 0 }

/-- `sleep` is what a task does before it calls `schedule`; `note` sets the fields that the calls
about alarms, timeouts and signals write; `release` frees the slot of a task. -/
inductive Event
  | schedule
  | timer (cpl : Bool)
  | fork (nr : ℕ)
  | sleep (state : TaskState)
  | wake (i : ℕ)
  | nice (increment : BitVec 32)
  | note (i : ℕ) (signal blocked timeout alarm : UInt32)
  | release (i : ℕ)
  deriving DecidableEq, Repr

/-- What an event does for a task `p`: the current one, or the one that the event names. -/
def Event.apply (p : Task) : Event → Option State
  | .schedule => Scheduler.schedule s
  | .timer cpl => doTimer s p cpl
  | .fork nr =>
    if 0 < nr ∧ nr < nrTasks ∧ s.task nr = none then some (s.setTask nr p.child) else none
  | .sleep state => some (s.setTask s.current { p with state := state })
  | .wake i => some (s.setTask i { p with state := .running })
  | .nice increment => some (sysNice s p increment.toInt)
  | .note i signal blocked timeout alarm =>
    some (s.setTask i { p with
      signal := signal, blocked := blocked, timeout := timeout, alarm := alarm })
  | .release i =>
    if 0 < i ∧ i ≠ s.current then some { s with task := update s.task i none } else none

/-- The task that an event is about. -/
def Event.subject : Event → ℕ
  | .wake i | .note i _ _ _ _ | .release i => i
  | _ => s.current

def step (e : Event) : Outcome Empty State :=
  match (s.task (e.subject s)).bind (e.apply s) with
  | some t => .next t
  | none => .blocked

/-- `INIT_TASK`. -/
def initTask : Task := ⟨.running, 15, 15, 0, 0, 0, 0⟩

/-- The state at boot: there is only task 0. -/
def boot : State := ⟨fun i ↦ if i = 0 then some initTask else none, 0, 0⟩

/-! ### The scan -/

/-- Task `i` is running, with the given counter. -/
def Runs (i : ℕ) (counter : ℤ) : Prop :=
  ∃ p, task i = some p ∧ p.state = .running ∧ p.counter = counter

theorem better_spec (i : ℕ) (best : ℤ × ℕ) : best.1 ≤ (better task i best).1 ∧
      (∀ counter, Runs task i counter → counter ≤ (better task i best).1) ∧
      (better task i best = best ∨
        (better task i best).2 = i ∧ Runs task i (better task i best).1) := by
  rw [better]
  cases hp : task i with
  | none => exact ⟨le_rfl, fun counter ⟨p, hp', _⟩ ↦ by simp [hp] at hp', .inl rfl⟩
  | some p =>
    have hruns (counter : ℤ) (h : Runs task i counter) :
      p.state = .running ∧ p.counter = counter := by
      obtain ⟨q, hq, hstate, hcounter⟩ := h
      cases hp.symm.trans hq
      exact ⟨hstate, hcounter⟩
    simp only
    split_ifs with hbest
    · exact ⟨hbest.2.le, fun counter h ↦ (hruns counter h).2.ge, .inr ⟨rfl, p, hp, hbest.1, rfl⟩⟩
    · refine ⟨le_rfl, fun counter h ↦ ?_, .inl rfl⟩
      obtain ⟨hstate, rfl⟩ := hruns counter h
      exact not_lt.mp fun hlt ↦ hbest ⟨hstate, hlt⟩

/-- The scan ends with the best of what it started with and of the running tasks. -/
theorem scan_spec (task : Tasks) (n : ℕ) (best : ℤ × ℕ) : best.1 ≤ (scan task n best).1 ∧
      (∀ i counter, 0 < i → i ≤ n → Runs task i counter → counter ≤ (scan task n best).1) ∧
      (scan task n best = best ∨
        0 < (scan task n best).2 ∧ (scan task n best).2 ≤ n ∧
          Runs task (scan task n best).2 (scan task n best).1) := by
  induction n generalizing best with
  | zero => exact ⟨le_rfl, fun i _ hi hin ↦ by omega, .inl rfl⟩
  | succ n ih =>
    obtain ⟨hle, hmax, hfound⟩ := better_spec task (n + 1) best
    obtain ⟨ihle, ihmax, ihfound⟩ := ih (better task (n + 1) best)
    refine ⟨hle.trans ihle, fun i counter hi hin hruns ↦ ?_, ?_⟩
    · rcases Nat.lt_or_eq_of_le hin with hlt | rfl
      · exact ihmax i counter hi (le_of_lt_succ hlt) hruns
      · exact (hmax counter hruns).trans ihle
    · rw [scan]
      rcases ihfound with hsame | ⟨hpos, hin, hruns⟩
      · rw [hsame]
        rcases hfound with hsame' | ⟨hi, hruns⟩
        · exact .inl hsame'
        · exact .inr (by rw [hi]; exact ⟨Nat.succ_pos n, Nat.le_refl _, hruns⟩)
      · exact .inr ⟨hpos, le_succ_of_le hin, hruns⟩

/-! ### Counters in range -/

/-- The counter is a non-negative `long`, and the priority is positive and at most 2³⁰. -/
structure Task.InRange (p : Task) : Prop where
  counter_nonneg : 0 ≤ p.counter
  counter_lt : p.counter < 2 ^ 31
  priority_pos : 0 < p.priority
  priority_le : p.priority ≤ 2 ^ 30

theorem Task.InRange.recount {p : Task} (h : p.InRange) :
    p.recount.InRange ∧ 0 < p.recount.counter := by
  obtain ⟨hnonneg, hlt, hpos, hle⟩ := h
  have hcounter : p.recount.counter = p.counter / 2 + p.priority :=
    long_eq (by omega) (by omega)
  refine ⟨⟨?_, ?_, hpos, hle⟩, ?_⟩
  · omega
  · omega
  · omega

/-- `check` changes neither counter nor priority. -/
theorem Task.InRange.check {p : Task} (h : p.InRange) (jiffies : UInt32) :
    (p.check jiffies).InRange := by
  have hsame : (p.check jiffies).counter = p.counter ∧ (p.check jiffies).priority = p.priority := by
    rw [Task.check]
    grind
  obtain ⟨hcounter, hpriority⟩ := hsame
  constructor
  · exact hcounter ▸ h.counter_nonneg
  · exact hcounter ▸ h.counter_lt
  · exact hpriority ▸ h.priority_pos
  · exact hpriority ▸ h.priority_le

/-- All tasks are in range. -/
def AllInRange : Prop := ∀ i p, task i = some p → p.InRange

theorem AllInRange.forTasks {task : Tasks} (h : AllInRange task) {f : Task → Task}
    (hf : ∀ p, p.InRange → (f p).InRange) : AllInRange (forTasks f task) := by
  intro i p hp
  rw [Scheduler.forTasks] at hp
  split_ifs at hp
  · obtain ⟨q, hq, rfl⟩ := Option.map_eq_some_iff.mp hp
    exact hf q (h i q hq)
  · exact h i p hp

theorem AllInRange.update {task : Tasks} (h : AllInRange task) {i : ℕ} {v : Option Task}
    (hv : ∀ p ∈ v, p.InRange) : AllInRange (update task i v) := by
  intro j p hp
  rw [update_apply] at hp
  split_ifs at hp
  · exact hv p hp
  · exact h j p hp

/-! ### The choice -/

/-- `next` is a running task of the largest counter, which is positive. -/
def Chosen (next : ℕ) : Prop :=
  0 < next ∧ next < nrTasks ∧ ∃ c, 0 < c ∧ Runs task next c ∧
    ∀ i counter, 0 < i → i < nrTasks → Runs task i counter → counter ≤ c

/-- Some task but the idle one is running. -/
def SomeRuns : Prop := ∃ i c, 0 < i ∧ i < nrTasks ∧ Runs task i c

section Choice

variable {task : Tasks}

theorem runs_recount {i : ℕ} (hi : 0 < i) (hlt : i < nrTasks) {c : ℤ} (hruns : Runs task i c) :
    ∃ c', Runs (forTasks Task.recount task) i c' := by
  obtain ⟨p, hp, hstate, -⟩ := hruns
  refine ⟨p.recount.counter, p.recount, ?_, hstate, rfl⟩
  rw [forTasks, if_pos ⟨hi, hlt⟩, hp]
  rfl

section

variable (h : AllInRange task)

include h

/-- After a recount, the counters of all tasks are positive. -/
theorem recount_pos {i : ℕ} (hi : 0 < i) (hlt : i < nrTasks) {c : ℤ}
    (hruns : Runs (forTasks Task.recount task) i c) : 0 < c := by
  obtain ⟨p, hp, -, rfl⟩ := hruns
  rw [forTasks, if_pos ⟨hi, hlt⟩] at hp
  obtain ⟨q, hq, rfl⟩ := Option.map_eq_some_iff.mp hp
  exact (h i q hq).recount.2

/-- When the scan ends with a counter other than 0, it is right: no task runs and the idle task is
next, or the task is chosen. -/
theorem chosen_of_scan (hne : (scan task (nrTasks - 1) (-1, 0)).1 ≠ 0) (hsome : SomeRuns task) :
    Chosen task (scan task (nrTasks - 1) (-1, 0)).2 := by
  obtain ⟨-, hmax, hfound⟩ := scan_spec task (nrTasks - 1) (-1, 0)
  obtain ⟨i, c, hi, hlt, hruns⟩ := hsome
  have hc : 0 ≤ c := by
    obtain ⟨p, hp, -, rfl⟩ := hruns
    exact (h i p hp).counter_nonneg
  have hle := hmax i c hi (le_pred_of_lt hlt) hruns
  rcases hfound with hsame | ⟨hpos, hin, hruns⟩
  · rw [hsame] at hle
    omega
  · refine ⟨hpos, lt_of_le_pred (by decide) hin, _, ?_, hruns, fun j c hj hjlt ↦ ?_⟩
    · omega
    · exact hmax j c hj (le_pred_of_lt hjlt)

/-- After a recount the scan ends with a counter other than 0. -/
theorem scan_recount_ne_zero : (scan (forTasks Task.recount task) (nrTasks - 1) (-1, 0)).1 ≠ 0 := by
  obtain ⟨-, -, hfound⟩ := scan_spec (forTasks .recount task) (nrTasks - 1) (-1, 0)
  rcases hfound with hsame | ⟨hpos, hin, hruns⟩
  · rw [hsame]
    decide
  · exact (recount_pos h hpos (lt_of_le_pred (by decide) hin) hruns).ne'

/-- The loop ends in the first or in the second round, with all tasks in range, and its choice is
right. -/
theorem loop_spec : ∃ r, (∀ n, 2 ≤ n → loop n task = some r) ∧
    AllInRange r.1 ∧ (SomeRuns task → Chosen r.1 r.2) := by
  by_cases hzero : (scan task (nrTasks - 1) (-1, 0)).1 = 0
  · have hrange := h.forTasks fun p hp ↦ hp.recount.1
    have hne := scan_recount_ne_zero h
    refine ⟨⟨forTasks .recount task, (scan (forTasks .recount task) (nrTasks - 1) (-1, 0)).2⟩,
      fun n hn ↦ ?_, hrange, fun hsome ↦ ?_⟩
    · obtain ⟨m, rfl⟩ := Nat.exists_eq_add_of_le' hn
      simp only [loop, hzero, ne_eq, not_true_eq_false, if_false, hne, not_false_eq_true, if_true]
    · obtain ⟨i, c, hi, hlt, hruns⟩ := hsome
      obtain ⟨c', hruns'⟩ := runs_recount hi hlt hruns
      exact chosen_of_scan hrange hne ⟨i, c', hi, hlt, hruns'⟩
  · refine ⟨⟨task, (scan task (nrTasks - 1) (-1, 0)).2⟩, fun n hn ↦ ?_, h, chosen_of_scan h hzero⟩
    obtain ⟨m, rfl⟩ := Nat.exists_eq_add_of_le' hn
    simp only [loop, ne_eq, hzero, not_false_eq_true, if_true]

end

end Choice

/-! ### Runs -/

/-- `sys_nice` does not leave a priority above 2³⁰: the difference is at most that, or so large that
it is refused. -/
def Mild (s : State) : Event → Prop
  | .nice increment => ∀ p ∈ s.task s.current,
      p.priority - increment.toInt ≤ 2 ^ 30 ∨ 2 ^ 31 ≤ p.priority - increment.toInt
  | _ => True

instance (s : State) : (e : Event) → Decidable (Mild s e)
  | .nice increment => inferInstanceAs (Decidable (∀ p ∈ s.task s.current,
      p.priority - increment.toInt ≤ 2 ^ 30 ∨ 2 ^ 31 ≤ p.priority - increment.toInt))
  | .schedule | .timer _ | .fork _ | .sleep _ | .wake _ | .note .. | .release _ => .isTrue trivial

section Runs

variable {s t : State}

section

variable (h : AllInRange s.task)

include h

theorem schedule_spec : ∃ u, schedule s = some u ∧
    (∀ n, 2 ≤ n → loop n (forTasks (Task.check s.jiffies) s.task) = some (u.task, u.current)) ∧
    AllInRange u.task ∧
    (SomeRuns (forTasks (Task.check s.jiffies) s.task) → Chosen u.task u.current) := by
  have hchecked := h.forTasks fun p hp ↦ hp.check s.jiffies
  obtain ⟨r, hloop, hrange, hchosen⟩ := loop_spec hchecked
  exact ⟨{ s with task := r.1, current := r.2 }, by rw [schedule, hloop 2 (Nat.le_refl 2)]; rfl,
    hloop, hrange, hchosen⟩

theorem allInRange_sysNice {p : Task} (hp : p.InRange) {increment : BitVec 32}
    (hmild : p.priority - increment.toInt ≤ 2 ^ 30 ∨ 2 ^ 31 ≤ p.priority - increment.toInt) :
    AllInRange (sysNice s p increment.toInt).task := by
  have hlow := increment.le_toInt
  have hhigh := increment.toInt_lt
  rw [sysNice]
  split_ifs with hpos
  · refine h.update fun q hq ↦ ?_
    cases hq
    refine ⟨hp.counter_nonneg, hp.counter_lt, hpos, ?_⟩
    show long (p.priority - increment.toInt) ≤ 2 ^ 30
    obtain ⟨-, -, hpriority, hle⟩ := hp
    rw [long, Int.bmod_def] at hpos ⊢
    omega
  · exact h

theorem allInRange_doTimer {p : Task} (hp : p.InRange) {cpl : Bool}
    (ht : doTimer s p cpl = some t) : AllInRange t.task := by
  obtain ⟨hnonneg, hlt, hpos, hle⟩ := hp
  have hcounter : long (p.counter - 1) = p.counter - 1 := long_eq (by omega) (by omega)
  have hzero : AllInRange (update s.task s.current (some { p with counter := 0 })) :=
    h.update fun q hq ↦ by cases hq; exact ⟨le_rfl, Int.pow_pos (by decide), hpos, hle⟩
  simp only [doTimer, hcounter] at ht
  split_ifs at ht with hleft
  · cases ht
    refine h.update fun q hq ↦ ?_
    cases hq
    exact ⟨hleft.le, by show p.counter - 1 < _; omega, hpos, hle⟩
  · obtain ⟨u, hu, -, hrange, -⟩ := schedule_spec (s := { s with
      jiffies := s.jiffies + 1
      task := update s.task s.current (some { p with counter := 0 }) }) hzero
    cases hu.symm.trans ht
    exact hrange
  · cases ht
    exact hzero

theorem allInRange_step {e : Event} (hmild : Mild s e) (hstep : step s e = .next t) :
    AllInRange t.task := by
  obtain ⟨p, hp, ht⟩ : ∃ p, s.task (e.subject s) = some p ∧ e.apply s p = some t := by
    rw [step] at hstep
    split at hstep
    · next u hu =>
      cases hstep
      exact Option.bind_eq_some_iff.mp hu
    · cases hstep
  have hrange := h _ p hp
  have hput (i : ℕ) (q : Task) (hq : q.InRange) : AllInRange (s.setTask i q).task :=
    h.update fun _ hmem ↦ by cases hmem; exact hq
  obtain ⟨hnonneg, hlt, hpos, hle⟩ := id hrange
  cases e with simp only [Event.apply] at ht
  | schedule =>
    obtain ⟨u, hu, -, hall, -⟩ := schedule_spec h
    cases hu.symm.trans ht
    exact hall
  | timer => exact allInRange_doTimer h hrange ht
  | fork nr =>
    split_ifs at ht
    cases ht
    exact hput nr _ ⟨hpos.le, by show p.priority < _; omega, hpos, hle⟩
  | sleep | wake | note =>
    cases ht
    exact hput _ _ ⟨hnonneg, hlt, hpos, hle⟩
  | nice =>
    cases ht
    exact allInRange_sysNice h hrange (hmild p hp)
  | release i =>
    split_ifs at ht
    cases ht
    exact h.update nofun

end

end Runs

/-- In every state that is reached from boot without a priority above 2³⁰, `schedule` ends and
chooses a running task of the largest counter if there is one, and no counter or priority is
negative. -/
theorem schedulerChoice (es : List Event) (t : State) (hmild : Meets step Mild boot es)
    (hrun : run step boot es = some t) :
    (∀ i p, t.task i = some p → 0 ≤ p.counter ∧ 0 ≤ p.priority) ∧
      ∃ u, schedule t = some u ∧
        (∀ n, 2 ≤ n → loop n (forTasks (Task.check t.jiffies) t.task) = some (u.task, u.current)) ∧
        (SomeRuns (forTasks (Task.check t.jiffies) t.task) → Chosen u.task u.current) := by
  have hboot : AllInRange boot.task := by
    intro i p hp
    simp only [boot] at hp
    split_ifs at hp
    cases hp
    constructor <;> decide
  have hrange : AllInRange t.task :=
    run_induction_of_meets (I := fun _ u ↦ AllInRange u.task) hboot
      (fun _ _ _ _ _ h hm hstep ↦ allInRange_step h hm hstep) hmild hrun
  obtain ⟨u, hu, hloop, -, hchosen⟩ := schedule_spec hrange
  exact ⟨fun i p hp ↦ ⟨(hrange i p hp).counter_nonneg, (hrange i p hp).priority_pos.le⟩, u, hu,
    hloop, hchosen⟩

theorem schedulerChoice_twoTasks :
    ∃ t u, run step boot [.fork 1, .schedule, .fork 2, .nice 5, .timer true] = some t ∧
      schedule t = some u ∧ 0 < u.current := by
  obtain ⟨-, u, hu, -, hchosen⟩ :=
    schedulerChoice [.fork 1, .schedule, .fork 2, .nice 5, .timer true] _ (by decide +kernel) rfl
  exact ⟨_, u, rfl, hu, (hchosen ⟨2, 15, by decide, by decide, _, rfl, rfl, rfl⟩).1⟩

/-- Task 1 raises its priority to 2³¹ - 1 after it has forked task 2, and then forks task 3, which
sleeps until task 2 has used up its time. -/
def overflowing : List Event :=
  [.fork 1, .schedule, .fork 2, .nice (-2147483632), .fork 3, .sleep .interruptible, .schedule,
    .sleep .interruptible, .schedule] ++ List.replicate 15 (.timer false) ++
  [.schedule, .wake 3, .sleep .interruptible]

/-- Task 3 is running with a negative counter, and `schedule` switches to task 0. -/
theorem idlesOverflowed : ∃ t u p, run step boot overflowing = some t ∧ schedule t = some u ∧
    u.task 3 = some p ∧ p.state = .running ∧ p.counter < 0 ∧ u.current = 0 :=
  ⟨_, _, _, rfl, rfl, rfl, rfl, by decide, rfl⟩

end EasyKernels.Linux.Scheduler
