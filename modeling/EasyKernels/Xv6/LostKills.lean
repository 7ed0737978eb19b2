import EasyKernels.Xv6.SleepDiscipline
import EasyKernels.Xv6.SleepingCalls

/-!
# Who sleeps in a pipe, at the console or for the clock is not killed, unless in between

`piperead`, `pipewrite`, `consoleread` and `sys_sleep` test `killed` under the lock of their
condition, and `kill` sets it under `ptable.lock`. A process that has found `killed` clear holds
only the first of the two, until `sleep` has acquired the second. If it is killed in between,
`kill` finds it not yet `SLEEPING` and does not wake it, and it goes to sleep with `killed` set:
`killedAsleep` is such a run. `consoleread` has one more place to sleep, `ilock` at its end, which
does not look at `killed` at all.

`killNotLost` says that this is all. In every run in which `kill` marks nobody in between and no
killed process finds the inode of the console locked (`Timely`), nobody is killed who is `SLEEPING`
in one of the four functions.
-/

set_option autoImplicit false

namespace EasyKernels.Xv6.SleepWakeup

open List Lib.Runs
open Processes (ProcState)

/-! ### The four functions -/

/-- The positions of `pipewrite`, `piperead`, `consoleread` and `sys_sleep`. -/
def Fn.inside : Fn → Bool
  | .writeAcquire _ _ | .writeLoop _ _ _ | .writeFull _ _ _ | .writeSleep _ _ _ | .writeDone _ _
  | .readAcquire _ _ | .readTest _ _ | .readSleep _ _ | .readDone _ _
  | .unlockAcquire _ (.consoleread _) | .unlockClear _ (.consoleread _)
  | .unlockWake _ (.consoleread _) | .lockRelease _ (.consoleread _)
  | .consAcquire _ _ | .consLoop _ _ _ | .consSleep _ _ _ | .consRelease _ _
  | .lockAcquire _ (.consoleret _) | .lockTest _ (.consoleret _) | .lockSleep _ (.consoleret _)
  | .lockRelease _ (.consoleret _)
  | .ticksAcquire _ | .ticksStart _ | .ticksTest _ _ | .ticksSleep _ _ => true
  | _ => false

/-- The positions between a test of `killed` that finds it clear and `sleep`. In `ilock` there is no
such test, only the one of the lock. -/
def Fn.tested : Fn → Bool
  | .writeFull _ _ _ | .writeSleep _ _ _ | .readSleep _ _ | .consSleep _ _ _
  | .lockSleep _ (.consoleret _) | .ticksSleep _ _ => true
  | _ => false

def Pc.inside (pc : Pc) : Prop := pc.fn.inside = true

def Pc.tested (pc : Pc) : Prop := pc.fn.tested = true

instance : DecidablePred Pc.inside := fun pc ↦ inferInstanceAs (Decidable (pc.fn.inside = true))

instance : DecidablePred Pc.tested := fun pc ↦ inferInstanceAs (Decidable (pc.fn.tested = true))

theorem tests_killed : Tests kernel Pc.inside Pc.tested where
  call pc call next hstart := by
    obtain ⟨held, inOp, fn⟩ := pc
    cases fn with
    | user =>
      change (if _ then _ else _) = _ at hstart
      split_ifs at hstart
      cases hstart
      cases call <;> exact nofun
    | _ => cases hstart
  flows pc next hflows htest := by
    obtain ⟨held, inOp, fn⟩ := pc
    cases hflows with
    | acquire hcode | release hcode | table hcode | sleep hcode =>
      cases fn
      case lockRelease i k => cases hcode <;> cases k <;> cases htest
      all_goals
        cases hcode <;> first | rfl | cases htest
  sleep pc chan lk next hcode hinside := by
    obtain ⟨held, inOp, fn⟩ := pc
    cases fn
    case lockSleep i k =>
      cases hcode
      cases k with
      | consoleret => rfl
      | _ => cases hinside
    all_goals
      cases hcode <;> first | rfl | cases hinside
  woken pc chan lk next hcode htest := by
    obtain ⟨held, inOp, fn⟩ := pc
    cases fn <;> cases hcode <;> cases htest

/-! ### The runs -/

variable (s : KState)

/-- The process that the next step of a thread kills. -/
def marks (p : Slot) : Option Slot :=
  match s.mode p with
  | .table (.kill pid) false _ => findPid s.proc pid
  | _ => none

/-- The inode that the next step of a thread finds locked or not, at the end of `consoleread`. -/
def relocks (p : Slot) : Option ℕ :=
  match s.mode p with
  | .run ⟨_, _, .lockTest i (.consoleret _)⟩ => some i
  | _ => none

/-- Nobody is killed between the test of `killed` and `sleep`, and nobody who is killed finds the
inode of the console locked at the end of `consoleread`. -/
def Timely : Event Call → Prop
  | .step p =>
    (∀ q ∈ marks s p, ¬ (s.mode q).tested Pc.inside Pc.tested) ∧
      ∀ i ∈ relocks s p, (s.proc p).killed = true → (s.data.lock i).locked = false
  | _ => True

instance : (e : Event Call) → Decidable (Timely s e)
  | .step _ => inferInstanceAs (Decidable (_ ∧ _))
  | .call _ _ => .isTrue trivial
  | .schedule _ => .isTrue trivial

variable {s : KState} {pc : Pc} {i n : ℕ} {killed : Bool} {d : Data}

theorem Timely.notBetween {p : Slot} (h : Timely s (.step p)) :
    NotBetween Pc.inside Pc.tested s p := by
  intro pid next q hmode hfind
  refine h.1 q ?_
  simp only [marks, hmode]
  exact hfind

theorem writeLoop_tested {rest : List UInt8} (htest : (writeLoop pc i n rest killed d).2.tested) :
    killed = false := by
  cases rest with
  | nil => cases htest
  | cons =>
    simp only [writeLoop] at htest
    split_ifs at htest with hfull hgive
    · cases htest
    · simp only [not_or, Bool.not_eq_true] at hgive
      exact hgive.2
    · cases htest

theorem readTest_tested (htest : (readTest pc i n killed d).2.tested) : killed = false := by
  simp only [readTest] at htest
  split_ifs at htest with hempty hkilled
  · cases htest
  · simpa using hkilled
  · cases htest

theorem consLoop_tested {target : ℕ} (htest : (consLoop pc i target n killed d).2.tested) :
    killed = false := by
  cases n with
  | zero => cases htest
  | succ n =>
    simp only [consLoop] at htest
    split_ifs at htest with hempty hkilled
    · cases htest
    · simpa using hkilled
    all_goals cases htest

theorem ticksTest_tested {n ticks0 : UInt32} (htest : (ticksTest pc n ticks0 killed d).2.tested) :
    killed = false := by
  simp only [ticksTest] at htest
  split_ifs at htest with hearly hkilled
  · cases htest
  · simpa using hkilled
  · cases htest

/-- `ilock` goes to sleep on a lock that is taken. -/
theorem lockTest_tested {k : Cont} {pid : Int32} (htest : (lockTest pc i k pid d).2.tested) :
    (d.lock i).locked = true ∧ ∃ ret, k = .consoleret ret := by
  simp only [lockTest] at htest
  split_ifs at htest with hlocked
  · cases k with
    | consoleret ret => exact ⟨hlocked, ret, rfl⟩
    | _ => cases htest
  · cases htest

theorem next_of_ok {r : Data × Pc} {data : Data} {next : Pc}
    (hr : (Except.ok r : Except Panic (Data × Pc)) = .ok (data, next)) : next = r.2 := by
  rw [Except.ok.inj hr]

/-- A process that goes on to `sleep` has found `killed` clear. -/
theorem Timely.findsClear {p : Slot} (h : Timely s (.step p)) :
    FindsClear kernel Pc.tested s p := by
  intro pc f data next hmode hcode hf htest
  obtain ⟨held, inOp, fn⟩ := pc
  cases fn
  case writeLoop i n rest =>
    cases hcode
    exact writeLoop_tested (next_of_ok hf ▸ htest)
  case readTest i n =>
    cases hcode
    exact readTest_tested (next_of_ok hf ▸ htest)
  case consLoop i target n =>
    cases hcode
    exact consLoop_tested (next_of_ok hf ▸ htest)
  case ticksTest n ticks0 =>
    cases hcode
    exact ticksTest_tested (next_of_ok hf ▸ htest)
  case lockTest i k =>
    cases hcode
    obtain ⟨hlocked, ret, rfl⟩ := lockTest_tested (next_of_ok hf ▸ htest)
    have hrelocks : i ∈ relocks s p := by
      simp only [relocks, hmode]
      rfl
    by_contra hkilled
    have hfree := h.2 i hrelocks (by simpa using hkilled)
    exact absurd hlocked (by simp [hfree])
  -- the other accesses do not lead to `sleep`
  case beginTest =>
    cases hcode
    rw [next_of_ok hf] at htest
    simp only [beginTest] at htest
    split_ifs at htest <;> cases htest
  case endTest =>
    cases hcode
    simp only [endTest] at hf
    split_ifs at hf <;> cases hf <;> cases htest
  case logWrite block =>
    cases hcode
    simp only [logWrite] at hf
    split_ifs at hf
    cases hf
    cases htest
  case intrLoop chars =>
    cases hcode
    rw [next_of_ok hf] at htest
    cases chars with
    | nil => cases htest
    | cons =>
      simp only [intrLoop] at htest
      split_ifs at htest <;> cases htest
  all_goals
    cases hcode <;> rw [next_of_ok hf] at htest <;> cases htest

theorem unkilled_booted (pid : Slot → Int32) (pipe : ℕ → Pipe) (size : ℤ) :
    Unkilled Pc.inside Pc.tested (booted pid pipe size) where
  clear _ _ := rfl
  asleep _ _ _ := rfl
  sleeping _ := nofun
  woken _ _ _ _ _ := nofun

/-- The state of every run in which nobody is killed in between. -/
theorem unkilled_of_run {pid : Slot → Int32} {pipe : ℕ → Pipe} {size : ℤ} {es : List (Event Call)}
    (hmeets : Meets (step kernel) Timely (booted pid pipe size) es)
    (hrun : run (step kernel) (booted pid pipe size) es = some s) :
    Unkilled Pc.inside Pc.tested s := by
  refine run_induction_of_meets (I := fun _ s ↦ Unkilled Pc.inside Pc.tested s)
    (unkilled_booted pid pipe size) ?_ hmeets hrun
  intro es s e t _ hunkilled htimely hstep
  refine hunkilled.move tests_killed (fun p hp ↦ ?_) (fun p hp ↦ ?_) (step_move hstep)
  · exact Timely.notBetween (hp ▸ htimely)
  · exact Timely.findsClear (hp ▸ htimely)

/-- Nobody is killed who is `SLEEPING` in `piperead`, `pipewrite`, `consoleread` or `sys_sleep`, in
every run in which `kill` marks nobody between the test of `killed` and `sleep`, and no killed
process finds the inode of the console locked. -/
theorem killNotLost {pid : Slot → Int32} {pipe : ℕ → Pipe} {size : ℤ} {es : List (Event Call)}
    {s : KState} (hmeets : Meets (step kernel) Timely (booted pid pipe size) es)
    (hrun : run (step kernel) (booted pid pipe size) es = some s) :
    ∀ p, s.ptable = none → (s.proc p).killed = true →
      ¬ ((s.proc p).state = .sleeping ∧ (s.mode p).pc.inside) := by
  rintro p - hkilled ⟨hsleep, hinside⟩
  have hclear := (unkilled_of_run hmeets hrun).asleep p hsleep hinside
  rw [hkilled] at hclear
  cases hclear

/-- A reader sleeps on an empty pipe, is killed and is no longer `SLEEPING`. -/
theorem killNotLost_reader : ∃ es s,
    run (step kernel) (booted (fun p ↦ .ofNat p) (fun _ ↦ newPipe) 30) es = some s ∧
      s.ptable = none ∧ (s.proc Processes.first).killed = true ∧
      (s.mode Processes.first).pc.inside ∧ (s.proc Processes.first).state ≠ .sleeping := by
  refine ⟨(.call Processes.first (.piperead 0 1) :: replicate 5 (.step Processes.first)) ++
    (.call ⟨1, by decide⟩ (.kill 0) :: replicate 3 (.step ⟨1, by decide⟩)), ?_⟩
  exact ⟨_, run_get (by decide +kernel), by decide +kernel, by decide +kernel, by decide +kernel,
    fun hsleep ↦ killNotLost (by decide +kernel) (run_get _) Processes.first (by decide +kernel)
      (by decide +kernel) ⟨hsleep, by decide +kernel⟩⟩

/-- A reader has found its pipe empty and `killed` clear when it is killed; then it goes to
sleep. -/
theorem killedAsleep : ∃ es s,
    run (step kernel) (booted (fun p ↦ .ofNat p) (fun _ ↦ newPipe) 30) es = some s ∧
      s.ptable = none ∧ (s.proc Processes.first).killed = true ∧
      (s.proc Processes.first).state = .sleeping ∧ (s.mode Processes.first).pc.inside := by
  refine ⟨(.call Processes.first (.piperead 0 1) :: replicate 2 (.step Processes.first)) ++
    (.call ⟨1, by decide⟩ (.kill 0) :: replicate 3 (.step ⟨1, by decide⟩)) ++
    replicate 3 (.step Processes.first), ?_⟩
  decide +kernel

end EasyKernels.Xv6.SleepWakeup
