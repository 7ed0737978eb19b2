import EasyKernels.Lib.Runs
import Mathlib.Data.Int.Notation

/-!
# The mask of blocked signals

`sys_ssetmask`, `sys_sigsuspend`, `sys_signal`, `sys_sigaction` and `do_signal` of
`kernel/signal.c`, for one task. `sys_ssetmask` clears the bits of `SIGKILL` and `SIGSTOP` in its
argument; the other calls do not. `sys_sigsuspend` takes both of its masks from the caller, and
`do_signal` adds the `sa_mask` that `sys_sigaction` has stored, so a task can block both signals
(`suspendsAll`). The bits stay clear through a run exactly when each of these masks has them clear
where it is put into force (`neverBlocked_iff`).

Scope. What `do_signal` writes to the user stack, and the state of a task that it stops or ends, are
left out.
-/

set_option autoImplicit false

namespace EasyKernels.Linux.Signals

open Lib.Runs

def sigkill : ℕ := 9
def sigstop : ℕ := 19
def sigchld : ℕ := 17
def sigcont : ℕ := 18

def saNomask : UInt32 := 0x40000000
def saOneshot : UInt32 := 0x80000000

/-- `1 << (signr - 1)`. -/
def sigBit (signr : ℕ) : UInt32 := 1 <<< UInt32.ofNat (signr - 1)

/-- The bits that must never be set in `blocked`. -/
def unblockable : UInt32 := sigBit sigkill ||| sigBit sigstop

structure Sigaction where
  handler : UInt32
  mask : UInt32
  flags : UInt32
  deriving DecidableEq, Repr

/-- The task: `blocked`, the actions of the signals from 1 on, and whether it has called `do_exit`.
-/
structure Task where
  blocked : UInt32
  action : ℕ → Sigaction
  exited : Bool

variable (s : Task)

def Task.setAction (signum : ℕ) (a : Sigaction) : Task :=
  { s with action := Function.update s.action signum a }

/-- The signals that `sys_signal` and `sys_sigaction` accept. -/
def accepts (signum : ℤ) : Bool :=
  !(signum < 1 || 32 < signum || signum = sigkill || signum = sigstop)

def sysSsetmask (newmask : UInt32) : Task :=
  { s with blocked := newmask &&& ~~~sigBit sigkill &&& ~~~sigBit sigstop }

/-- `sys_sigsuspend`; when it is not restarted, the old mask comes back with the restart. -/
def sysSigsuspend (restart : Bool) (oldMask set : UInt32) : Task :=
  { s with blocked := if restart then oldMask else set }

def sysSignal (signum : ℤ) (handler : UInt32) : Task :=
  if accepts signum then s.setAction signum.toNat ⟨handler, 0, saOneshot ||| saNomask⟩ else s

def sysSigaction (signum : ℤ) (action : Sigaction) : Task :=
  if accepts signum then
    s.setAction signum.toNat { action with
      mask := if action.flags &&& saNomask ≠ 0 then 0 else action.mask ||| sigBit signum.toNat }
  else s

/-- The signals that `do_signal` ignores or that stop the task, if there is no handler. -/
def survives (signr : ℕ) : Bool := signr = sigcont || signr = sigchld || (19 ≤ signr && signr ≤ 22)

def doSignal (signr : ℕ) : Task :=
  let sa := s.action signr
  if sa.handler = 1 then s
  else if sa.handler = 0 then if survives signr then s else { s with exited := true }
  else
    let s := if sa.flags &&& saOneshot ≠ 0 then s.setAction signr { sa with handler := 0 } else s
    { s with blocked := s.blocked ||| sa.mask }

inductive Event
  | ssetmask (newmask : UInt32)
  | sigsuspend (restart : Bool) (oldMask set : UInt32)
  | signal (signum : ℤ) (handler : UInt32)
  | sigaction (signum : ℤ) (action : Sigaction)
  | deliver (signr : ℕ)

def Event.apply : Event → Task
  | .ssetmask newmask => sysSsetmask s newmask
  | .sigsuspend restart oldMask set => sysSigsuspend s restart oldMask set
  | .signal signum handler => sysSignal s signum handler
  | .sigaction signum action => sysSigaction s signum action
  | .deliver signr => doSignal s signr

def step (e : Event) : Outcome Empty Task :=
  if s.exited then .blocked else .next (e.apply s)

/-- Neither `SIGKILL` nor `SIGSTOP` is blocked. -/
def Open : Prop := s.blocked &&& unblockable = 0

/-- The mask that a step puts into force has both bits clear. -/
def Harmless : Event → Prop
  | .sigsuspend restart oldMask set => (if restart then oldMask else set) &&& unblockable = 0
  | .deliver signr => (s.action signr).handler ≠ 0 → (s.action signr).handler ≠ 1 →
      (s.action signr).mask &&& unblockable = 0
  | _ => True

instance decidableHarmless : (e : Event) → Decidable (Harmless s e)
  | .sigsuspend _ _ _ => inferInstanceAs (Decidable (_ = _))
  | .deliver _ => inferInstanceAs (Decidable (_ → _ → _ = _))
  | .ssetmask _ => .isTrue trivial
  | .signal _ _ => .isTrue trivial
  | .sigaction _ _ => .isTrue trivial

theorem or_and_eq_zero {a b u : UInt32} : (a ||| b) &&& u = 0 ↔ a &&& u = 0 ∧ b &&& u = 0 := by
  have hdistrib : (a ||| b) &&& u = (a &&& u) ||| (b &&& u) :=
    UInt32.toBitVec_inj.mp BitVec.and_or_distrib_right
  rw [hdistrib, UInt32.or_eq_zero_iff]

/-- What a step does to the bits. -/
theorem open_step {s t : Task} {e : Event} (hs : Open s) (hstep : step s e = .next t) :
    Open t ↔ Harmless s e := by
  rw [step] at hstep
  split_ifs at hstep
  cases hstep
  cases e with
  | ssetmask newmask =>
    have hopen : newmask &&& ~~~sigBit sigkill &&& ~~~sigBit sigstop &&& unblockable = 0 := by
      rw [UInt32.and_assoc, UInt32.and_assoc]
      exact UInt32.and_zero
    exact ⟨fun _ ↦ trivial, fun _ ↦ hopen⟩
  | sigsuspend => exact .rfl
  | signal signum handler =>
    refine ⟨fun _ ↦ trivial, fun _ ↦ ?_⟩
    show Open (sysSignal s signum handler)
    rw [sysSignal]
    split_ifs
    · exact hs
    · exact hs
  | sigaction signum action =>
    refine ⟨fun _ ↦ trivial, fun _ ↦ ?_⟩
    show Open (sysSigaction s signum action)
    rw [sysSigaction]
    split_ifs
    · exact hs
    · exact hs
    · exact hs
  | deliver signr =>
    have hmask : Open { s with blocked := s.blocked ||| (s.action signr).mask } ↔
        (s.action signr).mask &&& unblockable = 0 := or_and_eq_zero.trans (and_iff_right hs)
    show Open (doSignal s signr) ↔ _
    rw [doSignal, Harmless]
    split_ifs with hignore hdefault hsurvives honeshot
    · exact ⟨fun _ _ hne ↦ absurd hignore hne, fun _ ↦ hs⟩
    iterate 2 exact ⟨fun _ hne ↦ absurd hdefault hne, fun _ ↦ hs⟩
    all_goals exact hmask.trans ⟨fun h _ _ ↦ h, fun h ↦ h hdefault hignore⟩

/-- `SIGKILL` and `SIGSTOP` stay unblocked through a run exactly when every step of it is harmless.
-/
theorem neverBlocked_iff (s t : Task) (es : List Event) (hs : Open s)
    (hrun : run step s es = some t) :
    (∀ before after u, es = before ++ after → run step s before = some u → Open u) ↔
      Meets step Harmless s es :=
  stays_iff_meets hs (fun _ _ _ _ _ hu hstep ↦ open_step hu hstep) hrun

/-- A task with nothing blocked and all signals at their defaults. -/
def newTask : Task := ⟨0, fun _ ↦ ⟨0, 0, 0⟩, false⟩

/-- All signals are masked, handlers are installed and run, and the task suspends itself. -/
def handled : List Event :=
  [.ssetmask 0xFFFFFFFF, .sigaction 2 ⟨0x1000, 6, 0⟩, .deliver 2, .sigsuspend false 0 1,
    .signal 10 0x2000, .deliver 10, .sigsuspend true 6 0]

theorem neverBlocked_handled : ∃ t, run step newTask handled = some t ∧ Open t :=
  ⟨_, rfl, (neverBlocked_iff newTask _ handled rfl rfl).mpr (by decide +kernel)
  handled [] _ rfl rfl⟩

/-- `sys_sigsuspend` with all bits set. -/
theorem suspendsAll : ∃ t, run step newTask [.sigsuspend false 0 0xFFFFFFFF] = some t ∧
    t.blocked &&& sigBit sigkill ≠ 0 ∧ t.blocked &&& sigBit sigstop ≠ 0 :=
  ⟨_, rfl, by decide, by decide⟩

end EasyKernels.Linux.Signals
