import Mathlib.Data.Fintype.Prod
import EasyKernels.Lib.Runs
import EasyKernels.Linux.Param

/-!
# `sys_fork`

`find_empty_process` chooses `last_pid` and a free slot of `task[]`; `copy_process` gets a page for
the new `task_struct`, stores it in the slot with `last_pid` as its pid, copies the memory, and
returns `last_pid`. It calls `get_free_page` before the store and again, in `copy_mem`, before the
return. Each of these calls may write a page to the swap device and let other tasks run, which may
fork, exit, be waited for or change their process group.

`forkSound` says that nothing goes wrong as long as nobody calls `sys_fork` while a task is between
its own `find_empty_process` and its return (`Alone`). No slot is overwritten, the tasks have
different pids, and every `sys_fork` returns the pid of the child that it created. `forksCollide` is
a run in which three tasks fork at a time and all of this fails.

`find_empty_process` counts `last_pid` up until no task has it as its pid or process group;
`findEmptyProcess_isSome` says that this ends.

Scope. A task is named by the address of its `task_struct`, and addresses are not used again. Of the
fields of a `task_struct` there are `pid`, `pgrp` and `state`. `exit` is what `do_exit` does to
`state` and `release` what `sys_waitpid` does to the slot of a zombie; `setpgid` stands for
`sys_setpgid` and `sys_setsid`, without their checks.
-/

set_option autoImplicit false

namespace EasyKernels.Linux.Fork

open Nat List Option Function Lib.Runs

/-! ### The machine -/

/-- An index of `task[]`. -/
abbrev Slot := Fin nrTasks

/-- The address of a `task_struct`. -/
abbrev Ptr := ℕ

inductive TaskState
  | running
  | uninterruptible
  | zombie
  deriving DecidableEq

/-- `struct task_struct`. -/
structure Task where
  pid : Int32
  pgrp : Int32
  state : TaskState
  deriving DecidableEq

/-- How the last `sys_fork` of a task ended, if there was one. -/
inductive Result
  | none
  | eagain
  | child (p : Ptr) (pid : Int32)
  deriving DecidableEq

/-- Where a task is: outside `sys_fork`; in `copy_process` with slot `nr`, in the first
`get_free_page`; or in `copy_mem`, with the child in its slot. -/
inductive Pos
  | user (last : Result)
  | page (nr : Slot)
  | mem (nr : Slot) (child : Ptr)
  deriving DecidableEq

/-- The task is not in `sys_fork`. -/
def Pos.idle : Pos → Bool
  | .user _ => true
  | _ => false

/-- `task[]`, the `task_struct`s, `last_pid`, where the tasks are, and the next address. -/
structure State where
  task : Slot → Option Ptr
  info : Ptr → Task
  lastPid : Int32
  pos : Ptr → Pos
  fresh : Ptr

variable (s : State)

/-- `task[i] && (task[i]->pid == pid || task[i]->pgrp == pid)` for some `i`. -/
def State.taken (pid : Int32) : Bool :=
  (List.finRange nrTasks).any fun nr ↦
    match s.task nr with
    | none => false
    | some p => (s.info p).pid = pid ∨ (s.info p).pgrp = pid

/-- `if ((++last_pid) < 0) last_pid = 1`. -/
def bump (lastPid : Int32) : Int32 := if lastPid + 1 < 0 then 1 else lastPid + 1

/-- The loop over `last_pid`, at most `fuel` times. -/
def nextPid (taken : Int32 → Bool) : ℕ → Int32 → Option Int32
  | 0, _ => none
  | fuel + 1, lastPid => if taken (bump lastPid) then nextPid taken fuel (bump lastPid)
    else some (bump lastPid)

/-- The first free slot but slot 0. -/
def State.freeSlot : Option Slot :=
  (List.finRange nrTasks).find? fun nr ↦ nr.val ≠ 0 ∧ s.task nr = none

/-- `find_empty_process`: the new `last_pid` and the slot, or no slot for `-EAGAIN`. Each task has
one pid and one process group, so the loop ends before its fuel does. -/
def findEmptyProcess : Option (Int32 × Option Slot) :=
  (nextPid s.taken (2 * nrTasks + 1) s.lastPid).map fun pid ↦ (pid, s.freeSlot)

inductive Panic
  /-- `panic("trying to release non-existent task")`. -/
  | nonExistent
  deriving DecidableEq

inductive Event
  /-- `sys_fork`, up to the `get_free_page` of `copy_process`. -/
  | fork (p : Ptr)
  /-- `get_free_page` returns a page; `copy_process` goes on to `copy_mem`. -/
  | page (p : Ptr)
  | noPage (p : Ptr)
  /-- `copy_mem` returns 0; `copy_process` goes on to its end. -/
  | copied (p : Ptr)
  | notCopied (p : Ptr)
  | exit (p : Ptr)
  | release (p : Ptr)
  | setpgid (p : Ptr) (pgrp : Int32)

variable (p : Ptr)

/-- The task is in `task[]` and can run. -/
def State.runs : Prop :=
  (∃ nr, s.task nr = some p) ∧ (s.info p).state = .running

instance : Decidable (s.runs p) := inferInstanceAs (Decidable (_ ∧ _))

def State.setPos (pos : Pos) : State :=
  { s with pos := update s.pos p pos }

def State.setInfo (task : Task) : State :=
  { s with info := update s.info p task }

/-- `copy_process` from `task[nr] = p` to the call of `copy_mem`. -/
def State.enter (nr : Slot) : State where
  task := update s.task nr (some s.fresh)
  info := update s.info s.fresh ⟨s.lastPid, (s.info p).pgrp, .uninterruptible⟩
  lastPid := s.lastPid
  pos := update (update s.pos s.fresh (.user .none)) p (.mem nr s.fresh)
  fresh := s.fresh + 1

/-- `copy_process` from `copy_mem` on, with the value that it returns. -/
def State.finish (p child : Ptr) : State :=
  (s.setPos p (.user (.child child s.lastPid))).setInfo child
    { s.info child with state := .running }

/-- The exit of `copy_process` after `copy_mem` has failed. -/
def State.undo (nr : Slot) : State :=
  { s.setPos p (.user .eagain) with task := update s.task nr none }

/-- `sys_fork`, up to the `get_free_page` of `copy_process`. -/
def fork : Outcome Panic State :=
  match findEmptyProcess s with
  | some (pid, some nr) => .next ({ s with lastPid := pid }.setPos p (.page nr))
  | some (pid, none) => .next ({ s with lastPid := pid }.setPos p (.user .eagain))
  | none => .blocked

/-- `release(p)`. -/
def release : Outcome Panic State :=
  match (List.finRange nrTasks).find? fun nr ↦ nr.val ≠ 0 ∧ s.task nr = some p with
  | some nr => .next { s with task := update s.task nr none }
  | none => .fault .nonExistent

def step : Event → Outcome Panic State
  | .fork p => if s.runs p ∧ (s.pos p).idle = true then fork s p else .blocked
  | .page p =>
    match s.pos p with
    | .page nr => if s.runs p then .next (s.enter p nr) else .blocked
    | _ => .blocked
  | .noPage p =>
    match s.pos p with
    | .page _ => if s.runs p then .next (s.setPos p (.user .eagain)) else .blocked
    | _ => .blocked
  | .copied p =>
    match s.pos p with
    | .mem _ child => if s.runs p then .next (s.finish p child) else .blocked
    | _ => .blocked
  | .notCopied p =>
    match s.pos p with
    | .mem nr _ => if s.runs p then .next (s.undo p nr) else .blocked
    | _ => .blocked
  | .exit p =>
    if s.runs p ∧ (s.pos p).idle = true then
      .next (s.setInfo p { s.info p with state := .zombie })
    else .blocked
  | .release p => if (s.info p).state = .zombie then release s p else .blocked
  | .setpgid p pgrp => .next (s.setInfo p { s.info p with pgrp := pgrp })

/-- The ways a step ends. -/
inductive Move (s : State) : Event → State → Prop
  | fork (p : Ptr) (pid : Int32) (nr : Slot) (hruns : s.runs p) (hidle : (s.pos p).idle = true)
      (hpid : nextPid s.taken (2 * nrTasks + 1) s.lastPid = some pid)
      (hslot : s.freeSlot = some nr) :
      Move s (.fork p) ({ s with lastPid := pid }.setPos p (.page nr))
  | noSlot (p : Ptr) (pid : Int32) (hruns : s.runs p) (hidle : (s.pos p).idle = true)
      (hpid : nextPid s.taken (2 * nrTasks + 1) s.lastPid = some pid) :
      Move s (.fork p) ({ s with lastPid := pid }.setPos p (.user .eagain))
  | page (p : Ptr) (nr : Slot) (hruns : s.runs p) (hpos : s.pos p = .page nr) :
      Move s (.page p) (s.enter p nr)
  | noPage (p : Ptr) (nr : Slot) (hpos : s.pos p = .page nr) :
      Move s (.noPage p) (s.setPos p (.user .eagain))
  | copied (p : Ptr) (nr : Slot) (child : Ptr) (hpos : s.pos p = .mem nr child) :
      Move s (.copied p) (s.finish p child)
  | notCopied (p : Ptr) (nr : Slot) (child : Ptr) (hpos : s.pos p = .mem nr child) :
      Move s (.notCopied p) (s.undo p nr)
  | exit (p : Ptr) (hruns : s.runs p) (hidle : (s.pos p).idle = true) :
      Move s (.exit p) (s.setInfo p { s.info p with state := .zombie })
  | release (p : Ptr) (nr : Slot) (hzombie : (s.info p).state = .zombie)
      (hslot : s.task nr = some p) :
      Move s (.release p) { s with task := update s.task nr none }
  | setpgid (p : Ptr) (pgrp : Int32) :
      Move s (.setpgid p pgrp) (s.setInfo p { s.info p with pgrp := pgrp })

variable {s t : State} {e : Event} {pid : Int32} {p : Ptr} {nr : Slot}

theorem step_move (h : step s e = .next t) : Move s e t := by
  cases e with simp only [step] at h
  | fork p =>
    simp only [Fork.fork, findEmptyProcess] at h
    split_ifs at h with hready
    cases hpid : nextPid s.taken (2 * nrTasks + 1) s.lastPid with
    | none => simp [hpid] at h
    | some pid =>
      cases hslot : s.freeSlot with simp only [hpid, hslot, map_some, Outcome.next.injEq] at h
      | none =>
        exact h ▸ .noSlot p pid hready.1 hready.2 hpid
      | some nr =>
        exact h ▸ .fork p pid nr hready.1 hready.2 hpid hslot
  | page p =>
    (repeat' split at h) <;> cases h
    rename_i nr hpos hruns
    exact .page p nr hruns hpos
  | noPage p =>
    (repeat' split at h) <;> cases h
    rename_i nr hpos _
    exact .noPage p nr hpos
  | copied p =>
    (repeat' split at h) <;> cases h
    rename_i nr child hpos _
    exact .copied p nr child hpos
  | notCopied p =>
    (repeat' split at h) <;> cases h
    rename_i nr child hpos _
    exact .notCopied p nr child hpos
  | exit p =>
    obtain ⟨hready, ⟨⟩⟩ := guard_eq_next.mp h
    exact .exit p hready.1 hready.2
  | release p =>
    simp only [Fork.release] at h
    split_ifs at h with hzombie
    split at h <;> cases h
    rename_i nr hfind
    have hslot := find?_some hfind
    simp only [decide_eq_true_eq] at hslot
    exact .release p nr hzombie hslot.2
  | setpgid p pgrp =>
    cases h
    exact .setpgid p pgrp

/-! ### The choice of a pid ends -/

theorem toInt_bump (hpid : 0 ≤ pid.toInt) :
    (bump pid).toInt = if pid.toInt = 2147483647 then 1 else pid.toInt + 1 := by
  have hlt := pid.toInt_lt
  have hadd : (pid + 1).toInt = (pid.toInt + 1).bmod (2 ^ 32) := Int32.toInt_add pid 1
  rw [bump]
  split_ifs with hneg hmax hmax
  · rfl
  · rw [Int32.lt_iff_toInt_lt, hadd, Int.bmod_eq_of_le (by omega) (by omega)] at hneg
    simp at hneg
    omega
  · rw [Int32.lt_iff_toInt_lt, hadd, hmax] at hneg
    exact (hneg (by decide)).elim
  · rw [hadd, Int.bmod_eq_of_le (by omega) (by omega)]

/-- `last_pid` counts round from 1 to the largest pid. -/
theorem toInt_iterate_bump (hpid : 1 ≤ pid.toInt) (n : ℕ) :
    (bump^[n] pid).toInt = (pid.toInt - 1 + n) % 2147483647 + 1 := by
  have hlt := pid.toInt_lt
  induction n with
  | zero =>
    rw [iterate_zero_apply]
    omega
  | succ n ih =>
    rw [iterate_succ_apply', toInt_bump (by rw [ih]; omega), ih]
    split_ifs <;> omega

variable {n fuel : ℕ} {taken : Int32 → Bool} {lastPid : Int32} {q : Ptr}

theorem iterate_bump_injOn (hpid : 1 ≤ pid.toInt) {m : ℕ} (hm : m < 2147483647)
    (hn : n < 2147483647) (heq : bump^[m] pid = bump^[n] pid) : m = n := by
  have hint := congrArg Int32.toInt heq
  rw [toInt_iterate_bump hpid, toInt_iterate_bump hpid] at hint
  omega

theorem one_le_bump (hpid : 0 ≤ pid.toInt) : 1 ≤ (bump pid).toInt := by
  rw [toInt_bump hpid]
  split_ifs <;> omega

theorem nextPid_spec (hlast : 0 ≤ lastPid.toInt) (h : nextPid taken fuel lastPid = some pid) :
    taken pid = false ∧ 1 ≤ pid.toInt := by
  induction fuel generalizing lastPid with
  | zero => cases h
  | succ fuel ih =>
    have hbump := one_le_bump hlast
    rw [nextPid] at h
    split_ifs at h with htaken
    · exact ih (by omega) h
    · cases h
      exact ⟨by simpa using htaken, hbump⟩

theorem nextPid_eq_none (h : nextPid taken fuel lastPid = none) (hn : n < fuel) :
    taken (bump^[n] (bump lastPid)) = true := by
  induction fuel generalizing lastPid n with
  | zero => omega
  | succ fuel ih =>
    rw [nextPid] at h
    split_ifs at h with htaken
    cases n with
    | zero => exact htaken
    | succ n =>
      rw [iterate_succ_apply]
      exact ih h (by omega)

theorem taken_iff : s.taken pid = true ↔
    ∃ nr p, s.task nr = some p ∧ ((s.info p).pid = pid ∨ (s.info p).pgrp = pid) := by
  simp only [State.taken, List.any_eq_true, List.mem_finRange, true_and]
  refine exists_congr fun nr ↦ ?_
  cases s.task nr <;> simp

/-- `find_empty_process` returns: there are more pids than the tasks can have taken. -/
theorem findEmptyProcess_isSome (hlast : 0 ≤ s.lastPid.toInt) :
    (findEmptyProcess s).isSome = true := by
  rw [findEmptyProcess, isSome_map]
  by_contra hnone
  have hall : ∀ n : Fin (2 * nrTasks + 1), ∃ taker : Slot × Bool, ∃ p, s.task taker.1 = some p ∧
      (if taker.2 then (s.info p).pgrp else (s.info p).pid) = bump^[n] (bump s.lastPid) := by
    intro n
    obtain ⟨nr, p, hp, hpid | hpgrp⟩ :=
      taken_iff.mp (nextPid_eq_none (not_isSome_iff_eq_none.mp hnone) n.isLt)
    · exact ⟨(nr, false), p, hp, hpid⟩
    · exact ⟨(nr, true), p, hp, hpgrp⟩
  choose taker p htask htaken using hall
  -- the tasks would have taken different pids
  have hinj : Function.Injective taker := by
    intro m n heq
    have hm := htask m
    have hbump := htaken m
    rw [heq] at hm hbump
    rw [some.inj (hm.symm.trans (htask n)), htaken n] at hbump
    have hlt : ∀ k : Fin (2 * nrTasks + 1), k.val < 2147483647 := fun k ↦ by
      have hk := k.isLt
      simp only [nrTasks] at hk
      omega
    exact Fin.ext (iterate_bump_injOn (one_le_bump hlast) (hlt n) (hlt m) hbump).symm
  have hcard := Fintype.card_le_of_injective taker hinj
  simp only [Fintype.card_fin, Fintype.card_prod, Fintype.card_bool] at hcard
  omega

/-! ### One fork at a time -/

/-- Nobody calls `sys_fork` while a task is in it. -/
def Alone (s : State) : Event → Prop
  | .fork _ => ∀ nr, ∀ p ∈ s.task nr, (s.pos p).idle = true
  | _ => True

instance (s : State) : (e : Event) → Decidable (Alone s e)
  | .fork _ => inferInstanceAs (Decidable (∀ nr, ∀ p ∈ s.task nr, (s.pos p).idle = true))
  | .page _ | .noPage _ | .copied _ | .notCopied _ | .exit _ | .release _ | .setpgid _ _ =>
    .isTrue trivial

/-- The tasks have different pids, and the one task that may be in `sys_fork` still has the slot and
the pid that it chose. -/
structure Good (s : State) : Prop where
  nonneg : 0 ≤ s.lastPid.toInt
  bound : ∀ nr p, s.task nr = some p → p < s.fresh
  inj : ∀ nr mr p, s.task nr = some p → s.task mr = some p → nr = mr
  pids : ∀ nr mr p q, s.task nr = some p → s.task mr = some q →
    (s.info p).pid = (s.info q).pid → p = q
  alone : ∀ p q, (s.pos p).idle = false → (s.pos q).idle = false → p = q
  forker : ∀ p, (s.pos p).idle = false → s.runs p
  page : ∀ p nr, s.pos p = .page nr →
    s.task nr = none ∧ ∀ mr q, s.task mr = some q → (s.info q).pid ≠ s.lastPid
  mem : ∀ p nr child, s.pos p = .mem nr child → s.task nr = some child ∧
    (s.info child).pid = s.lastPid ∧ (s.info child).state = .uninterruptible
  result : ∀ p child pid, s.pos p = .user (.child child pid) →
    child < s.fresh ∧ (s.info child).pid = pid

variable {s : State}

/-- A child is stored in a slot. -/
def State.add (s : State) (nr : Slot) (child : Task) : State where
  task := update s.task nr (some s.fresh)
  info := update s.info s.fresh child
  lastPid := s.lastPid
  pos := update s.pos s.fresh (.user .none)
  fresh := s.fresh + 1

theorem idle_add (hidle : ∀ q, (s.pos q).idle = true) (nr : Slot) (child : Task) (q : Ptr) :
    ((s.add nr child).pos q).idle = true := by
  simp only [State.add, update_apply]
  split_ifs
  · rfl
  · exact hidle q

theorem enter_eq (hp : p ≠ s.fresh) : s.enter p nr = ((s.setPos p (.user .none)).add nr
    ⟨s.lastPid, (s.info p).pgrp, .uninterruptible⟩).setPos p (.mem nr s.fresh) := by
  simp only [State.enter, State.add, State.setPos, update_comm hp, update_idem]

section

variable (h : Good s)

include h

/-- A task goes to a place of which what `Good` says is true. -/
theorem Good.setPos {pos : Pos}
    (hbusy : pos.idle = false → s.runs p ∧ ∀ q, (s.pos q).idle = false → q = p)
    (hpage : ∀ nr, pos = .page nr →
      s.task nr = none ∧ ∀ mr q, s.task mr = some q → (s.info q).pid ≠ s.lastPid)
    (hmem : ∀ nr child, pos = .mem nr child → s.task nr = some child ∧
      (s.info child).pid = s.lastPid ∧ (s.info child).state = .uninterruptible)
    (hresult : ∀ child pid, pos = .user (.child child pid) →
      child < s.fresh ∧ (s.info child).pid = pid) : Good (s.setPos p pos) := by
  refine { h with
    alone := fun q r hq hr ↦ ?_, forker := fun q hq ↦ ?_, page := fun q nr hq ↦ ?_,
    mem := fun q nr child hq ↦ ?_, result := fun q child pid hq ↦ ?_ }
  all_goals
    simp only [State.setPos, update_apply] at hq
    split_ifs at hq with hqp
  · simp only [State.setPos, update_apply] at hr
    split_ifs at hr with hrp
    · exact hqp.trans hrp.symm
    · exact hqp.trans ((hbusy hq).2 r hr).symm
  · simp only [State.setPos, update_apply] at hr
    split_ifs at hr with hrp
    · exact ((hbusy hr).2 q hq).trans hrp.symm
    · exact h.alone q r hq hr
  · exact hqp ▸ (hbusy hq).1
  · exact h.forker q hq
  · exact hpage nr hq
  · exact h.page q nr hq
  · exact hmem nr child hq
  · exact h.mem q nr child hq
  · exact hresult child pid hq
  · exact h.result q child pid hq

/-- `sys_fork` returns. -/
theorem Good.leave (p : Ptr) (last : Result)
    (hlast : ∀ child pid, last = .child child pid → child < s.fresh ∧ (s.info child).pid = pid) :
    Good (s.setPos p (.user last)) :=
  h.setPos nofun nofun nofun fun child pid heq ↦ hlast child pid (Pos.user.inj heq)

/-- Only one task has been in `sys_fork`. -/
theorem Good.idle_of_leave (last : Result) (hbusy : (s.pos p).idle = false) (q : Ptr) :
    ((s.setPos p (.user last)).pos q).idle = true := by
  simp only [State.setPos, update_apply]
  split_ifs with hqp
  · rfl
  · by_contra hq
    exact hqp (h.alone q p (by simpa using hq) hbusy)

/-- The state or the process group of a task changes. -/
theorem Good.setInfo {task : Task} (hpid : task.pid = (s.info p).pid)
    (hforker : (s.pos p).idle = false → task.state = .running)
    (hmem : ∀ q nr, s.pos q = .mem nr p → task.state = .uninterruptible) :
    Good (s.setInfo p task) := by
  have hpids : ∀ q, ((s.setInfo p task).info q).pid = (s.info q).pid := by
    intro q
    simp only [State.setInfo, update_apply]
    split_ifs with hqp
    · rw [hqp, hpid]
    · rfl
  refine { h with pids := ?_, forker := ?_, page := ?_, mem := ?_, result := ?_ }
  · intro nr mr q r hq hr heq
    rw [hpids, hpids] at heq
    exact h.pids nr mr q r hq hr heq
  · intro q hq
    refine ⟨(h.forker q hq).1, ?_⟩
    simp only [State.setInfo, update_apply]
    split_ifs with hqp
    · exact hforker (hqp ▸ hq)
    · exact (h.forker q hq).2
  · intro q nr hq
    refine ⟨(h.page q nr hq).1, fun mr r hr ↦ ?_⟩
    rw [hpids]
    exact (h.page q nr hq).2 mr r hr
  · intro q nr child hq
    obtain ⟨hslot, hlast, hstate⟩ := h.mem q nr child hq
    refine ⟨hslot, by rw [hpids]; exact hlast, ?_⟩
    simp only [State.setInfo, update_apply]
    split_ifs with hchild
    · exact hmem q nr (hchild ▸ hq)
    · exact hstate
  · intro q child pid hq
    rw [hpids]
    exact h.result q child pid hq

/-- A slot becomes free that is not the slot of a task in `sys_fork` or of its child. -/
theorem Good.free (hforker : ∀ p, (s.pos p).idle = false → s.task nr ≠ some p)
    (hmem : ∀ p mr child, s.pos p = .mem mr child → mr ≠ nr) :
    Good { s with task := update s.task nr none } := by
  have htask : ∀ {mr p}, update s.task nr none mr = some p → s.task mr = some p := by
    intro mr p hmr
    rw [update_apply] at hmr
    split_ifs at hmr
    exact hmr
  refine { h with bound := ?_, inj := ?_, pids := ?_, forker := ?_, page := ?_, mem := ?_ }
  · exact fun mr p hp ↦ h.bound mr p (htask hp)
  · exact fun mr kr p hmr hkr ↦ h.inj mr kr p (htask hmr) (htask hkr)
  · exact fun mr kr p q hp hq ↦ h.pids mr kr p q (htask hp) (htask hq)
  · intro p hp
    obtain ⟨⟨mr, hmr⟩, hstate⟩ := h.forker p hp
    have hne : mr ≠ nr := fun heq ↦ hforker p hp (heq ▸ hmr)
    exact ⟨⟨mr, (update_of_ne hne _ _).trans hmr⟩, hstate⟩
  · intro p mr hp
    refine ⟨?_, fun kr q hq ↦ (h.page p mr hp).2 kr q (htask hq)⟩
    simp only [update_apply, (h.page p mr hp).1, ite_self]
  · intro p mr child hp
    refine ⟨?_, (h.mem p mr child hp).2⟩
    rw [← (h.mem p mr child hp).1]
    exact update_of_ne (hmem p mr child hp) _ _

/-- `find_empty_process` chooses a pid that nobody has. -/
theorem Good.choose (hpid : nextPid s.taken (2 * nrTasks + 1) s.lastPid = some pid)
    (hidle : ∀ p, (s.pos p).idle = true) : Good { s with lastPid := pid } := by
  obtain ⟨-, hone⟩ := nextPid_spec h.nonneg hpid
  refine { h with
    nonneg := by simp only; omega
    page := fun p nr hp ↦ ?_
    mem := fun p nr c hp ↦ ?_ }
  all_goals
    have hbusy := hidle p
    rw [hp] at hbusy
    cases hbusy

/-- A child is stored in a free slot, with a new pid, while nobody is in `sys_fork`. -/
theorem Good.add (hidle : ∀ q, (s.pos q).idle = true) (hfree : s.task nr = none) (task : Task)
    (hpid : task.pid = s.lastPid) (hnew : ∀ mr q, s.task mr = some q → (s.info q).pid ≠ s.lastPid) :
    Good (s.add nr task) := by
  have htask : ∀ {mr q}, (s.add nr task).task mr = some q →
      (mr = nr ∧ q = s.fresh) ∨ s.task mr = some q ∧ (s.add nr task).info q = s.info q := by
    intro mr q hq
    simp only [State.add, update_apply] at hq ⊢
    split_ifs at hq with hmr
    · exact .inl ⟨hmr, (some.inj hq).symm⟩
    · exact .inr ⟨hq, if_neg (h.bound mr q hq).ne⟩
  have hchild : ((s.add nr task).info s.fresh).pid = s.lastPid := by
    simp only [State.add, update_self, hpid]
  have hbusy : ∀ {q}, ((s.add nr task).pos q).idle ≠ false := by
    simp [idle_add hidle]
  refine ⟨h.nonneg, fun mr q hq ↦ ?_, fun mr kr q hmr hkr ↦ ?_, fun mr kr q r hq hr heq ↦ ?_,
    fun q r hq ↦ (hbusy hq).elim, fun q hq ↦ (hbusy hq).elim,
    fun q mr hq ↦ (hbusy (by rw [hq]; rfl)).elim, fun q mr c hq ↦ (hbusy (by rw [hq]; rfl)).elim,
    fun q child pid hq ↦ ?_⟩
  · rcases htask hq with ⟨-, rfl⟩ | ⟨hq, -⟩
    · exact lt_succ_self _
    · exact lt_succ_of_lt (h.bound mr q hq)
  · rcases htask hmr with ⟨rfl, rfl⟩ | ⟨hq, -⟩ <;> rcases htask hkr with ⟨rfl, hf⟩ | ⟨hq', -⟩
    · rfl
    · exact (lt_irrefl _ (h.bound kr _ hq')).elim
    · exact (lt_irrefl _ (hf ▸ h.bound mr _ hq)).elim
    · exact h.inj mr kr q hq hq'
  · rcases htask hq with ⟨-, rfl⟩ | ⟨hq, hqi⟩ <;> rcases htask hr with ⟨-, rfl⟩ | ⟨hr, hri⟩
    · rfl
    · exact (hnew kr r hr (by rw [← hri, ← heq, hchild])).elim
    · exact (hnew mr q hq (by rw [← hqi, heq, hchild])).elim
    · rw [hqi, hri] at heq
      exact h.pids mr kr q r hq hr heq
  · simp only [State.add, update_apply] at hq ⊢
    split_ifs at hq
    · cases hq
    · obtain ⟨hlt, hpid⟩ := h.result q child pid hq
      rw [if_neg hlt.ne]
      exact ⟨lt_succ_of_lt hlt, hpid⟩

/-- The child is stored in the slot, which is still free, with a pid that is still new. -/
theorem Good.enter (hpos : s.pos p = .page nr) : Good (s.enter p nr) := by
  obtain ⟨hfree, hnew⟩ := h.page p nr hpos
  have hbusy : (s.pos p).idle = false := by rw [hpos]; rfl
  obtain ⟨⟨slot, hslot⟩, hrunning⟩ := h.forker p hbusy
  have hpne : p ≠ s.fresh := (h.bound slot p hslot).ne
  have hne : slot ≠ nr := fun heq ↦ by
    rw [heq, hfree] at hslot
    cases hslot
  -- `p` is out of `sys_fork` while its child is added
  have hidle := h.idle_of_leave .none hbusy
  rw [enter_eq hpne]
  have hadd := (h.leave p .none nofun).add hidle hfree
    ⟨s.lastPid, (s.info p).pgrp, .uninterruptible⟩ rfl hnew
  refine hadd.setPos (fun _ ↦ ⟨⟨⟨slot, ?_⟩, ?_⟩, fun q hq ↦ ?_⟩) nofun ?_ nofun
  · exact (update_of_ne hne _ _).trans hslot
  · simp only [State.add, State.setPos, update_of_ne hpne, hrunning]
  · cases (idle_add hidle nr _ q).symm.trans hq
  · rintro mr child ⟨⟩
    simp only [State.add, State.setPos, update_self, and_self]

/-- Under `Alone`, `sys_fork` starts when nobody is in it. -/
theorem Good.idle (halone : Alone s (.fork p)) (q : Ptr) : (s.pos q).idle = true := by
  by_contra hbusy
  obtain ⟨⟨nr, hnr⟩, -⟩ := h.forker q (by simpa using hbusy)
  exact hbusy (halone nr q hnr)

/-- Every step keeps the tasks apart, when nobody forks while another does. -/
theorem Good.move (halone : Alone s e) (hmove : Move s e t) : Good t := by
  cases hmove with
  | fork p pid nr hruns hidle hpid hslot =>
    refine (h.choose hpid (h.idle halone)).setPos (fun _ ↦ ⟨hruns, fun q hq ↦ ?_⟩) ?_ nofun nofun
    · cases (h.idle halone q).symm.trans hq
    · rintro nr ⟨⟩
      have hfound := find?_some hslot
      simp only [decide_eq_true_eq] at hfound
      refine ⟨hfound.2, fun mr q hq heq ↦ ?_⟩
      have htaken : s.taken pid = true := taken_iff.mpr ⟨mr, q, hq, .inl heq⟩
      rw [(nextPid_spec h.nonneg hpid).1] at htaken
      cases htaken
  | noSlot p pid hruns hidle hpid => exact (h.choose hpid (h.idle halone)).leave p _ nofun
  | page p nr hruns hpos => exact h.enter hpos
  | noPage p => exact h.leave p _ nofun
  | copied p nr child hpos =>
    obtain ⟨hslot, hpid, -⟩ := h.mem p nr child hpos
    have hleft : Good (s.setPos p (.user (.child child s.lastPid))) := by
      refine h.leave p _ fun c pid heq ↦ ?_
      cases heq
      exact ⟨h.bound nr child hslot, hpid⟩
    refine hleft.setInfo rfl (fun _ ↦ rfl) fun q mr hq ↦ ?_
    have hidle := h.idle_of_leave (.child child s.lastPid) (by rw [hpos]; rfl) q
    rw [hq] at hidle
    cases hidle
  | notCopied p nr child hpos =>
    have hidle := h.idle_of_leave .eagain (p := p) (by rw [hpos]; rfl)
    have hleft : Good (s.setPos p (.user .eagain)) := h.leave p _ nofun
    refine hleft.free (fun q hq ↦ ?_) fun q mr c hq ↦ ?_
    · cases (hidle q).symm.trans hq
    · have hbusy := hidle q
      rw [hq] at hbusy
      cases hbusy
  | exit p hruns hidle =>
    refine h.setInfo rfl (fun hbusy ↦ ?_) fun q nr hq ↦ ?_
    · rw [hidle] at hbusy
      cases hbusy
    · have hstate := (h.mem q nr p hq).2.2
      rw [hruns.2] at hstate
      cases hstate
  | release p nr hzombie hslot =>
    refine h.free (fun q hq heq ↦ ?_) fun q mr child hq heq ↦ ?_
    · have hstate := (h.forker q hq).2
      rw [← some.inj (hslot.symm.trans heq), hzombie] at hstate
      cases hstate
    · obtain ⟨hchild, -, hstate⟩ := h.mem q mr child hq
      rw [heq, hslot] at hchild
      rw [← some.inj hchild, hzombie] at hstate
      cases hstate
  | setpgid p =>
    exact h.setInfo rfl (fun hbusy ↦ (h.forker p hbusy).2) fun q nr hq ↦ (h.mem q nr p hq).2.2

end

/-! ### The result -/

/-- Task 0, in slot 0 with pid 0. -/
def booted : State where
  task := fun nr ↦ if nr.val = 0 then some 0 else none
  info := fun _ ↦ ⟨0, 0, .running⟩
  lastPid := 0
  pos := fun _ ↦ .user .none
  fresh := 1

/-- All slots are used, by tasks with the first pids after the wrap, of the group of the last. -/
def crowded : State where
  task := fun nr ↦ some nr.val
  info := fun p ↦ ⟨.ofNat (p + 1), .ofNat nrTasks, .running⟩
  lastPid := 0x7FFFFFFF
  pos := fun _ ↦ .user .none
  fresh := nrTasks

theorem findEmptyProcess_crowded : (∀ pid ≤ nrTasks, 0 < pid → crowded.taken (.ofNat pid) = true) ∧
    (findEmptyProcess crowded).isSome = true :=
  ⟨by decide +kernel, findEmptyProcess_isSome (by decide)⟩

theorem booted_task (h : booted.task nr = some p) : nr.val = 0 ∧ p = 0 := by
  simp only [booted] at h
  split_ifs at h with hnr
  exact ⟨hnr, (some.inj h).symm⟩

theorem good_booted : Good booted where
  nonneg := by decide
  bound nr p h := by
    rw [(booted_task h).2]
    exact one_pos
  inj nr mr p hnr hmr := Fin.ext ((booted_task hnr).1.trans (booted_task hmr).1.symm)
  pids nr mr p q hp hq _ := (booted_task hp).2.trans (booted_task hq).2.symm
  alone p q := nofun
  forker p := nofun
  page p nr := nofun
  mem p nr child := nofun
  result p child pid := nofun

theorem good_of_run {es : List Event} (hmeets : Meets step Alone booted es)
    (hrun : run step booted es = some s) : Good s :=
  run_induction_of_meets (I := fun _ s ↦ Good s) good_booted
    (fun _ _ _ _ _ hgood halone hstep ↦ hgood.move halone (step_move hstep)) hmeets hrun

/-- What is true of the tasks, and of the forks that have ended. -/
structure ForkSound (s : State) : Prop where
  pids : ∀ nr mr p q, s.task nr = some p → s.task mr = some q → nr ≠ mr →
    (s.info p).pid ≠ (s.info q).pid
  returns : ∀ p child pid, s.pos p = .user (.child child pid) → (s.info child).pid = pid
  /-- A slot that holds a task keeps it, until the task is released or its `fork` gives it up. -/
  slots : ∀ e t, step s e = .next t → ∀ nr q, s.task nr = some q →
    t.task nr = some q ∨ t.task nr = none ∧
      (e = .release q ∨ ∃ p, e = .notCopied p ∧ s.pos p = .mem nr q)

/-- A step does not overwrite a slot that holds a task. -/
theorem Good.slots (h : Good s) (hmove : Move s e t) (hq : s.task nr = some q) :
    t.task nr = some q ∨ t.task nr = none ∧
      (e = .release q ∨ ∃ p, e = .notCopied p ∧ s.pos p = .mem nr q) := by
  cases hmove with
  | page p mr hruns hpos =>
    left
    have hne : nr ≠ mr := fun heq ↦ by
      rw [heq, (h.page p mr hpos).1] at hq
      cases hq
    exact (update_of_ne hne _ _).trans hq
  | notCopied p mr child hpos =>
    by_cases hne : nr = mr
    · rw [hne] at hq ⊢
      obtain rfl := some.inj ((h.mem p mr child hpos).1.symm.trans hq)
      exact .inr ⟨update_self _ _ _, .inr ⟨p, rfl, hpos⟩⟩
    · exact .inl ((update_of_ne hne _ _).trans hq)
  | release p mr hzombie hslot =>
    by_cases hne : nr = mr
    · rw [hne] at hq ⊢
      obtain rfl := some.inj (hslot.symm.trans hq)
      exact .inr ⟨update_self _ _ _, .inl rfl⟩
    · exact .inl ((update_of_ne hne _ _).trans hq)
  | _ => exact .inl hq

/-- As long as nobody forks while another task does, no slot of `task[]` is overwritten, the tasks
have different pids, and every `sys_fork` returns the pid of its child. -/
theorem forkSound {es : List Event} (hmeets : Meets step Alone booted es)
    (hrun : run step booted es = some s) : ForkSound s := by
  have hgood := good_of_run hmeets hrun
  constructor
  · intro nr mr p q hp hq hne heq
    obtain rfl := hgood.pids nr mr p q hp hq heq
    exact hne (hgood.inj nr mr p hp hq)
  · exact fun p child pid hpos ↦ (hgood.result p child pid hpos).2
  · exact fun e t hstep nr q hq ↦ hgood.slots (step_move hstep) hq

/-- Task 0 forks, and then its child does. -/
theorem forkSound_twice : ∃ es s, run step booted es = some s ∧
    s.pos 0 = .user (.child 1 1) ∧ s.pos 1 = .user (.child 2 2) ∧ ForkSound s :=
  ⟨[.fork 0, .page 0, .copied 0, .fork 1, .page 1, .copied 1], _, run_get (by decide +kernel),
    by decide +kernel, by decide +kernel, forkSound (by decide +kernel) (run_get _)⟩

/-- Three tasks fork at a time. Task 0 has chosen slot 3 when task 1 stores its child there. The
child of task 0 overwrites it and gets the pid of the child of task 2, and task 1 returns that pid
too. -/
theorem forksCollide : ∃ es s t u, run step booted es = some s ∧ step s (.page 0) = .next t ∧
    step t (.copied 1) = .next u ∧
    (s.task ⟨3, by decide⟩ = some 3 ∧ t.task ⟨3, by decide⟩ = some 5) ∧
    (t.task ⟨4, by decide⟩ = some 4 ∧ (t.info 4).pid = (t.info 5).pid) ∧
    u.pos 1 = .user (.child 3 5) ∧ (u.info 3).pid = 4 :=
  ⟨[.fork 0, .page 0, .copied 0, .fork 0, .page 0, .copied 0, .fork 0, .fork 1, .page 1, .fork 2,
    .page 2], _, _, _, run_get (by decide +kernel), step_get (by decide +kernel),
    step_get (by decide +kernel), by decide +kernel⟩

end EasyKernels.Linux.Fork
