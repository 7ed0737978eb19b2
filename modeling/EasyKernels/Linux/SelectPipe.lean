import EasyKernels.Lib.Runs
import Mathlib.Data.List.Nodup

/-!
# `select` on a pipe

`do_select` of `fs/select.c` by one task, for a pipe to become readable or writable, with any
number of tasks in `read_pipe` and `write_pipe`. Both checks of `select.c` enrol the task in
`i_wait`, where readers wait and which `write_pipe` wakes; but `read_pipe` wakes `i_wait2`. So a
task that waits for room in a full pipe sleeps on after another task has read all of it
(`sleepsOnRoom`). A task that waits for bytes is woken: while it sleeps and there are bytes, a call
of `write_pipe` is in progress or a reader above it in the queue is (`Inv`). `selectWakes` has
both, for the runs in which nobody reads while the task sleeps for room.

Scope. A queue is the list of its tasks: the one that the head points to, then the one that this
task found there (`tmp` of `__sleep_on`, `old_task` of `select.c`), and so on. A turn of a loop of
`read_pipe` or `write_pipe` is one step; the bytes are left out.
-/

set_option autoImplicit false

namespace EasyKernels.Linux.SelectPipe

open List Function Lib.Runs

/-- The task in `do_select`, or one of the others. -/
inductive Who
  | selector
  | caller (i : ℕ)
  deriving DecidableEq, Repr

inductive TaskState
  | running
  | interruptible
  | uninterruptible
  deriving DecidableEq, Repr

/-- A call of `read_pipe` or `write_pipe`: if it is in `__sleep_on`, and the bytes to go. -/
inductive Call
  | idle
  | read (asleep : Bool) (count : ℕ)
  | write (asleep : Bool) (count : ℕ)
  deriving DecidableEq, Repr

/-- The call of `do_select`: it sleeps, or it has to wait in `free_wait`; `out` says that it is for
writing. -/
inductive Select
  | idle
  | asleep (out : Bool)
  | freeing (out : Bool)
  deriving DecidableEq, Repr

/-- The pipe and its tasks. `PIPE_HEAD` and `PIPE_TAIL` are kept below 2¹². -/
structure State where
  head : BitVec 12
  tail : BitVec 12
  iCount : ℕ
  iWait : List Who
  iWait2 : List Who
  state : Who → TaskState
  signal : Who → Bool
  call : ℕ → Call
  select : Select

variable (s : State)

/-- `PIPE_SIZE`. -/
def State.size : ℕ := (s.head - s.tail).toNat

def State.wakeUp (q : List Who) : State :=
  { s with state := fun w ↦ if q.head? = some w then .running else s.state w }

def State.setCall (i : ℕ) (c : Call) : State :=
  { s with call := update s.call i c }

def State.setState (w : Who) (st : TaskState) : State :=
  { s with state := update s.state w st }

/-- A turn of `read_pipe`. -/
def readTurn (i count : ℕ) : State :=
  let chars := min (min (4096 - s.tail.toNat) count) s.size
  if count = 0 then (s.wakeUp s.iWait2).setCall i .idle
  else if s.size = 0 then
    let s := s.wakeUp s.iWait2
    if s.iCount ≠ 2 ∨ s.signal (.caller i) then s.setCall i .idle
    else
      ({ s with iWait := .caller i :: s.iWait }.setState (.caller i) .interruptible).setCall i
        (.read true count)
  else { s with tail := s.tail + BitVec.ofNat 12 chars }.setCall i (.read false (count - chars))

/-- A turn of `write_pipe`. -/
def writeTurn (i count : ℕ) : State :=
  let room := 4095 - s.size
  let chars := min (min (4096 - s.head.toNat) count) room
  if count = 0 then (s.wakeUp s.iWait).setCall i .idle
  else if room = 0 then
    let s := s.wakeUp s.iWait
    if s.iCount ≠ 2 then s.setCall i .idle
    else
      ({ s with iWait2 := .caller i :: s.iWait2 }.setState (.caller i) .uninterruptible).setCall i
        (.write true count)
  else { s with head := s.head + BitVec.ofNat 12 chars }.setCall i (.write false (count - chars))

/-- `__sleep_on` after `schedule`, on a queue that is not headed by the task: it wakes the head and
sleeps again. -/
def State.sleepAgain (q : List Who) (w : Who) : State :=
  (s.wakeUp q).setState w .uninterruptible

/-- A call of `read_pipe` or `write_pipe` goes on. -/
def turn (i : ℕ) : Call → Outcome Empty State
  | .idle => .blocked
  | .read false count => .next (readTurn s i count)
  | .write false count => .next (writeTurn s i count)
  | .read true count =>
    if s.iWait.head? = some (.caller i) then
      .next (({ s with iWait := s.iWait.tail }.wakeUp s.iWait.tail).setCall i (.read false count))
    else .next (s.sleepAgain s.iWait (.caller i))
  | .write true count =>
    if s.iWait2.head? = some (.caller i) then
      .next (({ s with iWait2 := s.iWait2.tail }.wakeUp s.iWait2.tail).setCall i
        (.write false count))
    else .next (s.sleepAgain s.iWait2 (.caller i))

/-- `check_out` and `check_in`, without the wait. -/
def State.ready (out : Bool) : Prop := s.size ≠ if out then 4095 else 0

instance (out : Bool) : Decidable (s.ready out) := inferInstanceAs (Decidable (_ ≠ _))

/-- `do_select` from `repeat` on, up to `schedule` or to the end; with a signal, `free_wait` takes
the task off the queue again and wakes the task that it found there. -/
def selectTurn (out : Bool) : State :=
  if s.ready out then { s with select := .idle }
  else if s.signal .selector then { s.wakeUp s.iWait with select := .idle }
  else
    { s with iWait := .selector :: s.iWait, select := .asleep out }.setState .selector
      .interruptible

/-- `free_wait` after `schedule`, and the next turn if the task is off the queue. -/
def freeWait (out : Bool) : State :=
  if s.iWait.head? = some .selector then
    selectTurn ({ s with iWait := s.iWait.tail }.wakeUp s.iWait.tail) out
  else { s.sleepAgain s.iWait .selector with select := .freeing out }

/-- `rouse` is `schedule` when it finds a signal or a timeout, and `count` a task that opens or
closes an end of the pipe. -/
inductive Event
  | read (i count : ℕ)
  | write (i count : ℕ)
  | turn (i : ℕ)
  | select (out : Bool)
  | resume
  | signal (w : Who) (pending : Bool)
  | rouse (w : Who)
  | count (n : ℕ)
  deriving DecidableEq, Repr

def step : Event → Outcome Empty State
  | .read i count =>
    if s.call i = .idle then .next (s.setCall i (.read false count)) else .blocked
  | .write i count =>
    if s.call i = .idle then .next (s.setCall i (.write false count)) else .blocked
  | .turn i => if s.state (.caller i) = .running then turn s i (s.call i) else .blocked
  | .select out => if s.select = .idle then .next (selectTurn s out) else .blocked
  | .resume =>
    if s.state .selector = .running then
      match s.select with
      | .idle => .blocked
      | .asleep out | .freeing out => .next (freeWait s out)
    else .blocked
  | .signal w pending => .next { s with signal := update s.signal w pending }
  | .rouse w => if s.state w = .interruptible then .next (s.setState w .running) else .blocked
  | .count n => .next { (s.wakeUp s.iWait).wakeUp s.iWait2 with iCount := n }

/-- A new pipe. -/
def initial : State where
  head := 0
  tail := 0
  iCount := 2
  iWait := []
  iWait2 := []
  state := fun _ ↦ .running
  signal := fun _ ↦ false
  call := fun _ ↦ .idle
  select := .idle

/-! ### What holds while the task sleeps -/

/-- A call of `write_pipe` is in progress. -/
def State.writing : Prop := ∃ i asleep count, s.call i = .write asleep count

/-- The task in `do_select` is the first of `i_wait`. -/
def State.first : Prop := s.iWait.head? = some .selector

/-- What the sleep of the task in `do_select` is for. -/
structure Sound (s : State) : Prop where
  room : s.select = .asleep true → s.size = 4095
  bytes : s.select = .asleep false → s.size = 0 ∨ s.writing ∨ ¬ s.first
  freeing : ∀ out, s.select = .freeing out → ¬ s.first

structure Inv (s : State) : Prop where
  nodup : s.iWait.Nodup
  enrolled : s.select ≠ .idle ↔ .selector ∈ s.iWait
  readers : ∀ i, .caller i ∈ s.iWait → ∃ count, s.call i = .read true count
  sound : s.state .selector ≠ .running → Sound s

/-- The task in `do_select` sleeps until there is room. -/
def State.awaitsRoom : Prop := s.select = .asleep true ∧ s.state .selector ≠ .running

/-- Nobody reads while the task in `do_select` sleeps until there is room. -/
def Spared : Event → Prop
  | .turn i => ∀ count, s.call i = .read false count → count ≠ 0 → s.size ≠ 0 → ¬ s.awaitsRoom
  | _ => True

section Step

variable {s t : State} {i count : ℕ}

theorem writing_setCall (h : s.writing) (hcall : ∀ asleep count, s.call i ≠ .write asleep count)
    (c : Call) : (s.setCall i c).writing := by
  obtain ⟨j, asleep, n, hj⟩ := h
  refine ⟨j, asleep, n, ?_⟩
  have hne : j ≠ i := fun heq ↦ hcall asleep n (heq ▸ hj)
  rw [← hj]
  exact update_of_ne hne _ _

section

variable (h : Inv s)

include h

/-- A step that changes no queue but `i_wait2`, and wakes tasks. -/
theorem Inv.frame (hwait : t.iWait = s.iWait) (hselect : t.select = s.select)
    (hreaders : ∀ i, .caller i ∈ s.iWait → t.call i = s.call i)
    (hsound : t.state .selector ≠ .running → s.state .selector ≠ .running ∧ (Sound s → Sound t)) :
    Inv t where
  nodup := hwait ▸ h.nodup
  enrolled := by rw [hselect, hwait]; exact h.enrolled
  readers := fun i hi ↦ by
    rw [hwait] at hi
    rw [hreaders i hi]
    exact h.readers i hi
  sound := fun hstate ↦ (hsound hstate).2 (h.sound (hsound hstate).1)

open State

theorem Inv.wakeUp (q : List Who) : Inv (s.wakeUp q) := by
  refine h.frame rfl rfl (fun _ _ ↦ rfl)
    fun hstate ↦ ⟨fun hrun ↦ hstate ?_, fun h ↦ ⟨h.1, h.2, h.3⟩⟩
  simp [State.wakeUp, hrun]

/-- A reader pushes itself on the queue. -/
theorem Inv.push (hcall : ∀ count, s.call i ≠ .read true count) (count : ℕ) :
    Inv (({ s with iWait := .caller i :: s.iWait }.setState (.caller i) .interruptible).setCall i
        (.read true count)) := by
  have hnot : .caller i ∉ s.iWait := fun hmem ↦ by
    obtain ⟨c, hc⟩ := h.readers i hmem
    exact hcall c hc
  constructor
  · exact nodup_cons.mpr ⟨hnot, h.nodup⟩
  · show s.select ≠ .idle ↔ _ ∈ _ :: _
    simp [h.enrolled]
  · intro j hj
    rcases eq_or_ne j i with rfl | hji
    · exact ⟨count, update_self ..⟩
    · obtain ⟨c, hc⟩ := h.readers j (by simpa [setCall, setState, hji] using hj)
      exact ⟨c, by rw [← hc]; exact update_of_ne hji _ _⟩
  · intro hstate
    have hold : s.state .selector ≠ .running := by simpa [setCall, setState] using hstate
    have hfirst : (.caller i :: s.iWait).head? ≠ some .selector := by simp
    exact ⟨(h.sound hold).room, fun _ ↦ .inr (.inr hfirst), fun _ _ ↦ hfirst⟩

/-- The first task leaves the queue and wakes the next. -/
theorem Inv.pop (hfirst : s.iWait.head? = some (.caller i)) (count : ℕ) :
    Inv (({ s with iWait := s.iWait.tail }.wakeUp s.iWait.tail).setCall i (.read false count)) := by
  obtain ⟨rest, hrest⟩ : ∃ rest, s.iWait = .caller i :: rest := by
    obtain ⟨rest, hrest⟩ := head?_eq_some_iff.mp hfirst
    exact ⟨rest, hrest⟩
  have hnodup := h.nodup
  rw [hrest] at hnodup
  obtain ⟨hnot, hnodup⟩ := nodup_cons.mp hnodup
  rw [hrest, tail_cons]
  constructor
  · exact hnodup
  · show s.select ≠ .idle ↔ _ ∈ rest
    simp [h.enrolled, hrest]
  · intro j hj
    have hji : j ≠ i := fun heq ↦ hnot (heq ▸ hj)
    obtain ⟨c, hc⟩ := h.readers j (hrest ▸ mem_cons_of_mem _ hj)
    exact ⟨c, by rw [← hc]; exact update_of_ne hji _ _⟩
  · intro hstate
    have hnext : rest.head? ≠ some .selector ∧ s.state .selector ≠ .running := by
      simpa [State.wakeUp, State.setCall] using hstate
    exact ⟨(h.sound hnext.2).room, fun _ ↦ .inr (.inr hnext.1), fun _ _ ↦ hnext.1⟩

/-- Only a reader that sleeps is in the queue. -/
theorem Inv.call_of_waiting (hi : ∀ n, s.call i ≠ .read true n) (c : Call) (j : ℕ)
    (hj : .caller j ∈ s.iWait) : update s.call i c j = s.call j := by
  refine update_of_ne ?_ _ _
  rintro rfl
  obtain ⟨n, hn⟩ := h.readers j hj
  exact hi n hn

theorem Inv.setState_caller (i : ℕ) (st : TaskState) : Inv (s.setState (.caller i) st) := by
  refine h.frame rfl rfl (fun _ _ ↦ rfl) fun hstate ↦ ⟨?_, fun h ↦ ⟨h.1, h.2, h.3⟩⟩
  simpa [setState] using hstate

theorem Inv.readTurn (hcall : s.call i = .read false count)
    (hspared : count ≠ 0 → s.size ≠ 0 → ¬ s.awaitsRoom) : Inv (readTurn s i count) := by
  have hawake (n : ℕ) : s.call i ≠ .read true n := by simp [hcall]
  have hkeep := h.call_of_waiting hawake
  have hwriting (u : State) (hu : u.call = s.call) (c : Call) (hs : s.writing) :
      (u.setCall i c).writing := by
    have := writing_setCall hs (fun _ _ ↦ by simp [hcall]) c (i := i)
    rwa [writing, setCall, ← hu] at this
  have hidle : Inv ((s.wakeUp s.iWait2).setCall i .idle) := by
    refine (h.wakeUp s.iWait2).frame rfl rfl (hkeep _)
      fun hstate ↦ ⟨hstate, fun hsound ↦ ⟨hsound.1, fun hbytes ↦ ?_, hsound.3⟩⟩
    exact (hsound.2 hbytes).imp_right (.imp_left (hwriting _ rfl .idle))
  rw [SelectPipe.readTurn]
  dsimp only
  split_ifs with hcount hsize hgone
  · exact hidle
  · exact hidle
  · exact (h.wakeUp s.iWait2).push hawake count
  · refine h.frame rfl rfl (hkeep _)
      fun hstate ↦ ⟨hstate, fun hsound ↦ ⟨fun hroom ↦ ?_, fun hbytes ↦ ?_, hsound.3⟩⟩
    · exact (hspared hcount hsize ⟨hroom, hstate⟩).elim
    · exact .inr (((hsound.2 hbytes).resolve_left hsize).imp_left (hwriting _ rfl _))

theorem Inv.writeTurn (hcall : s.call i = .write false count) : Inv (writeTurn s i count) := by
  have hkeep := h.call_of_waiting (i := i) (by simp [hcall])
  have hidle : Inv ((s.wakeUp s.iWait).setCall i .idle) := by
    refine (h.wakeUp s.iWait).frame rfl rfl (hkeep _)
      fun hstate ↦ ⟨hstate, fun hsound ↦ ⟨hsound.1, fun _ ↦ .inr (.inr fun hfirst ↦ ?_), hsound.3⟩⟩
    -- the wake-up was for the first task
    have hfirst : s.iWait.head? = some .selector := hfirst
    simp [State.setCall, State.wakeUp, hfirst] at hstate
  have hwriting (u : State) (asleep : Bool) (n : ℕ) : (u.setCall i (.write asleep n)).writing :=
    ⟨i, asleep, n, update_self ..⟩
  rw [SelectPipe.writeTurn]
  dsimp only
  split_ifs with hcount hroom hgone
  · exact hidle
  · exact hidle
  · refine (h.wakeUp s.iWait).frame rfl rfl (hkeep _)
      fun hstate ↦ ⟨by simpa [State.setCall, State.setState] using hstate, fun hsound ↦ ?_⟩
    exact ⟨hsound.1, fun _ ↦ .inr (.inl (hwriting _ _ _)), hsound.3⟩
  · refine h.frame rfl rfl (hkeep _)
      fun hstate ↦ ⟨hstate, fun hsound ↦
        ⟨fun hfull ↦ ?_, fun _ ↦ .inr (.inl (hwriting _ _ _)), hsound.3⟩⟩
    have := hsound.1 hfull
    omega

theorem Inv.turn (hspared : Spared s (.turn i)) (hstep : turn s i (s.call i) = .next t) :
    Inv t := by
  rw [SelectPipe.turn.eq_def] at hstep
  split at hstep
  case h_1 => cases hstep
  case h_2 count hcall =>
    cases hstep
    exact h.readTurn hcall (hspared count hcall)
  case h_3 count hcall =>
    cases hstep
    exact h.writeTurn hcall
  case h_4 count hcall =>
    split_ifs at hstep with hfirst <;> cases hstep
    · exact h.pop hfirst count
    · exact (h.wakeUp s.iWait).setState_caller i _
  case h_5 count hcall =>
    have hkeep := h.call_of_waiting (i := i) (by simp [hcall])
    split_ifs at hstep with hfirst <;> cases hstep
    · refine (h.wakeUp s.iWait2.tail).frame rfl rfl (hkeep _) fun hstate ↦
        ⟨hstate, fun hsound ↦ ?_⟩
      exact ⟨hsound.1, fun _ ↦ .inr (.inl ⟨i, false, count, update_self ..⟩), hsound.3⟩
    · exact (h.wakeUp s.iWait2).setState_caller i _

end

/-- A turn of `do_select` by a task that is not in the queue. -/
theorem inv_selectTurn (hnodup : s.iWait.Nodup) (hnot : .selector ∉ s.iWait)
    (hreaders : ∀ i, .caller i ∈ s.iWait → ∃ count, s.call i = .read true count) (out : Bool) :
    Inv (selectTurn s out) := by
  have hidle (u : State) (hwait : u.iWait = s.iWait) (hcall : u.call = s.call)
      (hselect : u.select = .idle) : Inv u :=
    ⟨hwait ▸ hnodup, by simp [hselect, hwait, hnot], by rw [hwait, hcall]; exact hreaders,
      fun _ ↦ ⟨by simp [hselect], by simp [hselect], by simp [hselect]⟩⟩
  rw [selectTurn]
  split_ifs with hready hsignal
  · exact hidle _ rfl rfl rfl
  · exact hidle _ rfl rfl rfl
  · constructor
    · exact nodup_cons.mpr ⟨hnot, hnodup⟩
    · simp [State.setState]
    · exact fun i hi ↦ hreaders i (by simpa [State.setState] using hi)
    · refine fun _ ↦ ⟨fun hroom ↦ ?_, fun hbytes ↦ .inl ?_, by simp [State.setState]⟩
      · obtain rfl : out = true := Select.asleep.inj hroom
        exact not_not.mp hready
      · obtain rfl : out = false := Select.asleep.inj hbytes
        exact not_not.mp hready

theorem Inv.freeWait (h : Inv s) (hselect : s.select ≠ .idle) (out : Bool) :
    Inv (freeWait s out) := by
  rw [SelectPipe.freeWait]
  split_ifs with hfirst
  · obtain ⟨rest, hrest⟩ := head?_eq_some_iff.mp hfirst
    have hnodup := h.nodup
    rw [hrest] at hnodup
    obtain ⟨hnot, hnodup⟩ := nodup_cons.mp hnodup
    rw [hrest, tail_cons]
    refine inv_selectTurn hnodup hnot (fun i hi ↦ ?_) out
    exact h.readers i (hrest ▸ mem_cons_of_mem _ hi)
  · refine ⟨h.nodup, ?_, h.readers, fun _ ↦ ⟨by simp, by simp, fun _ _ ↦ hfirst⟩⟩
    exact ⟨fun _ ↦ h.enrolled.mp hselect, fun _ ↦ by simp⟩

theorem Inv.step (h : Inv s) {e : Event} (hspared : Spared s e) (hstep : step s e = .next t) :
    Inv t := by
  have hcall (i : ℕ) (c : Call) (hidle : s.call i = .idle) : Inv (s.setCall i c) := by
    refine h.frame rfl rfl (h.call_of_waiting (by simp [hidle]) c) fun hstate ↦
      ⟨hstate, fun hsound ↦ ⟨hsound.1, fun hbytes ↦ ?_, hsound.3⟩⟩
    exact (hsound.2 hbytes).imp_right
      (.imp_left fun hw ↦ writing_setCall hw (fun _ _ ↦ by simp [hidle]) c)
  cases e with simp only [SelectPipe.step] at hstep
  | read i | write i =>
    obtain ⟨hidle, ⟨⟩⟩ := guard_eq_next.mp hstep
    exact hcall i _ hidle
  | turn i =>
    split_ifs at hstep
    exact h.turn hspared hstep
  | select out =>
    obtain ⟨hidle, ⟨⟩⟩ := guard_eq_next.mp hstep
    exact inv_selectTurn h.nodup (fun hmem ↦ h.enrolled.mpr hmem hidle) h.readers out
  | resume =>
    split_ifs at hstep
    split at hstep
    · cases hstep
    all_goals
      next out hselect =>
      cases hstep
      exact h.freeWait (by simp [hselect]) out
  | signal =>
    cases hstep
    exact h.frame rfl rfl (fun _ _ ↦ rfl) fun hstate ↦ ⟨hstate, fun h ↦ ⟨h.1, h.2, h.3⟩⟩
  | rouse w =>
    split_ifs at hstep
    cases hstep
    refine h.frame rfl rfl (fun _ _ ↦ rfl)
      fun hstate ↦ ⟨fun hrun ↦ hstate ?_, fun h ↦ ⟨h.1, h.2, h.3⟩⟩
    simp only [State.setState, update_apply, hrun, ite_self]
  | count n =>
    cases hstep
    exact ((h.wakeUp s.iWait).wakeUp s.iWait2).frame rfl rfl (fun _ _ ↦ rfl)
      fun hstate ↦ ⟨hstate, fun h ↦ ⟨h.1, h.2, h.3⟩⟩

end Step

/-! ### Runs -/

/-- When no call of `read_pipe` or `write_pipe` is in progress, a task that is not running and is in
`do_select` waits for room in a full pipe, or for bytes in an empty one; for runs in which nobody
reads while the task waits for room. -/
theorem selectWakes (es : List Event) (t : State) (hspared : Meets step Spared initial es)
    (hrun : run step initial es = some t) (hquiet : ∀ i, t.call i = .idle)
    (hblocked : t.state .selector ≠ .running) :
    (∀ out, t.select ≠ .freeing out) ∧ (t.select = .asleep true → t.size = 4095) ∧
      (t.select = .asleep false → t.size = 0) := by
  have hinitial : Inv initial :=
    ⟨nodup_nil, by simp [initial], fun _ hmem ↦ by simp [initial] at hmem,
      fun hstate ↦ (hstate rfl).elim⟩
  have hinv : Inv t := run_induction_of_meets (I := fun _ u ↦ Inv u) hinitial
    (fun _ _ _ _ _ h hs hstep ↦ h.step hs hstep) hspared hrun
  have hsound := hinv.sound hblocked
  -- the first of the queue would be a reader otherwise
  have hfirst (hselect : t.select ≠ .idle) : t.first := by
    have hmem := hinv.enrolled.mp hselect
    rw [State.first]
    cases hwait : t.iWait with
    | nil => simp [hwait] at hmem
    | cons w =>
      cases w with
      | selector => rfl
      | caller i =>
        obtain ⟨n, hn⟩ := hinv.readers i (by simp [hwait])
        simp [hquiet i] at hn
  refine ⟨fun out hout ↦ hsound.freeing out hout (hfirst (by simp [hout])), hsound.room,
    fun hbytes ↦ ?_⟩
  rcases hsound.bytes hbytes with hsize | ⟨i, asleep, n, hi⟩ | hnot
  · exact hsize
  · simp [hquiet i] at hi
  · exact (hnot (hfirst (by simp [hbytes]))).elim

/-- A task waits in `do_select` for bytes, and a reader after it. The bytes of a writer wake the
reader, which takes them and wakes the task; this one sleeps again. -/
def readerFirst : List Event :=
  [.select false, .read 1 3, .turn 1, .write 0 3, .turn 0, .turn 0, .turn 1, .turn 1, .turn 1,
    .resume]

theorem selectWakes_readerFirst :
    ∃ t, run step initial readerFirst = some t ∧ t.select = .asleep false ∧ t.size = 0 := by
  have hbytes : Meets step (fun s _ ↦ s.select ≠ .asleep true) initial readerFirst := by
    decide +kernel
  have hspared : Meets step Spared initial readerFirst := by
    intro before e after u heq hu
    cases e with
    | turn i => exact fun _ _ _ _ hroom ↦ hbytes before _ after u heq hu hroom.1
    | _ => trivial
  refine ⟨_, rfl, rfl, (selectWakes readerFirst _ hspared rfl (fun i ↦ ?_) (by decide)).2.2 rfl⟩
  match i with
  | 0 => rfl
  | 1 => rfl
  | _ + 2 => rfl

/-- A task fills the pipe, another waits in `do_select` until there is room, and a third reads a
byte. -/
def readOne : List Event :=
  [.write 0 4095, .turn 0, .turn 0, .select true, .read 1 1, .turn 1, .turn 1]

theorem sleepsOnRoom : ∃ t, run step initial readOne = some t ∧ t.call 0 = .idle ∧
    t.call 1 = .idle ∧ t.select = .asleep true ∧ t.state .selector = .interruptible ∧
      t.size = 4094 :=
  ⟨_, rfl, rfl, rfl, rfl, rfl, rfl⟩

end EasyKernels.Linux.SelectPipe
