import Mathlib.Data.Fintype.Card
import EasyKernels.Lib.Chains
import EasyKernels.Lib.Runs
import EasyKernels.Linux.Param

/-!
# The sleep queues of Linux

`sleep_on`, `interruptible_sleep_on`, `wake_up` and `schedule` of `kernel/sched.c` on one queue
head `p`. The queue is nowhere but in the local variables `tmp` of the tasks that sleep: `*p`
points to the task that came last, and its `tmp` to the one before. A task runs until it calls
`schedule`, statement by statement; `wake_up` may be called between any two statements, by the task
that runs or by an interrupt.

The queue is a stack. `listsSleepers` says that in every run the chain from `*p` lists the tasks
inside `__sleep_on`, each once, and that the warning `*P = NULL` is not printed; where no wake-up
comes between the two statements that put a task in the queue and that change its state
(`Guarded`), it says further that, whenever a task was in the queue at a call of `wake_up`, it or a
task that came after it is running. `lostWakeup` is a run with a wake-up at that place: the task
that has just put itself in the queue is woken while it still runs, then marks itself as sleeping,
and nothing in the queue is running.

Scope. `stamp`, `stamps` and `called` are not in the source: they record the order in which the
tasks entered the queue and whether `wake_up` was called since. What the rest of the kernel does to
a task is the event `other`: anything to a task outside the queue, and anything but putting it to
sleep to a task in it. The messages of `wake_up` about stopped tasks and zombies are left out.
-/

set_option autoImplicit false

namespace EasyKernels.Linux.SleepQueue

open Nat Option Function Lib.Runs Lib.Chains
open List hiding map_map

/-! ### Tasks -/

/-- An index of the table `task`. -/
abbrev Slot := Fin nrTasks

/-- The slot of `init_task`. -/
def initTask : Slot := ⟨0, nrTasks_pos⟩

inductive TaskState
  | running
  | interruptible
  | uninterruptible
  | zombie
  | stopped
  deriving DecidableEq, Repr

/-- The fields of `struct task_struct` that `schedule` reads. -/
structure Task where
  state : TaskState
  counter : Int32
  priority : Int32
  signal : UInt32
  blocked : UInt32
  timeout : UInt32
  alarm : UInt32
  deriving DecidableEq

/-- `SIGALRM` as a bit of `signal`. -/
def sigalrm : UInt32 := (1 : UInt32) <<< 13

/-- `_BLOCKABLE`: all signals but `SIGKILL` and `SIGSTOP`. -/
def blockable : UInt32 := ~~~(((1 : UInt32) <<< 8) ||| ((1 : UInt32) <<< 18))

variable (t : Task)

def Task.wake : Task := { t with state := .running }

/-- The first part of the first loop of `schedule`. -/
def Task.checkTimeout (jiffies : UInt32) : Task :=
  if t.timeout ≠ 0 ∧ t.timeout < jiffies then
    { t with timeout := 0, state := if t.state = .interruptible then .running else t.state }
  else t

def Task.checkAlarm (jiffies : UInt32) : Task :=
  if t.alarm ≠ 0 ∧ t.alarm < jiffies then { t with signal := t.signal ||| sigalrm, alarm := 0 }
  else t

def Task.checkSignal : Task :=
  if t.signal &&& ~~~(blockable &&& t.blocked) ≠ 0 ∧ t.state = .interruptible then t.wake else t

variable (task : Slot → Option Task)

/-- The first loop of `schedule`, which leaves `init_task` alone. -/
def checkTasks (jiffies : UInt32) : Slot → Option Task :=
  fun i ↦
    if i = initTask then task i
    else (task i).map fun t ↦ ((t.checkTimeout jiffies).checkAlarm jiffies).checkSignal

/-- One turn of the search of `schedule` for the task with the most time left. -/
def better (best : Int32 × Slot) (i : Slot) : Int32 × Slot :=
  match task i with
  | none => best
  | some t => if t.state = .running ∧ best.1 < t.counter then (t.counter, i) else best

/-- The search of `schedule`, from the last task down to the one after `init_task`. -/
def search : Int32 × Slot :=
  ((List.finRange nrTasks).tail.reverse).foldl (better task) (-1, initTask)

/-- The loop of `schedule` that gives every task new time. -/
def recount : Slot → Option Task :=
  fun i ↦
    if i = initTask then task i
    else (task i).map fun t ↦ { t with counter := (t.counter >>> 1) + t.priority }

/-- The second loop of `schedule`, for at most a number of turns: the tasks and the next one to
run. -/
def choose (task : Slot → Option Task) : ℕ → Option ((Slot → Option Task) × Slot)
  | 0 => none
  | turns + 1 =>
    if (search task).1 ≠ 0 then some (task, (search task).2) else choose (recount task) turns

/-! ### The machine -/

/-- The statement of `__sleep_on` that a task comes to next: `*p = current`, `current->state =
state`, `schedule()`, the test of `*p`, `current->state = TASK_UNINTERRUPTIBLE`, and `tmp->state =
0`. -/
inductive Pos
  | outside
  | entered (state : TaskState)
  | linked (state : TaskState)
  | asleep
  | back
  | roused
  | unlinked
  deriving DecidableEq, Repr

/-- The task has put itself in the queue and has not yet left it. -/
def Pos.queued : Pos → Bool
  | .linked _ | .asleep | .back | .roused => true
  | .outside | .entered _ | .unlinked => false

attribute [simp] Pos.queued

structure State where
  task : Slot → Option Task
  jiffies : UInt32
  current : Slot
  head : Option Slot
  tmp : Slot → Option Slot
  pos : Slot → Pos
  warned : Bool
  stamps : ℕ
  stamp : Slot → ℕ
  called : Slot → Bool

/-- All tasks are outside the queue, which is empty. -/
def start (jiffies : UInt32) (current : Slot) : State where
  task := task
  jiffies := jiffies
  current := current
  head := none
  tmp := fun _ ↦ none
  pos := fun _ ↦ .outside
  warned := false
  stamps := 0
  stamp := fun _ ↦ 0
  called := fun _ ↦ false

variable (s : State)

def State.setState (i : Slot) (state : TaskState) : State :=
  { s with task := update s.task i ((s.task i).map fun t ↦ { t with state := state }) }

def State.setPos (i : Slot) (pos : Pos) : State :=
  { s with pos := update s.pos i pos }

/-- `wake_up`, and the assignments of `__sleep_on` through a pointer that may be null. -/
def State.rouse : Option Slot → State
  | none => s
  | some i => s.setState i .running

inductive Event
  | sleepOn
  | interruptibleSleepOn
  | go
  | schedule (turns : ℕ)
  | wakeUp
  | other (i : Slot) (task : Option Task)
  | clock (jiffies : UInt32)
  deriving DecidableEq

/-- `panic("task[0] trying to sleep")`. -/
inductive Panic
  | task0
  deriving DecidableEq, Repr

/-- `__sleep_on` up to `tmp = *p`. `current` points to a task. -/
def enter (state : TaskState) : Outcome Panic State :=
  if s.pos s.current = .outside ∧ (s.task s.current).isSome then
    if s.current = initTask then .fault .task0
    else .next ({ s with tmp := update s.tmp s.current s.head }.setPos s.current
      (.entered state))
  else .blocked

/-- `*p = current`. -/
def link (state : TaskState) : State :=
  { s with
    head := some s.current
    stamps := s.stamps + 1
    stamp := update s.stamp s.current s.stamps
    called := update s.called s.current false }.setPos s.current (.linked state)

/-- The test of `*p` after `schedule`, with what follows it up to the next statement that another
task can see: the head of the queue is made to run, or the task leaves the queue. -/
def test : State :=
  match s.head with
  | some i =>
    if i ≠ s.current then (s.setState i .running).setPos s.current .roused
    else { s with head := s.tmp s.current }.setPos s.current .unlinked
  | none => { s with head := s.tmp s.current, warned := true }.setPos s.current .unlinked

/-- The next statement of the task that runs, when it is inside `__sleep_on`. -/
def go : Outcome Panic State :=
  match s.pos s.current with
  | .entered state => .next (link s state)
  | .linked state => .next ((s.setState s.current state).setPos s.current .asleep)
  | .back => .next (test s)
  | .roused => .next ((s.setState s.current .uninterruptible).setPos s.current .asleep)
  | .unlinked => .next ((s.rouse (s.tmp s.current)).setPos s.current .outside)
  | .outside | .asleep => .blocked

/-- `schedule`, up to the return of the call in the task that runs next. -/
def schedule (turns : ℕ) : Outcome Panic State :=
  if s.pos s.current = .outside ∨ s.pos s.current = .asleep then
    match choose (checkTasks s.task s.jiffies) turns with
    | none => .blocked
    | some (task, next) =>
      .next ({ s with task := task, current := next }.setPos next
        (if s.pos next = Pos.asleep then .back else s.pos next))
  else .blocked

/-- `wake_up(p)`. -/
def wakeUp : State :=
  { s.rouse s.head with called := fun i ↦ (s.pos i).queued || s.called i }

/-- The rest of the kernel does not put a task to sleep that is inside `__sleep_on`. -/
def Allowed (i : Slot) (task : Option Task) : Prop :=
  s.pos i = .outside ∨
    task.map Task.state = (s.task i).map Task.state ∨ task.map Task.state = some .running

instance (i : Slot) (task : Option Task) : Decidable (Allowed s i task) :=
  inferInstanceAs (Decidable (_ ∨ _))

def step : Event → Outcome Panic State
  | .sleepOn => enter s .uninterruptible
  | .interruptibleSleepOn => enter s .interruptible
  | .go => go s
  | .schedule turns => schedule s turns
  | .wakeUp => .next (wakeUp s)
  | .other i task =>
    if Allowed s i task then .next { s with task := update s.task i task } else .blocked
  | .clock jiffies => .next { s with jiffies := jiffies }

/-- The task is `TASK_RUNNING`. -/
def Running (i : Slot) : Prop := (s.task i).map Task.state = some .running

instance (i : Slot) : Decidable (Running s i) :=
  inferInstanceAs (Decidable (_ = _))

/-- No task stands between two statements of `__sleep_on`: those inside it are in `schedule`. -/
def Rest : Prop := s.pos s.current = .outside ∨ s.pos s.current = .asleep

instance : Decidable (Rest s) := inferInstanceAs (Decidable (_ ∨ _))

/-- No wake-up comes between `*p = current` and `current->state = state`. -/
def Guarded : Event → Prop
  | .wakeUp => ∀ state, s.pos s.current ≠ .linked state
  | _ => True

instance (e : Event) : Decidable (Guarded s e) :=
  match e with
  | .wakeUp =>
    match h : s.pos s.current with
    | .linked state => .isFalse fun hnot ↦ hnot state h
    | .outside | .entered _ | .asleep | .back | .roused | .unlinked =>
      .isTrue fun state hlinked ↦ by simp [h] at hlinked
  | .sleepOn | .interruptibleSleepOn | .go | .schedule _ | .other _ _ | .clock _ => .isTrue trivial

/-! ### What `schedule` chooses -/

variable {i j : Slot} {turns : ℕ} {s t : State} {l : List Slot} {pos : Pos} {state : TaskState}

theorem checkTasks_running {task : Slot → Option Task} (jiffies : UInt32)
    (h : (task i).map Task.state = some .running) :
    (checkTasks task jiffies i).map Task.state = some .running := by
  obtain ⟨t, ht, hstate⟩ := map_eq_some_iff.mp h
  simp only [checkTasks, ht, map_some]
  split_ifs
  · rw [map_some, hstate]
  · simp only [Task.checkSignal, Task.checkAlarm,
      Task.checkTimeout]
    split_ifs <;> simp_all

theorem recount_state (task : Slot → Option Task) (i : Slot) :
    (recount task i).map Task.state = (task i).map Task.state := by
  rw [recount]
  split_ifs
  · rfl
  · rw [map_map]
    rfl

theorem choose_state {task task' : Slot → Option Task} {next : Slot}
    (h : choose task turns = some (task', next)) (i : Slot) :
    (task' i).map Task.state = (task i).map Task.state := by
  induction turns generalizing task with
  | zero => simp [choose] at h
  | succ turns ih =>
    rw [choose] at h
    split_ifs at h
    · obtain ⟨rfl, -⟩ := Prod.mk.inj (some.inj h)
      rfl
    · rw [ih h, recount_state]

/-! ### Small steps on the state -/

section Fields

variable (s : State) (i j : Slot) (pos : Pos) (state : TaskState)

attribute [simps task current head tmp stamp stamps called warned] State.setPos
attribute [simps pos current head tmp stamp stamps called warned] State.setState

@[simp] theorem setPos_pos : (s.setPos i pos).pos i = pos := update_self _ _ _

variable {s i j pos state}

theorem setPos_of_ne (h : j ≠ i) : (s.setPos i pos).pos j = s.pos j := update_of_ne h _ _

theorem setState_task_of_ne (h : j ≠ i) : (s.setState i state).task j = s.task j :=
  update_of_ne h _ _

theorem setState_isSome : ((s.setState i state).task j).isSome = (s.task j).isSome := by
  by_cases h : j = i
  · simp [h, State.setState]
  · rw [setState_task_of_ne h]

theorem running_setState (h : (s.task i).isSome) : Running (s.setState i .running) i := by
  obtain ⟨t, ht⟩ := isSome_iff_exists.mp h
  simp [Running, State.setState, ht]

theorem Running.setState (h : Running s j) : Running (s.setState i .running) j := by
  by_cases hji : j = i
  · rw [hji] at h ⊢
    apply running_setState
    rw [← isSome_map, h]
    rfl
  · rwa [Running, setState_task_of_ne hji]

end Fields

/-! ### The queue is a stack -/

/-- `l` lists the tasks in the queue, the last one to enter first. -/
structure Listed (s : State) (l : List Slot) : Prop where
  chain : Chain s.tmp s.head l
  mem : ∀ i, i ∈ l ↔ (s.pos i).queued = true
  order : l.Pairwise fun i j ↦ s.stamp j < s.stamp i
  fresh : ∀ i ∈ l, s.stamp i < s.stamps

theorem Listed.congr (h : Listed s l) (hhead : t.head = s.head) (htmp : ∀ i ∈ l, t.tmp i = s.tmp i)
    (hpos : ∀ i, (t.pos i).queued = (s.pos i).queued) (hstamp : t.stamp = s.stamp)
    (hstamps : t.stamps = s.stamps) : Listed t l where
  chain := by
    rw [hhead]
    exact h.chain.congr htmp
  mem i := by rw [hpos, h.mem]
  order := by
    rw [hstamp]
    exact h.order
  fresh := by
    rw [hstamp, hstamps]
    exact h.fresh

/-- The head of the queue is the task that came last. -/
theorem Listed.top (h : Listed s l) (hhead : s.head = some i) (hj : (s.pos j).queued = true) :
    j = i ∨ s.stamp j < s.stamp i := by
  obtain ⟨l, rfl, -⟩ := (hhead ▸ h.chain).eq_cons
  rcases mem_cons.mp ((h.mem j).mpr hj) with rfl | hmem
  · exact .inl rfl
  · exact .inr ((pairwise_cons.mp h.order).1 j hmem)

theorem Listed.queued_head (h : Listed s l) (hhead : s.head = some i) :
    (s.pos i).queued = true := by
  obtain ⟨l, rfl, -⟩ := (hhead ▸ h.chain).eq_cons
  exact (h.mem i).mp mem_cons_self

theorem Listed.head_ne_none (h : Listed s l) (hi : (s.pos i).queued = true) : s.head ≠ none := by
  intro hnone
  obtain rfl := (hnone ▸ h.chain).eq_nil
  exact absurd ((h.mem i).mpr hi) not_mem_nil

/-- What holds where the running task stands: before it enters the queue and after it has left it,
its `tmp` is the head; when it has just entered, it is the head; when it has found another head,
that task runs. -/
def Here (s : State) : Pos → Prop
  | .outside | .asleep | .back => True
  | .entered _ | .unlinked => s.tmp s.current = s.head
  | .linked _ => s.head = some s.current
  | .roused => ∃ i, s.head = some i ∧ i ≠ s.current ∧ Running s i

/-- Only the task that runs stands between two statements of `__sleep_on`, and `init_task` is never
inside it. -/
structure Placed (s : State) : Prop where
  others : ∀ i, i ≠ s.current → s.pos i = .outside ∨ s.pos i = .asleep
  initTask : s.pos initTask = .outside
  alive : ∀ i, s.pos i ≠ .outside → (s.task i).isSome = true
  here : Here s (s.pos s.current)

theorem Placed.ne_initTask (h : Placed s) (hi : s.pos i ≠ .outside) : i ≠ SleepQueue.initTask := by
  rintro rfl
  exact hi h.initTask

/-- A statement of the task that runs. -/
theorem Placed.move (h : Placed s) (hcurrent : t.current = s.current)
    (hne : s.current ≠ SleepQueue.initTask) (halive : (s.task s.current).isSome = true)
    (hpos : ∀ i, i ≠ s.current → t.pos i = s.pos i)
    (htask : ∀ i, (t.task i).isSome = (s.task i).isSome) (hhere : Here t (t.pos t.current)) :
    Placed t where
  others i hi := by
    rw [hcurrent] at hi
    rw [hpos i hi]
    exact h.others i hi
  initTask := by
    rw [hpos _ hne.symm]
    exact h.initTask
  alive i hi := by
    rw [htask]
    by_cases heq : i = s.current
    · rwa [heq]
    · rw [hpos i heq] at hi
      exact h.alive i hi
  here := hhere

/-- What holds of the queue along every run. -/
structure Stack (s : State) (l : List Slot) : Prop where
  listed : Listed s l
  placed : Placed s
  warned : s.warned = false

variable (task : Slot → Option Task)

theorem stack_start (jiffies : UInt32) (current : Slot) :
    Stack (start task jiffies current) [] where
  listed := ⟨rfl, fun i ↦ by simp [start], List.Pairwise.nil, by simp⟩
  placed := ⟨fun _ _ ↦ .inl rfl, rfl, fun _ hi ↦ absurd rfl hi, trivial⟩
  warned := rfl

theorem setPos_queued (h : pos.queued = (s.pos i).queued) (j : Slot) :
    ((s.setPos i pos).pos j).queued = (s.pos j).queued := by
  by_cases hj : j = i
  · rw [hj, setPos_pos, h]
  · rw [setPos_of_ne hj]

theorem Stack.enter (h : Stack s l) (henter : enter s state = .next t) : Stack t l := by
  simp only [SleepQueue.enter] at henter
  split_ifs at henter with hpos hne
  cases henter
  have hnot : s.current ∉ l := by
    rw [h.listed.mem, hpos.1]
    simp
  refine ⟨h.listed.congr rfl ?_ ?_ rfl rfl, h.placed.move rfl hne hpos.2 ?_ ?_ ?_, h.warned⟩
  · intro i hi
    exact update_of_ne (ne_of_mem_of_not_mem hi hnot) _ _
  · exact setPos_queued (by simp [hpos.1])
  · exact fun i hi ↦ setPos_of_ne hi
  · exact fun i ↦ rfl
  · simp [Here]

theorem Stack.link (h : Stack s l) (hpos : s.pos s.current = .entered state) :
    Stack (link s state) (s.current :: l) := by
  have hnot : s.current ∉ l := by
    rw [h.listed.mem, hpos]
    simp
  have hstamp : ∀ i ∈ l, (SleepQueue.link s state).stamp i = s.stamp i := fun i hi ↦
    update_of_ne (ne_of_mem_of_not_mem hi hnot) _ _
  have hself : (SleepQueue.link s state).stamp s.current = s.stamps := update_self _ _ _
  have houtside : s.pos s.current ≠ .outside := by simp [hpos]
  have hhead : s.tmp s.current = s.head := by
    have hhere := h.placed.here
    rwa [hpos] at hhere
  refine ⟨⟨⟨rfl, ?_⟩, ?_, ?_, ?_⟩, ?_, h.warned⟩
  · rw [show (SleepQueue.link s state).tmp s.current = s.head from hhead]
    exact h.listed.chain
  · intro i
    by_cases hi : i = s.current
    · simp [hi, SleepQueue.link]
    · rw [mem_cons, or_iff_right hi, h.listed.mem, SleepQueue.link, setPos_of_ne hi]
  · refine pairwise_cons.mpr ⟨fun i hi ↦ ?_, ?_⟩
    · rw [hstamp i hi, hself]
      exact h.listed.fresh i hi
    · refine h.listed.order.imp_of_mem fun hi hj hlt ↦ ?_
      rwa [hstamp _ hi, hstamp _ hj]
  · intro i hi
    rcases mem_cons.mp hi with rfl | hi
    · rw [hself]
      exact lt_succ_self _
    · rw [hstamp i hi]
      exact (h.listed.fresh i hi).trans (lt_succ_self _)
  · refine h.placed.move rfl (h.placed.ne_initTask houtside) (h.placed.alive _ houtside) ?_ ?_ ?_
    · exact fun i hi ↦ setPos_of_ne hi
    · exact fun i ↦ rfl
    · simp [SleepQueue.link, Here]

theorem here_setPos {pos' : Pos} : Here (s.setPos i pos') pos ↔ Here s pos := by cases pos <;> rfl

/-- The running task goes on inside `__sleep_on` or leaves it. -/
theorem Stack.setPos (h : Stack s l) (pos : Pos) (houtside : s.pos s.current ≠ .outside)
    (hqueued : pos.queued = (s.pos s.current).queued) (hhere : Here s pos) :
    Stack (s.setPos s.current pos) l := by
  refine ⟨h.listed.congr rfl (fun _ _ ↦ rfl) (setPos_queued hqueued) rfl rfl, ?_, h.warned⟩
  refine h.placed.move rfl (h.placed.ne_initTask houtside) (h.placed.alive _ houtside)
    (fun i hi ↦ setPos_of_ne hi) (fun i ↦ rfl) ?_
  rw [State.setPos_current, setPos_pos]
  exact here_setPos.mpr hhere

theorem Stack.setState (h : Stack s l) (hhere : Here (s.setState i state) (s.pos s.current)) :
    Stack (s.setState i state) l where
  listed := h.listed.congr rfl (fun _ _ ↦ rfl) (fun _ ↦ rfl) rfl rfl
  placed := ⟨h.placed.others, h.placed.initTask,
    fun j hj ↦ setState_isSome.trans (h.placed.alive j hj), hhere⟩
  warned := h.warned

/-- Waking a task changes nothing but its state. -/
theorem Here.setState (h : Here s pos) : Here (s.setState i .running) pos := by
  cases pos with
  | outside | asleep | back | entered | linked | unlinked => exact h
  | roused =>
    obtain ⟨j, hhead, hne, hrunning⟩ := h
    exact ⟨j, hhead, hne, hrunning.setState⟩

theorem Stack.rouse (h : Stack s l) (o : Option Slot) : Stack (s.rouse o) l := by
  cases o with
  | none => exact h
  | some i => exact h.setState h.placed.here.setState

theorem ne_outside_of_queued (h : (s.pos i).queued = true) : s.pos i ≠ .outside := by
  intro heq
  simp [heq] at h

/-- The running task changes its state and calls `schedule`. -/
theorem Stack.sleep (h : Stack s l) (hqueued : (s.pos s.current).queued = true) :
    Stack ((s.setState s.current state).setPos s.current .asleep) l :=
  (h.setPos .asleep (ne_outside_of_queued hqueued) hqueued.symm trivial).setState
    (by simp [Here])

theorem Stack.test (h : Stack s l) (hpos : s.pos s.current = .back) : ∃ l', Stack (test s) l' := by
  have houtside : s.pos s.current ≠ .outside := by simp [hpos]
  have hqueued : (s.pos s.current).queued = true := by simp [hpos]
  obtain ⟨i, hhead⟩ := ne_none_iff_exists'.mp (h.listed.head_ne_none hqueued)
  obtain ⟨l, rfl, hchain⟩ := (hhead ▸ h.listed.chain).eq_cons
  have halive := h.placed.alive i (ne_outside_of_queued (h.listed.queued_head hhead))
  simp only [SleepQueue.test, hhead]
  split_ifs with hi
  · exact ⟨i :: l, (h.rouse (some i)).setPos .roused houtside hqueued.symm
      ⟨i, hhead, hi, running_setState halive⟩⟩
  · obtain rfl : i = s.current := not_not.mp hi
    have hnot := (nodup_cons.mp h.listed.chain.nodup).1
    obtain ⟨-, horder⟩ := pairwise_cons.mp h.listed.order
    refine ⟨l, ⟨hchain, fun j ↦ ?_, horder, ?_⟩, ?_, h.warned⟩
    · by_cases hj : j = s.current
      · rw [hj]
        simp [hnot]
      · rw [setPos_of_ne hj, ← h.listed.mem, mem_cons, or_iff_right hj]
    · exact fun j hj ↦ h.listed.fresh j (mem_cons_of_mem _ hj)
    · exact h.placed.move rfl (h.placed.ne_initTask houtside) (h.placed.alive _ houtside)
        (fun j hj ↦ setPos_of_ne hj) (fun j ↦ rfl) (by simp [Here])

/-- The running task, which has left the queue, leaves `__sleep_on`. -/
theorem Stack.leave (h : Stack s l) (hpos : s.pos s.current = .unlinked) :
    Stack (s.setPos s.current .outside) l :=
  h.setPos _ (by simp [hpos]) (by simp [hpos]) trivial

theorem rouse_current (s : State) (o : Option Slot) : (s.rouse o).current = s.current := by
  cases o <;> rfl

theorem rouse_pos (s : State) (o : Option Slot) : (s.rouse o).pos = s.pos := by
  cases o <;> rfl

theorem Stack.go (h : Stack s l) (hgo : go s = .next t) : ∃ l', Stack t l' := by
  rw [SleepQueue.go] at hgo
  cases hpos : s.pos s.current with rw [hpos] at hgo
  | outside | asleep => cases hgo
  | entered => exact ⟨_, Outcome.next.inj hgo ▸ h.link hpos⟩
  | linked | roused => exact ⟨l, Outcome.next.inj hgo ▸ h.sleep (by simp [hpos])⟩
  | back => exact Outcome.next.inj hgo ▸ h.test hpos
  | unlinked =>
    have hleave := (h.rouse (s.tmp s.current)).leave (by rwa [rouse_current, rouse_pos])
    rw [rouse_current] at hleave
    exact ⟨l, Outcome.next.inj hgo ▸ hleave⟩

theorem checkTasks_isSome (jiffies : UInt32) (i : Slot) :
    (checkTasks task jiffies i).isSome = (task i).isSome := by
  rw [checkTasks]
  split_ifs
  · rfl
  · rw [isSome_map]

theorem isSome_of_state {o o' : Option Task} (h : o'.map Task.state = o.map Task.state) :
    o'.isSome = o.isSome := by
  rw [← isSome_map, h, isSome_map]

/-- What a call of `schedule` does: it wakes tasks, and another task goes on. -/
theorem schedule_eq_next (h : schedule s turns = .next t) :
    Rest s ∧ ∃ task next, t = { s with task := task, current := next }.setPos next
        (if s.pos next = Pos.asleep then .back else s.pos next) ∧
      (∀ i, (task i).isSome = (s.task i).isSome) ∧
      ∀ i, Running s i → (task i).map Task.state = some .running := by
  obtain ⟨hrest, h⟩ := guard_eq_next.mp h
  split at h <;> cases h
  rename_i hchoose
  refine ⟨hrest, _, _, rfl, fun i ↦ ?_, fun i hi ↦ ?_⟩
  · rw [isSome_of_state (choose_state hchoose i), checkTasks_isSome]
  · rw [choose_state hchoose i]
    exact checkTasks_running s.jiffies hi

theorem Placed.at_rest (h : Placed s) (hrest : Rest s) (i : Slot) :
    s.pos i = .outside ∨ s.pos i = .asleep := by
  by_cases hi : i = s.current
  · rwa [hi]
  · exact h.others i hi

theorem Stack.schedule (h : Stack s l) (hschedule : schedule s turns = .next t) : Stack t l := by
  obtain ⟨hrest, task, next, rfl, htask, -⟩ := schedule_eq_next hschedule
  have hall := h.placed.at_rest hrest
  have hqueued : (if s.pos next = Pos.asleep then Pos.back else s.pos next).queued =
      (s.pos next).queued := by
    split_ifs with hasleep
    · simp [hasleep]
    · rfl
  refine ⟨h.listed.congr rfl (fun _ _ ↦ rfl) (setPos_queued hqueued) rfl rfl, ?_, h.warned⟩
  refine ⟨fun i hi ↦ ?_, ?_, fun i hi ↦ ?_, ?_⟩
  · rw [setPos_of_ne (show i ≠ next from hi)]
    exact hall i
  · by_cases hnext : SleepQueue.initTask = next
    · rw [← hnext, setPos_pos, h.placed.initTask, if_neg (by simp)]
    · rw [setPos_of_ne hnext]
      exact h.placed.initTask
  · refine (htask i).trans (h.placed.alive i ?_)
    by_cases hnext : i = next
    · rw [hnext, setPos_pos] at hi
      rw [hnext]
      split_ifs at hi with hasleep
      · simp [hasleep]
      · exact hi
    · rwa [setPos_of_ne hnext] at hi
  · simp only [State.setPos_current, setPos_pos]
    split_ifs with hasleep
    · trivial
    · rw [(hall next).resolve_right hasleep]
      trivial

/-- The rest of the kernel stops no running task of the queue. -/
theorem Allowed.running {task : Option Task} (hallowed : Allowed s i task)
    (hj : (s.pos j).queued = true) (hrunning : Running s j) :
    Running { s with task := update s.task i task } j := by
  show (update s.task i task j).map Task.state = some .running
  rcases eq_or_ne j i with rfl | hji
  · rw [update_self]
    rcases hallowed with houtside | hsame | hrunning'
    · simp [houtside] at hj
    · rw [hsame]
      exact hrunning
    · exact hrunning'
  · rwa [update_of_ne hji]

theorem Stack.other {task : Option Task} (h : Stack s l) (hallowed : Allowed s i task) :
    Stack { s with task := update s.task i task } l := by
  refine ⟨h.listed.congr rfl (fun _ _ ↦ rfl) (fun _ ↦ rfl) rfl rfl, ?_, h.warned⟩
  refine ⟨h.placed.others, h.placed.initTask, fun j hj ↦ ?_, ?_⟩
  · show (update s.task i task j).isSome = true
    rcases eq_or_ne j i with rfl | hji
    · rw [update_self]
      rcases hallowed with houtside | hsame | hrunning'
      · exact absurd houtside hj
      · rw [isSome_of_state hsame]
        exact h.placed.alive j hj
      · rw [← isSome_map, hrunning']
        rfl
    · rw [update_of_ne hji]
      exact h.placed.alive j hj
  · have hhere := h.placed.here
    cases hpos : s.pos s.current with
    | outside | asleep | back | entered | linked | unlinked => rwa [hpos] at hhere
    | roused =>
      rw [hpos] at hhere
      obtain ⟨j, hhead, hne, hj⟩ := hhere
      exact ⟨j, hhead, hne, hallowed.running (h.listed.queued_head hhead) hj⟩

theorem Stack.step {e : Event} (h : Stack s l) (hstep : step s e = .next t) : ∃ l', Stack t l' := by
  cases e with
  | sleepOn | interruptibleSleepOn => exact ⟨l, h.enter hstep⟩
  | go => exact h.go hstep
  | schedule => exact ⟨l, h.schedule hstep⟩
  | wakeUp =>
    have hrouse := h.rouse s.head
    cases hstep
    exact ⟨l, hrouse.listed.congr rfl (fun _ _ ↦ rfl) (fun _ ↦ rfl) rfl rfl,
      ⟨hrouse.placed.others, hrouse.placed.initTask, hrouse.placed.alive, hrouse.placed.here⟩,
      hrouse.warned⟩
  | other =>
    obtain ⟨hallowed, hstep⟩ := guard_eq_next.mp hstep
    exact ⟨l, Outcome.next.inj hstep ▸ h.other hallowed⟩
  | clock =>
    cases hstep
    exact ⟨l, h.listed.congr rfl (fun _ _ ↦ rfl) (fun _ ↦ rfl) rfl rfl,
      ⟨h.placed.others, h.placed.initTask, h.placed.alive, h.placed.here⟩, h.warned⟩

/-! ### Wake-ups are not lost -/

/-- The task or one that came after it is running, and is not about to put itself to sleep. -/
def Awake (s : State) (i : Slot) : Prop :=
  ∃ j, (s.pos j).queued = true ∧ (j = i ∨ s.stamp i < s.stamp j) ∧ Running s j ∧
    ∀ state, s.pos j ≠ .linked state

/-- What holds of the tasks that were in the queue at a call of `wake_up`. A task that has just left
the queue is about to wake the next. -/
structure Heard (s : State) : Prop where
  awake : ∀ i, (s.pos i).queued = true → s.called i = true →
    s.pos s.current = .unlinked ∨ Awake s i
  linked : ∀ state, s.pos s.current = .linked state → s.called s.current = false

/-- When the head of the queue is running, so is a task for every one in the queue. -/
theorem Stack.awake_of_head (h : Stack s l) (hhead : s.head = some j) (hrunning : Running s j)
    (hlinked : ∀ state, s.pos j ≠ .linked state) (hi : (s.pos i).queued = true) : Awake s i :=
  ⟨j, h.listed.queued_head hhead, (h.listed.top hhead hi).imp_left .symm, hrunning, hlinked⟩

/-- A step that leaves the queue and the running tasks of the queue as they are. -/
theorem Heard.congr (h : Heard s)
    (hcurrent : s.pos s.current = .unlinked → t.pos t.current = .unlinked)
    (hqueued : ∀ i, (t.pos i).queued = (s.pos i).queued) (hstamp : t.stamp = s.stamp)
    (hcalled : t.called = s.called)
    (hrunning : ∀ i, (s.pos i).queued = true → Running s i → Running t i)
    (hlinked : ∀ i state, t.pos i = .linked state → s.pos i = .linked state)
    (hhere : ∀ state, t.pos t.current = .linked state → t.called t.current = false) : Heard t where
  awake i hi hwoken := by
    rw [hqueued] at hi
    rw [hcalled] at hwoken
    refine (h.awake i hi hwoken).imp hcurrent fun ⟨j, hj, horder, hrun, hnot⟩ ↦ ?_
    refine ⟨j, by rwa [hqueued], by rwa [hstamp], hrunning j hj hrun, fun state heq ↦ ?_⟩
    exact hnot state (hlinked j state heq)
  linked := hhere

theorem heard_start (jiffies : UInt32) (current : Slot) : Heard (start task jiffies current) where
  awake i hi := by simp [start] at hi
  linked state hstate := by simp [start] at hstate

theorem setPos_linked (hpos : pos ≠ .linked state) (h : (s.setPos i pos).pos j = .linked state) :
    s.pos j = .linked state := by
  by_cases hji : j = i
  · rw [hji, setPos_pos] at h
    exact absurd h hpos
  · rwa [setPos_of_ne hji] at h

theorem Heard.enter (h : Heard s) (henter : enter s state = .next t) : Heard t := by
  simp only [SleepQueue.enter] at henter
  split_ifs at henter with hpos hne
  cases henter
  refine h.congr (by simp [hpos.1]) (setPos_queued (by simp [hpos.1])) rfl rfl
    (fun _ _ hrunning ↦ hrunning) (fun _ _ hlinked ↦ setPos_linked (by simp) hlinked) (by simp)

theorem Heard.link (h : Heard s) (hpos : s.pos s.current = .entered state) :
    Heard (link s state) := by
  have hother : ∀ i, i ≠ s.current → (SleepQueue.link s state).pos i = s.pos i :=
    fun i hi ↦ setPos_of_ne hi
  have hstamp : ∀ i, i ≠ s.current → (SleepQueue.link s state).stamp i = s.stamp i :=
    fun i hi ↦ update_of_ne hi _ _
  have hself : (SleepQueue.link s state).called s.current = false := update_self _ _ _
  constructor
  · intro i hi hwoken
    have hne : i ≠ s.current := by
      rintro rfl
      rw [hself] at hwoken
      cases hwoken
    rw [hother i hne] at hi
    rw [show (SleepQueue.link s state).called i = s.called i from update_of_ne hne _ _] at hwoken
    obtain ⟨j, hj, horder, hrunning, hnot⟩ := (h.awake i hi hwoken).resolve_left (by simp [hpos])
    have hjne : j ≠ s.current := by
      rintro rfl
      simp [hpos] at hj
    refine .inr ⟨j, ?_, ?_, hrunning, ?_⟩
    · rwa [hother j hjne]
    · rwa [hstamp i hne, hstamp j hjne]
    · rwa [hother j hjne]
  · exact fun _ _ ↦ hself

/-- The task that has put itself in the queue goes to sleep. -/
theorem Heard.sleep (h : Heard s) (hpos : s.pos s.current = .linked state) :
    Heard ((s.setState s.current state).setPos s.current .asleep) := by
  constructor
  · intro i hi hwoken
    have hne : i ≠ s.current := by
      rintro rfl
      have hfalse := h.linked state hpos
      rw [show s.called s.current = true from hwoken] at hfalse
      cases hfalse
    have hi' : (s.pos i).queued = true := by rwa [setPos_of_ne hne] at hi
    obtain ⟨j, hj, horder, hrunning, hnot⟩ := (h.awake i hi' hwoken).resolve_left (by simp [hpos])
    have hjne : j ≠ s.current := by
      rintro rfl
      exact hnot state hpos
    refine .inr ⟨j, ?_, horder, ?_, ?_⟩
    · rwa [setPos_of_ne hjne]
    · rwa [Running, State.setPos_task, setState_task_of_ne hjne]
    · rwa [setPos_of_ne hjne]
  · intro state' hstate
    simp at hstate

/-- A task that has woken the head of the queue goes back to sleep. -/
theorem heard_sleepAgain (hstack : Stack s l) (hpos : s.pos s.current = .roused) :
    Heard ((s.setState s.current .uninterruptible).setPos s.current .asleep) := by
  have hhere := hstack.placed.here
  rw [hpos] at hhere
  obtain ⟨j, hhead, hne, hrunning⟩ := hhere
  have hsleep : Stack ((s.setState s.current .uninterruptible).setPos s.current .asleep) l :=
    hstack.sleep (by simp [hpos])
  refine ⟨fun i hi _ ↦ .inr (hsleep.awake_of_head hhead ?_ ?_ hi), by simp⟩
  · rwa [Running, State.setPos_task, setState_task_of_ne hne]
  · rw [setPos_of_ne hne]
    rcases hstack.placed.others j hne with hout | hout <;> simp [hout]

theorem Heard.test (h : Heard s) (hstack : Stack s l) (hpos : s.pos s.current = .back) :
    Heard (test s) := by
  have hqueued : (s.pos s.current).queued = true := by simp [hpos]
  obtain ⟨i, hhead⟩ := ne_none_iff_exists'.mp (hstack.listed.head_ne_none hqueued)
  simp only [SleepQueue.test, hhead]
  split_ifs with hi
  · refine h.congr (by simp [hpos]) ?_ rfl rfl (fun _ _ ↦ .setState)
      (fun _ _ hlinked ↦ setPos_linked (by simp) hlinked) (by simp)
    exact setPos_queued hqueued.symm
  · exact ⟨fun _ _ _ ↦ .inl (by simp), by simp⟩

/-- A task that leaves the queue wakes the new head. -/
theorem heard_leave (hstack : Stack s l) (hpos : s.pos s.current = .unlinked) :
    Heard ((s.rouse (s.tmp s.current)).setPos s.current .outside) := by
  have hhead : s.tmp s.current = s.head := by
    have hhere := hstack.placed.here
    rwa [hpos] at hhere
  rw [hhead]
  have hleave := (hstack.rouse s.head).leave (by rwa [rouse_current, rouse_pos])
  rw [rouse_current] at hleave
  refine ⟨fun i hi _ ↦ .inr ?_, by simp [rouse_current]⟩
  cases hs : s.head with
  | none =>
    rw [hs] at hleave hi
    exact absurd hs (hleave.listed.head_ne_none hi)
  | some j =>
    rw [hs] at hleave hi
    have hj := hstack.listed.queued_head hs
    have hne : j ≠ s.current := by
      rintro rfl
      simp [hpos] at hj
    refine hleave.awake_of_head hs ?_ ?_ hi
    · exact running_setState (hstack.placed.alive j (ne_outside_of_queued hj))
    · rw [setPos_of_ne hne]
      rcases hstack.placed.others j hne with hout | hout <;> simp [State.rouse, hout]

theorem Heard.go (h : Heard s) (hstack : Stack s l) (hgo : go s = .next t) : Heard t := by
  rw [SleepQueue.go] at hgo
  cases hpos : s.pos s.current with rw [hpos] at hgo
  | outside | asleep => cases hgo
  | entered => exact Outcome.next.inj hgo ▸ h.link hpos
  | linked => exact Outcome.next.inj hgo ▸ h.sleep hpos
  | back => exact Outcome.next.inj hgo ▸ h.test hstack hpos
  | roused => exact Outcome.next.inj hgo ▸ heard_sleepAgain hstack hpos
  | unlinked => exact Outcome.next.inj hgo ▸ heard_leave hstack hpos

theorem Heard.schedule (h : Heard s) (hstack : Stack s l) (hschedule : schedule s turns = .next t) :
    Heard t := by
  obtain ⟨hrest, task, next, rfl, -, hrunning⟩ := schedule_eq_next hschedule
  have hall := hstack.placed.at_rest hrest
  have hpos : ∀ state, (if s.pos next = Pos.asleep then Pos.back else s.pos next) ≠
      .linked state := by
    rcases hall next with hout | hout <;> simp [hout]
  have hqueued : (if s.pos next = Pos.asleep then Pos.back else s.pos next).queued =
      (s.pos next).queued := by
    rcases hall next with hout | hout <;> simp [hout]
  refine h.congr ?_ (setPos_queued hqueued) rfl rfl (fun i _ hi ↦ hrunning i hi) ?_ ?_
  · rcases hrest with hout | hout <;> simp [hout]
  · exact fun i state hlinked ↦ setPos_linked (hpos state) hlinked
  · intro state hstate
    rw [State.setPos_current, setPos_pos] at hstate
    exact absurd hstate (hpos state)

theorem heard_wakeUp (hstack : Stack s l) (hguarded : ∀ state, s.pos s.current ≠ .linked state) :
    Heard (wakeUp s) := by
  obtain ⟨l, hnext⟩ := hstack.step (e := .wakeUp) rfl
  have hpos : (wakeUp s).pos = s.pos := rouse_pos s s.head
  have hcurrent : (wakeUp s).current = s.current := rouse_current s s.head
  refine ⟨fun i hi _ ↦ .inr ?_, fun state hstate ↦ ?_⟩
  · have hhead := hstack.listed.head_ne_none (hpos ▸ hi)
    obtain ⟨j, hj⟩ := ne_none_iff_exists'.mp hhead
    have hqueued := hstack.listed.queued_head hj
    refine hnext.awake_of_head (j := j) ?_ ?_ ?_ hi
    · simp [wakeUp, hj, State.rouse]
    · rw [wakeUp, hj]
      exact running_setState (hstack.placed.alive j (ne_outside_of_queued hqueued))
    · intro state
      rw [hpos]
      by_cases hne : j = s.current
      · exact hne ▸ hguarded state
      · rcases hstack.placed.others j hne with hout | hout <;> simp [hout]
  · rw [hpos, hcurrent] at hstate
    exact absurd hstate (hguarded state)

theorem Heard.step {e : Event} (h : Heard s) (hstack : Stack s l) (hguarded : Guarded s e)
    (hstep : step s e = .next t) : Heard t := by
  cases e with
  | sleepOn | interruptibleSleepOn => exact h.enter hstep
  | go => exact h.go hstack hstep
  | schedule => exact h.schedule hstack hstep
  | wakeUp => exact Outcome.next.inj hstep ▸ heard_wakeUp hstack hguarded
  | other =>
    obtain ⟨hallowed, ⟨⟩⟩ := guard_eq_next.mp hstep
    exact h.congr id (fun _ ↦ rfl) rfl rfl (fun _ ↦ hallowed.running) (fun _ _ ↦ id) h.linked
  | clock =>
    cases hstep
    exact h.congr id (fun _ ↦ rfl) rfl rfl (fun _ _ ↦ id) (fun _ _ ↦ id) h.linked

/-! ### Every run -/

section Runs

variable {task : Slot → Option Task} {jiffies : UInt32} {current : Slot}
    {es : List Event} {s : State}

theorem stack_of_run (hrun : run step (start task jiffies current) es = some s) : ∃ l, Stack s l :=
  run_invariant (I := fun s ↦ ∃ l, Stack s l) ⟨[], stack_start task jiffies current⟩
    (fun _ _ _ ⟨_, h⟩ hstep ↦ h.step hstep) hrun

theorem heard_of_run (hguarded : Meets step Guarded (start task jiffies current) es)
    (hrun : run step (start task jiffies current) es = some s) : Heard s := by
  refine run_induction_of_meets (I := fun _ ↦ Heard) (heard_start task jiffies current) ?_ hguarded
    hrun
  intro es u e t hu h hguarded hstep
  obtain ⟨l, hstack⟩ := stack_of_run hu
  exact h.step hstack hguarded hstep

/-- In every run the chain from `*p` lists the tasks that are in the queue, each once, which are
all those inside `__sleep_on` whenever none of them stands between two of its statements; and the
warning is not printed. When no wake-up comes between `*p = current` and `current->state = state`,
a task in the queue for which `wake_up` was called has a running task, itself or one that came
after it. -/
theorem listsSleepers (hrun : run step (start task jiffies current) es = some s) :
    s.warned = false ∧
    (∃ l, Chain s.tmp s.head l ∧ l.Nodup ∧ (∀ i, i ∈ l ↔ (s.pos i).queued = true) ∧
      (Rest s → ∀ i, i ∈ l ↔ s.pos i ≠ .outside)) ∧
    (Meets step Guarded (start task jiffies current) es → Rest s →
      ∀ i, s.pos i ≠ .outside → s.called i = true →
        ∃ j, s.pos j ≠ .outside ∧ (j = i ∨ s.stamp i < s.stamp j) ∧ Running s j) := by
  obtain ⟨l, hstack⟩ := stack_of_run hrun
  have hinside : Rest s → ∀ i, s.pos i ≠ .outside ↔ (s.pos i).queued = true := by
    intro hrest i
    rcases hstack.placed.at_rest hrest i with hout | hout <;> simp [hout]
  refine ⟨hstack.warned, ⟨l, hstack.listed.chain, hstack.listed.chain.nodup, hstack.listed.mem, ?_⟩,
    fun hguarded hrest i hi hcalled ↦ ?_⟩
  · intro hrest i
    rw [hstack.listed.mem, hinside hrest]
  · have hnot : s.pos s.current ≠ .unlinked := by
      rcases hrest with hout | hout <;> simp [hout]
    obtain ⟨j, hj, horder, hrunning, -⟩ :=
      ((heard_of_run hguarded hrun).awake i ((hinside hrest i).mp hi) hcalled).resolve_left hnot
    exact ⟨j, (hinside hrest j).mpr hj, horder, hrunning⟩

end Runs

/-- Two tasks besides `init_task`, in the slots 1 and 2, ready to run. -/
def twoTasks (i : Slot) : Option Task :=
  if i.val ≤ 2 then
    some { state := .running, counter := 1, priority := 1, signal := 0, blocked := 0, timeout := 0,
           alarm := 0 }
  else none

/-- The first of the two tasks. -/
def firstTask : Slot := ⟨1, one_lt_nrTasks⟩

/-- The first task sleeps, then the second, and one call of `wake_up` comes: the queue lists both,
and a task runs for the first. -/
theorem listsSleepers_two :
    ∃ s, run step (start twoTasks 0 firstTask)
        [.interruptibleSleepOn, .go, .go, .schedule 1, .sleepOn, .go, .go, .wakeUp] = some s ∧
      s.pos firstTask ≠ .outside ∧ ¬ Running s firstTask ∧
      ∃ j, s.pos j ≠ .outside ∧ (j = firstTask ∨ s.stamp firstTask < s.stamp j) ∧ Running s j :=
  ⟨_, run_get (by decide +kernel), by decide +kernel, by decide +kernel,
    (listsSleepers (run_get _)).2.2 (by decide +kernel) (by decide +kernel) firstTask
      (by decide +kernel) (by decide +kernel)⟩

/-- A task has put itself in the queue when an interrupt calls `wake_up`; it then marks itself as
sleeping, and nothing in the queue is running. -/
theorem lostWakeup :
    ∃ s, run step (start twoTasks 0 firstTask) [.sleepOn, .go, .wakeUp, .go] = some s ∧ Rest s ∧
      s.pos firstTask ≠ .outside ∧ s.called firstTask = true ∧
      ∀ j, s.pos j ≠ .outside → ¬ Running s j := by
  decide +kernel

end EasyKernels.Linux.SleepQueue
