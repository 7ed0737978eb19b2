import Mathlib.Data.Int.Notation
import Mathlib.Data.List.Perm.Basic
import EasyKernels.Lib.Calls

/-!
# The hard-disk driver of Linux

`kernel/blk_drv/hd.c` with `end_request` and `INIT_REQUEST` of `blk.h`: `do_hd_request`, the
interrupt handlers `read_intr`, `write_intr`, `recal_intr` and `reset_hd`, `bad_rw_intr`,
`unexpected_hd_interrupt` and `hd_times_out`. The driver goes from function to function through the
pointer `do_hd`; an event `go` runs it to the next call, with what the controller reports. An
interrupt, a tick of the clock or a new request comes when the driver is not running.

`go_keeps` says that the driver loses no request and does not change their order, works only when it
has a request, and waits for one only with a handler and the timeout set.

Scope. `tag`, `ended` and `added` are not in the source: they name the requests. The transfer of
data and what is sent to the controller are left out, except for the tests of `hd_out`. Driver code
is not interrupted.
-/

set_option autoImplicit false

namespace EasyKernels.Linux.HardDisk

open List Lib.Runs

/-! ### Requests -/

/-- `MAX_ERRORS`. -/
def maxErrors : ℕ := 7

inductive Cmd
  | read
  | write
  | other
  deriving DecidableEq, Repr

/-- `struct request`; `bh` is the buffer, and `none` for a paging request. -/
structure Request where
  tag : ℕ
  dev : ℕ
  cmd : Cmd
  errors : ℕ
  sector : UInt32
  nrSectors : UInt32
  bh : Option ℕ
  deriving DecidableEq, Repr

/-- `hd_info` and `hd`. -/
structure Disk where
  nrHd : ℕ
  head : ℕ → UInt32
  sect : ℕ → UInt32
  startSect : ℕ → UInt32
  nrSects : ℕ → UInt32

/-- The functions that `do_hd` points to. -/
inductive Intr
  | readIntr
  | writeIntr
  | recalIntr
  | resetHd
  deriving DecidableEq, Repr

/-- Where `bad_rw_intr` returns to: `do_hd_request`, or the test of `reset` in `reset_hd`. -/
inductive Next
  | request
  | resetTest
  deriving DecidableEq, Repr

/-- What the driver runs next. -/
inductive Pc
  | idle
  | handler (intr : Intr)
  | badRwIntr (next : Next)
  | resetTest
  | resetNext
  | request
  | timesOut
  deriving DecidableEq, Repr

structure State where
  queue : List Request
  locked : ℕ → Bool
  uptodate : ℕ → Bool
  doHd : Option Intr
  hdTimeout : ℕ
  reset : Bool
  recalibrate : Bool
  drive : ℤ
  pc : Pc
  ended : List ℕ
  added : List ℕ

/-- A queue for which `do_hd_request` is called. -/
def start (queue : List Request) (locked : ℕ → Bool) : State where
  queue := queue
  locked := locked
  uptodate := fun _ ↦ false
  doHd := none
  hdTimeout := 0
  reset := false
  recalibrate := false
  drive := 0
  pc := .request
  ended := []
  added := []

/-- The panics of the driver, division by zero, and the null pointers that it may follow. -/
inductive Fault
  | nullCurrent
  | nullBh
  | requestListDestroyed
  | blockNotLocked
  | badSector
  | notReady
  | unknownCommand
  | divide
  deriving DecidableEq, Repr

/-- What the controller reports: an error in `win_result`, the flag `DRQ_STAT`, and that it is
ready. -/
structure Status where
  error : Bool
  drq : Bool
  ready : Bool
  deriving DecidableEq, Repr

/-! ### The functions -/

variable (s : State)

/-- `end_request`. A request without a buffer cannot be ended with an error. -/
def endRequest (uptodate : Bool) : Except Fault State :=
  match s.queue with
  | [] => .error .nullCurrent
  | r :: rest =>
    match r.bh, uptodate with
    | some b, _ =>
      .ok { s with
        uptodate := Function.update s.uptodate b uptodate
        locked := Function.update s.locked b false
        queue := rest
        ended := s.ended ++ [r.tag] }
    | none, true => .ok { s with queue := rest, ended := s.ended ++ [r.tag] }
    | none, false => .error .nullBh

/-- `SET_INTR`. -/
def setIntr (intr : Option Intr) : State := { s with doHd := intr, hdTimeout := 200 }

/-- `++CURRENT->errors`, and the end of a request with too many. -/
def countError : Except Fault State :=
  match s.queue with
  | [] => .error .nullCurrent
  | r :: rest =>
    let s' := { s with queue := { r with errors := r.errors + 1 } :: rest }
    if maxErrors ≤ r.errors + 1 then endRequest s' false else .ok s'

/-- The second test of `bad_rw_intr`, of the request that is then the current one. -/
def resetOnErrors : Except Fault State :=
  match s.queue with
  | [] => .error .nullCurrent
  | r :: _ => .ok (if maxErrors / 2 < r.errors then { s with reset := true } else s)

/-- `bad_rw_intr`. -/
def badRwIntr : Except Fault State := do
  let s ← countError s
  resetOnErrors s

/-- `hd_out`. -/
def hdOut (drive head : UInt32) (status : Status) (intr : Intr) : Except Fault State :=
  if drive > 1 ∨ head > 15 then .error .badSector
  else if status.ready = false then .error .notReady
  else .ok { setIntr s (some intr) with pc := .idle }

/-- `read_intr`. -/
def readIntr (status : Status) : Except Fault State :=
  if status.error then .ok { s with pc := .badRwIntr .request }
  else
    match s.queue with
    | [] => .error .nullCurrent
    | r :: rest =>
      let r' := { r with errors := 0, sector := r.sector + 1, nrSectors := r.nrSectors - 1 }
      let s' := { s with queue := r' :: rest }
      if r.nrSectors - 1 ≠ 0 then .ok { setIntr s' (some .readIntr) with pc := .idle }
      else do
        let s ← endRequest s' true
        .ok { s with pc := .request }

/-- `write_intr`. -/
def writeIntr (status : Status) : Except Fault State :=
  if status.error then .ok { s with pc := .badRwIntr .request }
  else
    match s.queue with
    | [] => .error .nullCurrent
    | r :: rest =>
      if r.nrSectors - 1 ≠ 0 then
        .ok { setIntr { s with
          queue := { r with sector := r.sector + 1, nrSectors := r.nrSectors - 1 } :: rest }
            (some .writeIntr) with pc := .idle }
      else do
        let s ← endRequest { s with queue := { r with nrSectors := r.nrSectors - 1 } :: rest } true
        .ok { s with pc := .request }

/-- `recal_intr`. -/
def recalIntr (status : Status) : Except Fault State :=
  .ok { s with pc := if status.error then .badRwIntr .request else .request }

/-- `reset_hd`, from its label to the next drive. -/
def resetHd (status : Status) : Except Fault State :=
  if s.reset then .ok { s with reset := false, drive := -1, pc := .resetNext }
  else .ok { s with pc := if status.error then .badRwIntr .resetTest else .resetNext }

variable (disk : Disk)

/-- The rest of `reset_hd`. -/
def resetNext (s : State) (status : Status) : Except Fault State :=
  let s' := { s with drive := s.drive + 1 }
  if s.drive + 1 < disk.nrHd then
    hdOut s' (.ofNat (s.drive + 1).toNat) (disk.head (s.drive + 1).toNat - 1) status .resetHd
  else .ok { s' with pc := .request }

/-- The request lies outside its partition, or the partition does not exist. -/
def outside (r : Request) : Prop :=
  5 * disk.nrHd ≤ r.dev % 256 ∨ r.sector + 2 > disk.nrSects (r.dev % 256)

instance (r : Request) : Decidable (outside disk r) :=
  inferInstanceAs (Decidable (_ ∨ _))

/-- The head that `do_hd_request` computes for a request. -/
def headOf (r : Request) : UInt32 :=
  (r.sector + disk.startSect (r.dev % 256)) / disk.sect (r.dev % 256 / 5) %
    disk.head (r.dev % 256 / 5)

/-- The end of `do_hd_request`: the command for a request that is in order. -/
def command (s : State) (r : Request) (status : Status) : Except Fault State :=
  if disk.sect (r.dev % 256 / 5) = 0 ∨ disk.head (r.dev % 256 / 5) = 0 then .error .divide
  else if s.reset then .ok { s with recalibrate := true, pc := .handler .resetHd }
  else if s.recalibrate then
    hdOut { s with recalibrate := false } (.ofNat (r.dev % 256 / 5)) 0 status .recalIntr
  else
    match r.cmd with
    | .write => do
      let s ← hdOut s (.ofNat (r.dev % 256 / 5)) (headOf disk r) status .writeIntr
      .ok { s with pc := if status.drq then .idle else .badRwIntr .request }
    | .read => hdOut s (.ofNat (r.dev % 256 / 5)) (headOf disk r) status .readIntr
    | .other => .error .unknownCommand

/-- `do_hd_request`, from its label `repeat`. -/
def doHdRequest (s : State) (status : Status) : Except Fault State :=
  match s.queue with
  | [] => .ok { s with doHd := none, hdTimeout := 0, pc := .idle }
  | r :: _ =>
    if r.dev / 256 ≠ 3 then .error .requestListDestroyed
    else if ∃ b ∈ r.bh, s.locked b = false then .error .blockNotLocked
    else if outside disk r then endRequest s false
    else command disk s r status

/-- `hd_times_out`. -/
def hdTimesOut : Except Fault State :=
  match s.queue with
  | [] => .ok { s with pc := .idle }
  | _ :: _ => do
    let s ← countError s
    .ok { setIntr s none with reset := true, pc := .request }

/-- The driver runs to its next call. -/
def go (s : State) (status : Status) : Except Fault State :=
  match s.pc with
  | .idle => .ok s
  | .handler .readIntr => readIntr s status
  | .handler .writeIntr => writeIntr s status
  | .handler .recalIntr => recalIntr s status
  | .handler .resetHd => resetHd s status
  | .badRwIntr .request => do
    let s ← badRwIntr s
    .ok { s with pc := .request }
  | .badRwIntr .resetTest => do
    let s ← badRwIntr s
    .ok { s with pc := .resetTest }
  | .resetTest => .ok { s with pc := if s.reset then .handler .resetHd else .resetNext }
  | .resetNext => resetNext disk s status
  | .request => doHdRequest disk s status
  | .timesOut => hdTimesOut s

inductive Event
  | go (status : Status)
  | interrupt
  | tick
  | add (place : ℕ) (r : Request)
  deriving DecidableEq, Repr

/-- `add_request`: a new request goes behind the current one, at a place that the elevator chooses,
or starts the driver. -/
def addRequest (place : ℕ) (r : Request) : State :=
  match s.queue with
  | [] => { s with queue := [r], pc := .request, added := s.added ++ [r.tag] }
  | current :: rest =>
    { s with
      queue := current :: (rest.take place ++ r :: rest.drop place)
      added := s.added ++ [r.tag] }

/-- `hd_interrupt`. Without a handler it is `unexpected_hd_interrupt`. -/
def hdInterrupt : State :=
  match s.doHd with
  | some intr => { s with doHd := none, hdTimeout := 0, pc := .handler intr }
  | none => { s with hdTimeout := 0, reset := true, pc := .request }

/-- The part of `do_timer` for the driver. -/
def tick : State :=
  { s with hdTimeout := s.hdTimeout - 1, pc := if s.hdTimeout = 1 then .timesOut else s.pc }

def step (s : State) : Event → Outcome Fault State
  | .go status => if s.pc = .idle then .blocked else Outcome.ofExcept (go disk s status)
  | .interrupt => if s.pc = .idle then .next (hdInterrupt s) else .blocked
  | .tick => if s.pc = .idle then .next (tick s) else .blocked
  | .add place r => if s.pc = .idle then .next (addRequest s place r) else .blocked

/-- The driver does not count a last error of the last request in `bad_rw_intr`, and does not end a
paging request with an error. -/
def Careful (s : State) : Event → Prop
  | .go _ =>
    match s.pc, s.queue with
    | .badRwIntr _, r :: rest => maxErrors ≤ r.errors + 1 → r.bh ≠ none ∧ rest ≠ []
    | .timesOut, r :: _ => maxErrors ≤ r.errors + 1 → r.bh ≠ none
    | .request, r :: _ => r.dev / 256 = 3 → outside disk r → r.bh ≠ none
    | _, _ => True
  | _ => True

/-! ### No request is lost -/

/-- The requests that have been ended, followed by those in the queue. -/
def line : List ℕ := s.ended ++ s.queue.map Request.tag

/-- The driver works on a request. -/
def Pc.busy : Pc → Bool
  | .handler _ | .badRwIntr _ | .resetTest | .resetNext => true
  | .idle | .request | .timesOut => false

/-- The driver works only with a request, and waits for one with the timeout set. -/
structure Sound (s : State) : Prop where
  busy : s.pc.busy = true → s.queue ≠ []
  doHd : s.pc = .idle ∨ s.pc = .timesOut → s.doHd ≠ none → s.queue ≠ []
  armed : s.pc = .idle → s.queue ≠ [] → 0 < s.hdTimeout ∧ s.doHd ≠ none

/-- What the driver keeps when it runs. -/
structure Keeps (s t : State) : Prop where
  line : line t = line s
  added : t.added = s.added
  ended : s.ended <+: t.ended

theorem Keeps.refl : Keeps s s := ⟨rfl, rfl, prefix_rfl⟩

variable {s : State}

variable {u : State} {drive head : UInt32} {status : Status} {intr : Intr}

theorem Keeps.trans {t : State} (h : Keeps s t) (h' : Keeps t u) : Keeps s u :=
  ⟨h'.line.trans h.line, h'.added.trans h.added, h.ended.trans h'.ended⟩

theorem endRequest_keeps (s : State) (uptodate : Bool) :
    Post (endRequest s uptodate) fun t ↦ Keeps s t ∧ t.queue = s.queue.tail ∧ t.pc = s.pc := by
  rw [endRequest]
  cases hqueue : s.queue with
  | nil => exact .error
  | cons r rest =>
    have hline : s.ended ++ [r.tag] ++ rest.map Request.tag = line s := by
      rw [line, hqueue, append_assoc]
      rfl
    cases hbh : r.bh with
    | some b =>
      simp only [hbh]
      exact .ok ⟨⟨hline, rfl, prefix_append ..⟩, rfl, rfl⟩
    | none =>
      cases uptodate with
      | true =>
        simp only [hbh]
        exact .ok ⟨⟨hline, rfl, prefix_append ..⟩, rfl, rfl⟩
      | false =>
        simp only [hbh]
        exact .error

/-- Changing the current request but not its tag. -/
theorem keeps_current {r r' : Request} {rest : List Request} (hqueue : s.queue = r :: rest)
    (htag : r'.tag = r.tag) : Keeps s { s with queue := r' :: rest } := by
  refine ⟨?_, rfl, prefix_rfl⟩
  simp [line, hqueue, htag]

theorem countError_keeps (s : State) : Post (countError s) fun t ↦ Keeps s t ∧ t.pc = s.pc := by
  rw [countError]
  cases hqueue : s.queue with
  | nil => exact .error
  | cons r rest =>
    have hkeeps : Keeps s { s with queue := { r with errors := r.errors + 1 } :: rest } :=
      keeps_current hqueue rfl
    simp only
    split_ifs
    · exact (endRequest_keeps _ false).mono fun t h ↦ ⟨hkeeps.trans h.1, h.2.2⟩
    · exact .ok ⟨hkeeps, rfl⟩

theorem badRwIntr_keeps (s : State) : Post (badRwIntr s) fun t ↦ Keeps s t ∧ t.queue ≠ [] := by
  refine .bind (countError_keeps s) fun u hu ↦ ?_
  rw [resetOnErrors]
  cases hqueue : u.queue with
  | nil => exact .error
  | cons =>
    have hkeeps : Keeps s { u with reset := true } := ⟨hu.1.line, hu.1.added, hu.1.ended⟩
    simp only
    split_ifs
    · rw [← hqueue]
      exact .ok ⟨hkeeps, by simp [hqueue]⟩
    · exact .ok ⟨hu.1, by simp [hqueue]⟩

/-- The state in which the driver is left after `hd_out`. -/
theorem hdOut_keeps : Post (hdOut s drive head status intr) fun t ↦
      t = { setIntr s (some intr) with pc := .idle } := by
  rw [hdOut]
  split_ifs
  · exact .error
  · exact .error
  · exact .ok rfl

/-- The driver has a request, and its handler and its timeout are set. -/
theorem sound_armed (hqueue : s.queue ≠ []) (htimeout : 0 < s.hdTimeout) (hdoHd : s.doHd ≠ none) :
    Sound s :=
  ⟨fun _ ↦ hqueue, fun _ _ ↦ hqueue, fun _ _ ↦ ⟨htimeout, hdoHd⟩⟩

/-- The driver runs, with a queue. -/
theorem sound_running (hqueue : s.queue ≠ []) (hpc : s.pc ≠ .idle) : Sound s :=
  ⟨fun _ ↦ hqueue, fun _ _ ↦ hqueue, fun h ↦ absurd h hpc⟩

/-- The driver is about to look at its queue, which may be empty. -/
theorem sound_request (hpc : s.pc = .request) : Sound s :=
  ⟨fun h ↦ by simp [hpc, Pc.busy] at h, fun h ↦ by simp [hpc] at h, fun h ↦ by simp [hpc] at h⟩

theorem transfer_keeps (hqueue : s.queue ≠ []) (status : Status) :
    (Post (readIntr s status) fun t ↦ Keeps s t ∧ Sound t) ∧
      Post (writeIntr s status) fun t ↦ Keeps s t ∧ Sound t := by
  constructor
  all_goals
    first | rw [readIntr] | rw [writeIntr]
    split_ifs
    · exact .ok ⟨⟨rfl, rfl, prefix_rfl⟩, sound_running hqueue (by simp)⟩
    · cases hs : s.queue with
      | nil => exact absurd hs hqueue
      | cons =>
        simp only
        split_ifs
        · refine .ok ⟨⟨by simp [line, setIntr, hs], rfl, prefix_rfl⟩, sound_armed ?_ ?_ ?_⟩ <;>
            simp [setIntr]
        · refine .bind (endRequest_keeps _ true) fun u hu ↦ .ok ⟨?_, sound_request rfl⟩
          exact ⟨hu.1.line.trans (by simp [line, hs]), hu.1.added, hu.1.ended⟩

theorem hdOut_sound (hkeeps : Keeps s u) (hqueue : u.queue ≠ []) :
    Post (hdOut u drive head status intr) fun t ↦ Keeps s t ∧ Sound t := by
  refine hdOut_keeps.mono fun t ht ↦ ?_
  subst ht
  refine ⟨⟨hkeeps.line, hkeeps.added, hkeeps.ended⟩, ?_⟩
  exact sound_armed hqueue (Nat.succ_pos 199) (by simp [setIntr])

theorem resetNext_keeps (hqueue : s.queue ≠ []) (disk : Disk) (status : Status) :
    Post (resetNext disk s status) fun t ↦ Keeps s t ∧ Sound t := by
  rw [resetNext]
  split_ifs
  · apply hdOut_sound
    · exact ⟨rfl, rfl, prefix_rfl⟩
    · exact hqueue
  · exact .ok ⟨⟨rfl, rfl, prefix_rfl⟩, sound_request rfl⟩

theorem command_keeps (hqueue : s.queue ≠ []) (disk : Disk) (r : Request) (status : Status) :
    Post (command disk s r status) fun t ↦ Keeps s t ∧ Sound t := by
  rw [command]
  split
  · exact .error
  split
  · exact .ok ⟨⟨rfl, rfl, prefix_rfl⟩, sound_running hqueue (by simp)⟩
  split
  · apply hdOut_sound
    · exact ⟨rfl, rfl, prefix_rfl⟩
    · exact hqueue
  · cases r.cmd with
    | write =>
      refine .bind hdOut_keeps fun u hu ↦ .ok ?_
      subst hu
      refine ⟨⟨rfl, rfl, prefix_rfl⟩, ?_⟩
      split
      · exact sound_armed hqueue (Nat.succ_pos 199) (by simp [setIntr])
      · exact sound_running hqueue (by simp)
    | read => exact hdOut_sound ⟨rfl, rfl, prefix_rfl⟩ hqueue
    | other => exact .error

theorem doHdRequest_keeps (hpc : s.pc = .request) (disk : Disk) (status : Status) :
    Post (doHdRequest disk s status) fun t ↦ Keeps s t ∧ Sound t := by
  rw [doHdRequest]
  cases hs : s.queue with
  | nil =>
    refine .ok ⟨⟨by simp [line, hs], rfl, prefix_rfl⟩, ?_, ?_, ?_⟩
    · simp [Pc.busy]
    · simp
    · simp
  | cons r =>
    have hqueue : s.queue ≠ [] := by simp [hs]
    simp only
    split_ifs
    · exact .error
    · exact .error
    · exact (endRequest_keeps s false).mono fun t h ↦ ⟨h.1, sound_request (h.2.2.trans hpc)⟩
    · exact command_keeps hqueue disk r status

theorem hdTimesOut_keeps (hsound : Sound s) (hpc : s.pc = .timesOut) :
    Post (hdTimesOut s) fun t ↦ Keeps s t ∧ Sound t := by
  rw [hdTimesOut]
  cases hs : s.queue with
  | nil =>
    have hkeeps : Keeps s { s with pc := .idle } := ⟨rfl, rfl, prefix_rfl⟩
    rw [hs] at hkeeps
    refine .ok ⟨hkeeps, ?_, ?_, ?_⟩
    · simp [Pc.busy]
    · intro _ hdoHd
      exact absurd hs (hsound.doHd (.inr hpc) hdoHd)
    · simp
  | cons =>
    refine .bind (countError_keeps s) fun u hu ↦ .ok ⟨?_, sound_request rfl⟩
    exact ⟨hu.1.line, hu.1.added, hu.1.ended⟩

theorem go_keeps (hsound : Sound s) (disk : Disk) (status : Status) :
    Post (go disk s status) fun t ↦ Keeps s t ∧ Sound t := by
  rw [go]
  split
  case h_1 => exact .ok ⟨.refl s, hsound⟩
  case h_2 hpc => exact (transfer_keeps (hsound.busy (by simp [hpc, Pc.busy])) status).1
  case h_3 hpc => exact (transfer_keeps (hsound.busy (by simp [hpc, Pc.busy])) status).2
  case h_4 hpc | h_8 hpc =>
    have hqueue : s.queue ≠ [] := hsound.busy (by simp [hpc, Pc.busy])
    refine .ok ⟨⟨rfl, rfl, prefix_rfl⟩, sound_running hqueue ?_⟩
    split <;> simp
  case h_5 hpc =>
    have hqueue : s.queue ≠ [] := hsound.busy (by simp [hpc, Pc.busy])
    rw [resetHd]
    split
    · exact .ok ⟨⟨rfl, rfl, prefix_rfl⟩, sound_running hqueue (by simp)⟩
    · refine .ok ⟨⟨rfl, rfl, prefix_rfl⟩, sound_running hqueue ?_⟩
      split <;> simp
  case h_6 =>
    refine .bind (badRwIntr_keeps s) fun u hu ↦ .ok ⟨?_, sound_request rfl⟩
    exact ⟨hu.1.line, hu.1.added, hu.1.ended⟩
  case h_7 =>
    refine .bind (badRwIntr_keeps s) fun u hu ↦ .ok ⟨?_, sound_running hu.2 (by simp)⟩
    exact ⟨hu.1.line, hu.1.added, hu.1.ended⟩
  case h_9 hpc => exact resetNext_keeps (hsound.busy (by simp [hpc, Pc.busy])) disk status
  case h_10 hpc => exact doHdRequest_keeps hpc disk status
  case h_11 hpc => exact hdTimesOut_keeps hsound hpc

end EasyKernels.Linux.HardDisk
