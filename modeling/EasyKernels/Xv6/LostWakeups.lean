import EasyKernels.Xv6.SleepDiscipline
import EasyKernels.Xv6.SleepingCalls

/-!
# Pipes, sleep locks and the log lose no wakeup, but for writers that give up

`noLostWakeups` says for every run of any number of processes that whoever is `SLEEPING`, while
`ptable.lock` and the lock of the condition are free, sleeps on a condition that holds: a reader on
an empty pipe that is open for writing, a writer on a full pipe that is open for reading, a process
in `acquiresleep` on a lock that another process holds, and a process in `begin_op` on a log that is
committing or short of space. No sleep lock has two holders.

One call does not keep to the discipline. `pipewrite` that finds the pipe full returns -1 if the
process is killed or the pipe is closed for reading, and does not call `wakeup(&p->nread)` for the
bytes it has put into the pipe. The runs of `noLostWakeups` are those in which nobody sleeps on
`&p->nread`, or is on the way there, when this happens (`Considerate`); `readerLeftAsleep` is a run
of the other kind.

The conditions of the pipes and of the sleep locks are protected by their spin locks. That of the
log is changed outside the lock, by `commit()`, while `log.committing` is set; `Owned` carries this,
and the holders of the sleep locks.
-/

set_option autoImplicit false

namespace EasyKernels.Xv6.SleepWakeup

open List Function Lib.Runs
open Processes (ProcState)

/-! ### Notes on the code -/

/-- The spin lock that is held at a position. -/
def Fn.lock : Fn → Option Lock
  | .writeLoop i _ _ | .writeFull i _ _ | .writeSleep i _ _ | .writeDone i _ | .pipeRelease i _
  | .readTest i _ | .readSleep i _ | .readDone i _ | .closeSet i _ | .closeWake i _ =>
      some (.pipe i)
  | .lockTest i _ | .lockSleep i _ | .lockRelease i _ | .unlockClear i _ | .unlockWake i _ =>
    some (.sleeplock i)
  | .beginTest | .beginSleep | .logRelease | .endTest | .endWake | .endCommit | .commitClear
  | .logAppend _ => some .log
  | .consLoop _ _ _ | .consSleep _ _ _ | .consRelease _ _ | .intrLoop _ | .intrWake _
  | .intrRelease => some .cons
  | .ticksStart _ | .ticksTest _ _ | .ticksSleep _ _ | .ticksRelease _ | .clockTick | .clockWake =>
    some .ticks
  | _ => none

/-- The address on which a `wakeup` is owed. -/
def Fn.owes : Fn → Option Chan
  | .writeLoop i _ _ | .writeFull i _ _ | .writeDone i _ => some (.nread i)
  | .readDone i _ => some (.nwrite i)
  | .closeWake i writable => some (if writable then .nread i else .nwrite i)
  | .unlockWake i _ => some (.sleeplock i)
  | .endWake => some .log
  | _ => none

/-- The address on which the process is about to sleep. -/
def Fn.waits : Fn → Option Chan
  | .writeFull i _ _ | .writeSleep i _ _ => some (.nwrite i)
  | .readSleep i _ => some (.nread i)
  | .lockSleep i _ => some (.sleeplock i)
  | .beginSleep => some .log
  | .consSleep _ _ _ => some .input
  | .ticksSleep _ _ => some .ticks
  | _ => none

def notes : Notes Lock Chan Pc where
  holds pc lk := pc.fn.lock = some lk
  owes pc chan := pc.fn.owes = some chan
  waits pc chan := pc.fn.waits = some chan

/-- What a process waits for at an address. Nothing is said about the console and the clock. -/
def cond : Chan → Data → Prop
  | .nread i, d => (d.pipe i).empty ∧ (d.pipe i).writeopen = true
  | .nwrite i, d => (d.pipe i).full ∧ (d.pipe i).readopen = true
  | .sleeplock i, d => (d.lock i).locked = true
  | .log, d => d.log.committing = true ∨ d.log.full
  | .input, _ => True
  | .ticks, _ => True

variable (s : KState)

/-- The pipe on which the next step of a writer gives up: it is full, and the process is killed or
the pipe is closed for reading. -/
def givesUp (p : Slot) : Option ℕ :=
  match s.mode p with
  | .run ⟨_, _, .writeLoop i _ (_ :: _)⟩ =>
    if (s.data.pipe i).full ∧ ((s.data.pipe i).readopen = false ∨ (s.proc p).killed = true) then
      some i
    else none
  | _ => none

/-- A writer gives up on a pipe only when nobody sleeps on `&p->nread`. -/
def Considerate : Event Call → Prop
  | .step p =>
    match givesUp s p with
    | some i => ∀ q, ¬ SleepsOn s q (.nread i)
    | none => True
  | _ => True

instance : (e : Event Call) → Decidable (Considerate s e)
  | .step p =>
    match h : givesUp s p with
    | some i => decidable_of_iff (∀ q, ¬ SleepsOn s q (.nread i)) (by simp only [Considerate, h])
    | none => .isTrue (by simp only [Considerate, h])
  | .call _ _ => .isTrue trivial
  | .schedule _ => .isTrue trivial

/-- What is known of the state before a thread accesses the data. -/
structure Known (s : KState) (p : Slot) : Prop where
  committing : ∀ pc, s.mode p = .run pc → pc.fn = .commit → s.data.log.committing = true
  considerate : ∀ pc i n b rest, s.mode p = .run pc → pc.fn = .writeLoop i n (b :: rest) →
    (s.data.pipe i).full → ((s.data.pipe i).readopen = false ∨ (s.proc p).killed = true) →
    ∀ q, ¬ SleepsOn s q (.nread i)

/-! ### The accesses -/

variable {d data : Data} {i n : ℕ} {chan : Chan} {s : KState} {fn : Fn} {p : Slot} {pc next : Pc}
  {lk : Lock} {pid : Int32} {log' : Log}

/-- An access to one pipe concerns only those who sleep on it. -/
theorem cond_setPipe {pipe : Pipe} (hread : chan ≠ .nread i) (hwrite : chan ≠ .nwrite i) :
    cond chan (d.setPipe i pipe) ↔ cond chan d := by
  cases chan with
  | nread j =>
    have hji : j ≠ i := fun heq ↦ hread (by rw [heq])
    simp only [cond, Data.setPipe, update_of_ne hji]
  | nwrite j =>
    have hji : j ≠ i := fun heq ↦ hwrite (by rw [heq])
    simp only [cond, Data.setPipe, update_of_ne hji]
  | _ => exact .rfl

theorem cond_setLock {lock : Sleeplock} (hne : chan ≠ .sleeplock i) :
    cond chan (d.setLock i lock) ↔ cond chan d := by
  cases chan with
  | sleeplock j =>
    have hji : j ≠ i := fun heq ↦ hne (by rw [heq])
    simp only [cond, Data.setLock, update_of_ne hji]
  | _ => exact .rfl

theorem cond_setLog {log : Log} (hne : chan ≠ .log) :
    cond chan { d with log := log } ↔ cond chan d := by
  cases chan with
  | log => exact (hne rfl).elim
  | _ => exact .rfl

/-- What an access must keep, at the positions before and after it. -/
structure Fair (s : KState) (fn : Fn) (data : Data) (next : Fn) : Prop where
  holds : next.lock = fn.lock
  cond : ∀ chan, cond chan s.data → cond chan data ∨
    fn.lock = some chan.owner ∧ next.owes = some chan
  owes : ∀ chan, fn.owes = some chan → next.owes = some chan ∨ ∀ q, ¬ SleepsOn s q chan
  waits : ∀ chan, next.waits = some chan → SleepWakeup.cond chan data

/-- An access that only reads. -/
theorem Fair.reads {next : Fn} (hlock : next.lock = fn.lock)
    (howes : ∀ chan, fn.owes = some chan → next.owes = some chan ∨ ∀ q, ¬ SleepsOn s q chan)
    (hwaits : ∀ chan, next.waits = some chan → SleepWakeup.cond chan s.data) :
    Fair s fn s.data next :=
  ⟨hlock, fun _ hc ↦ .inl hc, howes, hwaits⟩

/-- An access to a pipe. -/
theorem Fair.pipe {next : Fn} {pipe : Pipe} (hlock : next.lock = fn.lock)
    (howes : ∀ chan, fn.owes = some chan → next.owes = some chan) (hwaits : next.waits = none)
    (hpipe : ∀ chan, chan = .nread i ∨ chan = .nwrite i → SleepWakeup.cond chan s.data →
      SleepWakeup.cond chan (s.data.setPipe i pipe) ∨
        fn.lock = some chan.owner ∧ next.owes = some chan) :
    Fair s fn (s.data.setPipe i pipe) next := by
  refine ⟨hlock, fun chan hc ↦ ?_, fun chan howe ↦ .inl (howes chan howe), fun chan hw ↦ ?_⟩
  · by_cases hchan : chan = .nread i ∨ chan = .nwrite i
    · exact hpipe chan hchan hc
    · obtain ⟨hread, hwrite⟩ := not_or.mp hchan
      exact .inl ((cond_setPipe hread hwrite).mpr hc)
  · rw [hwaits] at hw
    cases hw

theorem fair_writeLoop {rest : List UInt8} (hknown : Known s p) (hmode : s.mode p = .run pc)
    (hfn : pc.fn = .writeLoop i n rest) :
    Fair s (.writeLoop i n rest) (writeLoop pc i n rest (s.proc p).killed s.data).1
      (writeLoop pc i n rest (s.proc p).killed s.data).2.fn := by
  cases rest with
  | nil => exact .reads rfl (fun _ h ↦ .inl h) nofun
  | cons b rest =>
    simp only [writeLoop]
    split_ifs with hfull hgive
    · refine .reads rfl (fun chan howe ↦ .inr ?_) nofun
      cases howe
      exact hknown.considerate pc i n b rest hmode hfn hfull hgive
    · refine .reads rfl (fun chan howe ↦ .inl howe) fun chan hw ↦ ?_
      cases hw
      simp only [not_or, Bool.not_eq_false] at hgive
      exact ⟨hfull, hgive.1⟩
    · refine .pipe rfl (fun _ ↦ id) rfl ?_
      rintro chan (rfl | rfl) hc
      · exact .inr ⟨rfl, rfl⟩
      · exact (hfull hc.1).elim

theorem fair_readTest (killed : Bool) : Fair s (.readTest i n) (readTest pc i n killed s.data).1
      (readTest pc i n killed s.data).2.fn := by
  simp only [readTest]
  split_ifs with hempty hkilled
  · exact .reads rfl nofun nofun
  · refine .reads rfl nofun fun chan hw ↦ ?_
    cases hw
    exact hempty
  · refine .pipe rfl nofun rfl ?_
    rintro chan (rfl | rfl) hc
    · exact (hempty hc).elim
    · exact .inr ⟨rfl, rfl⟩

theorem fair_closeSet {writable : Bool} :
    Fair s (.closeSet i writable) (closeSet pc i writable s.data).1
      (closeSet pc i writable s.data).2.fn := by
  refine .pipe rfl nofun rfl ?_
  rintro chan (rfl | rfl) hc <;> cases writable
  case inl.true | inr.false => exact .inr ⟨rfl, rfl⟩
  all_goals
    left
    simp only [cond, Data.setPipe, update_self] at hc ⊢
    exact hc

variable {k : Cont} {r : Data × Pc} {f : Int32 → Bool → Data → Except Panic (Data × Pc)}

theorem fair_lockTest (pid : Int32) :
    Fair s (.lockTest i k) (lockTest pc i k pid s.data).1 (lockTest pc i k pid s.data).2.fn := by
  simp only [lockTest]
  split_ifs with hlocked
  · refine .reads rfl nofun fun chan hw ↦ ?_
    cases hw
    exact hlocked
  · refine ⟨rfl, fun chan hc ↦ .inl ?_, nofun, nofun⟩
    by_cases hchan : chan = .sleeplock i
    · rw [hchan] at hc
      exact (hlocked hc).elim
    · exact (cond_setLock hchan).mpr hc

theorem fair_unlockClear :
    Fair s (.unlockClear i k) (unlockClear pc i k s.data).1 (unlockClear pc i k s.data).2.fn := by
  refine ⟨rfl, fun chan hc ↦ ?_, nofun, nofun⟩
  by_cases hchan : chan = .sleeplock i
  · rw [hchan]
    exact .inr ⟨rfl, rfl⟩
  · exact .inl ((cond_setLock hchan).mpr hc)

/-- An access to the log. -/
theorem Fair.log {next : Fn} {log : Log} (hlock : next.lock = fn.lock) (howes : fn.owes = none)
    (hwaits : next.waits = none)
    (hlog : SleepWakeup.cond .log s.data → SleepWakeup.cond .log { s.data with log := log } ∨
      fn.lock = some .log ∧ next.owes = some .log) :
    Fair s fn { s.data with log := log } next := by
  refine ⟨hlock, fun chan hc ↦ ?_, fun chan howe ↦ ?_, fun chan hw ↦ ?_⟩
  · by_cases hchan : chan = .log
    · rw [hchan] at hc ⊢
      exact hlog hc
    · exact .inl ((cond_setLog hchan).mpr hc)
  · rw [howes] at howe
    cases howe
  · rw [hwaits] at hw
    cases hw

theorem fair_beginTest : Fair s .beginTest (beginTest pc s.data).1 (beginTest pc s.data).2.fn := by
  simp only [beginTest]
  split_ifs with hcommitting hfull
  · refine .reads rfl nofun fun chan hw ↦ ?_
    cases hw
    exact .inl hcommitting
  · refine .reads rfl nofun fun chan hw ↦ ?_
    cases hw
    exact .inr hfull
  · exact .log rfl rfl rfl fun hc ↦ (hc.elim hcommitting hfull).elim

theorem fair_endTest (hend : endTest pc s.data = .ok (data, next)) :
    Fair s .endTest data next.fn := by
  simp only [endTest] at hend
  split_ifs at hend with hcommitting hlast
  · cases hend
    exact .log rfl rfl rfl fun _ ↦ .inl (.inl rfl)
  · cases hend
    exact .log rfl rfl rfl fun _ ↦ .inr ⟨rfl, rfl⟩

theorem length_le_absorb (lh : List ℕ) (block : ℕ) :
    lh.length ≤ (GroupCommit.absorb lh block).length := by
  by_cases hmem : block ∈ lh
  · rw [GroupCommit.absorb_of_mem hmem]
  · rw [GroupCommit.absorb_of_notMem hmem]
    simp

theorem fair_logAppend (block : ℕ) :
    Fair s (.logAppend block) { s.data with log := { s.data.log with
      lh := GroupCommit.absorb s.data.log.lh block } } .logRelease := by
  refine .log rfl rfl rfl fun hc ↦ .inl (hc.imp id fun hfull ↦ ?_)
  have hle := length_le_absorb s.data.log.lh block
  simp only [Log.full] at hfull ⊢
  omega

/-- An access to the console or to the clock, on which no condition depends. -/
theorem Fair.other {next : Fn} {input : Input} {ticks : UInt32} (hlock : next.lock = fn.lock)
    (howes : fn.owes = none)
    (hwaits : ∀ chan, next.waits = some chan → chan = .input ∨ chan = .ticks) :
    Fair s fn { s.data with input := input, ticks := ticks } next := by
  refine ⟨hlock, fun chan hc ↦ .inl ?_, fun chan howe ↦ ?_, fun chan hw ↦ ?_⟩
  · cases chan <;> exact hc
  · rw [howes] at howe
    cases howe
  · rcases hwaits chan hw with rfl | rfl <;> trivial

theorem fair_consLoop {target : ℕ} (killed : Bool) :
    Fair s (.consLoop i target n) (consLoop pc i target n killed s.data).1
      (consLoop pc i target n killed s.data).2.fn := by
  cases n with
  | zero => exact .other rfl rfl nofun
  | succ n =>
    simp only [consLoop]
    split_ifs
    · exact .other rfl rfl nofun
    · exact .other rfl rfl fun chan hw ↦ .inl (by cases hw; rfl)
    all_goals exact .other rfl rfl nofun

theorem fair_intrLoop {chars : List UInt8} :
    Fair s (.intrLoop chars) (intrLoop pc chars s.data).1 (intrLoop pc chars s.data).2.fn := by
  cases chars with
  | nil => exact .other rfl rfl nofun
  | cons =>
    simp only [intrLoop]
    split_ifs <;> exact .other rfl rfl nofun

theorem fair_ticksTest {n ticks0 : UInt32} (killed : Bool) :
    Fair s (.ticksTest n ticks0) (ticksTest pc n ticks0 killed s.data).1
      (ticksTest pc n ticks0 killed s.data).2.fn := by
  simp only [ticksTest]
  split_ifs
  · exact .other rfl rfl nofun
  · exact .other rfl rfl fun chan hw ↦ .inr (by cases hw; rfl)
  · exact .other rfl rfl nofun

theorem Fair.of_ok (h : Fair s fn r.1 r.2.fn)
    (hr : (Except.ok r : Except Panic (Data × Pc)) = .ok (data, next)) :
    Fair s fn data next.fn := by
  cases hr
  exact h

/-- Every access keeps what it must. -/
theorem fair_access (hknown : Known s p) (hmode : s.mode p = .run pc) (hcode : code pc = .access f)
    (hf : f (s.proc p).pid (s.proc p).killed s.data = .ok (data, next)) :
    Fair s pc.fn data next.fn := by
  cases hfn : pc.fn
  all_goals
    simp only [code, hfn, reduceCtorEq, Instr.access.injEq] at hcode <;> subst hcode
  case writeLoop i n rest => exact .of_ok (fair_writeLoop hknown hmode hfn) hf
  case readTest i n => exact .of_ok (fair_readTest _) hf
  case closeSet i writable => exact .of_ok fair_closeSet hf
  case lockTest i k => exact .of_ok (fair_lockTest _) hf
  case unlockClear i k => exact .of_ok fair_unlockClear hf
  case beginTest => exact .of_ok fair_beginTest hf
  case endTest => exact fair_endTest hf
  case commit =>
    cases hf
    exact .log rfl rfl rfl fun _ ↦ .inl (.inl (hknown.committing pc hmode hfn))
  case commitClear =>
    cases hf
    exact .log rfl rfl rfl fun _ ↦ .inr ⟨rfl, rfl⟩
  case logWrite block =>
    simp only [logWrite] at hf
    split_ifs at hf
    cases hf
    exact .reads rfl nofun nofun
  case logAppend block => exact .of_ok (fair_logAppend block) hf
  case consLoop i target n => exact .of_ok (fair_consLoop _) hf
  case intrLoop chars => exact .of_ok fair_intrLoop hf
  case ticksStart n =>
    cases hf
    exact .other rfl rfl nofun
  case ticksTest n ticks0 => exact .of_ok (fair_ticksTest _) hf
  case clockTick =>
    cases hf
    exact .other rfl rfl nofun

theorem code_acquire (hcode : code pc = .acquire lk next) :
    pc.fn.lock = none ∧ next.fn.lock = some lk ∧ pc.fn.owes = none ∧ next.fn.waits = none := by
  obtain ⟨held, inOp, fn⟩ := pc
  cases fn <;> cases hcode <;> exact ⟨rfl, rfl, rfl, rfl⟩

theorem code_release (hcode : code pc = .release lk next) :
    pc.fn.lock = some lk ∧ next.fn.lock = none ∧ pc.fn.owes = none ∧ next.fn.waits = none := by
  obtain ⟨held, inOp, fn⟩ := pc
  cases fn
  case lockRelease i k =>
    cases hcode
    cases k <;> exact ⟨rfl, rfl, rfl, rfl⟩
  all_goals cases hcode <;> exact ⟨rfl, rfl, rfl, rfl⟩

theorem code_wakeup {woken : Chan} (hcode : code pc = .table (.wakeup woken) next) :
    next.fn.lock = pc.fn.lock ∧ (∀ chan, pc.fn.owes = some chan → chan = woken) ∧
      ∀ chan, next.fn.waits = some chan → pc.fn.waits = some chan := by
  obtain ⟨held, inOp, fn⟩ := pc
  cases fn <;> cases hcode <;>
    exact ⟨rfl, fun chan howe ↦ by cases howe <;> rfl, fun chan hw ↦ by cases hw <;> rfl⟩

theorem code_kill (hcode : code pc = .table (.kill pid) next) :
    next.fn.lock = pc.fn.lock ∧ pc.fn.owes = none ∧ next.fn.waits = none := by
  obtain ⟨held, inOp, fn⟩ := pc
  cases fn <;> cases hcode
  exact ⟨rfl, rfl, rfl⟩

theorem code_sleep (hcode : code pc = .sleep chan lk next) :
    lk = chan.owner ∧ pc.fn.waits = some chan ∧ next.fn.lock = pc.fn.lock ∧ pc.fn.owes = none ∧
      next.fn.waits = none := by
  obtain ⟨held, inOp, fn⟩ := pc
  cases fn <;> cases hcode <;> exact ⟨rfl, rfl, rfl, rfl, rfl⟩

theorem start_notes {call : Call} (hstart : start pc call = some next) :
    pc.fn.lock = none ∧ next.fn.lock = none ∧ pc.fn.owes = none ∧ next.fn.waits = none := by
  obtain ⟨held, inOp, fn⟩ := pc
  cases fn with
  | user =>
    simp only [start] at hstart
    split_ifs at hstart
    cases hstart
    cases call <;> exact ⟨rfl, rfl, rfl, rfl⟩
  | _ => cases hstart

theorem waits_lock (hw : fn.waits = some chan) : fn.lock = some chan.owner := by
  cases fn <;> cases hw <;> rfl

/-- The code keeps to the discipline. -/
theorem discipline : Discipline kernel notes Chan.owner cond Known where
  waits_holds _ _ hw := waits_lock hw
  call pc call next hstart := by
    obtain ⟨hlock, hlock', howes, hwaits⟩ := start_notes hstart
    simp only [notes, hlock, hlock', howes, hwaits]
    simp
  acquire pc lk next hcode := by
    obtain ⟨hlock, hlock', howes, hwaits⟩ := code_acquire hcode
    simp only [notes, hlock, hlock', howes, hwaits]
    simp [eq_comm]
  release pc lk next hcode := by
    obtain ⟨hlock, hlock', howes, hwaits⟩ := code_release hcode
    simp only [notes, hlock, hlock', howes, hwaits]
    simp [eq_comm]
  wakeup pc woken next hcode := by
    obtain ⟨hlock, howes, hwaits⟩ := code_wakeup hcode
    exact ⟨fun lk ↦ by simp only [notes, hlock], fun chan howe ↦ .inl (howes chan howe), hwaits⟩
  kill pc pid next hcode := by
    obtain ⟨hlock, howes, hwaits⟩ := code_kill hcode
    simp only [notes, hlock, howes, hwaits]
    simp
  sleep pc chan lk next hcode := by
    obtain ⟨hlk, hw, hlock, howes, hwaits⟩ := code_sleep hcode
    simp only [notes, hlk, hw, hlock, howes, hwaits]
    simp
  access s p pc f data next hknown hmode hcode hf := by
    have hfair := fair_access hknown hmode hcode hf
    refine ⟨fun lk ↦ ?_, hfair.cond, hfair.owes, hfair.waits⟩
    change next.fn.lock = some lk ↔ pc.fn.lock = some lk
    rw [hfair.holds]

/-! ### Who commits and who holds a sleep lock -/

/-- The process is in `end_op`, between `log.committing = 1` and `log.committing = 0`. -/
def Fn.committing : Fn → Bool
  | .endCommit | .commit | .commitAcquire | .commitClear => true
  | _ => false

/-- The lock of a call of `releasesleep` that has not yet cleared it. -/
def Fn.releasing : Fn → Option ℕ
  | .unlockAcquire i _ | .unlockClear i _ => some i
  | _ => none

/-- What the code keeps from one position to the next without an access: the sleep locks of the
process, whether it commits, and the lock that it is about to release. -/
def Pc.view (pc : Pc) : List ℕ × Bool × Option ℕ := (pc.held, pc.fn.committing, pc.fn.releasing)

theorem view_flows (hflows : Flows kernel pc next) : next.view = pc.view := by
  obtain ⟨held, inOp, fn⟩ := pc
  cases hflows with
  | acquire hcode | release hcode | table hcode | sleep hcode =>
    cases fn
    case lockRelease i k => cases hcode <;> cases k <;> rfl
    all_goals cases hcode <;> rfl

variable {view : Slot → List ℕ × Bool × Option ℕ} {v : List ℕ × Bool × Option ℕ}

/-- Who commits has set `log.committing`, and is the only one. -/
structure Committer (view : Slot → List ℕ × Bool × Option ℕ) (log : Log) : Prop where
  set : ∀ p, (view p).2.1 = true → log.committing = true
  unique : ∀ p q, (view p).2.1 = true → (view q).2.1 = true → p = q

/-- A sleep lock is locked exactly while a process holds it, and then by one. -/
structure Holders (view : Slot → List ℕ × Bool × Option ℕ) (lock : ℕ → Sleeplock) : Prop where
  locked : ∀ p i, i ∈ (view p).1 → (lock i).locked = true
  holder : ∀ i, (lock i).locked = true → ∃ p, i ∈ (view p).1
  unique : ∀ p q i, i ∈ (view p).1 → i ∈ (view q).1 → p = q
  releasing : ∀ p i, (view p).2.2 = some i → i ∈ (view p).1

/-- A process goes on that commits only if it did so before. -/
theorem Committer.move {log : Log} (h : Committer view log)
    (hv : v.2.1 = true → (view p).2.1 = true)
    (hlog : log.committing = true → log'.committing = true) :
    Committer (update view p v) log' := by
  have hsub : ∀ q, (update view p v q).2.1 = true → (view q).2.1 = true := by
    intro q
    rw [update_apply]
    split_ifs with hq
    · rw [hq]
      exact hv
    · exact id
  exact ⟨fun q hq ↦ hlog (h.set q (hsub q hq)), fun q r hq hr ↦
    h.unique q r (hsub q hq) (hsub r hr)⟩

/-- `end_op` sets `log.committing`. -/
theorem Committer.begin {log : Log} (h : Committer view log) (hclear : log.committing = false)
    (hlog : log'.committing = true) : Committer (update view p v) log' := by
  have honly : ∀ q, (update view p v q).2.1 = true → q = p := by
    intro q hq
    by_contra hqp
    rw [update_of_ne hqp] at hq
    rw [h.set q hq] at hclear
    cases hclear
  exact ⟨fun _ _ ↦ hlog, fun q r hq hr ↦ (honly q hq).trans (honly r hr).symm⟩

/-- `end_op` clears `log.committing`. -/
theorem Committer.finish {log : Log} (h : Committer view log) (hp : (view p).2.1 = true)
    (hdone : v.2.1 = false) : Committer (update view p v) log' := by
  have hnone : ∀ q, (update view p v q).2.1 ≠ true := by
    intro q
    rw [update_apply]
    split_ifs with hqp
    · rw [hdone]
      exact nofun
    · exact fun hq ↦ hqp (h.unique q p hq hp)
  exact ⟨fun q hq ↦ (hnone q hq).elim, fun q _ hq ↦ (hnone q hq).elim⟩

/-- A process goes on without taking or giving back a sleep lock. -/
theorem Holders.move {lock : ℕ → Sleeplock} (h : Holders view lock) (hheld : v.1 = (view p).1)
    (hreleasing : ∀ i, v.2.2 = some i → i ∈ (view p).1) : Holders (update view p v) lock := by
  have hmem : ∀ q, (update view p v q).1 = (view q).1 := by
    intro q
    rw [update_apply]
    split_ifs with hq
    · rw [hq, hheld]
    · rfl
  refine ⟨?_, ?_, ?_, fun q i ↦ ?_⟩ <;> simp only [hmem]
  · exact h.locked
  · exact h.holder
  · exact h.unique
  · rw [update_apply]
    split_ifs with hq
    · rw [hq]
      exact hreleasing i
    · exact h.releasing q i

/-- `acquiresleep` takes a lock that is free. -/
theorem Holders.take {lock : ℕ → Sleeplock} (h : Holders view lock) (hfree : (lock i).locked ≠ true)
    (hheld : v.1 = i :: (view p).1) (hreleasing : v.2.2 = none) :
    Holders (update view p v) (update lock i ⟨true, pid⟩) := by
  have hmem : ∀ q j, j ∈ (update view p v q).1 ↔ (q = p ∧ j = i) ∨ j ∈ (view q).1 := by
    intro q j
    by_cases hqp : q = p
    · simp [hqp, hheld]
    · simp [hqp]
  have hnobody : ∀ q, i ∉ (view q).1 := fun q hq ↦ hfree (h.locked q i hq)
  refine ⟨fun q j hj ↦ ?_, fun j hj ↦ ?_, fun q r j hq hr ↦ ?_, fun q j hj ↦ ?_⟩
  · rw [update_apply]
    split_ifs with hji
    · rfl
    · exact h.locked q j (((hmem q j).mp hj).resolve_left fun hnew ↦ hji hnew.2)
  · by_cases hji : j = i
    · exact ⟨p, (hmem p j).mpr (.inl ⟨rfl, hji⟩)⟩
    · rw [update_of_ne hji] at hj
      obtain ⟨q, hq⟩ := h.holder j hj
      exact ⟨q, (hmem q j).mpr (.inr hq)⟩
  · rcases (hmem q j).mp hq with ⟨rfl, rfl⟩ | hold
    · exact (((hmem r j).mp hr).resolve_right (hnobody r)).1.symm
    · rcases (hmem r j).mp hr with ⟨-, rfl⟩ | hr
      · exact (hnobody q hold).elim
      · exact h.unique q r j hold hr
  · rw [update_apply] at hj
    split_ifs at hj with hqp
    · cases hreleasing.symm.trans hj
    · exact (hmem q j).mpr (.inr (h.releasing q j hj))

/-- `releasesleep` gives back a lock that the process holds. -/
theorem Holders.give {lock : ℕ → Sleeplock} (h : Holders view lock) (hi : i ∈ (view p).1)
    (hheld : v.1 = (view p).1.filter (· ≠ i)) (hreleasing : v.2.2 = none) :
    Holders (update view p v) (update lock i ⟨false, 0⟩) := by
  have hmem : ∀ q j, j ∈ (update view p v q).1 ↔ j ≠ i ∧ j ∈ (view q).1 := by
    intro q j
    rw [update_apply]
    split_ifs with hqp
    · rw [hqp, hheld]
      simp [and_comm]
    · exact ⟨fun hj ↦ ⟨fun hji ↦ hqp (h.unique q p i (hji ▸ hj) hi), hj⟩, fun hj ↦ hj.2⟩
  refine ⟨fun q j hj ↦ ?_, fun j hj ↦ ?_, fun q r j hq hr ↦ ?_, fun q j hj ↦ ?_⟩
  · obtain ⟨hji, hj⟩ := (hmem q j).mp hj
    rw [update_of_ne hji]
    exact h.locked q j hj
  · rw [update_apply] at hj
    split_ifs at hj with hji
    obtain ⟨q, hq⟩ := h.holder j hj
    exact ⟨q, (hmem q j).mpr ⟨hji, hq⟩⟩
  · exact h.unique q r j ((hmem q j).mp hq).2 ((hmem r j).mp hr).2
  · rw [update_apply] at hj
    split_ifs at hj with hqp
    · cases hreleasing.symm.trans hj
    · refine (hmem q j).mpr ⟨fun hji ↦ ?_, h.releasing q j hj⟩
      exact hqp (h.unique q p i (hji ▸ h.releasing q j hj) hi)

/-- What the processes have. -/
def views (s : KState) : Slot → List ℕ × Bool × Option ℕ := fun p ↦ (s.mode p).pc.view

structure Owned (s : KState) : Prop where
  committer : Committer (views s) s.data.log
  holders : Holders (views s) s.data.lock

/-- What an access does to the sleep locks and to `log.committing`. -/
inductive Effect (d : Data) (pc : Pc) : Data → Pc → Prop
  | none {data : Data} {next : Pc} (hlock : data.lock = d.lock)
      (hlog : data.log.committing = d.log.committing) (hview : next.view = pc.view) :
      Effect d pc data next
  | take {i : ℕ} {k : Cont} {pid : Int32} (hfn : pc.fn = .lockTest i k)
      (hfree : (d.lock i).locked ≠ true) :
      Effect d pc (d.setLock i ⟨true, pid⟩)
        { pc with held := i :: pc.held, fn := .lockRelease i k }
  | give {i : ℕ} {k : Cont} (hfn : pc.fn = .unlockClear i k) :
      Effect d pc (d.setLock i ⟨false, 0⟩)
        { pc with held := pc.held.filter (· ≠ i), fn := .unlockWake i k }
  | begin {log : Log} {inOp : Bool} (hfn : pc.fn = .endTest) (hclear : d.log.committing = false)
      (hlog : log.committing = true) :
      Effect d pc { d with log := log } { pc with inOp := inOp, fn := .endCommit }
  | finish {log : Log} (hfn : pc.fn = .commitClear) :
      Effect d pc { d with log := log } (pc.go .endWake)

theorem Effect.of_ok (h : Effect d pc r.1 r.2)
    (hr : (Except.ok r : Except Panic (Data × Pc)) = .ok (data, next)) : Effect d pc data next := by
  cases hr
  exact h

/-- A position that is neither of a commit nor of a release leads to another such. -/
theorem view_go (hcommitting : fn.committing = pc.fn.committing)
    (hreleasing : fn.releasing = pc.fn.releasing) : (pc.go fn).view = pc.view := by
  simp only [Pc.view, Pc.go, hcommitting, hreleasing]

theorem Effect.go {old : Fn} (hlock : data.lock = d.lock)
    (hlog : data.log.committing = d.log.committing) (hfn : pc.fn = old)
    (hcommitting : fn.committing = old.committing) (hreleasing : fn.releasing = old.releasing) :
    Effect d pc data (pc.go fn) :=
  .none hlock hlog (view_go (by rw [hfn, hcommitting]) (by rw [hfn, hreleasing]))

theorem access_effect {killed : Bool} (hcode : code pc = .access f)
    (hf : f pid killed d = .ok (data, next)) : Effect d pc data next := by
  cases hfn : pc.fn
  all_goals
    simp only [code, hfn, reduceCtorEq, Instr.access.injEq] at hcode <;> subst hcode
  case writeLoop i n rest =>
    refine .of_ok ?_ hf
    cases rest with
    | nil => exact .go rfl rfl hfn rfl rfl
    | cons =>
      simp only [writeLoop]
      split_ifs <;> exact .go rfl rfl hfn rfl rfl
  case readTest i n =>
    refine .of_ok ?_ hf
    simp only [readTest]
    split_ifs <;> exact .go rfl rfl hfn rfl rfl
  case lockTest i k =>
    refine .of_ok ?_ hf
    simp only [lockTest]
    split_ifs with hlocked
    · exact .go rfl rfl hfn rfl rfl
    · exact .take hfn hlocked
  case unlockClear i k =>
    exact .of_ok (.give hfn) hf
  case beginTest =>
    refine .of_ok ?_ hf
    simp only [beginTest]
    split_ifs
    · exact .go rfl rfl hfn rfl rfl
    · exact .go rfl rfl hfn rfl rfl
    · exact .none rfl rfl (by simp only [Pc.view, hfn]; rfl)
  case endTest =>
    simp only [endTest] at hf
    split_ifs at hf with hcommitting
    · cases hf
      exact .begin hfn (by simpa using hcommitting) rfl
    · cases hf
      exact .none rfl rfl (by simp only [Pc.view, hfn]; rfl)
  case commitClear =>
    cases hf
    exact .finish hfn
  case logWrite block =>
    simp only [logWrite] at hf
    split_ifs at hf
    cases hf
    exact .go rfl rfl hfn rfl rfl
  case consLoop i target n =>
    refine .of_ok ?_ hf
    cases n with
    | zero => exact .go rfl rfl hfn rfl rfl
    | succ n =>
      simp only [consLoop]
      split_ifs <;> exact .go rfl rfl hfn rfl rfl
  case intrLoop chars =>
    refine .of_ok ?_ hf
    cases chars with
    | nil => exact .go rfl rfl hfn rfl rfl
    | cons =>
      simp only [intrLoop]
      split_ifs <;> exact .go rfl rfl hfn rfl rfl
  case ticksTest n ticks0 =>
    refine .of_ok ?_ hf
    simp only [ticksTest]
    split_ifs <;> exact .go rfl rfl hfn rfl rfl
  all_goals
    cases hf
    exact .go rfl rfl hfn rfl rfl

/-- A step of one thread, seen from what the processes have. -/
theorem views_setMode (s : KState) (p : Slot) (pc : Pc) :
    views (s.setMode p (.run pc)) = update (views s) p pc.view := by
  funext q
  simp only [views, State.setMode, update_apply]
  split_ifs <;> rfl

theorem Owned.access (h : Owned s) (hmode : s.mode p = .run pc)
    (heffect : Effect s.data pc data next) :
    Owned { s.setMode p (.run next) with data := data } := by
  have hp : views s p = pc.view := by simp only [views, hmode]; rfl
  have hviews : views { s.setMode p (.run next) with data := data } =
    update (views s) p next.view := views_setMode s p next
  cases heffect with
  | none hlock hlog hview =>
    rw [hview, ← hp, update_eq_self] at hviews
    constructor <;> rw [hviews]
    · exact ⟨fun q hq ↦ hlog.trans (h.committer.set q hq), h.committer.unique⟩
    · rw [hlock]
      exact h.holders
  | take hfn hfree =>
    constructor <;> rw [hviews]
    · exact h.committer.move nofun id
    · exact h.holders.take hfree (by rw [hp]; rfl) rfl
  | @give i k hfn =>
    have hreleasing : (views s p).2.2 = some i := by rw [hp, Pc.view, hfn, Fn.releasing]
    constructor <;> rw [hviews]
    · exact h.committer.move nofun id
    · exact h.holders.give (h.holders.releasing p i hreleasing) (by rw [hp]; rfl) rfl
  | begin hfn hclear hlog =>
    constructor <;> rw [hviews]
    · exact h.committer.begin hclear hlog
    · exact h.holders.move (by rw [hp]; rfl) nofun
  | finish hfn =>
    constructor <;> rw [hviews]
    · exact h.committer.finish (by rw [hp, Pc.view, hfn]; rfl) rfl
    · exact h.holders.move (by rw [hp]; rfl) nofun

/-- A call starts: a sleep lock that is about to be released is held. -/
theorem Owned.call (h : Owned s) {call : Call} (hmode : s.mode p = .run pc)
    (hstart : start pc call = some next) : Owned (s.setMode p (.run next)) := by
  have hp : views s p = pc.view := by simp only [views, hmode]; rfl
  obtain ⟨hheld, hcommitting, hreleasing⟩ : next.held = pc.held ∧ next.fn.committing = false ∧
      ∀ i, next.fn.releasing = some i → i ∈ pc.held := by
    obtain ⟨held, inOp, fn⟩ := pc
    cases fn with
    | user =>
      simp only [start] at hstart
      split_ifs at hstart with hallowed
      cases hstart
      cases call with
      | releasesleep | consoleread =>
        refine ⟨rfl, rfl, fun j hj ↦ ?_⟩
        cases hj
        simpa [Call.allowed] using hallowed
      | _ => exact ⟨rfl, rfl, nofun⟩
    | _ => cases hstart
  constructor <;> rw [views_setMode]
  · refine h.committer.move (fun hv ↦ ?_) id
    cases hcommitting.symm.trans hv
  · exact h.holders.move (by rw [hp]; exact hheld) (by rw [hp]; exact hreleasing)

theorem Owned.move {t : KState} {e : Event Call} (h : Owned s) (hmove : Move kernel s e t) :
    Owned t := by
  rcases move_view hmove Pc.view (fun _ _ hflows ↦ view_flows hflows) with
    ⟨p, call, pc, next, hmode, hstart, rfl⟩ | ⟨p, pc, f, data, next, -, hmode, hcode, hf, rfl⟩ |
    ⟨hdata, hview⟩
  · exact h.call hmode hstart
  · exact h.access hmode (access_effect hcode hf)
  · have hsame : views t = views s := funext hview
    constructor
    · rw [hsame, hdata]
      exact h.committer
    · rw [hsame, hdata]
      exact h.holders

/-! ### The result -/

theorem safe_booted (pid : Slot → Int32) (pipe : ℕ → Pipe) (size : ℤ) :
    Safe kernel notes Chan.owner cond (booted pid pipe size) where
  spin _ _ := iff_of_false nofun nofun
  ptable _ := iff_of_false nofun id
  site _ _ _ _ _ := nofun
  sleeping _ := nofun
  waits _ _ := nofun
  owed p chan hsleep := by
    rcases hsleep with ⟨hsleep, -⟩ | ⟨lk, next, hmode⟩
    · cases hsleep
    · cases hmode

theorem owned_booted (pid : Slot → Int32) (pipe : ℕ → Pipe) (size : ℤ) :
    Owned (booted pid pipe size) where
  committer := ⟨fun _ ↦ nofun, fun _ _ ↦ nofun⟩
  holders := ⟨fun _ _ ↦ nofun, fun _ ↦ nofun, fun _ _ _ ↦ nofun, fun _ _ ↦ nofun⟩

/-- No wakeup is lost along a run in which no writer gives up while a reader sleeps. -/
theorem safe_of_run {pid : Slot → Int32} {pipe : ℕ → Pipe} {size : ℤ} {es : List (Event Call)}
    (hmeets : Meets (step kernel) Considerate (booted pid pipe size) es)
    (hrun : run (step kernel) (booted pid pipe size) es = some s) :
    Safe kernel notes Chan.owner cond s ∧ Owned s := by
  refine run_induction_of_meets (I := fun _ s ↦ Safe kernel notes Chan.owner cond s ∧ Owned s)
    ⟨safe_booted pid pipe size, owned_booted pid pipe size⟩ ?_ hmeets hrun
  rintro es s e t - ⟨hsafe, howned⟩ hconsiderate hstep
  refine ⟨hsafe.move discipline (fun p hp ↦ ?_) (step_move hstep), howned.move (step_move hstep)⟩
  constructor
  · intro pc hmode hfn
    refine howned.committer.set p ?_
    simp only [views, hmode, Mode.pc, Pc.view, hfn]
    rfl
  · intro pc i n b rest hmode hfn hfull hgive
    obtain ⟨held, inOp, fn⟩ := pc
    obtain rfl : fn = .writeLoop i n (b :: rest) := hfn
    have hgives : givesUp s p = some i := by
      simp only [givesUp, hmode]
      exact if_pos ⟨hfull, hgive⟩
    rw [hp] at hconsiderate
    simpa only [Considerate, hgives] using hconsiderate

/-- What is true of the sleepers and of the sleep locks. -/
structure NoLostWakeups (s : KState) : Prop where
  nread : ∀ p i, s.ptable = none → s.spin (.pipe i) = none → (s.proc p).state = .sleeping →
    (s.proc p).chan = some (.nread i) →
      (s.data.pipe i).empty ∧ (s.data.pipe i).writeopen = true
  nwrite : ∀ p i, s.ptable = none → s.spin (.pipe i) = none → (s.proc p).state = .sleeping →
    (s.proc p).chan = some (.nwrite i) →
      (s.data.pipe i).full ∧ (s.data.pipe i).readopen = true
  sleeplock : ∀ p i, s.ptable = none → s.spin (.sleeplock i) = none →
    (s.proc p).state = .sleeping → (s.proc p).chan = some (.sleeplock i) →
      (s.data.lock i).locked = true ∧ ∃ q, i ∈ (s.mode q).pc.held
  holder : ∀ p q i, i ∈ (s.mode p).pc.held → i ∈ (s.mode q).pc.held → p = q
  log : ∀ p, s.ptable = none → s.spin .log = none → (s.proc p).state = .sleeping →
    (s.proc p).chan = some .log → s.data.log.committing = true ∨
      (s.data.log.lh.length : ℤ) + (s.data.log.outstanding + 1) * maxOpBlocks > logSize

/-- Pipes, sleep locks and the log lose no wakeup, in every run in which no writer gives up on a
full pipe while a process sleeps on `&p->nread`. -/
theorem noLostWakeups {pid : Slot → Int32} {pipe : ℕ → Pipe} {size : ℤ} {es : List (Event Call)}
    {s : KState} (hmeets : Meets (step kernel) Considerate (booted pid pipe size) es)
    (hrun : run (step kernel) (booted pid pipe size) es = some s) : NoLostWakeups s := by
  obtain ⟨hsafe, howned⟩ := safe_of_run hmeets hrun
  have hcond : ∀ p chan, s.spin chan.owner = none → (s.proc p).state = .sleeping →
      (s.proc p).chan = some chan → cond chan s.data := by
    intro p chan hfree hsleep hchan
    refine (hsafe.owed p chan (.inl ⟨hsleep, hchan⟩)).resolve_right ?_
    rintro ⟨q, hq, -⟩
    rw [hfree] at hq
    cases hq
  constructor
  · exact fun p i _ hfree hsleep hchan ↦ hcond p (.nread i) hfree hsleep hchan
  · exact fun p i _ hfree hsleep hchan ↦ hcond p (.nwrite i) hfree hsleep hchan
  · intro p i _ hfree hsleep hchan
    have hlocked : (s.data.lock i).locked = true := hcond p (.sleeplock i) hfree hsleep hchan
    exact ⟨hlocked, howned.holders.holder i hlocked⟩
  · exact howned.holders.unique
  · exact fun p _ hfree hsleep hchan ↦ hcond p .log hfree hsleep hchan

/-- A reader sleeps on an empty pipe. -/
theorem noLostWakeups_reader : ∃ es s,
    run (step kernel) (booted (fun p ↦ .ofNat p) (fun _ ↦ newPipe) 30) es = some s ∧
      (s.proc Processes.first).state = .sleeping ∧ s.ptable = none ∧ s.spin (.pipe 0) = none ∧
      NoLostWakeups s :=
  ⟨.call Processes.first (.piperead 0 1) :: replicate 5 (.step Processes.first), _,
    run_get (by decide +kernel), by decide +kernel, by decide +kernel, by decide +kernel,
    noLostWakeups (by decide +kernel) (run_get _)⟩

/-- A reader sleeps on an empty pipe; a writer fills it, is killed and gives up. The reader is still
asleep, on a full pipe. -/
theorem readerLeftAsleep : ∃ es s,
    run (step kernel) (booted (fun p ↦ .ofNat p) (fun _ ↦ newPipe) 30) es = some s ∧
      (s.data.pipe 0).full ∧ ¬ NoLostWakeups s := by
  refine ⟨(.call Processes.first (.piperead 0 1) :: replicate 5 (.step Processes.first)) ++
      (.call ⟨1, by decide⟩ (.pipewrite 0 (replicate 513 65)) ::
        replicate 513 (.step ⟨1, by decide⟩)) ++
      (.call ⟨2, by decide⟩ (.kill 1) :: replicate 3 (.step ⟨2, by decide⟩)) ++
      replicate 2 (.step ⟨1, by decide⟩), ?_⟩
  refine ⟨_, run_get (by decide +kernel), by decide +kernel, fun h ↦ ?_⟩
  have hempty := (h.nread Processes.first 0 (by decide +kernel) (by decide +kernel)
    (by decide +kernel) (by decide +kernel)).1
  revert hempty
  decide +kernel

end EasyKernels.Xv6.SleepWakeup
