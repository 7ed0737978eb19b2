import EasyKernels.Xv6.SleepWakeup
import EasyKernels.Xv6.GroupCommit

/-!
# The calls that sleep

`pipewrite`, `piperead` and `pipeclose` of `pipe.c`, `acquiresleep` and `releasesleep` of
`sleeplock.c`, `begin_op`, `end_op` and `log_write` of `log.c`, `consoleread` and `consoleintr` of
`console.c`, `sys_sleep`, the clock interrupt and `kill`, as one `Program` for the threads of
`SleepWakeup`. A position of the code is a `Pc`: where in a call the thread is, with the local
variables of the call, the sleep locks that the process holds, and whether it is between `begin_op`
and `end_op`.

Pipes and sleep locks are numbered. A process calls `releasesleep` for a lock that it holds,
`end_op` and `log_write` inside a transaction, and `begin_op` outside of one.

`consoleread` is called with the inode of the console locked. It unlocks the inode while it waits,
so its `iunlock` and `ilock` are the calls `releasesleep` and `acquiresleep` of that sleep lock.

Scope. `commit()` is the assignment `log.lh.n = 0` in it, as in `GroupCommit`. The console echoes
what is typed, which is not modelled; the inode that `consoleread` locks again is still valid, so
`ilock` does not read it from the disk. A pipe is not freed when both ends are closed. `kill` does
not say whether it found a process.
-/

set_option autoImplicit false

namespace EasyKernels.Xv6.SleepWakeup

open Lib.Runs Function
open Processes (ProcState)

/-! ### What the spin locks protect -/

/-- `PIPESIZE`. -/
def pipeSize : UInt32 := 512

/-- `struct pipe`. -/
structure Pipe where
  data : ℕ → UInt8
  nread : UInt32
  nwrite : UInt32
  readopen : Bool
  writeopen : Bool

/-- A pipe with both ends open and no bytes. -/
def newPipe : Pipe := ⟨fun _ ↦ 0, 0, 0, true, true⟩

variable (p : Pipe)

/-- The test of `pipewrite` for a pipe without room. -/
def Pipe.full : Prop := p.nwrite = p.nread + pipeSize

/-- The test of `piperead` for a pipe without bytes. -/
def Pipe.empty : Prop := p.nread = p.nwrite

instance : Decidable p.full := inferInstanceAs (Decidable (_ = _))

instance : Decidable p.empty := inferInstanceAs (Decidable (_ = _))

/-- `p->data[p->nwrite++ % PIPESIZE] = b`. -/
def Pipe.put (b : UInt8) : Pipe :=
  { p with
    data := update p.data (p.nwrite % pipeSize).toNat b
    nwrite := p.nwrite + 1 }

/-- The loop of `piperead` that copies at most `n` bytes. -/
def Pipe.copy : ℕ → Pipe → List UInt8 × Pipe
  | 0, p => ([], p)
  | n + 1, p =>
    if p.empty then ([], p)
    else
      let rest := Pipe.copy n { p with nread := p.nread + 1 }
      (p.data (p.nread % pipeSize).toNat :: rest.1, rest.2)

/-- `struct sleeplock`. -/
structure Sleeplock where
  locked : Bool
  pid : Int32

/-- `struct log`, with `block[0 .. n-1]` of the header as a list. -/
structure Log where
  size : ℤ
  outstanding : ℤ
  committing : Bool
  lh : List ℕ

/-- The test of `begin_op` that finds the log close to running out. -/
def Log.full (l : Log) : Prop :=
  (l.lh.length : ℤ) + (l.outstanding + 1) * maxOpBlocks > logSize

instance (l : Log) : Decidable l.full := inferInstanceAs (Decidable (_ > _))

/-- `INPUT_BUF`. -/
def inputBuf : UInt32 := 128

/-- `input` of `console.c`. -/
structure Input where
  buf : ℕ → UInt8
  r : UInt32
  w : UInt32
  e : UInt32

/-- `buf[i % INPUT_BUF]`. -/
def Input.char (input : Input) (i : UInt32) : UInt8 := input.buf (i % inputBuf).toNat

/-- The loop of `consoleintr` for `C('U')`; the fuel is the number of characters in the line. -/
def Input.killLine : ℕ → Input → Input
  | 0, input => input
  | fuel + 1, input =>
    if input.e ≠ input.w ∧ input.char (input.e - 1) ≠ 10 then
      Input.killLine fuel { input with e := input.e - 1 }
    else input

/-- What `consoleintr` does with a character, and whether it wakes the readers. -/
def Input.intr (input : Input) (c : UInt8) : Input × Bool :=
  if c = 16 then (input, false)
  else if c = 21 then (Input.killLine (input.e - input.w).toNat input, false)
  else if c = 8 ∨ c = 127 then
    (if input.e ≠ input.w then { input with e := input.e - 1 } else input, false)
  else if c ≠ 0 ∧ input.e - input.r < inputBuf then
    let c := if c = 13 then 10 else c
    let input := { input with
      buf := update input.buf (input.e % inputBuf).toNat c
      e := input.e + 1 }
    if c = 10 ∨ c = 4 ∨ input.e = input.r + inputBuf then ({ input with w := input.e }, true)
    else (input, false)
  else (input, false)

structure Data where
  pipe : ℕ → Pipe
  lock : ℕ → Sleeplock
  log : Log
  input : Input
  ticks : UInt32

def Data.setPipe (d : Data) (i : ℕ) (p : Pipe) : Data :=
  { d with pipe := update d.pipe i p }

def Data.setLock (d : Data) (i : ℕ) (l : Sleeplock) : Data :=
  { d with lock := update d.lock i l }

/-! ### The code -/

/-- The spin locks. -/
inductive Lock
  | pipe (i : ℕ)
  | sleeplock (i : ℕ)
  | log
  | cons
  | ticks
  deriving DecidableEq

/-- The addresses to sleep on. -/
inductive Chan
  | nread (i : ℕ)
  | nwrite (i : ℕ)
  | sleeplock (i : ℕ)
  | log
  | input
  | ticks
  deriving DecidableEq

/-- The spin lock that is given to `sleep` with an address. -/
def Chan.owner : Chan → Lock
  | .nread i => .pipe i
  | .nwrite i => .pipe i
  | .sleeplock i => .sleeplock i
  | .log => .log
  | .input => .cons
  | .ticks => .ticks

/-- What a thread does after `acquiresleep` or `releasesleep`: it returns from the system call, or
it goes on in `consoleread`, after `iunlock(ip)` or after `ilock(ip)`. -/
inductive Cont
  | user
  | consoleread (n : ℕ)
  | consoleret (ret : ℤ)
  deriving DecidableEq

/-- Where in a call a thread is. In user space it has the value that the last call returned. -/
inductive Fn
  | user (ret : ℤ)
  /-- `pipewrite(p, addr, n)`; `rest` is `addr[i .. n-1]`. -/
  | writeAcquire (i : ℕ) (bytes : List UInt8)
  | writeLoop (i : ℕ) (n : ℕ) (rest : List UInt8)
  | writeFull (i : ℕ) (n : ℕ) (rest : List UInt8)
  | writeSleep (i : ℕ) (n : ℕ) (rest : List UInt8)
  | writeDone (i : ℕ) (n : ℕ)
  | pipeRelease (i : ℕ) (ret : ℤ)
  /-- `piperead(p, addr, n)`. -/
  | readAcquire (i : ℕ) (n : ℕ)
  | readTest (i : ℕ) (n : ℕ)
  | readSleep (i : ℕ) (n : ℕ)
  | readDone (i : ℕ) (bytes : List UInt8)
  /-- `pipeclose(p, writable)`. -/
  | closeAcquire (i : ℕ) (writable : Bool)
  | closeSet (i : ℕ) (writable : Bool)
  | closeWake (i : ℕ) (writable : Bool)
  /-- `acquiresleep(lk)`. -/
  | lockAcquire (i : ℕ) (k : Cont)
  | lockTest (i : ℕ) (k : Cont)
  | lockSleep (i : ℕ) (k : Cont)
  | lockRelease (i : ℕ) (k : Cont)
  /-- `releasesleep(lk)`. -/
  | unlockAcquire (i : ℕ) (k : Cont)
  | unlockClear (i : ℕ) (k : Cont)
  | unlockWake (i : ℕ) (k : Cont)
  /-- `begin_op()`. -/
  | beginAcquire
  | beginTest
  | beginSleep
  | logRelease
  /-- `end_op()`; from `endCommit` on it commits. -/
  | endAcquire
  | endTest
  | endWake
  | endCommit
  | commit
  | commitAcquire
  | commitClear
  /-- `log_write(b)`. -/
  | logWrite (block : ℕ)
  | logAcquire (block : ℕ)
  | logAppend (block : ℕ)
  /-- `consoleread(ip, dst, n)` with `i` for `ip->lock`; `n` counts down from `target`. -/
  | consAcquire (i n : ℕ)
  | consLoop (i target n : ℕ)
  | consSleep (i target n : ℕ)
  | consRelease (i : ℕ) (ret : ℤ)
  /-- `consoleintr`, given the characters that `getc` returns. -/
  | intrAcquire (chars : List UInt8)
  | intrLoop (chars : List UInt8)
  | intrWake (chars : List UInt8)
  | intrRelease
  /-- `sys_sleep(n)`. -/
  | ticksAcquire (n : UInt32)
  | ticksStart (n : UInt32)
  | ticksTest (n ticks0 : UInt32)
  | ticksSleep (n ticks0 : UInt32)
  | ticksRelease (ret : ℤ)
  /-- The clock interrupt. -/
  | clockAcquire
  | clockTick
  | clockWake
  /-- `kill(pid)`. -/
  | kill (pid : Int32)
  deriving DecidableEq

/-- Where a thread goes on after `acquiresleep` or `releasesleep` of lock `i`. -/
def Cont.fn (i : ℕ) : Cont → Fn
  | .user => .user 0
  | .consoleread n => .consAcquire i n
  | .consoleret ret => .user ret

/-- A position of the code of a process, with the sleep locks it holds. -/
structure Pc where
  held : List ℕ
  inOp : Bool
  fn : Fn
  deriving DecidableEq

variable (pc : Pc)

def Pc.go (fn : Fn) : Pc := { pc with fn := fn }

/-- The panics of `log.c`. -/
inductive Panic
  | committing
  | tooBig
  | outsideTrans
  deriving DecidableEq

/-- The loop of `pipewrite`: one byte, or the test of a full pipe. -/
def writeLoop (i n : ℕ) (rest : List UInt8) (killed : Bool) (d : Data) : Data × Pc :=
  match rest with
  | [] => (d, pc.go (.writeDone i n))
  | b :: rest =>
    if (d.pipe i).full then
      if (d.pipe i).readopen = false ∨ killed then (d, pc.go (.pipeRelease i (-1)))
      else (d, pc.go (.writeFull i n (b :: rest)))
    else (d.setPipe i ((d.pipe i).put b), pc.go (.writeLoop i n rest))

/-- The loop of `piperead` that waits, and the copying after it. -/
def readTest (i n : ℕ) (killed : Bool) (d : Data) : Data × Pc :=
  if (d.pipe i).empty ∧ (d.pipe i).writeopen = true then
    if killed then (d, pc.go (.pipeRelease i (-1))) else (d, pc.go (.readSleep i n))
  else
    (d.setPipe i ((d.pipe i).copy n).2, pc.go (.readDone i ((d.pipe i).copy n).1))

/-- The stores of `pipeclose`. -/
def closeSet (i : ℕ) (writable : Bool) (d : Data) : Data × Pc :=
  (d.setPipe i (if writable then { d.pipe i with writeopen := false }
    else { d.pipe i with readopen := false }), pc.go (.closeWake i writable))

/-- The loop of `acquiresleep` and the stores after it. -/
def lockTest (i : ℕ) (k : Cont) (pid : Int32) (d : Data) : Data × Pc :=
  if (d.lock i).locked then (d, pc.go (.lockSleep i k))
  else (d.setLock i ⟨true, pid⟩, { pc with held := i :: pc.held, fn := .lockRelease i k })

/-- The stores of `releasesleep`. -/
def unlockClear (i : ℕ) (k : Cont) (d : Data) : Data × Pc :=
  (d.setLock i ⟨false, 0⟩, { pc with held := pc.held.filter (· ≠ i), fn := .unlockWake i k })

/-- The loop of `begin_op`. -/
def beginTest (d : Data) : Data × Pc :=
  if d.log.committing then (d, pc.go .beginSleep)
  else if d.log.full then (d, pc.go .beginSleep)
  else
    ({ d with log := { d.log with outstanding := d.log.outstanding + 1 } },
      { pc with inOp := true, fn := .logRelease })

/-- The first locked section of `end_op`. -/
def endTest (d : Data) : Except Panic (Data × Pc) :=
  if d.log.committing then .error .committing
  else if d.log.outstanding - 1 = 0 then
    .ok ({ d with log := { d.log with outstanding := d.log.outstanding - 1, committing := true } },
      { pc with inOp := false, fn := .endCommit })
  else
    .ok ({ d with log := { d.log with outstanding := d.log.outstanding - 1 } },
      { pc with inOp := false, fn := .endWake })

/-- The tests of `log_write`, before it takes the lock. -/
def logWrite (block : ℕ) (d : Data) : Except Panic (Data × Pc) :=
  if (d.log.lh.length : ℤ) ≥ logSize ∨ (d.log.lh.length : ℤ) ≥ d.log.size - 1 then .error .tooBig
  else if d.log.outstanding < 1 then .error .outsideTrans
  else .ok (d, pc.go (.logAcquire block))

/-- The loop of `consoleread`, for one character or the test of an empty buffer. -/
def consLoop (i target n : ℕ) (killed : Bool) (d : Data) : Data × Pc :=
  match n with
  | 0 => (d, pc.go (.consRelease i target))
  | n + 1 =>
    if d.input.r = d.input.w then
      if killed then (d, pc.go (.consRelease i (-1)))
      else (d, pc.go (.consSleep i target (n + 1)))
    else
      let c := d.input.char d.input.r
      let read := { d with input := { d.input with r := d.input.r + 1 } }
      if c = 4 then
        (if n + 1 < target then d else read, pc.go (.consRelease i (target - (n + 1))))
      else if c = 10 then (read, pc.go (.consRelease i (target - n)))
      else (read, pc.go (.consLoop i target n))

/-- The loop of `consoleintr`, for one character. -/
def intrLoop (chars : List UInt8) (d : Data) : Data × Pc :=
  match chars with
  | [] => (d, pc.go .intrRelease)
  | c :: chars =>
    let r := d.input.intr c
    ({ d with input := r.1 }, pc.go (if r.2 then .intrWake chars else .intrLoop chars))

/-- The loop of `sys_sleep`. -/
def ticksTest (n ticks0 : UInt32) (killed : Bool) (d : Data) : Data × Pc :=
  if d.ticks - ticks0 < n then
    if killed then (d, pc.go (.ticksRelease (-1))) else (d, pc.go (.ticksSleep n ticks0))
  else (d, pc.go (.ticksRelease 0))

/-- What a thread does at a position. -/
def code : Instr Lock Chan Data Pc Panic :=
  match pc.fn with
  | .user _ => .user
  | .writeAcquire i bytes => .acquire (.pipe i) (pc.go (.writeLoop i bytes.length bytes))
  | .writeLoop i n rest => .access fun _ killed d ↦ .ok (writeLoop pc i n rest killed d)
  | .writeFull i n rest => .table (.wakeup (.nread i)) (pc.go (.writeSleep i n rest))
  | .writeSleep i n rest => .sleep (.nwrite i) (.pipe i) (pc.go (.writeLoop i n rest))
  | .writeDone i n => .table (.wakeup (.nread i)) (pc.go (.pipeRelease i n))
  | .pipeRelease i ret => .release (.pipe i) (pc.go (.user ret))
  | .readAcquire i n => .acquire (.pipe i) (pc.go (.readTest i n))
  | .readTest i n => .access fun _ killed d ↦ .ok (readTest pc i n killed d)
  | .readSleep i n => .sleep (.nread i) (.pipe i) (pc.go (.readTest i n))
  | .readDone i bytes => .table (.wakeup (.nwrite i)) (pc.go (.pipeRelease i bytes.length))
  | .closeAcquire i writable => .acquire (.pipe i) (pc.go (.closeSet i writable))
  | .closeSet i writable => .access fun _ _ d ↦ .ok (closeSet pc i writable d)
  | .closeWake i writable =>
    .table (.wakeup (if writable then .nread i else .nwrite i)) (pc.go (.pipeRelease i 0))
  | .lockAcquire i k => .acquire (.sleeplock i) (pc.go (.lockTest i k))
  | .lockTest i k => .access fun pid _ d ↦ .ok (lockTest pc i k pid d)
  | .lockSleep i k => .sleep (.sleeplock i) (.sleeplock i) (pc.go (.lockTest i k))
  | .lockRelease i k => .release (.sleeplock i) (pc.go (k.fn i))
  | .unlockAcquire i k => .acquire (.sleeplock i) (pc.go (.unlockClear i k))
  | .unlockClear i k => .access fun _ _ d ↦ .ok (unlockClear pc i k d)
  | .unlockWake i k => .table (.wakeup (.sleeplock i)) (pc.go (.lockRelease i k))
  | .beginAcquire => .acquire .log (pc.go .beginTest)
  | .beginTest => .access fun _ _ d ↦ .ok (beginTest pc d)
  | .beginSleep => .sleep .log .log (pc.go .beginTest)
  | .logRelease => .release .log (pc.go (.user 0))
  | .endAcquire => .acquire .log (pc.go .endTest)
  | .endTest => .access fun _ _ d ↦ endTest pc d
  | .endWake => .table (.wakeup .log) (pc.go .logRelease)
  | .endCommit => .release .log (pc.go .commit)
  | .commit =>
    .access fun _ _ d ↦ .ok ({ d with log := { d.log with lh := [] } }, pc.go .commitAcquire)
  | .commitAcquire => .acquire .log (pc.go .commitClear)
  | .commitClear =>
    .access fun _ _ d ↦ .ok ({ d with log := { d.log with committing := false } }, pc.go .endWake)
  | .logWrite block => .access fun _ _ d ↦ logWrite pc block d
  | .logAcquire block => .acquire .log (pc.go (.logAppend block))
  | .logAppend block =>
    .access fun _ _ d ↦
      .ok ({ d with log := { d.log with lh := GroupCommit.absorb d.log.lh block } },
        pc.go .logRelease)
  | .consAcquire i n => .acquire .cons (pc.go (.consLoop i n n))
  | .consLoop i target n => .access fun _ killed d ↦ .ok (consLoop pc i target n killed d)
  | .consSleep i target n => .sleep .input .cons (pc.go (.consLoop i target n))
  | .consRelease i ret => .release .cons (pc.go (.lockAcquire i (.consoleret ret)))
  | .intrAcquire chars => .acquire .cons (pc.go (.intrLoop chars))
  | .intrLoop chars => .access fun _ _ d ↦ .ok (intrLoop pc chars d)
  | .intrWake chars => .table (.wakeup .input) (pc.go (.intrLoop chars))
  | .intrRelease => .release .cons (pc.go (.user 0))
  | .ticksAcquire n => .acquire .ticks (pc.go (.ticksStart n))
  | .ticksStart n => .access fun _ _ d ↦ .ok (d, pc.go (.ticksTest n d.ticks))
  | .ticksTest n ticks0 => .access fun _ killed d ↦ .ok (ticksTest pc n ticks0 killed d)
  | .ticksSleep n ticks0 => .sleep .ticks .ticks (pc.go (.ticksTest n ticks0))
  | .ticksRelease ret => .release .ticks (pc.go (.user ret))
  | .clockAcquire => .acquire .ticks (pc.go .clockTick)
  | .clockTick => .access fun _ _ d ↦ .ok ({ d with ticks := d.ticks + 1 }, pc.go .clockWake)
  | .clockWake => .table (.wakeup .ticks) (pc.go (.ticksRelease 0))
  | .kill pid => .table (.kill pid) (pc.go (.user 0))

inductive Call
  | pipewrite (i : ℕ) (bytes : List UInt8)
  | piperead (i : ℕ) (n : ℕ)
  | pipeclose (i : ℕ) (writable : Bool)
  | acquiresleep (i : ℕ)
  | releasesleep (i : ℕ)
  | beginOp
  | endOp
  | logWrite (block : ℕ)
  | consoleread (i n : ℕ)
  | consoleintr (chars : List UInt8)
  | sysSleep (n : UInt32)
  | clock
  | kill (pid : Int32)
  deriving DecidableEq

/-- The first position of a call. -/
def Call.entry : Call → Fn
  | .pipewrite i bytes => .writeAcquire i bytes
  | .piperead i n => .readAcquire i n
  | .pipeclose i writable => .closeAcquire i writable
  | .acquiresleep i => .lockAcquire i .user
  | .releasesleep i => .unlockAcquire i .user
  | .beginOp => .beginAcquire
  | .endOp => .endAcquire
  | .logWrite block => .logWrite block
  | .consoleread i n => .unlockAcquire i (.consoleread n)
  | .consoleintr chars => .intrAcquire chars
  | .sysSleep n => .ticksAcquire n
  | .clock => .clockAcquire
  | .kill pid => .kill pid

/-- The process may make the call: it releases a sleep lock that it holds, reads from the console
with its inode locked, and begins and ends transactions in turn. -/
def Call.allowed : Call → Bool
  | .releasesleep i | .consoleread i _ => i ∈ pc.held
  | .beginOp => !pc.inOp
  | .endOp | .logWrite _ => pc.inOp
  | _ => true

def start (call : Call) : Option Pc :=
  match pc.fn with
  | .user _ => if call.allowed pc then some (pc.go call.entry) else none
  | _ => none

/-- The kernel. -/
def kernel : Program Lock Chan Data Pc Panic Call where
  code := code
  start := start

abbrev KState := State Lock Chan Data Pc

/-- All processes in user space, with the given pids and pipes, and a log of the given size. -/
def booted (pid : Slot → Int32) (pipe : ℕ → Pipe) (size : ℤ) : KState where
  proc := fun p ↦ ⟨.running, pid p, none, false⟩
  mode := fun _ ↦ .run ⟨[], false, .user 0⟩
  spin := fun _ ↦ none
  ptable := none
  data := {
    pipe := pipe
    lock := fun _ ↦ ⟨false, 0⟩
    log := ⟨size, 0, false, []⟩
    input := ⟨fun _ ↦ 0, 0, 0, 0⟩
    ticks := 0 }

end EasyKernels.Xv6.SleepWakeup
