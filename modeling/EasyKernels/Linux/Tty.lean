import EasyKernels.Lib.Runs
import EasyKernels.Linux.TtyQueue

/-!
# Terminals

`copy_to_cooked`, `tty_read`, `tty_write`, `set_termios` and the flow control of `tty_ioctl` on one
tty, with its driver: `con_write`, which takes bytes off the write queue at once, or `rs_write`,
where the interrupts of the serial line do. Bytes come in by interrupts, which may come at any time
and call `copy_to_cooked`.

`copy_to_cooked` calls the driver in the middle of its loop, and `con_write` may answer a status
request, which calls `copy_to_cooked` again. So the state has a stack of frames: what each
interrupted piece of code does next. `advance` runs the top frame up to the next call, and an
interrupt puts a new frame on top. The calls of tasks go on when the stack is empty; they can be
switched where they sleep, which includes the accesses to user memory.

Scope. Consoles and serial lines; the lines of `pty.c` are left out, and so are calls that are
turned away at the start (no such tty, a task in the background), signals to process groups, and
what `con_write` shows: it is a function `con` that says if a byte makes it answer or reset the
settings. The tables of `ctype.h` are for bytes below 128. `overflows` is not in the source: it
counts the `PUTCH`es on a full queue.
-/

set_option autoImplicit false

namespace EasyKernels.Linux.Tty

open Lib.Runs

/-! ### The settings -/

/-- `struct termios`. -/
structure Termios where
  iflag : UInt32
  oflag : UInt32
  lflag : UInt32
  cc : ℕ → UInt8

namespace Termios

variable (t : Termios)

def inlcr : Bool := t.iflag &&& 0o100 != 0
def igncr : Bool := t.iflag &&& 0o200 != 0
def icrnl : Bool := t.iflag &&& 0o400 != 0
def iuclc : Bool := t.iflag &&& 0o1000 != 0
def ixon : Bool := t.iflag &&& 0o2000 != 0

def opost : Bool := t.oflag &&& 0o1 != 0
def olcuc : Bool := t.oflag &&& 0o2 != 0
def onlcr : Bool := t.oflag &&& 0o4 != 0
def ocrnl : Bool := t.oflag &&& 0o10 != 0
def onlret : Bool := t.oflag &&& 0o40 != 0

def isig : Bool := t.lflag &&& 0o1 != 0
def icanon : Bool := t.lflag &&& 0o2 != 0
def echo : Bool := t.lflag &&& 0o10 != 0
def echoctl : Bool := t.lflag &&& 0o1000 != 0

end Termios

def vintr : ℕ := 0
def vquit : ℕ := 1
def verase : ℕ := 2
def vkill : ℕ := 3
def veof : ℕ := 4
def vtime : ℕ := 5
def vmin : ℕ := 6
def vstart : ℕ := 8
def vstop : ℕ := 9
def vsusp : ℕ := 10

/-- `DEF_TERMIOS`, with `INIT_C_CC`. -/
def defTermios : Termios where
  iflag := 0o400
  oflag := 0o5
  lflag := 0o7013
  cc := fun i ↦ [3, 28, 127, 21, 4, 0, 1, 0, 17, 19, 26, 0, 18, 15, 23, 22, 0].getD i 0

variable (t : Termios)

/-- `c` is a control character of the settings that is not disabled. `c` is a signed `char` and the
characters of the settings are unsigned, so a byte above 127 is none of them. -/
def Termios.is (v : ℕ) (c : UInt8) : Bool :=
  t.cc v != 0 && (c < 128 : Bool) && c == t.cc v

/-- The bytes that end a line. -/
def Termios.delimiter (c : UInt8) : Bool := c == 10 || t.is veof c

/-- `c < 32`, where `c` is signed. -/
def small (c : UInt8) : Bool := (128 ≤ c : Bool) || (c < 32 : Bool)

def tolower (c : UInt8) : UInt8 := if 65 ≤ c ∧ c ≤ 90 then c + 32 else c

def toupper (c : UInt8) : UInt8 := if 97 ≤ c ∧ c ≤ 122 then c - 32 else c

/-- What `copy_to_cooked` makes of a byte; none if it is ignored. -/
def Termios.translate (c : UInt8) : Option UInt8 :=
  let mapped :=
    if c = 13 then if t.icrnl then some 10 else if t.igncr then none else some c
    else if c = 10 ∧ t.inlcr then some 13
    else some c
  mapped.map fun c ↦ if t.iuclc then tolower c else c

/-- What `copy_to_cooked` echoes for a byte. -/
def Termios.echoed (c : UInt8) : List UInt8 :=
  if t.echo then
    if c = 10 then [10, 13]
    else if small c then if t.echoctl then [94, c + 64] else []
    else [c]
  else []

/-- What it echoes when it erases a byte. -/
def Termios.erasure (c : UInt8) : List UInt8 :=
  if t.echo then if small c then [127, 127] else [127] else []

/-! ### The state -/

/-- What a piece of code does next: `copy_to_cooked` at the head of its loop or of the loop that
kills a line, before `DEC(tty->secondary->head)`, or before it puts `c` in the secondary queue; and
`con_write` with `nr` bytes to go. -/
inductive Frame
  | loop
  | kill
  | dec
  | put (c : UInt8)
  | write (nr : ℕ)
  deriving DecidableEq, Repr

/-- A call of `tty_read`; `copied` is the byte that `put_fs_byte` stores in the inner loop, and
`time` and `timeout` say that the variables of that name are not 0. -/
structure Reader where
  nr : ℕ
  minimum : ℕ
  time : Bool
  timeout : Bool
  got : List UInt8
  copied : Option UInt8

/-- Where a call of `tty_write` is: at the head of the outer loop, asleep in `sleep_if_full`, at
the test of the inner loop, or in `get_fs_byte`. -/
inductive WriterPc
  | outer
  | asleep
  | inner
  | fetched
  deriving DecidableEq, Repr

structure Writer where
  left : List UInt8
  pc : WriterPc

/-- What a byte makes `con_write` do besides showing it: nothing, `respond`, or set
`DEF_TERMIOS`. -/
inductive Reaction
  | none
  | respond
  | reset
  deriving DecidableEq, Repr

/-- A tty. `serial` says that its driver is `rs_write`, and `console` is what `con_write`
remembers. -/
structure State (κ : Type) where
  termios : Termios
  stopped : Bool
  serial : Bool
  readQ : Queue
  writeQ : Queue
  secondary : Queue
  console : κ
  crFlag : Bool
  stack : List Frame
  reader : ℕ → Option Reader
  writer : ℕ → Option Writer
  overflows : ℕ

variable {κ : Type}

/-- `PUTCH` of some bytes, with the number of them that met a full queue. -/
def puts : Queue → List UInt8 → Queue × ℕ
  | q, [] => (q, 0)
  | q, c :: cs =>
    let (q', n) := puts (q.putch c) cs
    (q', n + if q.full then 1 else 0)

variable (s : State κ)

def State.putWrite (cs : List UInt8) : State κ :=
  { s with writeQ := (puts s.writeQ cs).1, overflows := s.overflows + (puts s.writeQ cs).2 }

def State.putRead (cs : List UInt8) : State κ :=
  { s with readQ := (puts s.readQ cs).1, overflows := s.overflows + (puts s.readQ cs).2 }

def State.putSecondary (cs : List UInt8) : State κ :=
  { s with
    secondary := (puts s.secondary cs).1
    overflows := s.overflows + (puts s.secondary cs).2 }

/-- `tty->write(tty)`, with the frames that come after it. `rs_write` only turns the interrupts
on. -/
def State.callWrite (after : List Frame) : State κ :=
  { s with stack := if s.serial then after else .write s.writeQ.chars :: after }

/-! ### `copy_to_cooked` and `con_write` -/

/-- What a pass of the loop of `copy_to_cooked` does with a byte: what it echoes, if it calls the
driver, the frames for what is left to do, a change of `stopped`, and if it counts a line. -/
structure Pass where
  echo : List UInt8
  write : Bool
  frames : List Frame
  stopped : Option Bool
  counts : Bool

variable (t : Termios)

/-- The pass for a byte after the translation. -/
def Termios.pass (secondary : Queue) (c : UInt8) : Pass :=
  if t.icanon && t.is vkill c then ⟨[], false, [.kill], none, false⟩
  else if t.icanon && t.is verase c then
    if secondary.empty ∨ t.delimiter secondary.last then ⟨[], false, [], none, false⟩
    else ⟨t.erasure secondary.last, t.echo, [.dec], none, false⟩
  else if t.ixon && t.is vstop c then ⟨[], true, [], some true, false⟩
  else if t.ixon && t.is vstart c then ⟨[], true, [], some false, false⟩
  else if t.isig && (t.is vintr c || t.is vquit c || t.is vsusp c) then ⟨[], false, [], none, false⟩
  else ⟨t.echoed c, t.echo, [.put c], none, t.delimiter c⟩

/-- The bytes are echoed, and the driver is called or the next frame comes at once. -/
def State.proceed (echo : List UInt8) (write : Bool) (after : List Frame) : State κ :=
  let s := s.putWrite echo
  if write then s.callWrite after else { s with stack := after }

/-- A pass of the loop. -/
def State.applyPass (p : Pass) (after : List Frame) : State κ :=
  let data := if p.counts then s.secondary.data + 1 else s.secondary.data
  let s := { s with
    stopped := p.stopped.getD s.stopped
    secondary := { s.secondary with data := data } }
  s.proceed p.echo p.write (p.frames ++ after)

/-- The answer to a status request. -/
def response : List UInt8 := [27, 91, 63, 49, 59, 50, 99]

/-- `copy_to_cooked` at the head of its loop. -/
def State.cook (rest : List Frame) : State κ :=
  if s.readQ.empty ∨ s.secondary.full then { s with stack := rest }
  else
    let taken := { s with readQ := s.readQ.getch.2 }
    match s.termios.translate s.readQ.getch.1 with
    | none => taken
    | some c => taken.applyPass (s.termios.pass s.secondary c) (.loop :: rest)

/-- The loop that kills a line. -/
def State.killLine (rest : List Frame) : State κ :=
  if s.secondary.empty ∨ s.termios.delimiter s.secondary.last then { s with stack := rest }
  else s.proceed (s.termios.erasure s.secondary.last) s.termios.echo (.dec :: .kill :: rest)

variable (con : κ → UInt8 → κ × Reaction)

/-- What the next byte of the write queue makes `con_write` remember and do. -/
def State.shown (s : State κ) : κ × Reaction :=
  con s.console s.writeQ.getch.1

/-- `con_write` with more than `nr` bytes to go. -/
def State.conWrite (s : State κ) (nr : ℕ) (rest : List Frame) : State κ :=
  if s.stopped then { s with stack := rest }
  else
    let taken := { s with
      writeQ := s.writeQ.getch.2
      console := (s.shown con).1
      stack := .write nr :: rest }
    match (s.shown con).2 with
    | .none => taken
    | .respond => { taken.putRead response with stack := .loop :: .write nr :: rest }
    | .reset => { taken with termios := defTermios }

/-- The top frame goes on up to the next call. -/
def advance (s : State κ) : Outcome Empty (State κ) :=
  match s.stack with
  | [] => .blocked
  | .loop :: rest => .next (s.cook rest)
  | .kill :: rest => .next (s.killLine rest)
  | .dec :: rest => .next { s with secondary := s.secondary.dec, stack := rest }
  | .put c :: rest => .next { s.putSecondary [c] with stack := rest }
  | .write 0 :: rest => .next { s with stack := rest }
  | .write (nr + 1) :: rest => .next (s.conWrite con nr rest)

/-- The handlers of the keyboard and of a serial line put all of the bytes in the read queue or, if
there is no room, none. -/
def Queue.putQueue (q : Queue) (cs : List UInt8) : Queue :=
  if cs.length ≤ q.left then (puts q cs).1 else q

/-! ### The calls of tasks -/

/-- The condition under which `tty_read` waits. -/
def State.Waits : Prop :=
  s.secondary.empty ∨ s.termios.icanon = true ∧ ¬ s.readQ.full ∧ s.secondary.data = 0

instance : Decidable s.Waits := inferInstanceAs (Decidable (_ ∨ _ ∧ _ ∧ _))

def Reader.start (n : ℕ) : Reader where
  nr := n
  minimum := if t.icanon || t.cc vmin == 0 then n else min (t.cc vmin).toNat n
  time := !t.icanon && t.cc vmin != 0 && t.cc vtime != 0
  timeout := t.icanon || t.cc vmin != 0 || t.cc vtime != 0
  got := []
  copied := none

def State.setReader (i : ℕ) (r : Option Reader) : State κ :=
  { s with reader := Function.update s.reader i r }

/-- The inner loop of `tty_read` is left. -/
def State.leave (i : ℕ) (r : Reader) : State κ :=
  let r := { r with copied := none, timeout := r.timeout || r.time }
  if s.termios.icanon ∨ r.minimum ≤ r.got.length ∨ r.nr = 0 then s.setReader i none
  else s.setReader i (some r)

/-- A byte is taken off the secondary queue. -/
def State.take : State κ :=
  let (c, q) := s.secondary.getch
  { s with secondary := { q with data := if s.termios.delimiter c then q.data - 1 else q.data } }

/-- A pass of the inner loop, up to `put_fs_byte`. -/
def State.readPass (i : ℕ) (r : Reader) : State κ :=
  let c := s.secondary.getch.1
  if s.termios.is veof c ∧ s.termios.icanon then s.take.leave i r
  else s.take.setReader i (some { r with got := r.got ++ [c], copied := some c })

/-- A call of `tty_read` goes on. -/
def State.readStep (i : ℕ) (r : Reader) : Outcome Empty (State κ) :=
  match r.copied with
  | none =>
    if r.nr = 0 then .next (s.setReader i none)
    else if s.Waits then if r.timeout then .blocked else .next (s.setReader i none)
    else .next (s.readPass i r)
  | some c =>
    let r := { r with nr := r.nr - 1 }
    if r.nr = 0 ∨ (c = 10 ∧ s.termios.icanon) ∨ s.secondary.empty then .next (s.leave i r)
    else .next (s.readPass i r)

def State.setWriter (i : ℕ) (w : Option Writer) : State κ :=
  { s with writer := Function.update s.writer i w }

/-- The output processing of a byte: what is put in the write queue, and if the byte is done. -/
def Termios.output (crFlag : Bool) (c : UInt8) : UInt8 × Bool :=
  if t.opost then
    let c := if c = 13 ∧ t.ocrnl then 10 else if c = 10 ∧ t.onlret then 13 else c
    if c = 10 ∧ crFlag = false ∧ t.onlcr then (13, false)
    else (if t.olcuc then toupper c else c, true)
  else (c, true)

/-- A call of `tty_write` goes on. -/
def State.writeStep (i : ℕ) (w : Writer) : Outcome Empty (State κ) :=
  match w.pc with
  | .outer =>
    if w.left = [] then .next (s.setWriter i none)
    else .next (s.setWriter i (some { w with pc := if s.writeQ.full then .asleep else .inner }))
  | .asleep =>
    if s.writeQ.left < 128 then .blocked else .next (s.setWriter i (some { w with pc := .inner }))
  | .inner =>
    if w.left = [] ∨ s.writeQ.full then
      let w := if w.left = [] then none else some { w with pc := .outer }
      .next ((s.setWriter i w).callWrite [])
    else .next (s.setWriter i (some { w with pc := .fetched }))
  | .fetched =>
    match w.left with
    | [] => .blocked
    | c :: rest =>
      let (c, done) := s.termios.output s.crFlag c
      let s := { s.putWrite [c] with crFlag := !done }
      .next (s.setWriter i (some { left := if done then rest else w.left, pc := .inner }))

/-- The arguments of `TCXONC`. -/
inductive Flow
  | tcooff
  | tcoon
  | tcioff
  | tcion
  deriving DecidableEq, Repr

def State.putCharacter (v : ℕ) : State κ :=
  if s.termios.cc v = 0 then s else s.putWrite [s.termios.cc v]

def State.flow : Flow → State κ
  | .tcooff => { s with stopped := true }.callWrite []
  | .tcoon => { s with stopped := false }.callWrite []
  | .tcioff => s.putCharacter vstop
  | .tcion => s.putCharacter vstart

/-! ### The machine -/

inductive Event
  /-- An interrupt of the keyboard or of a serial line. -/
  | input (cs : List UInt8)
  /-- A serial line sends a byte. -/
  | transmit
  | advance
  | read (i n : ℕ)
  | reader (i : ℕ)
  /-- A signal or the timer ends the sleep of a reader. -/
  | stopReading (i : ℕ)
  | write (i : ℕ) (cs : List UInt8)
  | writer (i : ℕ)
  /-- A signal ends a call of `tty_write` at the head of its loop. -/
  | stopWriting (i : ℕ)
  | setTermios (t : Termios)
  | tcxonc (arg : Flow)
  /-- `tty_write` on another tty changes `cr_flag`. -/
  | crFlag (flag : Bool)

/-- A task can go on only when no code that it or an interrupt has called is on the stack. -/
def State.task (o : Outcome Empty (State κ)) : Outcome Empty (State κ) :=
  if s.stack = [] then o else .blocked

def step (s : State κ) : Event → Outcome Empty (State κ)
  | .input cs => .next { s with readQ := s.readQ.putQueue cs, stack := .loop :: s.stack }
  | .transmit =>
    if s.serial ∧ ¬ s.writeQ.empty then .next { s with writeQ := s.writeQ.getch.2 } else .blocked
  | .advance => advance con s
  | .read i n =>
    s.task <| match s.reader i with
      | none => .next (s.setReader i (some (Reader.start s.termios n)))
      | some _ => .blocked
  | .reader i =>
    s.task <| match s.reader i with
      | none => .blocked
      | some r => s.readStep i r
  | .stopReading i =>
    s.task <| match s.reader i with
      | none => .blocked
      | some r => if r.copied = none ∧ s.Waits then .next (s.setReader i none) else .blocked
  | .write i cs =>
    s.task <| match s.writer i with
      | none => .next (s.setWriter i (some { left := cs, pc := .outer }))
      | some _ => .blocked
  | .writer i =>
    s.task <| match s.writer i with
      | none => .blocked
      | some w => s.writeStep i w
  | .stopWriting i =>
    s.task <| match s.writer i with
      | none => .blocked
      | some w => if w.pc = .outer ∨ w.pc = .asleep then .next (s.setWriter i none) else .blocked
  | .setTermios t => s.task (.next { s with termios := t })
  | .tcxonc arg => s.task (.next (s.flow arg))
  | .crFlag flag => .next { s with crFlag := flag }

/-- `{0,0,0,0,""}`; a serial line has its port in the `data` of the first two queues, which no code
here reads. -/
def emptyQueue : Queue := ⟨0, 0, 0, fun _ ↦ 0⟩

/-- The queues are empty and there is no call. -/
def State.start (serial : Bool) (console : κ) : State κ where
  termios := t
  stopped := false
  serial := serial
  readQ := emptyQueue
  writeQ := emptyQueue
  secondary := emptyQueue
  console := console
  crFlag := false
  stack := []
  reader := fun _ ↦ none
  writer := fun _ ↦ none
  overflows := 0

end EasyKernels.Linux.Tty
