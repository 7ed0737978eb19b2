import Mathlib.Data.List.FinRange
import EasyKernels.Lib.Runs
import EasyKernels.Xv6.Param

/-!
# Open files of xv6

`open`, `close`, `dup`, `pipe`, `fork`, `exit` and `chdir`, as far as they are about open files,
inodes in use and pipes: `filealloc`, `filedup` and `fileclose` of `file.c`, `pipealloc` and
`pipeclose` of `pipe.c`, `fork` and `exit` of `proc.c`, the calls of `sysfile.c` with `create`, and
`namex`. What is done under one of the locks `ftable.lock`, `icache.lock`, `p->lock` of a pipe,
`kmem.lock` and `ptable.lock` is one step, together with the stores next to it that no other process
reads (to `ofile[]` and `cwd` of the caller, and to a file that only it has). Between two steps any
other process may take steps.

A process is at a `Pc`; `Pc.ops` is a list of references that it has still to give back before it
returns from its call, or before `exit` goes on. The `Choice` of a step says what the rest of the
kernel answers: what a directory holds, whether memory is left, which slot of the table is free.

Scope. An inode is its number, so the inode cache is large enough and holds each inode once. `off`,
`readable`, `writable` of an inode's file and the data of a pipe are left out, and so are the inode
locks and the log.
-/

set_option autoImplicit false

namespace EasyKernels.Xv6.OpenFiles

open Lib.Runs Function

/-! ### Files, pipes and processes -/

abbrev Slot := Fin nProc

/-- A pointer into `ftable.file`. -/
abbrev FilePtr := Fin nFile

/-- `type` of a file with the field that it tells to look at: `ip`, or `pipe` and `writable`. -/
inductive FileType
  | none
  | inode (ip : ℕ)
  | pipe (page : ℕ) (writable : Bool)
  deriving DecidableEq, Repr

/-- `struct file`. -/
structure File where
  ref : ℕ
  type : FileType
  deriving DecidableEq, Repr

/-- `struct pipe`. -/
structure Pipe where
  readopen : Bool
  writeopen : Bool
  deriving DecidableEq, Repr

/-- What a path is for. -/
inductive Goal
  | openFile (rdonly : Bool)
  | openCreate
  | chdir
  deriving DecidableEq, Repr

/-- A reference that is to be given back. -/
inductive Op
  | fileclose (f : FilePtr)
  | pipeclose (page : ℕ) (writable : Bool)
  | kfree (page : ℕ)
  | iput (ip : ℕ)
  deriving DecidableEq, Repr

/-- What a process does after it has given back its references: it returns, or `exit` goes on with
the descriptors `fds`. -/
inductive Next
  | ret (value : ℤ)
  | exit (fds : List (Fin nOFile))
  deriving DecidableEq, Repr

/-- Where a process is: in `namex` with `elems` elements of the path to go; with what `namei` or
`nameiparent` found; in `create`; before `filealloc` in `sys_open`; in `pipealloc`; in `fork`. -/
inductive Pc
  | user
  | start (goal : Goal) (absolute : Bool) (elems : ℕ)
  | namex (goal : Goal) (elems : ℕ) (ip : ℕ)
  | step (goal : Goal) (elems : ℕ) (ip next : ℕ)
  | found (goal : Goal) (ip : ℕ)
  | exists (dp ip : ℕ)
  | checked (ip : ℕ)
  | new (dp ip : ℕ)
  | alloc (ip : ℕ)
  | pipe
  | pipeOne (f₀ : FilePtr)
  | pipeTwo (f₀ f₁ : FilePtr)
  | fork
  | copy (np : Slot)
  | files (np : Slot) (fds : List (Fin nOFile))
  | ops (todo : List Op) (next : Next)
  deriving DecidableEq, Repr

inductive ProcState
  | unused
  | embryo
  | running
  | zombie
  deriving DecidableEq, Repr

/-- `struct proc`, with what its last call returned. -/
structure Proc where
  state : ProcState
  ofile : Fin nOFile → Option FilePtr
  cwd : Option ℕ
  pc : Pc
  value : ℤ

/-- The processes, the table of files, the references to inodes in the cache, and the pipes, each in
a page of its own. -/
structure State where
  proc : Slot → Proc
  file : FilePtr → File
  iref : ℕ → ℕ
  pipe : ℕ → Option Pipe

/-- The panics, and the freeing of a page that is free. -/
inductive Fault
  | filedup
  | fileclose
  | freePage
  | noInodes
  | initExiting
  | nullCwd
  deriving DecidableEq, Repr

/-! ### Changes to the state -/

variable (s : State)

def State.setProc (p : Slot) (proc : Proc) : State :=
  { s with proc := update s.proc p proc }

def State.setPc (p : Slot) (pc : Pc) : State :=
  s.setProc p { s.proc p with pc := pc }

def State.setFile (f : FilePtr) (file : File) : State :=
  { s with file := update s.file f file }

/-- `iget` and `idup`. -/
def State.iget (ip : ℕ) : State :=
  { s with iref := update s.iref ip (s.iref ip + 1) }

/-- `iput`, as far as it is about the count. -/
def State.iput (ip : ℕ) : State :=
  { s with iref := update s.iref ip (s.iref ip - 1) }

def State.setPipe (page : ℕ) (pipe : Option Pipe) : State :=
  { s with pipe := update s.pipe page pipe }

/-- `ROOTINO`. -/
def rootIno : ℕ := 1

/-- The search of `filealloc`. -/
def State.freeFile : Option FilePtr :=
  (List.finRange nFile).find? fun f ↦ (s.file f).ref = 0

variable (proc : Proc)

/-- The search of `fdalloc`. -/
def Proc.freeFd : Option (Fin nOFile) :=
  (List.finRange nOFile).find? fun fd ↦ proc.ofile fd = none

def Proc.setFd (fd : Fin nOFile) (f : Option FilePtr) : Proc :=
  { proc with ofile := update proc.ofile fd f }

/-! ### The calls -/

/-- A call of a process; in `bad` an argument cannot be fetched. A descriptor that is out of range
may have any value, and `path` has an absolute or a relative path with a number of elements. -/
inductive Call
  | bad
  | open (absolute : Bool) (elems : ℕ) (create rdonly : Bool)
  | close (fd : ℕ)
  | dup (fd : ℕ)
  | pipe
  | fork
  | exit
  | chdir (absolute : Bool) (elems : ℕ)
  deriving DecidableEq, Repr

/-- What the rest of the kernel answers in a step. -/
inductive Choice
  | plain
  | missing
  | inode (ip : ℕ)
  | newInode (ip : ℕ)
  | page (page : ℕ)
  | slot (np : Slot)
  deriving DecidableEq, Repr

/-- `argfd`. -/
def Proc.argfd (fd : ℕ) : Option (Fin nOFile × FilePtr) :=
  if h : fd < nOFile then (proc.ofile ⟨fd, h⟩).map fun f ↦ (⟨fd, h⟩, f) else none

/-- The process is to return. -/
def Pc.ret (value : ℤ) : Pc := .ops [] (.ret value)

variable (p : Slot)

/-- `sys_close`, up to `fileclose`. -/
def sysClose (fd : ℕ) : State :=
  match (s.proc p).argfd fd with
  | none => s.setPc p (.ret (-1))
  | some (fd, f) =>
    s.setProc p { (s.proc p).setFd fd none with pc := .ops [.fileclose f] (.ret 0) }

/-- `sys_dup`. -/
def sysDup (fd : ℕ) : Outcome Fault State :=
  match (s.proc p).argfd fd with
  | none => .next (s.setPc p (.ret (-1)))
  | some (_, f) =>
    match (s.proc p).freeFd with
    | none => .next (s.setPc p (.ret (-1)))
    | some fd =>
      if (s.file f).ref < 1 then .fault .filedup
      else
        .next ((s.setFile f { s.file f with ref := (s.file f).ref + 1 }).setProc p
          { (s.proc p).setFd fd (some f) with pc := .ret fd })

/-- The first step of a call. -/
def begin : Call → Outcome Fault State
  | .bad => .next (s.setPc p (.ret (-1)))
  | .open absolute elems create rdonly =>
    .next (s.setPc p (.start (if create then .openCreate else .openFile rdonly) absolute elems))
  | .close fd => .next (sysClose s p fd)
  | .dup fd => sysDup s p fd
  | .pipe => .next (s.setPc p .pipe)
  | .fork => .next (s.setPc p .fork)
  | .exit =>
    if p.val = 0 then .fault .initExiting
    else .next (s.setPc p (.ops [] (.exit (List.finRange nOFile))))
  | .chdir absolute elems => .next (s.setPc p (.start .chdir absolute elems))

/-! ### The steps of a call -/

/-- A call that has found nothing gives back an inode and fails. -/
def State.fail (ip : ℕ) : State := s.setPc p (.ops [.iput ip] (.ret (-1)))

/-- `namex`, before its loop. -/
def startPath (goal : Goal) (absolute : Bool) (elems : ℕ) : Outcome Fault State :=
  if absolute then .next ((s.iget rootIno).setPc p (.namex goal elems rootIno))
  else
    match (s.proc p).cwd with
    | none => .fault .nullCwd
    | some ip => .next ((s.iget ip).setPc p (.namex goal elems ip))

/-- The test of the loop of `namex`, and a turn of it: the inode is no directory or has no such
name; the parent is found; or the name is found. -/
def namex (goal : Goal) (elems ip : ℕ) (choice : Choice) : Outcome Fault State :=
  match elems, choice with
  | 0, .plain =>
    if goal = .openCreate then .next (s.fail p ip) else .next (s.setPc p (.found goal ip))
  | _ + 1, .missing => .next (s.fail p ip)
  | 1, .plain => if goal = .openCreate then .next (s.setPc p (.found goal ip)) else .blocked
  | n + 1, .inode next =>
    if goal = .openCreate ∧ n = 0 then .blocked
    else .next ((s.iget next).setPc p (.step goal n ip next))
  | _, _ => .blocked

/-- After the path: the test of a directory in `sys_open`, the test and the rest of `sys_chdir`, and
`dirlookup` and `ialloc` in `create`. -/
def found (ip : ℕ) : Goal → Choice → Outcome Fault State
  | .openFile _, .plain => .next (s.setPc p (.alloc ip))
  | .openFile rdonly, .missing => if rdonly then .blocked else .next (s.fail p ip)
  | .chdir, .plain =>
    match (s.proc p).cwd with
    | none => .fault .nullCwd
    | some old => .next ((s.iput old).setProc p { s.proc p with cwd := some ip, pc := .ret 0 })
  | .chdir, .missing => .next (s.fail p ip)
  | .openCreate, .inode next => .next ((s.iget next).setPc p (.exists ip next))
  | .openCreate, .newInode next => .next ((s.iget next).setPc p (.new ip next))
  | .openCreate, .missing => .fault .noInodes
  | _, _ => .blocked

/-- `sys_open`, from `filealloc`. -/
def alloc (ip : ℕ) : State :=
  match s.freeFile with
  | none => s.fail p ip
  | some f =>
    match (s.proc p).freeFd with
    | none =>
      (s.setFile f { s.file f with ref := 1 }).setPc p (.ops [.fileclose f, .iput ip] (.ret (-1)))
    | some fd =>
      (s.setFile f { ref := 1, type := .inode ip }).setProc p
        { (s.proc p).setFd fd (some f) with pc := .ret fd }

/-- The first `filealloc` of `pipealloc`. -/
def pipeFile : State :=
  match s.freeFile with
  | none => s.setPc p (.ret (-1))
  | some f => (s.setFile f { s.file f with ref := 1 }).setPc p (.pipeOne f)

/-- The second one. -/
def pipeFiles (f₀ : FilePtr) : State :=
  match s.freeFile with
  | none => s.setPc p (.ops [.fileclose f₀] (.ret (-1)))
  | some f => (s.setFile f { s.file f with ref := 1 }).setPc p (.pipeTwo f₀ f)

/-- `pipealloc` with two files and a page. -/
def pipeEnds (f₀ f₁ : FilePtr) (page : ℕ) : State :=
  let s := s.setPipe page (some ⟨true, true⟩)
  let s := s.setFile f₀ { s.file f₀ with type := .pipe page false }
  s.setFile f₁ { s.file f₁ with type := .pipe page true }

/-- The rest of `sys_pipe`. -/
def pipeFds (f₀ f₁ : FilePtr) : State :=
  let failed := s.setPc p (.ops [.fileclose f₀, .fileclose f₁] (.ret (-1)))
  match (s.proc p).freeFd with
  | none => failed
  | some fd₀ =>
    let proc := (s.proc p).setFd fd₀ (some f₀)
    match proc.freeFd with
    | none => failed
    | some fd₁ => s.setProc p { proc.setFd fd₁ (some f₁) with pc := .ret 0 }

/-- `kalloc` in `pipealloc`, and what follows. -/
def pipeAlloc (f₀ f₁ : FilePtr) : Choice → Outcome Fault State
  | .missing => .next (s.setPc p (.ops [.fileclose f₀, .fileclose f₁] (.ret (-1))))
  | .page page =>
    if s.pipe page = none then .next (pipeFds (pipeEnds s f₀ f₁ page) p f₀ f₁) else .blocked
  | _ => .blocked

/-- `allocproc`, as `fork` calls it. -/
def allocproc : Choice → Outcome Fault State
  | .missing => .next (s.setPc p (.ret (-1)))
  | .slot np =>
    if (s.proc np).state = .unused then
      .next ((s.setProc np { s.proc np with state := .embryo }).setPc p (.copy np))
    else .blocked
  | _ => .blocked

/-- `copyuvm` in `fork`. -/
def copy (p np : Slot) : Choice → Outcome Fault State
  | .missing => .next ((s.setProc np { s.proc np with state := .unused }).setPc p (.ret (-1)))
  | .plain => .next (s.setPc p (.files np (List.finRange nOFile)))
  | _ => .blocked

/-- A turn of the loop of `fork` over the descriptors, or the end of `fork`. -/
def forkFiles (p np : Slot) : List (Fin nOFile) → Outcome Fault State
  | fd :: fds =>
    match (s.proc p).ofile fd with
    | none => .next (s.setPc p (.files np fds))
    | some f =>
      if (s.file f).ref < 1 then .fault .filedup
      else
        .next (((s.setFile f { s.file f with ref := (s.file f).ref + 1 }).setProc np
          ((s.proc np).setFd fd (some f))).setPc p (.files np fds))
  | [] =>
    match (s.proc p).cwd with
    | none => .fault .nullCwd
    | some ip =>
      .next (((s.iget ip).setProc np { s.proc np with cwd := some ip, state := .running }).setPc p
        (.ret (np.val + 1)))

/-- `fileclose`, after which the pipe or the inode of the file may have to be given back. -/
def fileclose (f : FilePtr) (todo : List Op) (next : Next) : Outcome Fault State :=
  if (s.file f).ref < 1 then .fault .fileclose
  else if 0 < (s.file f).ref - 1 then
    .next ((s.setFile f { s.file f with ref := (s.file f).ref - 1 }).setPc p (.ops todo next))
  else
    let rest : List Op :=
      match (s.file f).type with
      | .none => todo
      | .inode ip => .iput ip :: todo
      | .pipe page writable => .pipeclose page writable :: todo
    .next ((s.setFile f { ref := 0, type := .none }).setPc p (.ops rest next))

/-- An end of a pipe is closed. -/
def Pipe.close (pipe : Pipe) (writable : Bool) : Pipe :=
  if writable then { pipe with writeopen := false } else { pipe with readopen := false }

/-- `pipeclose`. The page of a pipe that has no end open is freed. -/
def pipeclose (page : ℕ) (writable : Bool) (todo : List Op) (next : Next) : Outcome Fault State :=
  match s.pipe page with
  | none => .fault .freePage
  | some pipe =>
    let pipe := pipe.close writable
    let s := s.setPipe page (some pipe)
    if pipe.readopen = false ∧ pipe.writeopen = false then
      .next (s.setPc p (.ops (.kfree page :: todo) next))
    else .next (s.setPc p (.ops todo next))

/-- A reference is given back. -/
def runOp (todo : List Op) (next : Next) : Op → Outcome Fault State
  | .fileclose f => fileclose s p f todo next
  | .pipeclose page writable => pipeclose s p page writable todo next
  | .kfree page =>
    if s.pipe page = none then .fault .freePage
    else .next ((s.setPipe page none).setPc p (.ops todo next))
  | .iput ip => .next ((s.iput ip).setPc p (.ops todo next))

/-- All references are given back: the call returns, or `exit` goes on. -/
def resume : Next → Outcome Fault State
  | .ret value => .next (s.setProc p { s.proc p with pc := .user, value := value })
  | .exit (fd :: fds) =>
    match (s.proc p).ofile fd with
    | none => .next (s.setPc p (.ops [] (.exit fds)))
    | some f =>
      .next (s.setProc p { (s.proc p).setFd fd none with pc := .ops [.fileclose f] (.exit fds) })
  | .exit [] =>
    match (s.proc p).cwd with
    | none => .fault .nullCwd
    | some ip =>
      .next ((s.iput ip).setProc p
        { s.proc p with cwd := none, state := .zombie, pc := .user, value := 0 })

/-- A step that asks nothing of the rest of the kernel. -/
def Choice.alone (choice : Choice) (o : Outcome Fault State) : Outcome Fault State :=
  if choice = .plain then o else .blocked

/-- The test of the type in `create`. -/
def checked (ip : ℕ) : Choice → Outcome Fault State
  | .plain => .next (s.setPc p (.alloc ip))
  | .missing => .next (s.fail p ip)
  | _ => .blocked

/-- A step of a process that is in a call. -/
def go (choice : Choice) : Outcome Fault State :=
  match (s.proc p).pc with
  | .user => .blocked
  | .start goal absolute elems => choice.alone (startPath s p goal absolute elems)
  | .namex goal elems ip => namex s p goal elems ip choice
  | .step goal elems ip next => choice.alone (.next ((s.iput ip).setPc p (.namex goal elems next)))
  | .found goal ip => found s p ip goal choice
  | .exists dp ip => choice.alone (.next ((s.iput dp).setPc p (.checked ip)))
  | .checked ip => checked s p ip choice
  | .new dp ip => choice.alone (.next ((s.iput dp).setPc p (.alloc ip)))
  | .alloc ip => choice.alone (.next (alloc s p ip))
  | .pipe => choice.alone (.next (pipeFile s p))
  | .pipeOne f₀ => choice.alone (.next (pipeFiles s p f₀))
  | .pipeTwo f₀ f₁ => pipeAlloc s p f₀ f₁ choice
  | .fork => allocproc s p choice
  | .copy np => copy s p np choice
  | .files np fds => choice.alone (forkFiles s p np fds)
  | .ops (op :: todo) next => choice.alone (runOp s p todo next op)
  | .ops [] next => choice.alone (resume s p next)

/-- A call begins, a process goes on with its call, or `wait` frees the slot of a zombie. -/
inductive Event
  | call (p : Slot) (c : Call)
  | go (p : Slot) (choice : Choice)
  | reap (p : Slot)
  deriving DecidableEq, Repr

def step : Event → Outcome Fault State
  | .call p c =>
    if (s.proc p).state = .running ∧ (s.proc p).pc = .user then begin s p c else .blocked
  | .go p choice => if (s.proc p).state = .running then go s p choice else .blocked
  | .reap p =>
    if (s.proc p).state = .zombie then .next (s.setProc p { s.proc p with state := .unused })
    else .blocked

/-- The first process, in the root directory. -/
def boot : State where
  proc p :=
    { state := if p.val = 0 then .running else .unused
      ofile := fun _ ↦ none
      cwd := if p.val = 0 then some rootIno else none
      pc := .user
      value := 0 }
  file := fun _ ↦ ⟨0, .none⟩
  iref := fun i ↦ if i = rootIno then 1 else 0
  pipe := fun _ ↦ none

end EasyKernels.Xv6.OpenFiles
