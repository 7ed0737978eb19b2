import EasyKernels.Lib.Runs
import EasyKernels.Lib.Counting
import EasyKernels.Xv6.Param

/-!
# The buffer cache of `bio.c` over the driver of `ide.c`

`bget`, `bread`, `bwrite`, `brelse`, `log_write`, `iderw` and `ideintr` as a machine whose steps are
the sections that `bcache.lock`, the sleep lock of a buffer and `idelock` make atomic. The list
`order` is the linked list of buffers from `head.next` on. A process is a `Pc`: running its own
code, in which it may hold the sleep locks of any number of buffers, or inside one of the functions.
The waiting loops are guards: `acquiresleep` is enabled while the lock is free, the return from
`iderw` once `B_VALID` is set and `B_DIRTY` clear.

`Inv` is what the locks protect, and `inv_of_run` has it in every state. `refcnt` counts the holder
of the sleep lock, the processes on their way to it and those on their way out of `brelse`
(`Counted`), and `lookup` finds every buffer that is in use (`Listed`).

Scope. The drive reports no errors, so `idewait` never fails. A process calls `log_write` only on a
buffer that it holds, between `bread` and `brelse`; what `log_write` does to the log header is in
`GroupCommit`. `BSIZE` is the sector size, so a block is one sector of the drive `dev & 1`.
-/

set_option autoImplicit false

namespace EasyKernels.Xv6.BufferCache

open Option List Finset Function Lib.Runs Lib.Counting

/-! ### The machine -/

/-- `struct buf`, less its list pointers. -/
structure Buf (P : Type*) where
  valid : Bool
  dirty : Bool
  dev : UInt32
  blockno : UInt32
  /-- The holder of the sleep lock. -/
  lock : Option P
  refcnt : ℕ
  data : Block

/-- Where a process is. -/
inductive Pc
  /-- In none of the functions of the cache. -/
  | running
  /-- In `bget`, about to hold the sleep lock of a buffer. -/
  | waiting (dev blockno : UInt32) (i : Fin nBuf)
  /-- In `bread`, back from `bget`. -/
  | locked (dev blockno : UInt32) (i : Fin nBuf)
  /-- In `bread`, in the loop of `iderw`. -/
  | reading (dev blockno : UInt32) (i : Fin nBuf)
  /-- In `bwrite`, in the loop of `iderw`. -/
  | writing (i : Fin nBuf)
  /-- In `brelse`, after `releasesleep`. -/
  | releasing (i : Fin nBuf)
  deriving DecidableEq, Repr

/-- A command that `idestart` gave to a drive, with the data of a write. -/
inductive Command
  | read (drive sector : UInt32)
  | write (drive sector : UInt32) (data : Block)

/-- The ways the code of `bio.c` and `ide.c` stops the kernel. -/
inductive Panic
  | noBuffers
  | bwrite
  | brelse
  | bufNotLocked
  | nothingToDo
  | disk1NotPresent
  | incorrectBlockno
  deriving DecidableEq, Repr

structure State (P : Type*) where
  buf : Fin nBuf → Buf P
  /-- The buffers from `bcache.head.next` on: the most recently used first. -/
  order : List (Fin nBuf)
  idequeue : List (Fin nBuf)
  /-- The command the drives are working on. -/
  command : Option Command
  havedisk1 : Bool
  /-- The sectors of the drives. -/
  disk : UInt32 → UInt32 → Block
  pc : P → Pc

variable {P : Type*}

/-- The drive and the sector that hold a block of a device. -/
def address (dev blockno : UInt32) : UInt32 × UInt32 := (dev &&& 1, blockno)

/-- A buffer of the zeroed `bcache`. -/
def Buf.zero : Buf P where
  valid := false
  dirty := false
  dev := 0
  blockno := 0
  lock := none
  refcnt := 0
  data := Lib.Bytes.zero bSize

/-- The cache after `binit`, which links every buffer in turn at the front, over the given disks. -/
def initial (disk : UInt32 → UInt32 → Block) (havedisk1 : Bool) : State P where
  buf := fun _ ↦ Buf.zero
  order := (List.finRange nBuf).reverse
  idequeue := []
  command := none
  havedisk1 := havedisk1
  disk := disk
  pc := fun _ ↦ .running

inductive Event (P : Type*)
  /-- `bget` under `bcache.lock`. -/
  | bget (p : P) (dev blockno : UInt32)
  | acquiresleep (p : P)
  /-- The call of `iderw` in `bread`. -/
  | iderw (p : P)
  | ideintr
  | breadReturn (p : P)
  /-- A process changes the data of a buffer. -/
  | store (p : P) (i : Fin nBuf) (data : Block)
  | bwrite (p : P) (i : Fin nBuf)
  | bwriteReturn (p : P)
  | logWrite (p : P) (i : Fin nBuf)
  /-- `brelse` up to `releasesleep`. -/
  | brelse (p : P) (i : Fin nBuf)
  /-- `brelse` under `bcache.lock`. -/
  | brelseReturn (p : P)

variable (s : State P)

/-- The first loop of `bget`. -/
def State.lookup (dev blockno : UInt32) : Option (Fin nBuf) :=
  s.order.find? fun i ↦ (s.buf i).dev = dev ∧ (s.buf i).blockno = blockno

/-- The second loop of `bget`, from `head.prev` on. -/
def State.victim : Option (Fin nBuf) :=
  s.order.reverse.find? fun i ↦ (s.buf i).refcnt = 0 ∧ (s.buf i).dirty = false

def State.setBuf (i : Fin nBuf) (b : Buf P) : State P :=
  { s with buf := update s.buf i b }

/-- The command for a buffer: a write of its data if it is dirty, else a read. -/
def Buf.command (b : Buf P) : Command :=
  let (drive, sector) := address b.dev b.blockno
  if b.dirty then .write drive sector b.data else .read drive sector

def State.idestart (i : Fin nBuf) : Outcome Panic (State P) :=
  if (s.buf i).blockno ≥ fsSize then .fault .incorrectBlockno
  else .next { s with command := some (s.buf i).command }

/-- The disks once the drives have carried out their command. -/
def State.written : UInt32 → UInt32 → Block :=
  match s.command with
  | some (.write drive sector data) =>
    update s.disk drive (update (s.disk drive) sector data)
  | _ => s.disk

/-- The data the drives offer once they have carried out a read. -/
def State.offered (old : Block) : Block :=
  match s.command with
  | some (.read drive sector) => s.disk drive sector
  | _ => old

/-- A buffer whose command the drives have carried out, as `ideintr` leaves it. -/
def State.served (i : Fin nBuf) : Buf P :=
  let b := s.buf i
  { b with
    data := if b.dirty then b.data else s.offered b.data
    valid := true
    dirty := false }

/-- The interrupt of the drive, which has carried out its command, and `ideintr`. -/
def State.ideintr : Outcome Panic (State P) :=
  match s.idequeue with
  | [] => .next s
  | i :: rest =>
    let t := { s.setBuf i (s.served i) with idequeue := rest, disk := s.written, command := none }
    match rest with
    | [] => .next t
    | j :: _ => t.idestart j

section Step

variable [DecidableEq P] (s : State P)

def State.setPc (p : P) (pc : Pc) : State P :=
  { s with pc := update s.pc p pc }

/-- `iderw` up to its loop. -/
def State.iderw (p : P) (i : Fin nBuf) : Outcome Panic (State P) :=
  if (s.buf i).lock ≠ some p then .fault .bufNotLocked
  else if (s.buf i).valid = true ∧ (s.buf i).dirty = false then .fault .nothingToDo
  else if (s.buf i).dev ≠ 0 ∧ s.havedisk1 = false then .fault .disk1NotPresent
  else
    let t := { s with idequeue := s.idequeue ++ [i] }
    if t.idequeue.head? = some i then t.idestart i else .next t

/-- One atomic section. -/
def step : Event P → Outcome Panic (State P)
  | .bget p dev blockno =>
    if s.pc p = .running then
      match s.lookup dev blockno with
      | some i =>
        let b := s.buf i
        .next ((s.setBuf i { b with refcnt := b.refcnt + 1 }).setPc p (.waiting dev blockno i))
      | none =>
        match s.victim with
        | some i =>
          .next ((s.setBuf i { s.buf i with
            dev := dev, blockno := blockno, valid := false, dirty := false, refcnt := 1 }).setPc p
              (.waiting dev blockno i))
        | none => .fault .noBuffers
    else .blocked
  | .acquiresleep p =>
    match s.pc p with
    | .waiting dev blockno i =>
      if (s.buf i).lock = none then
        .next ((s.setBuf i { s.buf i with lock := some p }).setPc p (.locked dev blockno i))
      else .blocked
    | _ => .blocked
  | .iderw p =>
    match s.pc p with
    | .locked dev blockno i =>
      if (s.buf i).valid = false then (s.setPc p (.reading dev blockno i)).iderw p i else .blocked
    | _ => .blocked
  | .ideintr => s.ideintr
  | .breadReturn p =>
    match s.pc p with
    | .locked _ _ i => if (s.buf i).valid = true then .next (s.setPc p .running) else .blocked
    | .reading _ _ i =>
      if (s.buf i).valid = true ∧ (s.buf i).dirty = false then .next (s.setPc p .running)
      else .blocked
    | _ => .blocked
  | .store p i data =>
    if s.pc p = .running ∧ (s.buf i).lock = some p then
      .next (s.setBuf i { s.buf i with data := data })
    else .blocked
  | .bwrite p i =>
    if s.pc p = .running then
      if (s.buf i).lock ≠ some p then .fault .bwrite
      else ((s.setBuf i { s.buf i with dirty := true }).setPc p (.writing i)).iderw p i
    else .blocked
  | .bwriteReturn p =>
    match s.pc p with
    | .writing i =>
      if (s.buf i).valid = true ∧ (s.buf i).dirty = false then .next (s.setPc p .running)
      else .blocked
    | _ => .blocked
  | .logWrite p i =>
    if s.pc p = .running ∧ (s.buf i).lock = some p then
      .next (s.setBuf i { s.buf i with dirty := true })
    else .blocked
  | .brelse p i =>
    if s.pc p = .running then
      if (s.buf i).lock ≠ some p then .fault .brelse
      else .next ((s.setBuf i { s.buf i with lock := none }).setPc p (.releasing i))
    else .blocked
  | .brelseReturn p =>
    match s.pc p with
    | .releasing i =>
      let b := s.buf i
      let t := (s.setBuf i { b with refcnt := b.refcnt - 1 }).setPc p .running
      if b.refcnt - 1 = 0 then .next { t with order := i :: t.order.erase i } else .next t
    | _ => .blocked

end Step

/-! ### What a step does -/

def Buf.key (b : Buf P) : UInt32 × UInt32 := (b.dev, b.blockno)

variable {s t : State P} {i : Fin nBuf} {pc : Pc}

open State

theorem lookup_eq_find? (s : State P) (dev blockno : UInt32) :
    s.lookup dev blockno = s.order.find? fun i ↦ (s.buf i).key = (dev, blockno) := by
  simp only [State.lookup, Buf.key, Prod.mk.injEq]

theorem key_of_lookup {dev blockno : UInt32} (h : s.lookup dev blockno = some i) :
    (s.buf i).key = (dev, blockno) := by
  rw [lookup_eq_find?] at h
  simpa using find?_some h

theorem State.idestart_eq_next (h : s.idestart i = .next t) :
    t = { s with command := some (s.buf i).command } := by
  unfold idestart at h
  split_ifs at h
  cases h
  rfl

/-- What `ideintr` leaves: the buffer at the head of the queue has been served. -/
theorem State.ideintr_eq_next (h : s.ideintr = .next t) : (s.idequeue = [] ∧ t = s) ∨
      ∃ i rest command, s.idequeue = i :: rest ∧
        (∀ j ∈ rest.head?, command = some (update s.buf i (s.served i) j).command) ∧
        t = { s.setBuf i (s.served i) with
          idequeue := rest, disk := s.written, command := command } := by
  simp only [ideintr] at h
  split at h
  case h_1 hqueue =>
    cases h
    exact .inl ⟨hqueue, rfl⟩
  case h_2 i rest hqueue =>
    refine .inr ⟨i, rest, ?_⟩
    split at h
    · cases h
      exact ⟨none, hqueue, by simp, rfl⟩
    · rw [idestart_eq_next h]
      exact ⟨_, hqueue, by simp [setBuf], rfl⟩

/-- What `iderw` leaves when it reaches its loop. -/
theorem State.iderw_eq_next [DecidableEq P] {p : P} (h : s.iderw p i = .next t) :
    ¬ ((s.buf i).valid = true ∧ (s.buf i).dirty = false) ∧
      ∃ command, (s.idequeue = [] → command = some (s.buf i).command) ∧
        (s.idequeue ≠ [] → s.idequeue.head? ≠ some i → command = s.command) ∧
        t = { s with idequeue := s.idequeue ++ [i], command := command } := by
  simp only [iderw] at h
  split_ifs at h with hlock hflags hdisk hhead
  · rw [idestart_eq_next h]
    refine ⟨hflags, _, fun _ ↦ rfl, fun hne hfirst ↦ ?_, rfl⟩
    rw [head?_append_of_ne_nil _ hne] at hhead
    exact absurd hhead hfirst
  · cases h
    refine ⟨hflags, _, fun hnil ↦ ?_, fun _ _ ↦ rfl, rfl⟩
    simp [hnil] at hhead

section Next

variable [DecidableEq P]

/-- Everything that a step which leads to a next state can do. -/
inductive Next (s : State P) : Event P → State P → Prop
  | bgetHit {p : P} {dev blockno : UInt32} {i : Fin nBuf} (hp : s.pc p = .running)
      (hfound : s.lookup dev blockno = some i) :
      Next s (.bget p dev blockno)
        ((s.setBuf i { s.buf i with refcnt := (s.buf i).refcnt + 1 }).setPc p
          (.waiting dev blockno i))
  | bgetRecycle {p : P} {dev blockno : UInt32} {i : Fin nBuf} (hp : s.pc p = .running)
      (hnone : s.lookup dev blockno = none) (hrefcnt : (s.buf i).refcnt = 0)
      (hclean : (s.buf i).dirty = false) :
      Next s (.bget p dev blockno)
        ((s.setBuf i { s.buf i with
          dev := dev, blockno := blockno, valid := false, dirty := false, refcnt := 1 }).setPc p
            (.waiting dev blockno i))
  | acquiresleep {p : P} {dev blockno : UInt32} {i : Fin nBuf}
      (hp : s.pc p = .waiting dev blockno i) (hlock : (s.buf i).lock = none) :
      Next s (.acquiresleep p)
        ((s.setBuf i { s.buf i with lock := some p }).setPc p (.locked dev blockno i))
  | iderw {p : P} {dev blockno : UInt32} {i : Fin nBuf} {command : Option Command}
      (hp : s.pc p = .locked dev blockno i) (hvalid : (s.buf i).valid = false)
      (hfirst : s.idequeue = [] → command = some (s.buf i).command)
      (hlater : s.idequeue ≠ [] → s.idequeue.head? ≠ some i → command = s.command) :
      Next s (.iderw p) { s.setPc p (.reading dev blockno i) with
        idequeue := s.idequeue ++ [i], command := command }
  | ideintrIdle (hqueue : s.idequeue = []) : Next s .ideintr s
  | ideintr {i : Fin nBuf} {rest : List (Fin nBuf)} {command : Option Command}
      (hqueue : s.idequeue = i :: rest)
      (hcommand : ∀ j ∈ rest.head?,
        command = some (update s.buf i (s.served i) j).command) :
      Next s .ideintr { s.setBuf i (s.served i) with
        idequeue := rest, disk := s.written, command := command }
  | breadReturn {p : P} {dev blockno : UInt32} {i : Fin nBuf}
      (hp : s.pc p = .locked dev blockno i ∨
        s.pc p = .reading dev blockno i ∧ (s.buf i).dirty = false)
      (hvalid : (s.buf i).valid = true) :
      Next s (.breadReturn p) (s.setPc p .running)
  | store {p : P} {i : Fin nBuf} {data : Block} (hp : s.pc p = .running)
      (hlock : (s.buf i).lock = some p) :
      Next s (.store p i data) (s.setBuf i { s.buf i with data := data })
  | bwrite {p : P} {i : Fin nBuf} {command : Option Command} (hp : s.pc p = .running)
      (hlock : (s.buf i).lock = some p)
      (hfirst : s.idequeue = [] → command = some { s.buf i with dirty := true : Buf P }.command)
      (hlater : s.idequeue ≠ [] → s.idequeue.head? ≠ some i → command = s.command) :
      Next s (.bwrite p i) { (s.setBuf i { s.buf i with dirty := true }).setPc p (.writing i) with
        idequeue := s.idequeue ++ [i], command := command }
  | bwriteReturn {p : P} {i : Fin nBuf} (hp : s.pc p = .writing i)
      (hvalid : (s.buf i).valid = true) (hclean : (s.buf i).dirty = false) :
      Next s (.bwriteReturn p) (s.setPc p .running)
  | logWrite {p : P} {i : Fin nBuf} (hp : s.pc p = .running) (hlock : (s.buf i).lock = some p) :
      Next s (.logWrite p i) (s.setBuf i { s.buf i with dirty := true })
  | brelse {p : P} {i : Fin nBuf} (hp : s.pc p = .running) (hlock : (s.buf i).lock = some p) :
      Next s (.brelse p i) ((s.setBuf i { s.buf i with lock := none }).setPc p (.releasing i))
  | brelseReturn {p : P} {i : Fin nBuf} {order : List (Fin nBuf)} (hp : s.pc p = .releasing i)
      (horder : order = s.order ∨ order = i :: s.order.erase i) :
      Next s (.brelseReturn p)
        { (s.setBuf i { s.buf i with refcnt := (s.buf i).refcnt - 1 }).setPc p .running with
          order := order }

theorem next_of_step {s t : State P} {e : Event P} (hstep : step s e = .next t) : Next s e t := by
  cases e
  all_goals simp only [step] at hstep
  case bget p dev blockno =>
    split_ifs at hstep with hp
    split at hstep
    · cases hstep
      exact .bgetHit hp ‹_›
    · split at hstep
      case h_1 i hvictim =>
        cases hstep
        have hfree := find?_some hvictim
        simp only [decide_eq_true_eq] at hfree
        exact .bgetRecycle hp ‹_› hfree.1 hfree.2
      case h_2 => cases hstep
  case acquiresleep p =>
    (repeat' split at hstep) <;> cases hstep
    exact .acquiresleep ‹_› ‹_›
  case iderw p =>
    split at hstep
    · split_ifs at hstep with hvalid
      obtain ⟨-, command, hfirst, hlater, rfl⟩ := iderw_eq_next hstep
      exact .iderw ‹_› hvalid hfirst hlater
    · cases hstep
  case ideintr =>
    rcases ideintr_eq_next hstep with ⟨hqueue, rfl⟩ | ⟨i, rest, command, hqueue, hcommand, rfl⟩
    · exact .ideintrIdle hqueue
    · exact .ideintr hqueue hcommand
  case breadReturn p =>
    (repeat' split at hstep) <;> cases hstep
    · exact .breadReturn (.inl ‹_›) ‹_›
    · rename_i hflags
      exact .breadReturn (.inr ⟨‹_›, hflags.2⟩) hflags.1
  case store p i data =>
    split_ifs at hstep with hp
    cases hstep
    exact .store hp.1 hp.2
  case bwrite p i =>
    split_ifs at hstep with hp hlock
    obtain ⟨-, command, hfirst, hlater, rfl⟩ := iderw_eq_next hstep
    refine .bwrite hp (by simpa using hlock) (fun hnil ↦ ?_) hlater
    simpa [setBuf, setPc] using hfirst hnil
  case bwriteReturn p =>
    (repeat' split at hstep) <;> cases hstep
    rename_i hflags
    exact .bwriteReturn ‹_› hflags.1 hflags.2
  case logWrite p i =>
    split_ifs at hstep with hp
    cases hstep
    exact .logWrite hp.1 hp.2
  case brelse p i =>
    split_ifs at hstep with hp hlock
    cases hstep
    exact .brelse hp (by simpa using hlock)
  case brelseReturn p =>
    (repeat' split at hstep) <;> cases hstep
    · exact .brelseReturn ‹_› (.inr rfl)
    · exact .brelseReturn ‹_› (.inl rfl)

end Next

/-! ### Invariants -/

/-- What a process adds to the reference count of a buffer besides the sleep lock. -/
def Pc.uses (i : Fin nBuf) : Pc → ℕ
  | .waiting _ _ j => if j = i then 1 else 0
  | .releasing j => if j = i then 1 else 0
  | _ => 0

/-- The buffer that a process inside a function of the cache is concerned with. -/
def Pc.subject : Pc → Option (Fin nBuf)
  | .running => none
  | .waiting _ _ i | .locked _ _ i | .reading _ _ i | .writing i | .releasing i => some i

/-- The block that a process in `bread` asked for and the buffer that `bget` found for it. -/
def Pc.request : Pc → Option ((UInt32 × UInt32) × Fin nBuf)
  | .waiting dev blockno i | .locked dev blockno i | .reading dev blockno i =>
    some ((dev, blockno), i)
  | _ => none

/-- The buffer whose sleep lock a process holds inside a function of the cache. -/
def Pc.owned : Pc → Option (Fin nBuf)
  | .locked _ _ i | .reading _ _ i | .writing i => some i
  | _ => none

/-- The buffer that a process in `bread` holds but has not read yet. -/
def Pc.unread : Pc → Option (Fin nBuf)
  | .locked _ _ i | .reading _ _ i => some i
  | _ => none

/-- The buffer that a process waits for in `iderw`. -/
def Pc.inIderw : Pc → Option (Fin nBuf)
  | .reading _ _ i | .writing i => some i
  | _ => none

attribute [simp] Pc.subject Pc.uses Pc.owned Pc.request Pc.unread Pc.inIderw

/-- What the sleep lock of buffer `i` promises between process `p` at `pc` and the buffer `b`. -/
structure Fits (p : P) (pc : Pc) (i : Fin nBuf) (b : Buf P) : Prop where
  /-- A process that works on a buffer holds its lock. -/
  owner : pc.owned = some i → b.lock = some p
  /-- The buffer that `bget` found carries the block it was asked for. -/
  key_eq : ∀ k, pc.request = some (k, i) → b.key = k
  /-- A process that is past `bread` has the buffer valid. -/
  valid_of_lock : b.lock = some p → pc.unread ≠ some i → b.valid = true
  valid_of_releasing : pc = .releasing i → b.valid = true

/-- What the sleep locks protect. -/
structure Locked (s : State P) : Prop where
  fits : ∀ p i, Fits p (s.pc p) i (s.buf i)
  valid_of_dirty : ∀ i, (s.buf i).dirty = true → (s.buf i).valid = true

/-- The reference count: the holder of the sleep lock, the processes on their way to it and those on
their way out of `brelse`. -/
def Counted [Fintype P] (s : State P) : Prop :=
  ∀ i, (s.buf i).refcnt = (s.buf i).lock.isSome.toNat + ∑ p, (s.pc p).uses i

/-- The queue of the driver. -/
structure Queued (s : State P) : Prop where
  nodup : s.idequeue.Nodup
  /-- The owner of a queued buffer waits in `iderw` for it, to have it read or written. -/
  waits : ∀ i ∈ s.idequeue, ∃ p, (s.buf i).lock = some p ∧ (s.pc p).inIderw = some i ∧
    (s.buf i).valid = (s.buf i).dirty
  /-- The drives work on the first request. -/
  command_eq : ∀ i ∈ s.idequeue.head?, s.command = some (s.buf i).command

/-- A buffer that was ever found or taken by `bget`. -/
def Buf.InUse (b : Buf P) : Prop := b.valid = true ∨ 0 < b.refcnt

/-- The list of buffers. -/
structure Listed (s : State P) : Prop where
  nodup : s.order.Nodup
  mem : ∀ i, i ∈ s.order
  /-- `bget` finds every buffer that is in use. -/
  found : ∀ i, (s.buf i).InUse → s.lookup (s.buf i).dev (s.buf i).blockno = some i
  /-- Only buffers never used share a block number, that of the zeroed `bcache`. -/
  unique : ∀ i j, (s.buf i).key = (s.buf j).key → (s.buf i).dev ≠ 0 → i = j

/-! ### The sleep locks -/

theorem Pc.subject_of_unread (h : pc.unread = some i) : pc.subject = some i := by
  cases pc <;> simp_all

theorem Pc.uses_eq_zero (h : pc.subject ≠ some i) : pc.uses i = 0 := by
  cases pc <;> simp_all

section LockedStep

variable [DecidableEq P]

variable {s t : State P} {p : P} {i : Fin nBuf} {pc : Pc} {b : Buf P}

omit [DecidableEq P] in
/-- A process that is in no function of the cache with a buffer has it valid if it holds it. -/
theorem Fits.of_subject (hpc : pc.subject ≠ some i) (hvalid : b.lock = some p → b.valid = true) :
    Fits p pc i b := by
  constructor <;> cases pc <;> simp_all

omit [DecidableEq P] in
/-- A buffer changes, and every process fits it and all others. -/
theorem Locked.of_fits (h : Locked s) (hbufs : t.buf = update s.buf i b)
    (hself : ∀ q, Fits q (t.pc q) i b) (hothers : ∀ q j, j ≠ i → Fits q (t.pc q) j (s.buf j))
    (hdirty : b.dirty = true → b.valid = true) : Locked t := by
  refine ⟨fun q j ↦ ?_, fun j ↦ ?_⟩
  all_goals
    rw [hbufs, update_apply]
    split_ifs with hj
  · rw [hj]
    exact hself q
  · exact hothers q j hj
  · exact hdirty
  · exact h.valid_of_dirty j

/-- A process moves on with a buffer, which may change. Assumes: the process is in a function of the
cache with no other buffer, before and after, and every process fits the buffer afterwards. -/
theorem Locked.moves (h : Locked s) (hpcs : t.pc = update s.pc p pc)
    (hbufs : t.buf = update s.buf i b) (hbefore : ∀ j ∈ (s.pc p).subject, j = i)
    (hafter : ∀ j ∈ pc.subject, j = i) (hself : Fits p pc i b)
    (hothers : ∀ q, q ≠ p → Fits q (s.pc q) i (s.buf i) → Fits q (s.pc q) i b)
    (hdirty : b.dirty = true → b.valid = true) : Locked t := by
  have hother : ∀ j, j ≠ i → Fits p pc j (s.buf j) := by
    intro j hj
    refine .of_subject (fun hs ↦ hj (hafter j hs)) fun hlock ↦ ?_
    exact (h.fits p j).valid_of_lock hlock fun hs ↦ hj (hbefore j (Pc.subject_of_unread hs))
  refine h.of_fits hbufs (fun q ↦ ?_) (fun q j hj ↦ ?_) hdirty
  all_goals
    rw [hpcs, update_apply]
    split_ifs with hq
  · rwa [hq]
  · exact hothers q hq (h.fits q i)
  · rw [hq]
    exact hother j hj
  · exact h.fits q j

omit [DecidableEq P] in
/-- A buffer changes under every process that fits it. -/
theorem Locked.setBuf (h : Locked s) (hpcs : t.pc = s.pc) (hbufs : t.buf = update s.buf i b)
    (hall : ∀ q, Fits q (s.pc q) i (s.buf i) → Fits q (s.pc q) i b)
    (hdirty : b.dirty = true → b.valid = true) : Locked t :=
  h.of_fits hbufs (fun q ↦ by rw [hpcs]; exact hall q (h.fits q i))
    (fun q j _ ↦ by rw [hpcs]; exact h.fits q j) hdirty

/-- A process moves on with a buffer that stays as it is. -/
theorem Locked.setPc (h : Locked s) (hpcs : t.pc = update s.pc p pc)
    (hbufs : t.buf = s.buf) (hbefore : ∀ j ∈ (s.pc p).subject, j = i)
    (hafter : ∀ j ∈ pc.subject, j = i) (hself : Fits p pc i (s.buf i)) : Locked t :=
  h.moves hpcs (hbufs.trans (update_eq_self i s.buf).symm) hbefore hafter hself
    (fun _ _ hq ↦ hq) (h.valid_of_dirty i)

variable [Fintype P]

omit [DecidableEq P] in
theorem Counted.unlocked (h : Counted s) (hrefcnt : (s.buf i).refcnt = 0) :
    (s.buf i).lock = none ∧ ∀ p, (s.pc p).uses i = 0 := by
  have hcount := h i
  rw [hrefcnt, eq_comm, Nat.add_eq_zero_iff, Finset.sum_eq_zero_iff] at hcount
  refine ⟨?_, fun p ↦ hcount.2 p (Finset.mem_univ p)⟩
  cases hlock : (s.buf i).lock with
  | none => rfl
  | some p => simp [hlock] at hcount

omit [DecidableEq P] in
/-- No process is inside a function of the cache with a buffer whose reference count is zero. -/
theorem Locked.untouched (h : Locked s) (hcount : Counted s) (hrefcnt : (s.buf i).refcnt = 0)
    (p : P) : (s.pc p).subject ≠ some i := by
  obtain ⟨hlock, huses⟩ := hcount.unlocked hrefcnt
  have howned := (h.fits p i).owner
  have hp := huses p
  cases hpc : s.pc p <;> simp_all

theorem Locked.step {e : Event P} (h : Locked s) (hcount : Counted s)
    (hnext : Next s e t) : Locked t := by
  cases hnext with
  | @bgetHit p dev blockno i hp hfound =>
    refine h.moves rfl rfl (by simp [hp]) (by simp) ?_ (fun _ _ hq ↦ { hq with })
      (h.valid_of_dirty i)
    refine ⟨by simp, ?_, fun hlock _ ↦ ?_, by simp⟩
    · rintro k hk
      cases hk
      exact key_of_lookup hfound
    · exact (h.fits p i).valid_of_lock hlock (by simp [hp])
  | @bgetRecycle p dev blockno i hp hnone hrefcnt =>
    have hunlocked := (hcount.unlocked hrefcnt).1
    refine h.moves rfl rfl (by simp [hp]) (by simp) ?_ (fun q _ _ ↦ ?_) (by simp)
    · exact ⟨by simp, by simp [Buf.key], by simp [hunlocked], by simp⟩
    · exact .of_subject (h.untouched hcount hrefcnt q) (by simp [hunlocked])
  | @acquiresleep p dev blockno i hp hlock =>
    have hself := h.fits p i
    rw [hp] at hself
    refine h.moves rfl rfl (by simp [hp]) (by simp) ?_ (fun q hq hfits ↦ ?_) (h.valid_of_dirty i)
    · exact ⟨fun _ ↦ rfl, hself.key_eq, by simp, by simp⟩
    · refine ⟨fun ho ↦ ?_, hfits.key_eq, fun heq ↦ ?_, hfits.valid_of_releasing⟩
      · have := hfits.owner ho
        simp [hlock] at this
      · cases heq
        exact absurd rfl hq
  | @iderw p dev blockno i command hp =>
    have hself := h.fits p i
    rw [hp] at hself
    exact h.setPc rfl rfl (by simp [hp]) (by simp)
      ⟨hself.owner, hself.key_eq, hself.valid_of_lock, by simp⟩
  | ideintrIdle => exact h
  | ideintr =>
    exact h.setBuf rfl rfl (fun q hq ↦ ⟨hq.owner, hq.key_eq, fun _ _ ↦ rfl, fun _ ↦ rfl⟩)
      (by simp [served])
  | @breadReturn p dev blockno i hp hvalid =>
    have hsubject : (s.pc p).subject = some i := by
      rcases hp with hp | ⟨hp, -⟩ <;> rw [hp] <;> rfl
    exact h.setPc rfl rfl (by rw [hsubject]; simp) (by simp)
      (.of_subject (by simp) fun _ ↦ hvalid)
  | @store p i =>
    exact h.setBuf rfl rfl (fun _ hq ↦ { hq with }) (h.valid_of_dirty i)
  | @bwrite p i command hp hlock =>
    have hvalid := (h.fits p i).valid_of_lock hlock (by simp [hp])
    exact h.moves rfl rfl (by simp [hp]) (by simp)
      ⟨fun _ ↦ hlock, by simp, fun _ _ ↦ hvalid, by simp⟩
      (fun _ _ hq ↦ { hq with }) fun _ ↦ hvalid
  | @bwriteReturn p i hp hvalid =>
    exact h.setPc rfl rfl (by simp [hp]) (by simp)
      (.of_subject (by simp) fun _ ↦ hvalid)
  | @logWrite p i hp hlock =>
    have hvalid := (h.fits p i).valid_of_lock hlock (by simp [hp])
    exact h.setBuf rfl rfl (fun _ hq ↦ { hq with }) fun _ ↦ hvalid
  | @brelse p i hp hlock =>
    have hvalid := (h.fits p i).valid_of_lock hlock (by simp [hp])
    refine h.moves rfl rfl (by simp [hp]) (by simp) ?_ (fun q hq hfits ↦ ?_) (h.valid_of_dirty i)
    · exact ⟨by simp, by simp, fun _ _ ↦ hvalid, fun _ ↦ hvalid⟩
    · refine ⟨fun ho ↦ ?_, hfits.key_eq, by simp, hfits.valid_of_releasing⟩
      rw [hfits.owner ho] at hlock
      exact absurd (some.inj hlock) hq
  | @brelseReturn p i order hp =>
    have hvalid := (h.fits p i).valid_of_releasing hp
    exact h.moves rfl rfl (by simp [hp]) (by simp) (.of_subject (by simp) fun _ ↦ hvalid)
      (fun _ _ hq ↦ { hq with }) (h.valid_of_dirty i)

/-! ### The reference counts -/

/-- A process moves on with a buffer: the reference count and the holder of the lock follow it. -/
theorem Counted.moves (h : Counted s) (hbefore : ∀ j ∈ (s.pc p).subject, j = i)
    (hafter : ∀ j ∈ pc.subject, j = i)
    (hself : b.refcnt + (s.pc p).uses i + (s.buf i).lock.isSome.toNat =
      (s.buf i).refcnt + pc.uses i + b.lock.isSome.toNat) :
    Counted ((s.setBuf i b).setPc p pc) := by
  intro j
  have hsum := sum_update_add univ (Finset.mem_univ p) s.pc pc fun _ q ↦ q.uses j
  have hold := h j
  change (update s.buf i b j).refcnt = (update s.buf i b j).lock.isSome.toNat +
    ∑ q, (update s.pc p pc q).uses j
  rcases eq_or_ne j i with rfl | hj
  · rw [update_self]
    omega
  · rw [update_of_ne hj]
    rw [Pc.uses_eq_zero fun hs ↦ hj (hbefore j hs), Pc.uses_eq_zero fun hs ↦ hj (hafter j hs)]
      at hsum
    omega

omit [DecidableEq P] in
theorem Counted.setBuf (h : Counted s) (hrefcnt : b.refcnt = (s.buf i).refcnt)
    (hlock : b.lock = (s.buf i).lock) : Counted (s.setBuf i b) := by
  intro j
  simp only [State.setBuf, update_apply]
  split_ifs with hj
  · rw [hrefcnt, hlock, hj]
    exact h i
  · exact h j

theorem Counted.setPc (h : Counted s) (hbefore : ∀ j ∈ (s.pc p).subject, j = i)
    (hafter : ∀ j ∈ pc.subject, j = i) (hself : (s.pc p).uses i = pc.uses i) :
    Counted (s.setPc p pc) := by
  have hmoves := h.moves hbefore hafter (by rw [hself])
  rwa [show s.setBuf i (s.buf i) = s by simp [State.setBuf]] at hmoves

theorem Counted.step {t : State P} {e : Event P} (h : Counted s) (hnext : Next s e t) :
    Counted t := by
  cases hnext with
  | @bgetHit p dev blockno i hp | @bwrite p i command hp =>
    refine h.moves (by simp [hp]) (by simp) ?_
    simp [hp]
  | @bgetRecycle p dev blockno i hp hnone hrefcnt =>
    refine h.moves (by simp [hp]) (by simp) ?_
    simp [hp, hrefcnt]
  | @acquiresleep p dev blockno i hp hlock | @brelse p i hp hlock =>
    refine h.moves (by simp [hp]) (by simp) ?_
    simp [hp, hlock]
  | @iderw p dev blockno i command hp | @bwriteReturn p i hp =>
    exact h.setPc (i := i) (by simp [hp]) (by simp) (by simp [hp])
  | ideintrIdle => exact h
  | ideintr | store | logWrite => exact h.setBuf rfl rfl
  | @breadReturn p dev blockno i hp =>
    have hsubject : (s.pc p).subject = some i ∧ (s.pc p).uses i = 0 := by
      rcases hp with hp | ⟨hp, -⟩ <;> rw [hp] <;> exact ⟨rfl, rfl⟩
    exact h.setPc (by rw [hsubject.1]; simp) (by simp) hsubject.2
  | @brelseReturn p i order hp =>
    have hpos : 0 < (s.buf i).refcnt := by
      rw [Nat.pos_iff_ne_zero]
      intro hzero
      have huses := (h.unlocked hzero).2 p
      simp [hp] at huses
    refine h.moves (by simp [hp]) (by simp) ?_
    simp [hp]
    omega

end LockedStep

/-! ### The queue of the driver -/

section QueuedStep

variable [DecidableEq P]

variable {s t : State P}

section

variable (h : Queued s)

include h

omit [DecidableEq P] in
/-- A buffer whose holder is not waiting in `iderw` for it is not queued. -/
theorem Queued.notMem {i : Fin nBuf}
    (hidle : ∀ p, (s.buf i).lock = some p → (s.pc p).inIderw ≠ some i) : i ∉ s.idequeue := by
  intro hi
  obtain ⟨p, hlock, hin, -⟩ := h.waits i hi
  exact hidle p hlock hin

omit [DecidableEq P] in
theorem Queued.notMem_of_clean {i : Fin nBuf} (hvalid : (s.buf i).valid = true)
    (hclean : (s.buf i).dirty = false) : i ∉ s.idequeue := by
  intro hi
  obtain ⟨-, -, -, hflags⟩ := h.waits i hi
  simp [hvalid, hclean] at hflags

omit [DecidableEq P] in
/-- What a step may change without concern for the queue. -/
theorem Queued.frame (hqueue : t.idequeue = s.idequeue) (hcommand : t.command = s.command)
    (hpc : ∀ p, ∀ i ∈ s.idequeue, (s.pc p).inIderw = some i → t.pc p = s.pc p)
    (hbuf : ∀ i ∈ s.idequeue, ∃ refcnt, t.buf i = { s.buf i with refcnt := refcnt }) :
    Queued t := by
  refine ⟨hqueue ▸ h.nodup, fun i hi ↦ ?_, fun i hi ↦ ?_⟩
  · rw [hqueue] at hi
    obtain ⟨p, hlock, hin, hflags⟩ := h.waits i hi
    obtain ⟨refcnt, hrefcnt⟩ := hbuf i hi
    rw [hrefcnt]
    exact ⟨p, hlock, by rw [hpc p i hi hin]; exact hin, hflags⟩
  · rw [hqueue] at hi
    obtain ⟨refcnt, hrefcnt⟩ := hbuf i (mem_of_mem_head? hi)
    rw [hcommand, h.command_eq i hi, hrefcnt]
    rfl

omit [DecidableEq P] in
/-- A request is put at the end of the queue. -/
theorem Queued.append {p : P} {i : Fin nBuf} (hi : i ∉ s.idequeue)
    (hqueue : t.idequeue = s.idequeue ++ [i])
    (hfirst : s.idequeue = [] → t.command = some (t.buf i).command)
    (hlater : s.idequeue ≠ [] → t.command = s.command) (hpc : ∀ q, q ≠ p → t.pc q = s.pc q)
    (hp : (s.pc p).inIderw = none) (hbuf : ∀ j, j ≠ i → t.buf j = s.buf j)
    (hlock : (t.buf i).lock = some p) (hin : (t.pc p).inIderw = some i)
    (hflags : (t.buf i).valid = (t.buf i).dirty) : Queued t := by
  refine ⟨?_, fun j hj ↦ ?_, fun j hj ↦ ?_⟩
  · rw [hqueue]
    simpa using h.nodup.concat hi
  · rw [hqueue, List.mem_append, List.mem_singleton] at hj
    rcases hj with hj | rfl
    · obtain ⟨q, hq, hinq, hfl⟩ := h.waits j hj
      have hqp : q ≠ p := by
        rintro rfl
        cases hp.symm.trans hinq
      rw [hbuf j (fun heq ↦ hi (heq ▸ hj))]
      exact ⟨q, hq, by rw [hpc q hqp]; exact hinq, hfl⟩
    · exact ⟨p, hlock, hin, hflags⟩
  · rw [hqueue] at hj
    by_cases hnil : s.idequeue = []
    · rw [hnil, nil_append, head?_cons, mem_some_iff] at hj
      subst hj
      exact hfirst hnil
    · rw [head?_append_of_ne_nil _ hnil] at hj
      rw [hlater hnil, h.command_eq j hj, hbuf j fun heq ↦ hi (heq ▸ mem_of_mem_head? hj)]

theorem Queued.step {e : Event P} (hlocked : Locked s)
    (hcount : ∀ i, (s.buf i).refcnt = 0 → (s.buf i).lock = none) (hnext : Next s e t) :
    Queued t := by
  -- Only the process that waits for a queued buffer and the buffer itself matter.
  have hpc : ∀ {p : P} (pc : Pc), (∀ j ∈ s.idequeue, (s.pc p).inIderw ≠ some j) →
      ∀ q, ∀ j ∈ s.idequeue, (s.pc q).inIderw = some j → update s.pc p pc q = s.pc q := by
    intro p pc hp q j hj hin
    refine update_of_ne ?_ _ _
    rintro rfl
    exact hp j hj hin
  have hbuf : ∀ {i : Fin nBuf} (b : Buf P), i ∉ s.idequeue →
      ∀ j ∈ s.idequeue, ∃ refcnt, update s.buf i b j = { s.buf j with refcnt := refcnt } := by
    intro i b hi j hj
    refine ⟨(s.buf j).refcnt, update_of_ne ?_ _ _⟩
    rintro rfl
    exact hi hj
  have hrefcnt : ∀ (i : Fin nBuf) (n : ℕ), ∀ j ∈ s.idequeue, ∃ refcnt,
      update s.buf i { s.buf i with refcnt := n } j = { s.buf j with refcnt := refcnt } := by
    intro i n j _
    rcases eq_or_ne j i with rfl | hj
    · exact ⟨n, update_self _ _ _⟩
    · exact ⟨(s.buf j).refcnt, update_of_ne hj _ _⟩
  have hheld : ∀ {p : P} {i : Fin nBuf}, (s.buf i).lock = some p → (s.pc p).inIderw ≠ some i →
      i ∉ s.idequeue := by
    intro p i hlock hin
    refine h.notMem fun q hq ↦ ?_
    rw [hlock] at hq
    exact some.inj hq ▸ hin
  have hfree : ∀ {i : Fin nBuf}, (s.buf i).lock = none → i ∉ s.idequeue := by
    intro i hlock
    exact h.notMem (by simp [hlock])
  cases hnext with
  | bgetHit hp | brelseReturn hp =>
    exact h.frame rfl rfl (hpc _ (by simp [hp])) (hrefcnt _ _)
  | bgetRecycle hp hnone hzero =>
    exact h.frame rfl rfl (hpc _ (by simp [hp])) (hbuf _ (hfree (hcount _ hzero)))
  | acquiresleep hp hlock =>
    exact h.frame rfl rfl (hpc _ (by simp [hp])) (hbuf _ (hfree hlock))
  | @iderw p dev blockno i command hp hvalid hfirst hlater =>
    have hlock := (hlocked.fits p i).owner (by rw [hp]; rfl)
    have hi := hheld hlock (by simp [hp])
    have hdirty : (s.buf i).dirty = false := by
      by_contra hne
      rw [hlocked.valid_of_dirty i (by simpa using hne)] at hvalid
      simp at hvalid
    refine h.append hi rfl hfirst (fun hne ↦ hlater hne fun hhead ↦ ?_)
      (fun q hq ↦ update_of_ne hq _ _) (by rw [hp]; rfl) (fun _ _ ↦ rfl) hlock
      (by simp [setPc]) (hvalid.trans hdirty.symm)
    exact hi (mem_of_mem_head? hhead)
  | ideintrIdle => exact h
  | @ideintr i rest command hqueue hcommand =>
    have hnodup := h.nodup
    rw [hqueue, nodup_cons] at hnodup
    refine ⟨hnodup.2, fun j hj ↦ ?_, hcommand⟩
    have hne : j ≠ i := fun heq ↦ hnodup.1 (heq ▸ hj)
    have hwaits := h.waits j (by rw [hqueue]; exact mem_cons_of_mem i hj)
    simpa [setBuf, hne] using hwaits
  | @breadReturn p dev blockno i hp hvalid =>
    refine h.frame rfl rfl (hpc _ fun j hj hin ↦ ?_) fun j _ ↦ ⟨_, rfl⟩
    rcases hp with hp | ⟨hp, hclean⟩ <;> rw [hp] at hin <;> cases hin
    exact h.notMem_of_clean hvalid hclean hj
  | store hp hlock | logWrite hp hlock =>
    exact h.frame rfl rfl (fun _ _ _ _ ↦ rfl) (hbuf _ (hheld hlock (by simp [hp])))
  | @bwrite p i command hp hlock hfirst hlater =>
    have hi := hheld hlock (by simp [hp])
    have hvalid := (hlocked.fits p i).valid_of_lock hlock (by simp [hp])
    refine h.append hi rfl (fun hnil ↦ ?_) (fun hne ↦ hlater hne fun hhead ↦ ?_)
      (fun q hq ↦ update_of_ne hq _ _) (by rw [hp]; rfl)
      (fun j hj ↦ update_of_ne hj _ _) (by simpa [setBuf, setPc] using hlock)
      (by simp [setPc]) (by simpa [setBuf, setPc] using hvalid)
    · simpa [setBuf, setPc] using hfirst hnil
    · exact hi (mem_of_mem_head? hhead)
  | @bwriteReturn p i hp hvalid hclean =>
    refine h.frame rfl rfl (hpc _ fun j hj hin ↦ ?_) fun j _ ↦ ⟨_, rfl⟩
    rw [hp] at hin
    cases hin
    exact h.notMem_of_clean hvalid hclean hj
  | brelse hp hlock =>
    exact h.frame rfl rfl (hpc _ (by simp [hp])) (hbuf _ (hheld hlock (by simp [hp])))

end

end QueuedStep

/-! ### The list of buffers -/

private theorem find?_eq_some_of_ne {α : Type*} {l : List α} {p q : α → Bool} {i j : α}
    (hfind : l.find? p = some j) (hsame : ∀ k, k ≠ i → q k = p k) (hi : q i = false)
    (hij : j ≠ i) : l.find? q = some j := by
  obtain ⟨hj, before, after, hl, hbefore⟩ := find?_eq_some_iff_append.mp hfind
  refine find?_eq_some_iff_append.mpr ⟨by rw [hsame j hij, hj], before, after, hl, fun a ha ↦ ?_⟩
  by_cases hai : a = i
  · rw [hai, hi]
    rfl
  · rw [hsame a hai]
    exact hbefore a ha

private theorem find?_erase_of_neg {α : Type*} [DecidableEq α] {p : α → Bool} {i : α}
    (hi : p i = false) (l : List α) : (l.erase i).find? p = l.find? p := by
  induction l with
  | nil => rfl
  | cons a l ih =>
    rcases eq_or_ne a i with rfl | ha
    · rw [erase_cons_head, find?_cons_of_neg (by simp [hi])]
    · rw [erase_cons_tail (by simpa using ha), find?_cons, find?_cons, ih]

theorem lookup_key (s : State P) (i : Fin nBuf) : s.lookup (s.buf i).dev (s.buf i).blockno =
    s.order.find? fun j ↦ (s.buf j).key = (s.buf i).key :=
  lookup_eq_find? s _ _

theorem lookup_eq_some_of_unique (hmem : i ∈ s.order)
    (honly : ∀ j, (s.buf j).key = (s.buf i).key → j = i) :
    s.lookup (s.buf i).dev (s.buf i).blockno = some i := by
  rw [lookup_key]
  cases hfind : s.order.find? fun j ↦ (s.buf j).key = (s.buf i).key with
  | none => simpa using find?_eq_none.mp hfind i hmem
  | some j => rw [honly j (by simpa using find?_some hfind)]

/-- What a step may change without concern for the list. -/
theorem Listed.frame (h : Listed s) (horder : t.order = s.order)
    (hkey : ∀ i, (t.buf i).key = (s.buf i).key)
    (huse : ∀ i, (t.buf i).InUse → s.lookup (s.buf i).dev (s.buf i).blockno = some i) :
    Listed t := by
  refine ⟨horder ▸ h.nodup, horder ▸ h.mem, fun i hi ↦ ?_, fun i j heq hne ↦ ?_⟩
  · simp only [lookup_key, horder, hkey]
    rw [← lookup_key]
    exact huse i hi
  · rw [hkey, hkey] at heq
    exact h.unique i j heq fun hzero ↦ hne ((congrArg Prod.fst (hkey i)).trans hzero)

/-- `bget` gives a buffer that is not in use to a block that no buffer carries. -/
theorem Listed.recycle (h : Listed s) {dev blockno : UInt32} (hnone : s.lookup dev blockno = none)
    (horder : t.order = s.order) (hself : (t.buf i).key = (dev, blockno))
    (hothers : ∀ j, j ≠ i → t.buf j = s.buf j) : Listed t := by
  have hfresh : ∀ j, (s.buf j).key ≠ (dev, blockno) := by
    intro j heq
    rw [lookup_eq_find?, find?_eq_none] at hnone
    simpa [heq] using hnone j (h.mem j)
  have honly : ∀ j, (t.buf j).key = (dev, blockno) → j = i := by
    intro j heq
    by_contra hj
    rw [hothers j hj] at heq
    exact hfresh j heq
  refine ⟨horder ▸ h.nodup, horder ▸ h.mem, fun j hj ↦ ?_, fun j k heq hne ↦ ?_⟩
  · rcases eq_or_ne j i with rfl | hji
    · exact lookup_eq_some_of_unique (horder ▸ h.mem j) fun k hk ↦ honly k (hk.trans hself)
    · rw [hothers j hji] at hj ⊢
      have hfind := h.found j hj
      rw [lookup_eq_find?] at hfind ⊢
      rw [horder]
      refine find?_eq_some_of_ne hfind (fun k hk ↦ by rw [hothers k hk]) ?_ hji
      rw [hself]
      exact decide_eq_false (hfresh j).symm
  · rcases eq_or_ne j i with rfl | hji
    · exact (honly k (heq ▸ hself)).symm
    · rcases eq_or_ne k i with rfl | hki
      · exact honly j (heq.trans hself)
      · rw [hothers j hji] at heq hne
        rw [hothers k hki] at heq
        exact h.unique j k heq hne

/-- `brelse` moves a buffer that is still valid to the front. -/
theorem Listed.moveToFront (h : Listed s) (hvalid : (s.buf i).valid = true)
    (horder : t.order = i :: s.order.erase i) (hkey : ∀ j, (t.buf j).key = (s.buf j).key)
    (huse : ∀ j, (t.buf j).InUse → (s.buf j).InUse) : Listed t := by
  refine ⟨?_, fun j ↦ ?_, fun j hj ↦ ?_, fun j k heq hne ↦ ?_⟩
  · rw [horder, nodup_cons]
    exact ⟨h.nodup.not_mem_erase, h.nodup.erase i⟩
  · rw [horder, List.mem_cons]
    by_cases hji : j = i
    · exact .inl hji
    · exact .inr ((mem_erase_of_ne hji).mpr (h.mem j))
  · have hfind := h.found j (huse j hj)
    simp only [lookup_key, horder, hkey] at hfind ⊢
    rcases eq_or_ne j i with rfl | hji
    · simp
    · -- Two buffers in use never carry the same block, so the one in front does not hide this one.
      have hi : (s.buf i).key ≠ (s.buf j).key := by
        intro heq
        have hfront := h.found i (.inl hvalid)
        rw [lookup_key, heq, hfind] at hfront
        exact hji (some.inj hfront)
      rw [find?_cons_of_neg (by simpa using hi), find?_erase_of_neg (by simpa using hi)]
      exact hfind
  · rw [hkey, hkey] at heq
    exact h.unique j k heq fun hzero ↦ hne ((congrArg Prod.fst (hkey j)).trans hzero)

section ListedStep

variable [DecidableEq P]

theorem Listed.step {s t : State P} {e : Event P} (h : Listed s) (hlocked : Locked s)
    (hqueued : Queued s) (hcount : ∀ i, (s.buf i).refcnt = 0 → (s.buf i).lock = none)
    (hnext : Next s e t) : Listed t := by
  have hkeys : ∀ {i : Fin nBuf} {b : Buf P}, b.key = (s.buf i).key →
      ∀ j, (update s.buf i b j).key = (s.buf j).key := by
    intro i b hkey j
    by_cases hj : j = i
    · rw [hj, update_self, hkey]
    · rw [update_of_ne hj]
  have huses : ∀ {i : Fin nBuf} {b : Buf P}, (b.InUse → (s.buf i).InUse) →
      ∀ j, (update s.buf i b j).InUse → (s.buf j).InUse := by
    intro i b huse j
    by_cases hj : j = i
    · rwa [hj, update_self]
    · rw [update_of_ne hj]
      exact id
  have hframe : ∀ {t : State P} {i : Fin nBuf} {b : Buf P}, t.buf = update s.buf i b →
      t.order = s.order → b.key = (s.buf i).key → (b.InUse → (s.buf i).InUse) → Listed t :=
    fun hbuf horder hkey huse ↦ h.frame horder (fun j ↦ by rw [hbuf, hkeys hkey])
      fun j hj ↦ h.found j (huses huse j (hbuf ▸ hj))
  cases hnext with
  | @bgetHit p dev blockno i hp hfound =>
    obtain ⟨hdev, hblockno⟩ := Prod.mk.inj (key_of_lookup hfound)
    refine h.frame rfl (hkeys rfl) fun j hj ↦ ?_
    by_cases hji : j = i
    · rw [hji, hdev, hblockno, hfound]
    · refine h.found j ?_
      simpa [setPc, setBuf, hji] using hj
  | @bgetRecycle p dev blockno i hp hnone =>
    exact h.recycle hnone rfl (by simp [setPc, setBuf, Buf.key])
      fun j hj ↦ update_of_ne hj _ _
  | acquiresleep hp hlock | store hp hlock | bwrite hp hlock hfirst hlater
  | logWrite | brelse => exact hframe rfl rfl rfl id
  | iderw | breadReturn | bwriteReturn =>
    exact h.frame rfl (fun _ ↦ rfl) h.found
  | ideintrIdle => exact h
  | @ideintr i rest command hqueue =>
    refine hframe rfl rfl rfl fun _ ↦ .inr ?_
    obtain ⟨p, hlock, -⟩ := hqueued.waits i (by simp [hqueue])
    rw [Nat.pos_iff_ne_zero]
    intro hzero
    simp [hcount i hzero] at hlock
  | @brelseReturn p i order hp horder =>
    have hvalid := (hlocked.fits p i).valid_of_releasing hp
    rcases horder with rfl | rfl
    · exact hframe rfl rfl rfl fun _ ↦ .inl hvalid
    · exact h.moveToFront hvalid rfl (hkeys rfl) (huses fun _ ↦ .inl hvalid)

end ListedStep

/-! ### Runs -/

section Runs

variable [DecidableEq P] [Fintype P]

/-- What the locks of the cache and of the driver protect. -/
structure Inv (s : State P) : Prop where
  locked : Locked s
  counted : Counted s
  queued : Queued s
  listed : Listed s

omit [DecidableEq P] in
theorem inv_initial (disk : UInt32 → UInt32 → Block) (havedisk1 : Bool) :
    Inv (initial disk havedisk1 : State P) where
  locked := ⟨fun p i ↦ ⟨by simp [initial], by simp [initial],
    by simp [initial, Buf.zero], by simp [initial]⟩, by simp [initial, Buf.zero]⟩
  counted := by simp [Counted, initial, Buf.zero]
  queued := ⟨by simp [initial], by simp [initial], by simp [initial]⟩
  listed := ⟨by simpa [initial] using nodup_finRange nBuf, by simp [initial],
    by simp [initial, Buf.zero, Buf.InUse], by simp [initial, Buf.zero]⟩

theorem Inv.step {s t : State P} {e : Event P} (h : Inv s) (hnext : Next s e t) : Inv t where
  locked := h.locked.step h.counted hnext
  counted := h.counted.step hnext
  queued := h.queued.step h.locked (fun _ hzero ↦ (h.counted.unlocked hzero).1) hnext
  listed := h.listed.step h.locked h.queued (fun _ hzero ↦ (h.counted.unlocked hzero).1) hnext

theorem inv_of_run {disk : UInt32 → UInt32 → Block} {havedisk1 : Bool} {es : List (Event P)}
    {s : State P} (hrun : run step (initial disk havedisk1) es = some s) : Inv s :=
  run_invariant (inv_initial disk havedisk1)
    (fun _ _ _ hinv hstep ↦ hinv.step (next_of_step hstep)) hrun

end Runs

end EasyKernels.Xv6.BufferCache
