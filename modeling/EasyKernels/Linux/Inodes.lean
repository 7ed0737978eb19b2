import Mathlib.Algebra.GroupWithZero.Nat
import EasyKernels.Lib.Runs

/-!
# The inode table of Linux

`iget`, `iput`, `get_empty_inode`, `read_inode` and `write_inode` of `fs/inode.c`, `new_inode` and
`free_inode` of `fs/bitmap.c`, the lookup of a name in `fs/namei.c` and `sys_unlink`, by any number
of tasks. A task is switched out only where it sleeps, so a call is a sequence of steps with a
`Pos` at each place where it may sleep: in `wait_on_inode`, in `read_inode` and `write_inode` while
the inode is locked, in `truncate`, and in the `brelse` of the directory block after the number of
an entry has been read.

Files are named by entries of directories. The disk has an inode for every number, and a bitmap of
the numbers in use on each device.

Scope. A task may be switched out in these places even if it has nothing to wait for. Of a `d_inode`
there are `i_nlinks` and whether it is a block device, for which `iput` calls `sync_dev`. `truncate`
changes nothing here. There are no pipes, and nothing is mounted on a directory. A device number is
never 0, as it is the `i_dev` of a directory. `touch` stands for everything that makes an inode
dirty.
-/

set_option autoImplicit false

namespace EasyKernels.Linux.Inodes

open Lib.Runs Function

/-! ### The table -/

/-- `NR_INODE`. -/
def nrInode : ℕ := 64

theorem nrInode_ne_zero : nrInode ≠ 0 := Nat.succ_ne_zero 63

instance : NeZero nrInode := ⟨nrInode_ne_zero⟩

abbrev Slot := Fin nrInode

/-- The device and the number of an inode. -/
structure Ino where
  dev : ℕ
  num : ℕ
  dev_ne : dev ≠ 0
  deriving DecidableEq

/-- `struct d_inode`. -/
structure Dinode where
  nlinks : UInt8
  blk : Bool

/-- `struct m_inode`. -/
structure Inode extends Dinode where
  dev : ℕ
  num : ℕ
  count : UInt16
  lock : Bool
  dirt : Bool

/-- What `memset` leaves. -/
def Inode.zero : Inode := ⟨⟨0, false⟩, 0, 0, 0, false, false⟩

/-- `i_dev == dev && i_num == nr`. -/
def Inode.carries (v : Inode) (ino : Ino) : Prop := v.dev = ino.dev ∧ v.num = ino.num

instance (v : Inode) (ino : Ino) : Decidable (v.carries ino) := inferInstanceAs (Decidable (_ ∧ _))

/-- What an empty slot is wanted for. -/
inductive Want
  | iget (ino : Ino)
  | newInode (dev : ℕ)

/-- What follows `write_inode` or the reading of an inode. -/
inductive After
  | empty (w : Want)
  | iput
  | sync
  | iget

/-- Where a task is. -/
inductive Pos
  | user
  /-- Before `get_empty_inode`; for a lookup in the `brelse` of the directory block. -/
  | empty (w : Want)
  /-- In the `wait_on_inode` of `get_empty_inode`. -/
  | emptyWait (k : Slot) (w : Want)
  /-- In `iget` with its empty slot `k`, before the search of the table. -/
  | search (k : Slot) (ino : Ino)
  /-- There, in the `wait_on_inode` of slot `j`. -/
  | found (k j : Slot) (ino : Ino)
  /-- There, in the `iput` of the empty slot. -/
  | spare (k j : Slot)
  /-- In `new_inode`, with its empty slot. -/
  | alloc (k : Slot) (dev : ℕ)
  /-- In `read_inode`, before the inode has been copied. -/
  | read (k : Slot)
  /-- In `write_inode`, before the inode has been copied. -/
  | write (k : Slot) (after : After)
  /-- In `read_inode` or `write_inode`, in the `brelse` before `unlock_inode`. -/
  | unlock (k : Slot) (after : After)
  /-- In the `wait_on_inode` at the start of `iput`. -/
  | iput (k : Slot)
  /-- In the `sync_dev` of `iput`. -/
  | iputSync (k : Slot)
  /-- In a later `wait_on_inode` of `iput`, before `repeat`. -/
  | iputAgain (k : Slot)
  | truncate (k : Slot)
  /-- In `sys_unlink`, in the `brelse` after the entry has been cleared. -/
  | unlink (k : Slot)

/-- `inode_table`, `last_inode` of `get_empty_inode`, the bitmaps and the inodes on the disks, the
directory entries, and for each task where it is and what it holds. -/
structure State (ν τ : Type) where
  inode : Slot → Inode
  last : Slot
  imap : ℕ → ℕ → Bool
  disk : ℕ → ℕ → Dinode
  entry : ν → Option Ino
  pos : τ → Pos
  held : τ → List Slot

inductive Event (ν τ : Type)
  /-- The number of an entry is read and given to `iget`. -/
  | lookup (p : τ) (name : ν)
  | newInode (p : τ) (dev : ℕ)
  | iput (p : τ) (k : Slot)
  /-- An entry is made for an inode that the task holds. -/
  | enter (p : τ) (name : ν) (k : Slot)
  /-- `sys_unlink`, after its `iget`. -/
  | unlink (p : τ) (name : ν) (k : Slot)
  | touch (p : τ) (k : Slot)
  /-- `sync_inodes` comes to a slot. -/
  | sync (p : τ) (k : Slot)
  | step (p : τ)

inductive Panic
  | noFreeInodes
  | unknownDevice
  /-- `panic("iput: trying to free free inode")`. -/
  | freeFreeInode
  /-- `panic("free_inode")`, for a count above 1. -/
  | freeInode
  | freeWithLinks
  deriving DecidableEq

variable {ν τ : Type}

namespace State

variable (s : State ν τ)

def setInode (k : Slot) (v : Inode) : State ν τ := { s with inode := update s.inode k v }

/-- The loop of `get_empty_inode` over the table, with the best slot so far. It stops at a slot that
is clean and not locked. -/
def pick : Option Slot → List Slot → Option (Slot × Bool)
  | best, [] => best.map fun k ↦ (k, false)
  | best, k :: rest =>
    if (s.inode k).count ≠ 0 then pick best rest
    else if (s.inode k).dirt = false ∧ (s.inode k).lock = false then some (k, true)
    else pick (some k) rest

/-- The slots in the order of `++last_inode`. -/
def order : List Slot := (List.finRange nrInode).rotate (s.last.val + 1)

/-- The first slot that carries an inode. -/
def findSlot (ino : Ino) : Option Slot :=
  (List.finRange nrInode).find? fun k ↦ (s.inode k).carries ino

/-- The first clear bit of the bitmap, for the numbers up to `s_ninodes`. -/
def freeNum (dev ninodes : ℕ) : Option ℕ := (List.range (ninodes + 1)).find? fun j ↦ !s.imap dev j

variable [DecidableEq τ] (p : τ)

def setPos (pos : Pos) : State ν τ := { s with pos := update s.pos p pos }

/-- A call returns an inode. -/
def give (k : Slot) : State ν τ :=
  { s.setPos p .user with held := update s.held p (k :: s.held p) }

/-- `i_count--`, and the call returns. -/
def drop (k : Slot) : State ν τ :=
  (s.setInode k { s.inode k with count := (s.inode k).count - 1 }).setPos p .user

/-- `write_inode`, up to the reading of the block. -/
def writeInode (k : Slot) (after : After) : State ν τ :=
  (s.setInode k { s.inode k with lock := true }).setPos p (.write k after)

/-- The end of `get_empty_inode`. -/
def takeEmpty (k : Slot) (w : Want) : State ν τ :=
  (s.setInode k { Inode.zero with count := 1 }).setPos p
    (match w with
    | .iget ino => .search k ino
    | .newInode dev => .alloc k dev)

/-- `get_empty_inode` after `wait_on_inode`. -/
def emptyNext (k : Slot) (w : Want) : State ν τ :=
  if (s.inode k).dirt = true then
    if (s.inode k).dev = 0 then s.setPos p (.emptyWait k w) else s.writeInode p k (.empty w)
  else if (s.inode k).count ≠ 0 then s.setPos p (.empty w)
  else s.takeEmpty p k w

/-- The search of `iget`. The empty slot is used for an inode that is not in the table, and
`read_inode` locks it. -/
def searchNext (k : Slot) (ino : Ino) : State ν τ :=
  match s.findSlot ino with
  | some j => s.setPos p (.found k j ino)
  | none =>
    (s.setInode k { s.inode k with dev := ino.dev, num := ino.num, lock := true }).setPos p
    (.read k)

/-- `iget` after it has waited for a slot that carries the inode. -/
def foundNext (k j : Slot) (ino : Ino) : State ν τ :=
  if (s.inode j).carries ino then
    (s.setInode j { s.inode j with count := (s.inode j).count + 1 }).setPos p (.spare k j)
  else s.setPos p (.search k ino)

/-- The inode is read from the disk. -/
def load (k : Slot) : State ν τ :=
  (s.setInode k { s.inode k with
    toDinode := s.disk (s.inode k).dev (s.inode k).num }).setPos p (.unlock k .iget)

/-- The inode is written to the disk. -/
def store (k : Slot) (after : After) : State ν τ :=
  { (s.setInode k { s.inode k with dirt := false }).setPos p (.unlock k after) with
    disk := update s.disk (s.inode k).dev
      (update (s.disk (s.inode k).dev) (s.inode k).num (s.inode k).toDinode) }

/-- `unlock_inode`, and the return to the caller. -/
def unlockNext (k : Slot) (after : After) : State ν τ :=
  let s := s.setInode k { s.inode k with lock := false }
  match after with
  | .empty w => s.setPos p (.emptyWait k w)
  | .iput => s.setPos p (.iputAgain k)
  | .sync => s.setPos p .user
  | .iget => s.give p k

/-- `iput` after the first `wait_on_inode`. -/
def iputNext (k : Slot) : Outcome Panic (State ν τ) :=
  if (s.inode k).count = 0 then .fault .freeFreeInode
  else if (s.inode k).dev = 0 then .next (s.drop p k)
  else if (s.inode k).blk then .next (s.setPos p (.iputSync k))
  else .next (s.setPos p (.iputAgain k))

/-- `iput` from `repeat` on. -/
def iputRepeat (k : Slot) : State ν τ :=
  if (s.inode k).count > 1 then s.drop p k
  else if (s.inode k).nlinks = 0 then s.setPos p (.truncate k)
  else if (s.inode k).dirt then s.writeInode p k .iput
  else s.drop p k

/-- `free_inode`, after `truncate`. -/
def freeInode (k : Slot) : Outcome Panic (State ν τ) :=
  if (s.inode k).dev = 0 then .next ((s.setInode k .zero).setPos p .user)
  else if (s.inode k).count > 1 then .fault .freeInode
  else if (s.inode k).nlinks ≠ 0 then .fault .freeWithLinks
  else
    .next { (s.setInode k .zero).setPos p .user with
      imap := update s.imap (s.inode k).dev
        (update (s.imap (s.inode k).dev) (s.inode k).num false) }

/-- `new_inode` after `get_empty_inode`. Without a free number it puts the slot back. -/
def allocNext (ninodes : ℕ → Option ℕ) (p : τ) (k : Slot) (dev : ℕ) :
    Outcome Panic (State ν τ) :=
  match if dev = 0 then none else ninodes dev with
  | none => .fault .unknownDevice
  | some n =>
    match s.freeNum dev n with
    | none => .next (s.setPos p (.iput k))
    | some num =>
      .next { (s.setInode k { s.inode k with
          count := 1, nlinks := 1, dev := dev, dirt := true, num := num }).give p k with
        imap := update s.imap dev (update (s.imap dev) num true) }

/-- `sys_unlink` up to `de->inode = 0`. -/
def clearEntry (k : Slot) : State ν τ :=
  (s.setInode k { s.inode k with
    nlinks := if (s.inode k).nlinks = 0 then 1 else (s.inode k).nlinks }).setPos p (.unlink k)

/-- `sys_unlink` after that. -/
def unlinkNext (k : Slot) : State ν τ :=
  (s.setInode k { s.inode k with
    nlinks := (s.inode k).nlinks - 1, dirt := true }).setPos p (.iput k)

end State

/-! ### The machine -/

section Machine

variable [DecidableEq ν] [DecidableEq τ] (ninodes : ℕ → Option ℕ)

/-- A task goes on from the place where it is. -/
def stepTask (s : State ν τ) (p : τ) : Outcome Panic (State ν τ) :=
  match s.pos p with
  | .user => .blocked
  | .empty w =>
    match s.pick none s.order with
    | none => .fault .noFreeInodes
    | some (k, stopped) =>
      .next { s.setPos p (.emptyWait k w) with last := if stopped then k else s.last }
  | .emptyWait k w => if (s.inode k).lock then .blocked else .next (s.emptyNext p k w)
  | .search k ino => .next (s.searchNext p k ino)
  | .found k j ino => if (s.inode j).lock then .blocked else .next (s.foundNext p k j ino)
  | .spare k j =>
    .next ((s.setInode k { s.inode k with count := (s.inode k).count - 1 }).give p j)
  | .alloc k dev => s.allocNext ninodes p k dev
  | .read k => .next (s.load p k)
  | .write k after => .next (s.store p k after)
  | .unlock k after => .next (s.unlockNext p k after)
  | .iput k => if (s.inode k).lock then .blocked else s.iputNext p k
  | .iputSync k => .next (s.setPos p (.iputAgain k))
  | .iputAgain k => if (s.inode k).lock then .blocked else .next (s.iputRepeat p k)
  | .truncate k => s.freeInode p k
  | .unlink k => .next (s.unlinkNext p k)

def step (s : State ν τ) : Event ν τ → Outcome Panic (State ν τ)
  | .lookup p name =>
    match s.pos p, s.entry name with
    | .user, some ino => .next (s.setPos p (.empty (.iget ino)))
    | _, _ => .blocked
  | .newInode p dev =>
    match s.pos p with
    | .user => .next (s.setPos p (.empty (.newInode dev)))
    | _ => .blocked
  | .iput p k =>
    match s.pos p with
    | .user =>
      if k ∈ s.held p then
        .next { s.setPos p (.iput k) with held := update s.held p ((s.held p).erase k) }
      else .blocked
    | _ => .blocked
  | .enter p name k =>
    match s.pos p, s.entry name with
    | .user, none =>
      if hk : k ∈ s.held p ∧ (s.inode k).dev ≠ 0 then
        .next { s with
          entry := update s.entry name (some ⟨(s.inode k).dev, (s.inode k).num, hk.2⟩) }
      else .blocked
    | _, _ => .blocked
  | .unlink p name k =>
    match s.pos p with
    | .user =>
      if k ∈ s.held p then
        .next { s.clearEntry p k with
          entry := update s.entry name none
          held := update s.held p ((s.held p).erase k) }
      else .blocked
    | _ => .blocked
  | .touch p k =>
    match s.pos p with
    | .user =>
      if k ∈ s.held p then .next (s.setInode k { s.inode k with dirt := true }) else .blocked
    | _ => .blocked
  | .sync p k =>
    match s.pos p with
    | .user =>
      if (s.inode k).lock = false ∧ (s.inode k).dirt = true ∧ (s.inode k).dev ≠ 0 then
        .next (s.writeInode p k .sync)
      else .blocked
    | _ => .blocked
  | .step p => stepTask ninodes s p

end Machine

/-- An empty table over the given disks and directories. -/
def initial (imap : ℕ → ℕ → Bool) (disk : ℕ → ℕ → Dinode) (entry : ν → Option Ino) :
    State ν τ where
  inode := fun _ ↦ .zero
  last := ⟨0, Nat.succ_pos 63⟩
  imap := imap
  disk := disk
  entry := entry
  pos := fun _ ↦ .user
  held := fun _ ↦ []

end EasyKernels.Linux.Inodes
