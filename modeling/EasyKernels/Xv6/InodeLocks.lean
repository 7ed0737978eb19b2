import Mathlib.Data.Fintype.Basic
import EasyKernels.Lib.Runs
import EasyKernels.Xv6.DiskFormat

/-!
# The inode cache of xv6 under its locks

`iget`, `idup`, `ilock`, `iunlock`, `iput` and `ialloc` of `fs.c`, and the changes of `nlink` that
end with `iupdate`, by any number of processes. What is done under `icache.lock`, and each access
to the inode on the disk, is one step. Between two such steps, while it waits for an `ip->lock` or
holds it, a process is at a `Pos`.

A reference that `iget`, `idup` or `ialloc` has returned may be used by any process: a child has the
current directory of its parent, and processes share open files. `handed` counts the references that
have been returned and not given to `iput`. A process in `iput` has one more, until `ref--`.

Scope. The disk is what `bread` returns, so there is no buffer cache and no log. Of `itrunc` there
is what it does to the inode and not the freeing of the blocks. A process calls `idup`, `ilock` and
`iput` only with a reference that somebody has, it does not give the last one to `iput` while
another process uses it, and it changes an inode only while it holds the lock.
-/

set_option autoImplicit false

namespace EasyKernels.Xv6.InodeLocks

open Lib.Runs Function

theorem nInode_ne_zero : nInode ≠ 0 := Nat.succ_ne_zero 49

instance : NeZero nInode := ⟨nInode_ne_zero⟩

/-- The entries of `icache.inode`. -/
abbrev Slot := Fin nInode

/-- `struct inode`, where `holder` is the process that has `lock`. -/
structure Inode (τ : Type) extends Dinode where
  dev : ℕ
  inum : ℕ
  ref : Int32
  valid : Bool
  holder : Option τ

/-- `ip->ref > 0 && ip->dev == dev && ip->inum == inum`. -/
def Inode.carries {τ : Type} (v : Inode τ) (dev inum : ℕ) : Prop :=
  0 < v.ref ∧ v.dev = dev ∧ v.inum = inum

instance {τ : Type} (v : Inode τ) (dev inum : ℕ) : Decidable (v.carries dev inum) :=
  inferInstanceAs (Decidable (_ ∧ _ ∧ _))

/-- Where a process is. -/
inductive Pos
  | user
  /-- In the loop of `ialloc`. -/
  | ialloc (dev : ℕ) (type : UInt16) (inum : ℕ)
  /-- In `ialloc`, before `iget`. -/
  | iallocGet (dev inum : ℕ)
  /-- In the `acquiresleep` of `ilock`. -/
  | ilock (k : Slot)
  /-- After it. -/
  | ilockHeld (k : Slot)
  /-- Before `iupdate`, after a change. -/
  | iupdate (k : Slot)
  /-- In the `acquiresleep` of `iput`. -/
  | iput (k : Slot)
  /-- After it, before `ip->ref` is read. -/
  | iputHeld (k : Slot)
  | itrunc (k : Slot)
  /-- In `iput`, after `itrunc`. -/
  | iputFree (k : Slot)
  /-- In `iput`, before `ip->valid = 0`. -/
  | iputInvalid (k : Slot)
  | iputRelease (k : Slot)
  /-- In `iput`, before `ip->ref--`. -/
  | iputDrop (k : Slot)

/-- The reference that a process in `iput` still has. -/
def Pos.puts : Pos → List Slot
  | .iput k | .iputHeld k | .itrunc k | .iputFree k | .iputInvalid k | .iputRelease k
  | .iputDrop k => [k]
  | .user | .ialloc _ _ _ | .iallocGet _ _ | .ilock _ | .ilockHeld _ | .iupdate _ => []

/-- The process has decided to free the inode, and has not done it. -/
def Pos.frees : Pos → Option Slot
  | .itrunc k | .iputFree k => some k
  | _ => none

/-- The process waits for the lock of the inode. -/
def Pos.awaits : Pos → Option Slot
  | .ilock k => some k
  | _ => none

/-- `icache`, the inodes on the disks, where the processes are, and the references that have been
returned and not given to `iput`. -/
structure State (τ : Type) where
  inode : Slot → Inode τ
  disk : ℕ → ℕ → Dinode
  pos : τ → Pos
  handed : Slot → ℕ

inductive Event (τ : Type)
  | iget (p : τ) (dev inum : ℕ)
  | idup (p : τ) (k : Slot)
  | ilock (p : τ) (k : Slot)
  | iunlock (p : τ) (k : Slot)
  | iput (p : τ) (k : Slot)
  | ialloc (p : τ) (dev : ℕ) (type : UInt16)
  /-- The caller changes these fields and calls `iupdate`. -/
  | update (p : τ) (k : Slot) (major minor nlink : UInt16)
  | step (p : τ)

inductive Panic
  | ialloc
  | iget
  | ilock
  | ilockNoType
  | iunlock
  deriving DecidableEq

variable {τ : Type}

namespace State

variable (s : State τ)

def setInode (k : Slot) (v : Inode τ) : State τ := { s with inode := update s.inode k v }

def setDisk (dev inum : ℕ) (d : Dinode) : State τ :=
  { s with disk := update s.disk dev (update (s.disk dev) inum d) }

variable [DecidableEq τ] (p : τ)

def setPos (pos : Pos) : State τ := { s with pos := update s.pos p pos }

/-- A reference is returned. -/
def hand (k : Slot) : State τ :=
  { s.setPos p .user with handed := update s.handed k (s.handed k + 1) }

def iget (dev inum : ℕ) : Outcome Panic (State τ) :=
  match (List.finRange nInode).find? fun k ↦ (s.inode k).carries dev inum with
  | some k => .next ((s.setInode k { s.inode k with ref := (s.inode k).ref + 1 }).hand p k)
  | none =>
    match (List.finRange nInode).find? fun k ↦ (s.inode k).ref = 0 with
    | some k =>
      .next ((s.setInode k { s.inode k with
        dev := dev, inum := inum, ref := 1, valid := false }).hand p k)
    | none => .fault .iget

/-- One number in the loop of `ialloc`. -/
def iallocNext (ninodes : ℕ) (p : τ) (dev : ℕ) (type : UInt16) (inum : ℕ) :
    Outcome Panic (State τ) :=
  if inum < ninodes then
    if (s.disk dev inum).type = 0 then
      .next ((s.setDisk dev inum { Dinode.zero with type := type }).setPos p (.iallocGet dev inum))
    else .next (s.setPos p (.ialloc dev type (inum + 1)))
  else .fault .ialloc

/-- `acquiresleep(&ip->lock)`. -/
def acquire (k : Slot) (pos : Pos) : Outcome Panic (State τ) :=
  match (s.inode k).holder with
  | some _ => .blocked
  | none => .next ((s.setInode k { s.inode k with holder := some p }).setPos p pos)

/-- `releasesleep(&ip->lock)`. -/
def release (k : Slot) (pos : Pos) : State τ :=
  (s.setInode k { s.inode k with holder := none }).setPos p pos

/-- `ilock` after `acquiresleep`. -/
def ilockNext (k : Slot) : Outcome Panic (State τ) :=
  if (s.inode k).valid then .next (s.setPos p .user)
  else if (s.disk (s.inode k).dev (s.inode k).inum).type = 0 then .fault .ilockNoType
  else
    .next ((s.setInode k { s.inode k with
      toDinode := s.disk (s.inode k).dev (s.inode k).inum, valid := true }).setPos p .user)

/-- `iupdate`. -/
def iupdate (k : Slot) (pos : Pos) : State τ :=
  (s.setDisk (s.inode k).dev (s.inode k).inum (s.inode k).toDinode).setPos p pos

/-- `itrunc`, with its `iupdate`. -/
def itrunc (k : Slot) : State τ :=
  (s.setInode k { s.inode k with size := 0, addrs := fun _ ↦ 0 }).iupdate p k (.iputFree k)

/-- `ip->type = 0; iupdate(ip)`. -/
def free (k : Slot) : State τ :=
  (s.setInode k { s.inode k with type := 0 }).iupdate p k (.iputInvalid k)

/-- The tests of `iput`. -/
def iputNext (k : Slot) : State τ :=
  if (s.inode k).valid ∧ (s.inode k).nlink = 0 ∧ (s.inode k).ref = 1 then s.setPos p (.itrunc k)
  else s.setPos p (.iputRelease k)

/-- A process goes on from the place where it is. -/
def stepProc (ninodes : ℕ) (p : τ) : Outcome Panic (State τ) :=
  match s.pos p with
  | .user => .blocked
  | .ialloc dev type inum => s.iallocNext ninodes p dev type inum
  | .iallocGet dev inum => s.iget p dev inum
  | .ilock k => s.acquire p k (.ilockHeld k)
  | .ilockHeld k => s.ilockNext p k
  | .iupdate k => .next (s.iupdate p k .user)
  | .iput k => s.acquire p k (.iputHeld k)
  | .iputHeld k => .next (s.iputNext p k)
  | .itrunc k => .next (s.itrunc p k)
  | .iputFree k => .next (s.free p k)
  | .iputInvalid k =>
    .next ((s.setInode k { s.inode k with valid := false }).setPos p (.iputRelease k))
  | .iputRelease k => .next (s.release p k (.iputDrop k))
  | .iputDrop k =>
    .next ((s.setInode k { s.inode k with ref := (s.inode k).ref - 1 }).setPos p .user)

/-- A process is in `ilock`, or holds a lock that it has not taken in `iput`. -/
def uses (k : Slot) : Prop :=
  (s.pos p).awaits = some k ∨ (s.inode k).holder = some p ∧ k ∉ (s.pos p).puts

instance (k : Slot) : Decidable (s.uses p k) := inferInstanceAs (Decidable (_ ∨ _ ∧ _))

/-- A process may give a reference to `iput`. -/
def spare [Fintype τ] (k : Slot) : Prop :=
  s.handed k ≠ 0 ∧ (s.handed k = 1 → ∀ q, q ≠ p → ¬ s.uses q k)

instance [Fintype τ] (k : Slot) : Decidable (s.spare p k) :=
  inferInstanceAs (Decidable (_ ∧ _))

/-- A call by a process that is not in the middle of one. -/
def call [Fintype τ] : Event τ → Outcome Panic (State τ)
  | .iget p dev inum => s.iget p dev inum
  | .idup p k =>
    if s.handed k = 0 then .blocked
    else .next ((s.setInode k { s.inode k with ref := (s.inode k).ref + 1 }).hand p k)
  | .ilock p k =>
    if s.handed k = 0 then .blocked
    else if (s.inode k).ref < 1 then .fault .ilock
    else .next (s.setPos p (.ilock k))
  | .iunlock p k =>
    if (s.inode k).holder ≠ some p ∨ (s.inode k).ref < 1 then .fault .iunlock
    else .next (s.release p k .user)
  | .iput p k =>
    if s.spare p k then
      .next { s.setPos p (.iput k) with handed := update s.handed k (s.handed k - 1) }
    else .blocked
  | .ialloc p dev type => .next (s.setPos p (.ialloc dev type 1))
  | .update p k major minor nlink =>
    if (s.inode k).holder = some p then
      .next ((s.setInode k { s.inode k with
        major := major, minor := minor, nlink := nlink }).setPos p (.iupdate k))
    else .blocked
  | .step _ => .blocked

end State

/-- The process that takes a step. -/
def Event.proc : Event τ → τ
  | .iget p _ _ | .idup p _ | .ilock p _ | .iunlock p _ | .iput p _ | .ialloc p _ _
  | .update p _ _ _ _ | .step p => p

def step [Fintype τ] [DecidableEq τ] (ninodes : ℕ) (s : State τ) (e : Event τ) :
    Outcome Panic (State τ) :=
  match e, s.pos e.proc with
  | .step p, _ => s.stepProc ninodes p
  | e, .user => s.call e
  | _, _ => .blocked

/-- An empty cache over the given disks. -/
def initial (disk : ℕ → ℕ → Dinode) : State τ where
  inode := fun _ ↦ ⟨Dinode.zero, 0, 0, 0, false, none⟩
  disk := disk
  pos := fun _ ↦ .user
  handed := fun _ ↦ 0

end EasyKernels.Xv6.InodeLocks
