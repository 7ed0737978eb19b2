import EasyKernels.Lib.Runs

/-!
# The buffer cache of Linux

`get_hash_table`, `getblk`, `bread` and `brelse` of `fs/buffer.c`, by any number of tasks. A task
is switched out only where it sleeps, so a call is a sequence of steps with a `Pos` at each place
where it may sleep: `wait_on_buffer`, `sleep_on(&buffer_wait)`, and the two places of
`make_request`, where it waits for the lock of the buffer and for a free request. `sync_dev`, which
`getblk` calls to get rid of a dirty buffer, is part of the machine; a request is completed by the
event `done`.

The buffers are linked in hash queues and in the free list, which are lists here. A device number is
an `int` in the calls and an `unsigned short` in a buffer, and `b_count` is an `unsigned char`; the
model has the same widths.

A task that holds a buffer may write to it and release it. What it holds is a list of `Held`: the
buffer, and the block for which it was asked.

Scope. A task that waits may be switched out even if it has nothing to wait for, and one that
sleeps on `buffer_wait` may wake up at any time. `sync_dev` calls `sync_inodes` between its two
passes, which calls `bread` and `brelse`; in the model these are calls of another task. `driver`
says which devices have a request function.
-/

set_option autoImplicit false

namespace EasyKernels.Linux.Buffers

open Lib.Runs Function

/-! ### Buffers and their queues -/

/-- `struct buffer_head`; `queued` tells whether a request for it is in the queue of its device. -/
structure Buf where
  dev : UInt16
  block : UInt32
  uptodate : Bool
  dirt : Bool
  count : UInt8
  lock : Bool
  queued : Bool

/-- `b_dev == dev && b_blocknr == block`. -/
def Buf.carries (b : Buf) (dev block : UInt32) : Prop := b.dev.toUInt32 = dev ∧ b.block = block

instance (b : Buf) (dev block : UInt32) : Decidable (b.carries dev block) :=
  inferInstanceAs (Decidable (_ ∧ _))

/-- `BADNESS(bh)`. -/
def Buf.badness (b : Buf) : ℕ := 2 * b.dirt.toNat + b.lock.toNat

/-- `_hashfn(dev, block)`, with `NR_HASH` 307. -/
def hashfn (dev block : UInt32) : UInt32 := (dev ^^^ block) % 307

/-- The calls that ask for a block. -/
inductive Kind
  | getHashTable
  | getblk
  | bread
  deriving DecidableEq

structure Request where
  kind : Kind
  dev : UInt32
  block : UInt32
  deriving DecidableEq

variable {n : ℕ} {τ : Type}

/-- A buffer that a task holds, and the block for which it asked. -/
structure Held (n : ℕ) where
  buf : Fin n
  dev : UInt32
  block : UInt32
  deriving DecidableEq

/-- Where a task is. -/
inductive Pos (n : ℕ)
  | user
  /-- At the start of `get_hash_table`, in it or in `getblk`. -/
  | find (r : Request)
  /-- In the `wait_on_buffer` of `get_hash_table`, which has counted the task. -/
  | hashWait (r : Request) (b : Fin n)
  /-- In `sleep_on(&buffer_wait)`. -/
  | asleep (r : Request)
  /-- In a `wait_on_buffer` of `getblk`. -/
  | freeWait (r : Request) (b : Fin n)
  /-- In `sync_dev(dev)`, before it looks at buffer `i`, in the first or second pass. -/
  | sync (r : Request) (b : Fin n) (dev : UInt16) (second : Bool) (i : ℕ)
  /-- There, in `wait_on_buffer` of buffer `i`. -/
  | syncWait (r : Request) (b : Fin n) (dev : UInt16) (second : Bool) (i : Fin n)
  /-- There, in `make_request` with buffer `i` locked. -/
  | syncRequest (r : Request) (b : Fin n) (dev : UInt16) (second : Bool) (i : Fin n)
  /-- In the `make_request` of `bread`, before and after it has locked the buffer. -/
  | readLock (r : Request) (b : Fin n)
  | readRequest (r : Request) (b : Fin n)
  /-- In the `wait_on_buffer` of `bread`. -/
  | readWait (r : Request) (b : Fin n)
  /-- In the `wait_on_buffer` of `brelse`. -/
  | release (x : Held n)

/-- The buffers, `hash_table`, `free_list`, and for each task where it is and what it holds. -/
structure State (n : ℕ) (τ : Type) where
  buf : Fin n → Buf
  hash : UInt32 → List (Fin n)
  free : List (Fin n)
  pos : τ → Pos n
  held : τ → List (Held n)

namespace State

variable (s : State n τ) (b : Fin n)

def setBuf (v : Buf) : State n τ := { s with buf := update s.buf b v }

def setPos [DecidableEq τ] (p : τ) (pos : Pos n) : State n τ :=
  { s with pos := update s.pos p pos }

/-- `find_buffer(dev, block)`. -/
def findBuffer (dev block : UInt32) : Option (Fin n) :=
  (s.hash (hashfn dev block)).find? fun b ↦ (s.buf b).carries dev block

/-- The loop of `getblk` over the free list, with the best buffer so far. -/
def pick : Option (Fin n) → List (Fin n) → Option (Fin n)
  | bh, [] => bh
  | bh, tmp :: rest =>
    if (s.buf tmp).count ≠ 0 then pick bh rest
    else
      match bh with
      | none => if (s.buf tmp).badness = 0 then some tmp else pick (some tmp) rest
      | some b =>
        if (s.buf tmp).badness < (s.buf b).badness then
          if (s.buf tmp).badness = 0 then some tmp else pick (some tmp) rest
        else pick (some b) rest

/-- `remove_from_queues(bh)`. -/
def removeFromQueues : State n τ :=
  { s with
    hash := update s.hash (hashfn (s.buf b).dev.toUInt32 (s.buf b).block)
      ((s.hash (hashfn (s.buf b).dev.toUInt32 (s.buf b).block)).erase b)
    free := s.free.erase b }

/-- `insert_into_queues(bh)`. -/
def insertIntoQueues : State n τ :=
  { s with
    hash :=
      if (s.buf b).dev = 0 then s.hash
      else update s.hash (hashfn (s.buf b).dev.toUInt32 (s.buf b).block)
        (b :: s.hash (hashfn (s.buf b).dev.toUInt32 (s.buf b).block))
    free := s.free ++ [b] }

/-- The end of `getblk`: the buffer is given to the block. -/
def assign (dev block : UInt32) : State n τ :=
  let s := s.setBuf b { s.buf b with count := 1, dirt := false, uptodate := false }
  let s := s.removeFromQueues b
  let s := s.setBuf b { s.buf b with dev := dev.toUInt16, block := block }
  s.insertIntoQueues b

section Steps

variable [DecidableEq τ] (driver : UInt16 → Bool) (p : τ) (r : Request)

/-- A call returns a buffer. -/
def give (b : Fin n) : State n τ :=
  { s.setPos p .user with held := update s.held p (⟨b, r.dev, r.block⟩ :: s.held p) }

/-- `get_hash_table` or `getblk` returns a buffer; `bread` goes on. -/
def arrive (b : Fin n) : State n τ :=
  match r.kind with
  | .getHashTable | .getblk => s.give p r b
  | .bread =>
    if (s.buf b).uptodate then s.give p r b
    else if driver (s.buf b).dev then s.setPos p (.readLock r b)
    else s.setPos p (.readWait r b)

/-- The search of `get_hash_table`, and of `getblk` for a buffer to use. -/
def find : State n τ :=
  match s.findBuffer r.dev r.block with
  | some b =>
    (s.setBuf b { s.buf b with count := (s.buf b).count + 1 }).setPos p (.hashWait r b)
  | none =>
    if r.kind = .getHashTable then s.setPos p .user
    else
      match s.pick none s.free with
      | none => s.setPos p (.asleep r)
      | some b => s.setPos p (.freeWait r b)

/-- `get_hash_table` after `wait_on_buffer`. -/
def found (b : Fin n) : State n τ :=
  if (s.buf b).carries r.dev r.block then s.arrive driver p r b
  else (s.setBuf b { s.buf b with count := (s.buf b).count - 1 }).setPos p (.find r)

/-- `getblk` after a `wait_on_buffer`. -/
def reuse (b : Fin n) : State n τ :=
  if (s.buf b).count ≠ 0 then s.setPos p (.find r)
  else if (s.buf b).dirt then s.setPos p (.sync r b (s.buf b).dev false 0)
  else if (s.findBuffer r.dev r.block).isSome then s.setPos p (.find r)
  else (s.assign b r.dev r.block).arrive driver p r b

/-- The loop of `sync_dev`, which comes back to the `wait_on_buffer` of `getblk`. -/
def syncNext (b : Fin n) (dev : UInt16) (second : Bool) (i : ℕ) : State n τ :=
  if hi : i < n then
    if (s.buf ⟨i, hi⟩).dev ≠ dev then s.setPos p (.sync r b dev second (i + 1))
    else s.setPos p (.syncWait r b dev second ⟨i, hi⟩)
  else if second then s.setPos p (.freeWait r b)
  else s.setPos p (.sync r b dev true 0)

/-- `sync_dev` after `wait_on_buffer`. -/
def syncWrite (b : Fin n) (dev : UInt16) (second : Bool) (i : Fin n) : State n τ :=
  if (s.buf i).dev = dev ∧ (s.buf i).dirt = true ∧ driver dev = true then
    (s.setBuf i { s.buf i with lock := true }).setPos p (.syncRequest r b dev second i)
  else s.setPos p (.sync r b dev second (i + 1))

/-- `add_request`. -/
def addRequest (b : Fin n) : State n τ :=
  s.setBuf b { s.buf b with dirt := false, queued := true }

end Steps

end State

/-! ### The machine -/

inductive Event (n : ℕ) (τ : Type)
  | call (p : τ) (r : Request)
  | brelse (p : τ) (x : Held n)
  /-- A task changes the data of a buffer that it holds. -/
  | write (p : τ) (x : Held n)
  | step (p : τ)
  /-- A request for a buffer is done. -/
  | done (b : Fin n) (ok : Bool)

inductive Panic
  /-- `panic("Trying to free free buffer")`. -/
  | freeBuffer
  deriving DecidableEq

section Machine

variable [DecidableEq τ] (driver : UInt16 → Bool)

/-- A task goes on from the place where it is. -/
def stepTask (s : State n τ) (p : τ) : Outcome Panic (State n τ) :=
  match s.pos p with
  | .user => .blocked
  | .find r => .next (s.find p r)
  | .asleep r => .next (s.setPos p (.find r))
  | .hashWait r b => if (s.buf b).lock then .blocked else .next (s.found driver p r b)
  | .freeWait r b => if (s.buf b).lock then .blocked else .next (s.reuse driver p r b)
  | .sync r b dev second i => .next (s.syncNext p r b dev second i)
  | .syncWait r b dev second i =>
    if (s.buf i).lock then .blocked else .next (s.syncWrite driver p r b dev second i)
  | .syncRequest r b dev second i =>
    .next ((s.addRequest i).setPos p (.sync r b dev second (i + 1)))
  | .readLock r b =>
    if (s.buf b).lock then .blocked
    else if (s.buf b).uptodate then .next (s.setPos p (.readWait r b))
    else .next ((s.setBuf b { s.buf b with lock := true }).setPos p (.readRequest r b))
  | .readRequest r b => .next ((s.addRequest b).setPos p (.readWait r b))
  | .readWait r b =>
    if (s.buf b).lock then .blocked
    else if (s.buf b).uptodate then .next (s.give p r b)
    else .next (s.setPos p (.release ⟨b, r.dev, r.block⟩))
  | .release x =>
    if (s.buf x.buf).lock then .blocked
    else if (s.buf x.buf).count = 0 then .fault .freeBuffer
    else .next ((s.setBuf x.buf
      { s.buf x.buf with count := (s.buf x.buf).count - 1 }).setPos p .user)

def step (s : State n τ) : Event n τ → Outcome Panic (State n τ)
  | .call p r =>
    match s.pos p with
    | .user => .next (s.setPos p (.find r))
    | _ => .blocked
  | .brelse p x =>
    match s.pos p with
    | .user =>
      if x ∈ s.held p then
        .next { s.setPos p (.release x) with
          held := update s.held p ((s.held p).erase x) }
      else .blocked
    | _ => .blocked
  | .write p x =>
    match s.pos p with
    | .user =>
      if x ∈ s.held p then
        .next (s.setBuf x.buf { s.buf x.buf with uptodate := true, dirt := true })
      else .blocked
    | _ => .blocked
  | .step p => stepTask driver s p
  | .done b ok =>
    if (s.buf b).queued then
      .next (s.setBuf b { s.buf b with uptodate := ok, lock := false, queued := false })
    else .blocked

end Machine

/-- The state that `buffer_init` makes. -/
def initial (n : ℕ) (τ : Type) : State n τ where
  buf := fun _ ↦ ⟨0, 0, false, false, 0, false, false⟩
  hash := fun _ ↦ []
  free := List.finRange n
  pos := fun _ ↦ .user
  held := fun _ ↦ []

end EasyKernels.Linux.Buffers
