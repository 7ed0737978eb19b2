import EasyKernels.Lib.Calls
import EasyKernels.Lib.LinkTree
import EasyKernels.Xv6.DiskFormat

/-!
# Directories and the system calls on them

The directory layer of `fs.c` and the calls of `sysfile.c` that make and remove names. An inode is a
record with a directory's contents as the list of its entries, so that `dirlookup` and `dirlink` are
scans of that list and the entry at offset `off` is the one at index `off / sizeof(de)`. The inodes
are the ones on the disk; the in-core copies hold the same, because every change is followed by
`iupdate` and `InodeCache` shows that a valid entry of the cache is the inode on the disk. Of the
cache, `ref` and `valid` are left, by inode number.

A call returns the new state or stops with a panic. `run step` runs calls one after another, by any
process that is alive.

Scope. Only directories have contents here; a regular file has the number of its blocks, which
`itrunc` returns to the free blocks. Block numbers are not modelled: `BlockMap` and `InodeCache` say
that a free block is found exactly when there is one. The arguments of a call have been fetched.
-/

set_option autoImplicit false

namespace EasyKernels.Xv6.Directories

open Lib.Runs Lib.LinkTree Function

/-! ### Constants -/

/-- `DIRSIZ`: the length of the name in a directory entry. -/
def dirSiz : ℕ := 14

/-- The number of directory entries in a block. -/
def direntsPerBlock : ℕ := bSize / 16

/-- `ROOTINO`. -/
def rootIno : ℕ := 1

/-- `NINODES` of `mkfs.c`. -/
def nInodes : ℕ := 200

/-- `nmeta` of `mkfs.c`: boot and super block, log, inode blocks and free map. -/
def nMeta : ℕ := 2 + logSize + (nInodes / ipb + 1) + (1000 / bpb + 1)

/-- `nblocks` of `mkfs.c`. -/
def nBlocks : ℕ := 1000 - nMeta

/-- `O_CREATE`. -/
def oCreate : UInt32 := 0x200

/-! ### The state -/

/-- An inode; `entries` are the contents of a directory, `blocks` the number of blocks it holds. -/
structure Inode where
  type : UInt16
  major : UInt16
  minor : UInt16
  nlink : ℤ
  entries : List Dirent
  blocks : ℕ

/-- The inode that `memset` leaves. -/
def Inode.zero : Inode where
  type := 0
  major := 0
  minor := 0
  nlink := 0
  entries := []
  blocks := 0

/-- `struct file`; `ip` is there when the type is `FD_INODE`. -/
structure File where
  ref : ℕ
  ip : Option ℕ

/-- What a process has of the file system. -/
structure Proc where
  live : Bool
  cwd : ℕ
  ofile : Fin nOFile → Option (Fin nFile)

/-- The panics that the calls can reach. -/
inductive Panic
  | igetNoInodes
  | ilock
  | noType
  | noInodes
  | outOfBlocks
  | dirlookupNotDir
  | dirlink
  | unlinkNlink
  | createDots
  | createDirlink
  | fileclose
  | initExiting
  deriving DecidableEq, Repr

variable {P : Type*}

structure State (P : Type*) where
  inode : ℕ → Inode
  free : ℕ
  ref : ℕ → ℕ
  valid : ℕ → Bool
  file : Fin nFile → File
  proc : P → Proc

variable (s : State P)

def State.setInode (i : ℕ) (ip : Inode) : State P :=
  { s with inode := update s.inode i ip }

def State.setRef (i n : ℕ) : State P := { s with ref := update s.ref i n }

def State.setFile (f : Fin nFile) (file : File) : State P :=
  { s with file := update s.file f file }

/-- A value stored in a `short`. -/
def short (x : ℤ) : ℤ := x.bmod (2 ^ 16)

/-! ### The inode cache -/

/-- The number of entries of the inode cache that are in use. -/
def State.cached : ℕ := (List.range nInodes).countP fun i ↦ 0 < s.ref i

def iget (i : ℕ) : Except Panic (State P) :=
  if 0 < s.ref i then .ok (s.setRef i (s.ref i + 1))
  else if nInode ≤ s.cached then .error .igetNoInodes
  else .ok { s.setRef i 1 with valid := update s.valid i false }

def idup (i : ℕ) : State P := s.setRef i (s.ref i + 1)

def ilock (i : ℕ) : Except Panic (State P) :=
  if s.ref i < 1 then .error .ilock
  else if s.valid i then .ok s
  else if (s.inode i).type = 0 then .error .noType
  else .ok { s with valid := update s.valid i true }

/-- `itrunc`, and the inode marked free. -/
def ifree (i : ℕ) : State P :=
  { s.setInode i { s.inode i with type := 0, entries := [], blocks := 0 } with
    free := s.free + (s.inode i).blocks
    valid := update s.valid i false }

def iput (i : ℕ) : State P :=
  let s := if s.valid i ∧ (s.inode i).nlink = 0 ∧ s.ref i = 1 then ifree s i else s
  s.setRef i (s.ref i - 1)

def ialloc (type : UInt16) : Except Panic (ℕ × State P) :=
  match (List.range' 1 (nInodes - 1)).find? fun i ↦ (s.inode i).type = 0 with
  | some i => do
    let s ← iget (s.setInode i { Inode.zero with type := type }) i
    pure (i, s)
  | none => .error .noInodes

/-! ### Directories -/

/-- `dirlookup`: the inode number, with a reference, and the index of the entry. -/
def dirlookup (dp : ℕ) (name : Name) : Except Panic (Option (ℕ × ℕ) × State P) :=
  if (s.inode dp).type ≠ tDir then .error .dirlookupNotDir
  else
    match findName (s.inode dp).entries name with
    | some k => do
      let i := ((s.inode dp).entries.getD k Dirent.zero).inum
      let s ← iget s i
      pure (some (i, k), s)
    | none => pure (none, s)

/-- The number of blocks of a directory with `n` entries, with the indirect block. -/
def blocksFor (n : ℕ) : ℕ :=
  let data := (n + direntsPerBlock - 1) / direntsPerBlock
  if nDirect < data then data + 1 else data

/-- `writei` of one entry in place of the one at index `k`, or after the last. -/
def writeEntry (dp k : ℕ) (de : Dirent) : Except Panic (State P) :=
  let ip := s.inode dp
  let n := ip.entries.length
  let need := blocksFor (n + 1) - ip.blocks
  if k < n then .ok (s.setInode dp { ip with entries := ip.entries.set k de })
  else if maxFile * direntsPerBlock < n + 1 then .error .dirlink
  else if s.free < need then .error .outOfBlocks
  else
    .ok { s.setInode dp { ip with entries := ip.entries ++ [de], blocks := ip.blocks + need } with
      free := s.free - need }

/-- `dirlink`: whether the entry was made. -/
def dirlink (dp : ℕ) (name : Name) (inum : ℕ) : Except Panic (Bool × State P) := do
  let (found, s) ← dirlookup s dp name
  match found with
  | some (i, _) => pure (false, iput s i)
  | none =>
    let k := (s.inode dp).entries.findIdx fun de ↦ de.inum = 0
    let s ← writeEntry s dp k { inum := inum, name := name }
    pure (true, s)

/-- `isdirempty`: no entries but the first two. -/
def isdirempty (ip : Inode) : Bool := (ip.entries.drop 2).all fun de ↦ de.inum = 0

/-! ### Paths -/

/-- The byte of `'/'`. -/
def slash : UInt8 := 47

/-- `skipelem`: the next element of a path and the rest. -/
def skipelem (path : List UInt8) : Option (Name × List UInt8) :=
  match path.dropWhile (· = slash) with
  | [] => none
  | c :: rest =>
    some (((c :: rest).takeWhile (· ≠ slash)).take dirSiz,
      ((c :: rest).dropWhile (· ≠ slash)).dropWhile (· = slash))

/-- The end of `namex`, when the path has no more elements. -/
def namexEnd (nameiparent : Bool) (name : Name) (ip : ℕ) : Option (ℕ × Name) × State P :=
  if nameiparent then (none, iput s ip) else (some (ip, name), s)

/-- The loop of `namex`. Every element takes a byte of the path, so the length of the path is
enough fuel. -/
def namexLoop (nameiparent : Bool) :
    ℕ → State P → Name → ℕ → List UInt8 → Except Panic (Option (ℕ × Name) × State P)
  | 0, s, name, ip, _ => pure (namexEnd s nameiparent name ip)
  | fuel + 1, s, name, ip, path =>
    match skipelem path with
    | none => pure (namexEnd s nameiparent name ip)
    | some (name, path) => do
      let s ← ilock s ip
      if (s.inode ip).type ≠ tDir then pure (none, iput s ip)
      else if nameiparent = true ∧ path = [] then pure (some (ip, name), s)
      else do
        let (found, s) ← dirlookup s ip name
        match found with
        | none => pure (none, iput s ip)
        | some (next, _) => namexLoop nameiparent fuel (iput s ip) name next path

variable (p : P)

/-- The inode that `namex` starts from, with a reference. -/
def namexStart (path : List UInt8) : Except Panic (ℕ × State P) :=
  if path.head? = some slash then (iget s rootIno).map fun s ↦ (rootIno, s)
  else .ok ((s.proc p).cwd, idup s (s.proc p).cwd)

def namex (path : List UInt8) (nameiparent : Bool) :
    Except Panic (Option (ℕ × Name) × State P) := do
  let (ip, s) ← namexStart s p path
  namexLoop nameiparent path.length s [] ip path

/-! ### The system calls -/

/-- The end of `sys_link`, `bad`. -/
def linkBad (ip : ℕ) : Except Panic (ℤ × State P) := do
  let s ← ilock s ip
  let s := s.setInode ip { s.inode ip with nlink := short ((s.inode ip).nlink - 1) }
  pure (-1, iput s ip)

def sysLink (old new : List UInt8) : Except Panic (ℤ × State P) := do
  let (r, s) ← namex s p old false
  match r with
  | none => pure (-1, s)
  | some (ip, _) =>
    let s ← ilock s ip
    if (s.inode ip).type = tDir then pure (-1, iput s ip)
    else do
      let s := s.setInode ip { s.inode ip with nlink := short ((s.inode ip).nlink + 1) }
      let (r, s) ← namex s p new true
      match r with
      | none => linkBad s ip
      | some (dp, name) =>
        let s ← ilock s dp
        let (made, s) ← dirlink s dp name ip
        if made then pure (0, iput (iput s dp) ip) else linkBad (iput s dp) ip

/-- `sys_unlink` after the entry has been found at index `k` and its inode locked. -/
def unlinkEntry (dp ip k : ℕ) : Except Panic (ℤ × State P) := do
  if (s.inode ip).nlink < 1 then .error .unlinkNlink
  else if (s.inode ip).type = tDir ∧ isdirempty (s.inode ip) = false then
    pure (-1, iput (iput s ip) dp)
  else do
    let s ← writeEntry s dp k Dirent.zero
    let s :=
      if (s.inode ip).type = tDir then
        s.setInode dp { s.inode dp with nlink := short ((s.inode dp).nlink - 1) }
      else s
    let s := iput s dp
    let s := s.setInode ip { s.inode ip with nlink := short ((s.inode ip).nlink - 1) }
    pure (0, iput s ip)

def sysUnlink (path : List UInt8) : Except Panic (ℤ × State P) := do
  let (r, s) ← namex s p path true
  match r with
  | none => pure (-1, s)
  | some (dp, name) =>
    let s ← ilock s dp
    if name = dot ∨ name = dotdot then pure (-1, iput s dp)
    else do
      let (found, s) ← dirlookup s dp name
      match found with
      | none => pure (-1, iput s dp)
      | some (ip, k) =>
        let s ← ilock s ip
        unlinkEntry s dp ip k

/-- The part of `create` that makes the entries `.` and `..`. -/
def createDots (dp ip : ℕ) : Except Panic (State P) := do
  let s := s.setInode dp { s.inode dp with nlink := short ((s.inode dp).nlink + 1) }
  let (made, s) ← dirlink s ip dot ip
  if made = false then .error .createDots
  else do
    let (made, s) ← dirlink s ip dotdot dp
    if made = false then .error .createDots else pure s

/-- The part of `create` that makes a new inode, with the directory locked. -/
def createNew (dp : ℕ) (name : Name) (type major minor : UInt16) : Except Panic (ℕ × State P) := do
  let (ip, s) ← ialloc s type
  let s ← ilock s ip
  let s := s.setInode ip { s.inode ip with major := major, minor := minor, nlink := 1 }
  let s ← if type = tDir then createDots s dp ip else pure s
  let (made, s) ← dirlink s dp name ip
  if made = false then .error .createDirlink else pure (ip, iput s dp)

def create (path : List UInt8) (type major minor : UInt16) : Except Panic (Option ℕ × State P) := do
  let (r, s) ← namex s p path true
  match r with
  | none => pure (none, s)
  | some (dp, name) =>
    let s ← ilock s dp
    let (found, s) ← dirlookup s dp name
    match found with
    | some (ip, _) =>
      let s ← ilock (iput s dp) ip
      if type = tFile ∧ (s.inode ip).type = tFile then pure (some ip, s)
      else pure (none, iput s ip)
    | none =>
      let (ip, s) ← createNew s dp name type major minor
      pure (some ip, s)

def filealloc : Option (Fin nFile × State P) :=
  ((List.finRange nFile).find? fun f ↦ (s.file f).ref = 0).map fun f ↦
    (f, s.setFile f { s.file f with ref := 1 })

def fileclose (f : Fin nFile) : Except Panic (State P) :=
  if (s.file f).ref < 1 then .error .fileclose
  else if 0 < (s.file f).ref - 1 then
    .ok (s.setFile f { s.file f with ref := (s.file f).ref - 1 })
  else
    match (s.file f).ip with
    | some ip => .ok (iput (s.setFile f { ref := 0, ip := none }) ip)
    | none => .ok (s.setFile f { ref := 0, ip := none })

section Processes

variable [DecidableEq P] (s : State P) (p : P)

def State.setProc (proc : Proc) : State P :=
  { s with proc := update s.proc p proc }

def fdalloc (f : Fin nFile) : Option (Fin nOFile × State P) :=
  ((List.finRange nOFile).find? fun fd ↦ ((s.proc p).ofile fd).isNone).map fun fd ↦
    (fd, s.setProc p { s.proc p with ofile := update (s.proc p).ofile fd (some f) })

/-- The inode that `sys_open` opens, locked. -/
def openInode (path : List UInt8) (omode : UInt32) : Except Panic (Option ℕ × State P) :=
  if omode &&& oCreate ≠ 0 then create s p path tFile 0 0
  else do
    let (r, s) ← namex s p path false
    match r with
    | none => pure (none, s)
    | some (ip, _) =>
      let s ← ilock s ip
      if (s.inode ip).type = tDir ∧ omode ≠ 0 then pure (none, iput s ip)
      else pure (some ip, s)

def sysOpen (path : List UInt8) (omode : UInt32) : Except Panic (ℤ × State P) := do
  let (r, s) ← openInode s p path omode
  match r with
  | none => pure (-1, s)
  | some ip =>
    match filealloc s with
    | none => pure (-1, iput s ip)
    | some (f, s) =>
      match fdalloc s p f with
      | none =>
        let s ← fileclose s f
        pure (-1, iput s ip)
      | some (fd, s) => pure (fd.val, s.setFile f { s.file f with ip := some ip })

/-- `sys_mkdir` and `sys_mknod`. -/
def sysCreate (path : List UInt8) (type major minor : UInt16) : Except Panic (ℤ × State P) := do
  let (r, s) ← create s p path type major minor
  match r with
  | none => pure (-1, s)
  | some ip => pure (0, iput s ip)

def sysMkdir (path : List UInt8) : Except Panic (ℤ × State P) :=
  sysCreate s p path tDir 0 0

def sysMknod (path : List UInt8) (major minor : UInt16) : Except Panic (ℤ × State P) :=
  sysCreate s p path tDev major minor

def sysChdir (path : List UInt8) : Except Panic (ℤ × State P) := do
  let (r, s) ← namex s p path false
  match r with
  | none => pure (-1, s)
  | some (ip, _) =>
    let s ← ilock s ip
    if (s.inode ip).type ≠ tDir then pure (-1, iput s ip)
    else
      let s := iput s (s.proc p).cwd
      pure (0, s.setProc p { s.proc p with cwd := ip })

/-- `ofile[fd] = 0` and `fileclose`. -/
def closeFd (fd : Fin nOFile) : Except Panic (State P) :=
  match (s.proc p).ofile fd with
  | none => .ok s
  | some f =>
    fileclose (s.setProc p { s.proc p with ofile := update (s.proc p).ofile fd none }) f

/-- `sys_close`; `none` is a descriptor out of range. -/
def sysClose (fd : Option (Fin nOFile)) : Except Panic (ℤ × State P) :=
  match fd with
  | none => .ok (-1, s)
  | some fd =>
    if ((s.proc p).ofile fd).isNone then .ok (-1, s)
    else do
      let s ← closeFd s p fd
      pure (0, s)

/-- The loop of `exit` over the open files. -/
def closeAll (p : P) : List (Fin nOFile) → State P → Except Panic (State P)
  | [], s => .ok s
  | fd :: rest, s => do
    let s ← closeFd s p fd
    closeAll p rest s

/-- `exit`; the process that `userinit` made is `init`. -/
def exit (init : P) (s : State P) (p : P) : Except Panic (State P) :=
  if p = init then .error .initExiting
  else do
    let s ← closeAll p (List.finRange nOFile) s
    let s := iput s (s.proc p).cwd
    pure (s.setProc p { s.proc p with live := false })

/-- `filedup` of the open files of a process. -/
def dupFiles (ofile : Fin nOFile → Option (Fin nFile)) (s : State P) : State P :=
  (List.finRange nOFile).foldl (fun s fd ↦
    match ofile fd with
    | some f => s.setFile f { s.file f with ref := (s.file f).ref + 1 }
    | none => s) s

/-- `fork` into the process table entry `q`. -/
def fork (p q : P) : State P :=
  let s := idup (dupFiles (s.proc p).ofile s) (s.proc p).cwd
  s.setProc q (s.proc p)

inductive Call (P : Type*)
  | openPath (p : P) (path : List UInt8) (omode : UInt32)
  | mknod (p : P) (path : List UInt8) (major minor : UInt16)
  | mkdir (p : P) (path : List UInt8)
  | link (p : P) (old new : List UInt8)
  | unlink (p : P) (path : List UInt8)
  | chdir (p : P) (path : List UInt8)
  | close (p : P) (fd : Option (Fin nOFile))
  | exit (p : P)
  | fork (p q : P)

/-- The process that makes a call. -/
def Call.caller : Call P → P
  | .openPath p _ _ | .mknod p _ _ _ | .mkdir p _ | .link p _ _ | .unlink p _ | .chdir p _
  | .close p _ | .exit p | .fork p _ => p

/-- What a call of a process that is alive does. -/
def call (init : P) (s : State P) : Call P → Except Panic (State P)
  | .openPath p path omode => (sysOpen s p path omode).map Prod.snd
  | .mknod p path major minor => (sysMknod s p path major minor).map Prod.snd
  | .mkdir p path => (sysMkdir s p path).map Prod.snd
  | .link p old new => (sysLink s p old new).map Prod.snd
  | .unlink p path => (sysUnlink s p path).map Prod.snd
  | .chdir p path => (sysChdir s p path).map Prod.snd
  | .close p fd => (sysClose s p fd).map Prod.snd
  | .exit p => exit init s p
  | .fork p q => .ok (if (s.proc q).live then s else fork s p q)

def step (init : P) (s : State P) (c : Call P) : Outcome Panic (State P) :=
  if (s.proc c.caller).live then Outcome.ofExcept (call init s c) else .blocked

end Processes

/-! ### A fresh image -/

variable (files : List (Name × ℕ))

/-- The entries of the root directory that `mkfs` makes: the size is rounded up to a whole number
of blocks. -/
def rootEntries : List Dirent :=
  let named := { inum := rootIno, name := dot } :: { inum := rootIno, name := dotdot } ::
    files.mapIdx fun k file ↦ { inum := k + 2, name := file.1 }
  named ++ List.replicate ((named.length / direntsPerBlock + 1) * direntsPerBlock - named.length)
    Dirent.zero

/-- The inodes of an image that `mkfs` makes of a list of files, each a name and a number of
blocks. -/
def mkfsInode (i : ℕ) : Inode :=
  if i = rootIno then
    { Inode.zero with
      type := tDir
      nlink := 1
      entries := rootEntries files
      blocks := (rootEntries files).length / direntsPerBlock }
  else if 2 ≤ i then
    match files[i - 2]? with
    | some file => { Inode.zero with type := tFile, nlink := 1, blocks := file.2 }
    | none => Inode.zero
  else Inode.zero

/-- The number of blocks in use on such an image. -/
def mkfsBlocks : ℕ :=
  (rootEntries files).length / direntsPerBlock + (files.map Prod.snd).sum

/-- The state after `userinit`: one process, in the root directory. -/
def initial [DecidableEq P] (init : P) (files : List (Name × ℕ)) : State P where
  inode := mkfsInode files
  free := nBlocks - mkfsBlocks files
  ref := update (fun _ ↦ 0) rootIno 1
  valid := fun _ ↦ false
  file := fun _ ↦ { ref := 0, ip := none }
  proc := update (fun _ ↦ { live := false, cwd := 0, ofile := fun _ ↦ none }) init
    { live := true, cwd := rootIno, ofile := fun _ ↦ none }

/-- The images that `mkfs` makes without an assertion failing and whose root directory does not
end with a block, where `mkfs` would round its size up to a block that is not there. -/
structure Fresh (files : List (Name × ℕ)) : Prop where
  names : ∀ file ∈ files, file.1 ≠ dot ∧ file.1 ≠ dotdot
  inodes : files.length + 2 ≤ nInodes
  blocks : mkfsBlocks files ≤ nBlocks
  rootPadded : (files.length + 2) % direntsPerBlock ≠ 0

end EasyKernels.Xv6.Directories
