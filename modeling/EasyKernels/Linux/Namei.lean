import EasyKernels.Lib.Calls
import EasyKernels.Lib.LinkTree

/-!
# Names in Linux 0.12

The functions of `namei.c` that walk paths and make and remove names, with `iget`, `iput` and
`new_inode`. An inode is a record with a directory's contents as the list of its entries: the entry
at index `i` of the list is the one at offset `i * sizeof(struct dir_entry)`. The copy of an inode
in the inode table and the one on the disk are one record here, and its bit in the inode map is a
field of it. A system call returns its value and the new state, or stops with a panic.

`lost` is not in the source: it becomes true when `iput` frees an inode that an entry still names.

Scope. One device, with nothing mounted on it, and no input or output errors. Block numbers are not
modelled, only how many blocks are free and how many an inode holds; of a regular file nothing else
is kept of its contents. The times of an inode are left out. The bit of inode 0 in the map is always
set, and the search for a free inode begins after it.
-/

set_option autoImplicit false

namespace EasyKernels.Linux.Namei

open Function Lib.Runs Lib.LinkTree

/-! ### Constants -/

/-- `NAME_LEN`. -/
def nameLen : ℕ := 14

/-- `ROOT_INO`. -/
def rootIno : ℕ := 1

/-- `NR_INODE`: the size of the inode table. -/
def nrInode : ℕ := 64

/-- `DIR_ENTRIES_PER_BLOCK`. -/
def dirEntriesPerBlock : ℕ := 64

def eperm : ℤ := 1
def enoent : ℤ := 2
def eacces : ℤ := 13
def eexist : ℤ := 17
def enotdir : ℤ := 20
def eisdir : ℤ := 21
def enospc : ℤ := 28
def enotempty : ℤ := 39

def sIfmt : UInt16 := 0xF000
def sIflnk : UInt16 := 0xA000
def sIfreg : UInt16 := 0x8000
def sIfdir : UInt16 := 0x4000
def sIsvtx : UInt16 := 0x0200

def sIslnk (mode : UInt16) : Bool := mode &&& sIfmt = sIflnk
def sIsreg (mode : UInt16) : Bool := mode &&& sIfmt = sIfreg
def sIsdir (mode : UInt16) : Bool := mode &&& sIfmt = sIfdir

def mayExec : UInt16 := 1
def mayWrite : UInt16 := 2

def oAccmode : UInt32 := 0x3
def oWronly : UInt32 := 0x1
def oCreat : UInt32 := 0x40
def oExcl : UInt32 := 0x80
def oTrunc : UInt32 := 0x200

/-- `ACC_MODE`. -/
def accMode (flag : UInt32) : UInt16 :=
  if flag &&& oAccmode = 0 then 4
  else if flag &&& oAccmode = 1 then 2
  else if flag &&& oAccmode = 2 then 6
  else 0xFFFF

/-! ### The state -/

/-- `struct m_inode`, with its bit in the inode map. `entries` are the contents of a directory,
`target` those of a symbolic link, and `blocks` is the number of blocks it holds. -/
structure Inode where
  used : Bool
  mode : UInt16
  uid : ℕ
  gid : ℕ
  nlinks : UInt8
  entries : List Dirent
  target : List UInt8
  blocks : ℕ

/-- The inode that `memset` leaves. -/
def Inode.zero : Inode where
  used := false
  mode := 0
  uid := 0
  gid := 0
  nlinks := 0
  entries := []
  target := []
  blocks := 0

/-- What a task has of the file system: who it is and where it is. -/
structure Task where
  euid : ℕ
  egid : ℕ
  groups : List ℕ
  umask : UInt16
  pwd : ℕ
  root : ℕ

/-- The panics that the calls can reach. -/
inductive Panic
  | noFreeInodes
  | iputFreeInode
  deriving DecidableEq, Repr

variable {T : Type*}

/-- `count` is `i_count`, and `opened` the number of open files of an inode. -/
structure State (T : Type*) where
  ninodes : ℕ
  inode : ℕ → Inode
  count : ℕ → ℕ
  free : ℕ
  opened : ℕ → ℕ
  task : T → Task
  lost : Bool

variable (s : State T)

def State.setInode (i : ℕ) (ip : Inode) : State T :=
  { s with inode := update s.inode i ip }

def State.setCount (i n : ℕ) : State T :=
  { s with count := update s.count i n }

/-- The entries of a directory that has been removed are not counted. -/
def Removed (ninodes : ℕ) (inode : ℕ → Inode) (d : ℕ) : Prop :=
  d ≠ rootIno ∧ ∀ e < ninodes + 1, ∀ de ∈ (inode e).entries, de.inum = d →
    de.name = dot ∨ de.name = dotdot

instance (ninodes : ℕ) (inode : ℕ → Inode) (d : ℕ) : Decidable (Removed ninodes inode d) := by
  unfold Removed
  infer_instance

/-- Some directory entry names the inode. -/
def Named (ninodes : ℕ) (inode : ℕ → Inode) (i : ℕ) : Prop :=
  ∃ d < ninodes + 1, ¬ Removed ninodes inode d ∧ ∃ de ∈ (inode d).entries, de.inum = i

instance (ninodes : ℕ) (inode : ℕ → Inode) (i : ℕ) : Decidable (Named ninodes inode i) := by
  unfold Named
  infer_instance

/-! ### Inodes -/

/-- The number of entries of the inode table that are in use. -/
def State.inCore : ℕ := (List.range (s.ninodes + 1)).countP fun i ↦ 0 < s.count i

/-- `iget`; it takes an empty entry of the table before it looks for the inode. -/
def iget (i : ℕ) : Except Panic (State T) :=
  if nrInode ≤ s.inCore then .error .noFreeInodes
  else .ok (s.setCount i (s.count i + 1))

/-- `i_count++`. -/
def hold (i : ℕ) : State T := s.setCount i (s.count i + 1)

def truncate (i : ℕ) : State T :=
  let ip := s.inode i
  if sIsreg ip.mode ∨ sIsdir ip.mode ∨ sIslnk ip.mode then
    { s.setInode i { ip with entries := [], target := [], blocks := 0 } with
      free := s.free + ip.blocks }
  else s

def freeInode (i : ℕ) : State T := (s.setInode i Inode.zero).setCount i 0

def iput (i : ℕ) : Except Panic (State T) :=
  if s.count i = 0 then .error .iputFreeInode
  else if 1 < s.count i then .ok (s.setCount i (s.count i - 1))
  else if (s.inode i).nlinks = 0 then
    .ok { freeInode (truncate s i) i with
      lost := s.lost || decide (Named s.ninodes s.inode i) }
  else .ok (s.setCount i (s.count i - 1))

def newInode (task : Task) : Except Panic (Option ℕ × State T) :=
  if nrInode ≤ s.inCore then .error .noFreeInodes
  else
    match (List.range' 1 s.ninodes).find? fun i ↦ (s.inode i).used = false with
    | none => .ok (none, s)
    | some i =>
      .ok (some i, (s.setInode i { Inode.zero with
        used := true, nlinks := 1, uid := task.euid, gid := task.egid % 256 }).setCount i 1)

/-- `new_block`: whether there is a free block. -/
def newBlock : Option (State T) :=
  if s.free = 0 then none else some { s with free := s.free - 1 }

/-! ### Directories -/

variable (task : Task)

def Task.inGroup (gid : ℕ) : Bool := gid = task.egid ∨ gid ∈ task.groups

def permission (ip : Inode) (mask : UInt16) : Bool :=
  if ip.nlinks = 0 then false
  else
    let mode :=
      if task.euid = ip.uid then ip.mode >>> 6
      else if task.inGroup ip.gid then ip.mode >>> 3
      else ip.mode
    mode &&& mask &&& 7 = mask ∨ task.euid = 0

/-- `find_entry`: the index of the entry. The empty name is `.`, and so is `..` in the root
directory of the task. -/
def findEntry (dir : ℕ) (ip : Inode) (name : Name) : Option ℕ :=
  let name := name.take nameLen
  let name := if name = dotdot ∧ dir = task.root then dot else name
  if ip.blocks = 0 then none else findName ip.entries (if name = [] then dot else name)

/-- The number of blocks of a directory with `n` entries, with the indirect ones. -/
def blocksFor (n : ℕ) : ℕ :=
  let data := (n + dirEntriesPerBlock - 1) / dirEntriesPerBlock
  if data ≤ 7 then data
  else if data ≤ 7 + 512 then data + 1
  else data + 2 + (data - (7 + 512) + 511) / 512

/-- `add_entry`, with the inode number that its callers put into the entry. When the blocks run out,
those found for the indirect ones stay with the directory. -/
def addEntry (dir : ℕ) (name : Name) (inum : ℕ) : Bool × State T :=
  let ip := s.inode dir
  let de := { inum := inum, name := name.take nameLen }
  let k := ip.entries.findIdx fun de ↦ de.inum = 0
  let need := blocksFor (ip.entries.length + 1) - ip.blocks
  if name.take nameLen = [] ∨ ip.blocks = 0 then (false, s)
  else if k < ip.entries.length then
    (true, s.setInode dir { ip with entries := ip.entries.set k de })
  else if s.free < need then
    (false, { s.setInode dir { ip with blocks := ip.blocks + s.free } with free := 0 })
  else
    (true, { s.setInode dir { ip with entries := ip.entries ++ [de],
                                        blocks := ip.blocks + need } with
      free := s.free - need })

/-- `empty_dir`. -/
def emptyDir (i : ℕ) (ip : Inode) : Bool :=
  let first := ip.entries.getD 0 Dirent.zero
  let second := ip.entries.getD 1 Dirent.zero
  2 ≤ ip.entries.length ∧ ip.blocks ≠ 0 ∧ first.inum = i ∧ second.inum ≠ 0 ∧
    first.name = dot ∧ second.name = dotdot ∧ (ip.entries.drop 2).all fun de ↦ de.inum = 0

/-! ### Paths -/

/-- The byte of `'/'`. -/
def slash : UInt8 := 47

/-- A string ends before its first byte 0. -/
def cString (bytes : List UInt8) : List UInt8 := bytes.takeWhile fun c ↦ c ≠ 0

/-- `follow_link` for a path that is itself the contents of a link: links are not followed. -/
def followNone (dir i : ℕ) : Except Panic (Option ℕ × State T) :=
  if sIslnk (s.inode i).mode = false then do
    let s ← iput s dir
    pure (some i, s)
  else do
    let s ← iput s dir
    let s ← iput s i
    pure (none, s)

section Walk

variable (follow : State T → ℕ → ℕ → Except Panic (Option ℕ × State T)) (task : Task)

/-- The loop of `get_dir`, over the names of the path but the last. -/
def walk : List Name → State T → ℕ → Except Panic (Option ℕ × State T)
  | names, s, i =>
    if sIsdir (s.inode i).mode = false ∨ permission task (s.inode i) mayExec = false then do
      let s ← iput s i
      pure (none, s)
    else
      match names with
      | [] => pure (some i, s)
      | name :: rest =>
        match findEntry task i (s.inode i) name with
        | none => do
          let s ← iput s i
          pure (none, s)
        | some k => do
          let inr := ((s.inode i).entries.getD k Dirent.zero).inum
          let s ← iget s inr
          let (next, s) ← follow s i inr
          match next with
          | none => pure (none, s)
          | some j => walk rest s j

variable (s : State T)

/-- `get_dir`; without a base it starts at the working directory. -/
def getDir (path : List UInt8) (base : Option ℕ) : Except Panic (Option ℕ × State T) :=
  let i := base.getD task.pwd
  let s := if base = none then hold s i else s
  if (cString path).head? = some slash then do
    let s ← iput s i
    walk follow task ((cString path).tail.splitOn slash).dropLast (hold s task.root) task.root
  else walk follow task ((cString path).splitOn slash).dropLast s i

/-- `dir_namei`: the directory, and the name within it. -/
def dirNamei (path : List UInt8) (base : Option ℕ) :
    Except Panic (Option (ℕ × Name) × State T) := do
  let (dir, s) ← getDir follow task s path base
  pure (dir.map fun dir ↦ (dir, ((cString path).splitOn slash).getLastD []), s)

/-- `_namei`. -/
def nameiFrom (path : List UInt8) (base : Option ℕ) (followLinks : Bool) :
    Except Panic (Option ℕ × State T) := do
  let (found, s) ← dirNamei follow task s path base
  match found with
  | none => pure (none, s)
  | some (dir, name) =>
    if name = [] then pure (some dir, s)
    else
      match findEntry task dir (s.inode dir) name with
      | none => do
        let s ← iput s dir
        pure (none, s)
      | some k => do
        let inr := ((s.inode dir).entries.getD k Dirent.zero).inum
        let s ← iget s inr
        if followLinks then follow s dir inr
        else do
          let s ← iput s dir
          pure (some inr, s)

end Walk

variable (task : Task)

/-- `follow_link` for a path of the task. -/
def followLink (s : State T) (dir i : ℕ) : Except Panic (Option ℕ × State T) :=
  if sIslnk (s.inode i).mode = false then do
    let s ← iput s dir
    pure (some i, s)
  else if (s.inode i).blocks = 0 then do
    let s ← iput s dir
    let s ← iput s i
    pure (none, s)
  else do
    let target := (s.inode i).target
    let s ← iput s i
    nameiFrom followNone task s target (some dir) false

/-- `namei`. -/
def namei (s : State T) (path : List UInt8) : Except Panic (Option ℕ × State T) :=
  nameiFrom (followLink task) task s path none true

/-! ### Calls

A call returns a value, for 0, or an error number. -/

/-- The references are given up and the call fails. -/
def fail {α : Type} (e : ℤ) (s : State T) (held : List ℕ) :
    Except Panic (Except ℤ α × State T) := do
  let s ← held.foldlM iput s
  pure (.error (-e), s)

section

variable (s : State T)

/-- The references are given up and the call returns. -/
def done (held : List ℕ) : Except Panic (Except ℤ Unit × State T) := do
  let s ← held.foldlM iput s
  pure (.ok (), s)

/-- How the calls begin that change a directory: `dir_namei`, a name that is not empty, and the
permission to write, each with the error of the call. -/
def dirFor (path : List UInt8) (absent empty denied : ℤ) :
    Except Panic (Except ℤ (ℕ × Name) × State T) := do
  let (found, s) ← dirNamei (followLink task) task s path none
  match found with
  | none => fail absent s []
  | some (dir, name) =>
    if name = [] then fail empty s [dir]
    else if permission task (s.inode dir) mayWrite = false then fail denied s [dir]
    else pure (.ok (dir, name), s)

/-- How `sys_mknod` and `sys_mkdir` begin: the directory, the name, and the new inode. -/
def newFor (path : List UInt8) : Except Panic (Except ℤ (ℕ × Name × ℕ) × State T) :=
  andThen (dirFor task s path enoent enoent eperm) fun (dir, name) s ↦
    if (findEntry task dir (s.inode dir) name).isSome then fail eexist s [dir]
    else do
      let (new, s) ← newInode s task
      match new with
      | none => fail enospc s [dir]
      | some i => pure (.ok (dir, name, i), s)

/-- How `sys_rmdir` and `sys_unlink` begin: the directory, the index of the entry, and its inode. -/
def entryFor (path : List UInt8) : Except Panic (Except ℤ (ℕ × ℕ × ℕ) × State T) :=
  andThen (dirFor task s path enoent enoent eperm) fun (dir, name) s ↦
    match findEntry task dir (s.inode dir) name with
    | none => fail enoent s [dir]
    | some k => do
      let inr := ((s.inode dir).entries.getD k Dirent.zero).inum
      let s ← iget s inr
      pure (.ok (dir, k, inr), s)

/-- `open_namei`; it returns the inode. -/
def openNamei (path : List UInt8) (flag : UInt32) (mode : UInt16) :
    Except Panic (Except ℤ ℕ × State T) := do
  let flag := if flag &&& oTrunc ≠ 0 ∧ flag &&& oAccmode = 0 then flag ||| oWronly else flag
  let mode := (mode &&& 0x1FF &&& ~~~task.umask) ||| sIfreg
  let (found, s) ← dirNamei (followLink task) task s path none
  match found with
  | none => fail enoent s []
  | some (dir, name) =>
    if name = [] then
      if flag &&& (oAccmode ||| oCreat ||| oTrunc) = 0 then pure (.ok dir, s)
      else fail eisdir s [dir]
    else
      match findEntry task dir (s.inode dir) name with
      | none =>
        if flag &&& oCreat = 0 then fail enoent s [dir]
        else if permission task (s.inode dir) mayWrite = false then fail eacces s [dir]
        else do
          let (new, s) ← newInode s task
          match new with
          | none => fail enospc s [dir]
          | some i =>
            let s := s.setInode i { s.inode i with uid := task.euid, mode := mode }
            match addEntry s dir name i with
            | (false, s) =>
              fail enospc (s.setInode i { s.inode i with nlinks := (s.inode i).nlinks - 1 })
                [i, dir]
            | (true, s) => do
              let s ← iput s dir
              pure (.ok i, s)
      | some k =>
        if flag &&& oExcl ≠ 0 then fail eexist s [dir]
        else do
          let inr := ((s.inode dir).entries.getD k Dirent.zero).inum
          let s ← iget s inr
          let (inode, s) ← followLink task s dir inr
          match inode with
          | none => fail eacces s []
          | some i =>
            if (sIsdir (s.inode i).mode ∧ flag &&& oAccmode ≠ 0) ∨
                permission task (s.inode i) (accMode flag) = false then fail eperm s [i]
            else pure (.ok i, if flag &&& oTrunc ≠ 0 then truncate s i else s)

def sysMknod (path : List UInt8) (mode : UInt16) : Except Panic (Except ℤ Unit × State T) :=
  if task.euid ≠ 0 then fail eperm s []
  else
    andThen (newFor task s path) fun (dir, name, i) s ↦
      match addEntry (s.setInode i { s.inode i with mode := mode }) dir name i with
      | (false, s) => do
        let s ← iput s dir
        fail enospc (s.setInode i { s.inode i with nlinks := 0 }) [i]
      | (true, s) => done s [dir, i]

def sysMkdir (path : List UInt8) (mode : UInt16) : Except Panic (Except ℤ Unit × State T) :=
  andThen (newFor task s path) fun (dir, name, i) s ↦
    match newBlock s with
    | none => do
      let s ← iput s dir
      fail enospc (s.setInode i { s.inode i with nlinks := (s.inode i).nlinks - 1 }) [i]
    | some s =>
      let s := s.setInode i { s.inode i with
        blocks := 1
        entries := [{ inum := i, name := dot }, { inum := dir, name := dotdot }]
        nlinks := 2
        mode := sIfdir ||| (mode &&& 0x1FF &&& ~~~task.umask) }
      match addEntry s dir name i with
      | (false, s) => do
        let s ← iput s dir
        fail enospc (s.setInode i { s.inode i with nlinks := 0 }) [i]
      | (true, s) =>
        done (s.setInode dir { s.inode dir with nlinks := (s.inode dir).nlinks + 1 }) [dir, i]

/-- The inode number of an entry becomes 0. -/
def Inode.clear (ip : Inode) (k : ℕ) : Inode :=
  { ip with entries := ip.entries.set k { ip.entries.getD k Dirent.zero with inum := 0 } }

def sysRmdir (path : List UInt8) : Except Panic (Except ℤ Unit × State T) :=
  andThen (entryFor task s path) fun (dir, k, i) s ↦
    if (s.inode dir).mode &&& sIsvtx ≠ 0 ∧ task.euid ≠ 0 ∧ (s.inode i).uid ≠ task.euid then
      fail eperm s [dir, i]
    else if 1 < s.count i then fail eperm s [dir, i]
    else if i = dir then fail eperm s [i, dir]
    else if sIsdir (s.inode i).mode = false then fail enotdir s [i, dir]
    else if emptyDir i (s.inode i) = false then fail enotempty s [i, dir]
    else
      let s := s.setInode dir ((s.inode dir).clear k)
      let s := s.setInode i { s.inode i with nlinks := 0 }
      done (s.setInode dir { s.inode dir with nlinks := (s.inode dir).nlinks - 1 }) [dir, i]

def sysUnlink (path : List UInt8) : Except Panic (Except ℤ Unit × State T) :=
  andThen (entryFor task s path) fun (dir, k, i) s ↦
    if (s.inode dir).mode &&& sIsvtx ≠ 0 ∧ task.euid ≠ 0 ∧ task.euid ≠ (s.inode i).uid ∧
        task.euid ≠ (s.inode dir).uid then fail eperm s [dir, i]
    else if sIsdir (s.inode i).mode then fail eperm s [i, dir]
    else
      let nlinks := if (s.inode i).nlinks = 0 then 1 else (s.inode i).nlinks
      let s := s.setInode dir ((s.inode dir).clear k)
      done (s.setInode i { s.inode i with nlinks := nlinks - 1 }) [i, dir]

def sysSymlink (old new : List UInt8) : Except Panic (Except ℤ Unit × State T) :=
  andThen (dirFor task s new eacces eperm eacces) fun (dir, name) s ↦ do
    let (inode, s) ← newInode s task
    match inode with
    | none => fail enospc s [dir]
    | some i =>
      let s := s.setInode i { s.inode i with mode := sIflnk ||| (0x1FF &&& ~~~task.umask) }
      match newBlock s with
      | none => do
        let s ← iput s dir
        fail enospc (s.setInode i { s.inode i with nlinks := (s.inode i).nlinks - 1 }) [i]
      | some s =>
        let s := s.setInode i { s.inode i with blocks := 1, target := (cString old).take 1023 }
        if (findEntry task dir (s.inode dir) name).isSome then
          fail eexist (s.setInode i { s.inode i with nlinks := (s.inode i).nlinks - 1 }) [i, dir]
        else
          match addEntry s dir name i with
          | (false, s) =>
            fail enospc (s.setInode i { s.inode i with nlinks := (s.inode i).nlinks - 1 }) [i, dir]
          | (true, s) => done s [dir, i]

def sysLink (old new : List UInt8) : Except Panic (Except ℤ Unit × State T) := do
  let (inode, s) ← namei task s old
  match inode with
  | none => fail enoent s []
  | some i =>
    if sIsdir (s.inode i).mode then fail eperm s [i]
    else do
      let (found, s) ← dirNamei (followLink task) task s new none
      match found with
      | none => fail eacces s [i]
      | some (dir, name) =>
        if name = [] then fail eperm s [i, dir]
        else if permission task (s.inode dir) mayWrite = false then fail eacces s [dir, i]
        else if (findEntry task dir (s.inode dir) name).isSome then fail eexist s [dir, i]
        else
          match addEntry s dir name i with
          | (false, s) => fail enospc s [dir, i]
          | (true, s) => do
            let s ← iput s dir
            done (s.setInode i { s.inode i with nlinks := (s.inode i).nlinks + 1 }) [i]

/-- The part that `sys_chdir` and `sys_chroot` have in common: the new directory. -/
def directory (path : List UInt8) : Except Panic (Except ℤ ℕ × State T) := do
  let (inode, s) ← namei task s path
  match inode with
  | none => fail enoent s []
  | some i =>
    if sIsdir (s.inode i).mode = false then fail enotdir s [i]
    else pure (.ok i, s)

end

/-! ### The machine -/

variable [DecidableEq T] (s : State T)

def State.setTask (p : T) (task : Task) : State T :=
  { s with task := update s.task p task }

def sysChdir (p : T) (s : State T) (path : List UInt8) : Except Panic (Except ℤ Unit × State T) :=
  andThen (directory (s.task p) s path) fun i s ↦ do
    let s ← iput s (s.task p).pwd
    pure (.ok (), s.setTask p { s.task p with pwd := i })

def sysChroot (p : T) (s : State T) (path : List UInt8) : Except Panic (Except ℤ Unit × State T) :=
  andThen (directory (s.task p) s path) fun i s ↦ do
    let s ← iput s (s.task p).root
    pure (.ok (), s.setTask p { s.task p with root := i })

/-- A file is opened: `open_namei`, whose inode the file then has. -/
def sysOpen (p : T) (s : State T) (path : List UInt8) (flag : UInt32) (mode : UInt16) :
    Except Panic (Except ℤ Unit × State T) :=
  andThen (openNamei (s.task p) s path flag mode) fun i s ↦
    pure (.ok (), { s with opened := update s.opened i (s.opened i + 1) })

inductive Event (T : Type*)
  | open (p : T) (path : List UInt8) (flag : UInt32) (mode : UInt16)
  | mknod (p : T) (path : List UInt8) (mode : UInt16)
  | mkdir (p : T) (path : List UInt8) (mode : UInt16)
  | rmdir (p : T) (path : List UInt8)
  | unlink (p : T) (path : List UInt8)
  | symlink (p : T) (old new : List UInt8)
  | link (p : T) (old new : List UInt8)
  | chdir (p : T) (path : List UInt8)
  | chroot (p : T) (path : List UInt8)
  /-- The last descriptor of an open file of the inode is closed. -/
  | close (i : ℕ)

/-- The state after a call of a task. -/
def call : Event T → Except Panic (Except ℤ Unit × State T)
  | .open p path flag mode => sysOpen p s path flag mode
  | .mknod p path mode => sysMknod (s.task p) s path mode
  | .mkdir p path mode => sysMkdir (s.task p) s path mode
  | .rmdir p path => sysRmdir (s.task p) s path
  | .unlink p path => sysUnlink (s.task p) s path
  | .symlink p old new => sysSymlink (s.task p) s old new
  | .link p old new => sysLink (s.task p) s old new
  | .chdir p path => sysChdir p s path
  | .chroot p path => sysChroot p s path
  | .close i => done { s with opened := update s.opened i (s.opened i - 1) } [i]

/-- A file is closed only if it is open, and a call returns whether or not it fails. -/
def step (e : Event T) : Outcome Panic (State T) :=
  match e with
  | .close i =>
    if s.opened i = 0 then .blocked else Outcome.ofExcept ((call s e).map Prod.snd)
  | _ => Outcome.ofExcept ((call s e).map Prod.snd)

end EasyKernels.Linux.Namei
