import EasyKernels.Lib.Bytes

/-!
The constants of `param.h` and `fs.h` that the modelled code reads.
-/

set_option autoImplicit false

namespace EasyKernels.Xv6

/-- `MAXOPBLOCKS`: the largest number of blocks a file system operation writes. -/
def maxOpBlocks : ℕ := 10

/-- `LOGSIZE`: the largest number of data blocks in the on-disk log. -/
def logSize : ℕ := maxOpBlocks * 3

/-- `NBUF`: the number of buffers of the disk block cache. -/
def nBuf : ℕ := maxOpBlocks * 3

/-- `NINODE`: the number of entries of the inode cache. -/
def nInode : ℕ := 50

/-- `NFILE`: the number of open files per system. -/
def nFile : ℕ := 100

/-- `NOFILE`: the number of open files per process. -/
def nOFile : ℕ := 16

/-- `NPROC`: the number of entries of the process table. -/
def nProc : ℕ := 64

/-- `FSSIZE`: the size of the file system in blocks. -/
def fsSize : UInt32 := 1000

/-- `BSIZE`: the size of a block in bytes. -/
def bSize : ℕ := 512

/-- The data of a block or of a buffer. -/
abbrev Block := Lib.Bytes bSize

end EasyKernels.Xv6
