import Mathlib.Data.Nat.Basic

/-! # Kernel parameters

The constants of `kernel/param.h` and `kernel/fs.h` that the file system, the
log and the buffer cache share, and the sizes `mkfs` lays an image out with.
-/

namespace Xv6

/-- Most blocks one file system operation may write. -/
def maxOpBlocks : Nat := 10

/-- Most data blocks the in-memory log header records. -/
def logSize : Nat := maxOpBlocks * 3

def bsize : Nat := 1024

/-- Size of the file system image in blocks. -/
def fsSize : Nat := 2000

/-- Number of log blocks `mkfs` reserves, the header block included. -/
def mkfsNlog : Nat := logSize

/-! ## Tables -/

def nInode : Nat := 50

def nFile : Nat := 100

def nOfile : Nat := 16

def nProc : Nat := 64

def nDev : Int := 10

def maxArg : Nat := 32

def pgSize : Nat := 4096

/-! ## On-disk format -/

def rootIno : Nat := 1

def nDirect : Nat := 12

def nIndirect : Nat := bsize / 4

def maxFile : Nat := nDirect + nIndirect

def dinodeSize : Nat := 64

def ipb : Nat := bsize / dinodeSize

def bpb : Nat := bsize * 8

def dirSiz : Nat := 14

def direntSize : Nat := 2 + dirSiz

def tDir : BitVec 16 := 1

def tFile : BitVec 16 := 2

def tDevice : BitVec 16 := 3

end Xv6
