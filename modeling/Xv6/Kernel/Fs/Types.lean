import Xv6.Kernel.Log.Core
import Xv6.Lib.Bytes
import Xv6.Lib.Prog

/-! # Data of the file system

The on-disk formats of `kernel/fs.h`, the tables the kernel keeps in memory, and
the requests that the code of `fs.c`, `file.c` and `sysfile.c` makes to the
layers below it. A buffer is named by the block it caches: a block has at most
one buffer, and only the code that holds it asks for it.
-/

namespace Xv6

open Lib

/-- Why the kernel stops: a call of `panic`, or a sleep nobody can end. -/
inductive Stop where
  | panic (msg : String)
  | deadlock
deriving DecidableEq, Repr

abbrev Block := Bytes

namespace Fs

/-! ## On-disk formats -/

/-- `struct superblock`, less the magic number. -/
structure Superblock where
  size : Nat
  nblocks : Nat
  ninodes : Nat
  nlog : Nat
  logstart : Nat
  inodestart : Nat
  bmapstart : Nat
deriving DecidableEq

def fsMagic : Nat := 0x10203040

structure Dinode where
  type : BitVec 16
  major : BitVec 16
  minor : BitVec 16
  nlink : BitVec 16
  size : Nat
  addrs : Fin (nDirect + 1) → Nat

namespace Dinode

def addr (x : Dinode) (k : Nat) : Nat :=
  if h : k < nDirect + 1 then x.addrs ⟨k, h⟩ else 0

def setAddr (x : Dinode) (k a : Nat) : Dinode :=
  if h : k < nDirect + 1 then { x with addrs := upd x.addrs ⟨k, h⟩ a } else x

def read (d : Block) (o : Nat) : Dinode where
  type := .ofNat 16 (getLE d o 2)
  major := .ofNat 16 (getLE d (o + 2) 2)
  minor := .ofNat 16 (getLE d (o + 4) 2)
  nlink := .ofNat 16 (getLE d (o + 6) 2)
  size := getLE d (o + 8) 4
  addrs := fun k => getLE d (o + 12 + 4 * k) 4

def putAddrs (x : Dinode) (d : Block) (o : Nat) : Nat → Block
  | 0 => d
  | k + 1 => putLE (putAddrs x d o k) (o + 12 + 4 * k) 4 (x.addr k)

def write (x : Dinode) (d : Block) (o : Nat) : Block :=
  let d := putLE d o 2 x.type.toNat
  let d := putLE d (o + 2) 2 x.major.toNat
  let d := putLE d (o + 4) 2 x.minor.toNat
  let d := putLE d (o + 6) 2 x.nlink.toNat
  let d := putLE d (o + 8) 4 x.size
  putAddrs x d o (nDirect + 1)

def zero : Dinode := ⟨0, 0, 0, 0, 0, fun _ => 0⟩

end Dinode

/-- `IBLOCK`: the block that holds inode `inum`. -/
def iblock (sb : Superblock) (inum : Nat) : Nat := inum / ipb + sb.inodestart

def ioff (inum : Nat) : Nat := inum % ipb * dinodeSize

def bblock (sb : Superblock) (b : Nat) : Nat := b / bpb + sb.bmapstart

def bitMask (bi : Nat) : UInt8 := 1 <<< UInt8.ofNat (bi % 8)

/-- Bit `bi` of a bitmap block. -/
def bitAt (d : Block) (bi : Nat) : Bool := (d (bi / 8) &&& bitMask bi) != 0

def setBit (d : Block) (bi : Nat) : Block :=
  upd d (bi / 8) (d (bi / 8) ||| bitMask bi)

def clearBit (d : Block) (bi : Nat) : Block :=
  upd d (bi / 8) (d (bi / 8) &&& ~~~ bitMask bi)

/-! ## Kernel memory -/

structure Inode where
  inum : Nat
  ref : Int
  locked : Bool
  valid : Bool
  din : Dinode

inductive FdType where
  | none
  | pipe
  | inode
  | device
deriving DecidableEq, Repr

structure File where
  type : FdType
  ref : Nat
  readable : Bool
  writable : Bool
  ip : Nat
  off : Nat
  major : BitVec 16

/-- What `struct proc` holds of the file system. A dead process has no entry in use. -/
structure Proc where
  live : Bool
  cwd : Nat
  ofile : Nat → Option Nat

structure FsMem where
  sb : Superblock
  itable : Nat → Inode
  ftable : Nat → File
  proc : Nat → Proc

/-! ## User memory -/

/-- A user address space as `copyin` and `copyout` see it: the pages `walkaddr` accepts, by
their first address, and the bytes in them. -/
structure UserMem where
  mapped : Nat → Bool
  byte : Nat → UInt8

/-- The number of bytes the loop of `copyin` and `copyout` copies from `va` on before it ends
or meets a page that is not mapped. -/
def copySpan (mapped : Nat → Bool) : Nat → Nat → Nat → Nat
  | 0, _, _ => 0
  | fuel + 1, va, len =>
      if len = 0 then 0
      else
        let va0 := va - va % pgSize
        if mapped va0 then
          let n := min (pgSize - (va - va0)) len
          n + copySpan mapped fuel ((va0 + pgSize) % 2 ^ 64) (len - n)
        else 0

/-- The source of a write: a kernel buffer or a user address. -/
inductive Src where
  | kernel (bytes : Nat → UInt8)
  | user (um : UserMem) (va : Nat)

/-- Byte `j` of the source. -/
def Src.byte : Src → Nat → UInt8
  | .kernel bytes, j => bytes j
  | .user um va, j => um.byte ((va + j) % 2 ^ 64)

def Src.copied : Src → Nat → Nat → Nat
  | .kernel _, _, m => m
  | .user um va, tot, m => copySpan um.mapped m ((va + tot) % 2 ^ 64) m

/-- The destination of a read. -/
inductive Dst where
  | kernel
  | user (um : UserMem) (va : Nat)

def Dst.copied : Dst → Nat → Nat → Nat
  | .kernel, _, m => m
  | .user um va, tot, m => copySpan um.mapped m ((va + tot) % 2 ^ 64) m

/-! ## Requests -/

/-- What file system code asks of the buffer cache, the log and the kernel's memory. -/
inductive Req where
  | bread (b : Nat)
  | load (b : Nat)
  | store (b : Nat) (f : Block → Block)
  | logWrite (b : Nat)
  | brelse (b : Nat)
  | beginOp
  | endOp
  | mem
  | setMem (f : FsMem → FsMem)
  | stop (e : Stop)

abbrev Ans : Req → Type
  | .load _ => Block
  | .mem => FsMem
  | .stop _ => Empty
  | _ => Unit

abbrev FsProg (α : Type) := Prog Req Ans α

section

variable {α : Type}

def bread (b : Nat) : FsProg Unit := Prog.ask (Req.bread b)

def load (b : Nat) : FsProg Block := Prog.ask (Req.load b)

def store (b : Nat) (f : Block → Block) : FsProg Unit := Prog.ask (Req.store b f)

def logWrite (b : Nat) : FsProg Unit := Prog.ask (Req.logWrite b)

def brelse (b : Nat) : FsProg Unit := Prog.ask (Req.brelse b)

def beginOp : FsProg Unit := Prog.ask Req.beginOp

def endOp : FsProg Unit := Prog.ask Req.endOp

def mem : FsProg FsMem := Prog.ask Req.mem

def setMem (f : FsMem → FsMem) : FsProg Unit := Prog.ask (Req.setMem f)

def stop (e : Stop) : FsProg α := Prog.call (Req.stop e) fun x => x.elim

def panic (msg : String) : FsProg α := stop (.panic msg)

end

def superblock : FsProg Superblock := do
  return (← mem).sb

def inode (ip : Nat) : FsProg Inode := do
  return (← mem).itable ip

def setInode (ip : Nat) (f : Inode → Inode) : FsProg Unit :=
  setMem fun m => { m with itable := upd m.itable ip (f (m.itable ip)) }

def setDin (ip : Nat) (f : Dinode → Dinode) : FsProg Unit :=
  setInode ip fun i => { i with din := f i.din }

def file (f : Nat) : FsProg File := do
  return (← mem).ftable f

def setFile (f : Nat) (g : File → File) : FsProg Unit :=
  setMem fun m => { m with ftable := upd m.ftable f (g (m.ftable f)) }

def proc (p : Nat) : FsProg Proc := do
  return (← mem).proc p

def setProc (p : Nat) (g : Proc → Proc) : FsProg Unit :=
  setMem fun m => { m with proc := upd m.proc p (g (m.proc p)) }

end Fs

end Xv6
