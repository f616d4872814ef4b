import Xv6.Kernel.Fs.Store

/-! # The image builder `mkfs/mkfs.c`

`mkfs` hands out inodes and blocks in order, appends the files one after another
and marks everything below the first free block in the bitmap. An input is an
argument of the command with what the reads of that file return. The builder
returns nothing where it stops with an error: a failed assertion, a file that
cannot be opened, a read past the end of the image. It keeps a list of the blocks
it writes and what for; the host has the byte order of the image.
-/

namespace Xv6.Mkfs

open Lib Fs

def nInodes : Nat := 200

def nBitmap : Nat := fsSize / (bsize * 8) + 1

def nInodeBlocks : Nat := nInodes / ipb + 1

def nMeta : Nat := 2 + mkfsNlog + nInodeBlocks + nBitmap

/-- The superblock `mkfs` writes. -/
def sb : Superblock where
  size := fsSize
  nblocks := fsSize - nMeta
  ninodes := nInodes
  nlog := mkfsNlog
  logstart := 2
  inodestart := 2 + mkfsNlog
  bmapstart := 2 + mkfsNlog + nInodeBlocks

inductive Purpose where
  | inode
  | indirect
  | data
  | bitmap
deriving DecidableEq, Repr

structure Image where
  blocks : Nat → Block
  freeinode : Nat
  freeblock : Nat
  writes : List (Purpose × Nat)

def place (sec : Nat) : Nat := sec * bsize % 2 ^ 32 / bsize

namespace Image

/-- `rsect`, which stops where the image ends. -/
def rsect (img : Image) (sec : Nat) : Option Block :=
  if place sec < fsSize then some (img.blocks (place sec)) else none

/-- `wsect`; every block it is called for has been read before. -/
def wsect (img : Image) (why : Purpose) (sec : Nat) (d : Block) : Image :=
  { img with
    blocks := upd img.blocks (place sec) d
    writes := (why, place sec) :: img.writes }

def winode (img : Image) (inum : Nat) (din : Dinode) : Option Image := do
  let d ← img.rsect (iblock sb inum)
  return img.wsect .inode (iblock sb inum) (din.write d (ioff inum))

def rinode (img : Image) (inum : Nat) : Option Dinode := do
  let d ← img.rsect (iblock sb inum)
  return Dinode.read d (ioff inum)

def ialloc (img : Image) (type : BitVec 16) : Option Image :=
  { img with freeinode := img.freeinode + 1 }.winode img.freeinode
    { Dinode.zero with type := type, nlink := 1 }

/-- `addrs[k]`, given the next free block if it is zero. -/
def addrFor (img : Image) (din : Dinode) (k : Nat) : Image × Dinode :=
  if din.addr k = 0 then
    ({ img with freeblock := img.freeblock + 1 }, din.setAddr k img.freeblock)
  else (img, din)

/-- The entry `k` of the indirect block `ind`, given the next free block if it is zero. -/
def entryFor (img : Image) (ind k : Nat) : Option (Image × Nat) := do
  let d ← img.rsect ind
  if getLE d (4 * k) 4 = 0 then
    return ({ img with freeblock := img.freeblock + 1 }.wsect .indirect ind
      (putLE d (4 * k) 4 img.freeblock), img.freeblock)
  else return (img, getLE d (4 * k) 4)

def blockFor (img : Image) (din : Dinode) (fbn : Nat) : Option (Image × Dinode × Nat) :=
  if fbn < nDirect then
    let (img, din) := img.addrFor din fbn
    some (img, din, din.addr fbn)
  else do
    let (img, din) := img.addrFor din nDirect
    let (img, x) ← img.entryFor (din.addr nDirect) (fbn - nDirect)
    return (img, din, x)

def chunk (off n : Nat) : Nat := min n ((off / bsize + 1) * bsize - off)

def appendRound (img : Image) (din : Dinode) (off : Nat) (p : List UInt8) :
    Option (Image × Dinode) := do
  if off / bsize < maxFile then
    let (img, din, x) ← img.blockFor din (off / bsize)
    let d ← img.rsect x
    let d := splice d (off - off / bsize * bsize) (chunk off p.length) fun j => p.getD j 0
    return (img.wsect .data x d, din)
  else none

def iappendFrom : Nat → Image → Dinode → Nat → List UInt8 → Option (Image × Dinode × Nat)
  | 0, img, din, off, _ => some (img, din, off)
  | fuel + 1, img, din, off, p =>
      if p = [] then some (img, din, off)
      else do
        let (img, din) ← img.appendRound din off p
        iappendFrom fuel img din (off + chunk off p.length) (p.drop (chunk off p.length))

def iappend (img : Image) (inum : Nat) (p : List UInt8) : Option Image := do
  let din ← img.rinode inum
  let (img, din, off) ← iappendFrom p.length img din din.size p
  img.winode inum { din with size := off }

def dirent (name : List UInt8) (inum : Nat) : List UInt8 :=
  (List.range direntSize).map (direntBytes name inum)

def appendAll (img : Image) (inum : Nat) : List (List UInt8) → Option Image
  | [] => some img
  | p :: ps => do
      let img ← img.iappend inum p
      img.appendAll inum ps

end Image

/-- An argument of the command, and what `read` returns for it until it returns 0 or fails;
nothing if the file cannot be opened. -/
structure Input where
  arg : List UInt8
  reads : Option (List (List UInt8))

def userDir : List UInt8 := [117, 115, 101, 114, 47]

def Input.shortname (f : Input) : List UInt8 :=
  if userDir <+: f.arg then f.arg.drop userDir.length else f.arg

def Input.name (f : Input) : List UInt8 :=
  match f.shortname with
  | [] => []
  | c :: cs => if c = 95 then cs else c :: cs

namespace Image

def addFile (img : Image) (f : Input) : Option Image := do
  if slash ∈ f.shortname then none
  else do
    let reads ← f.reads
    let inum := img.freeinode
    let img ← img.ialloc tFile
    let img ← img.iappend rootIno (dirent f.name inum)
    img.appendAll inum reads

def addFiles (img : Image) : List Input → Option Image
  | [] => some img
  | f :: fs => do
      let img ← img.addFile f
      img.addFiles fs

/-- The root directory is rounded up to whole blocks. -/
def fixRoot (img : Image) : Option Image := do
  let din ← img.rinode rootIno
  img.winode rootIno { din with size := (din.size / bsize + 1) * bsize }

/-- `balloc(used)`: one bitmap block with the bits below `used` set. -/
def balloc (img : Image) (used : Nat) : Option Image :=
  if used < bsize * 8 then
    some (img.wsect .bitmap sb.bmapstart ((List.range used).foldl setBit fun _ => 0))
  else none

end Image

def superBlock : Block :=
  let d := putLE (fun _ => 0) 0 4 fsMagic
  let d := putLE d 4 4 sb.size
  let d := putLE d 8 4 sb.nblocks
  let d := putLE d 12 4 sb.ninodes
  let d := putLE d 16 4 sb.nlog
  let d := putLE d 20 4 sb.logstart
  let d := putLE d 24 4 sb.inodestart
  putLE d 28 4 sb.bmapstart

def blank : Image := ⟨upd (fun _ _ => 0) 1 superBlock, 1, nMeta, []⟩

def root : Option Image := do
  let img ← blank.ialloc tDir
  let img ← img.iappend rootIno (Image.dirent dot rootIno)
  img.iappend rootIno (Image.dirent dotdot rootIno)

def mkfs (files : List Input) : Option Image := do
  let img ← root
  let img ← img.addFiles files
  let img ← img.fixRoot
  img.balloc img.freeblock

end Xv6.Mkfs
