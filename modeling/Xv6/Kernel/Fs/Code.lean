import Xv6.Kernel.Fs.Types

/-! # The code of `kernel/fs.c`

Inodes in memory are indices into the inode table. Offsets and lengths are
32-bit; a sum that can wrap is written with its remainder.
-/

namespace Xv6.Fs

open Lib

/-! ## Blocks -/

def bzero (b : Nat) : FsProg Unit := do
  bread b
  store b fun _ _ => 0
  logWrite b
  brelse b

/-- The loop of `balloc` from bitmap position `b` on, with the inner loop as a search. -/
def ballocFrom (sb : Superblock) : Nat → Nat → FsProg Nat
  | 0, _ => pure 0
  | fuel + 1, b =>
      if b < sb.size then do
        bread (bblock sb b)
        let d ← load (bblock sb b)
        match (List.range (min bpb (sb.size - b))).find? fun bi => !bitAt d bi with
        | some bi => do
            store (bblock sb b) fun d => setBit d bi
            logWrite (bblock sb b)
            brelse (bblock sb b)
            bzero (b + bi)
            return b + bi
        | none => do
            brelse (bblock sb b)
            ballocFrom sb fuel (b + bpb)
      else pure 0

/-- `balloc`: a zeroed block, or 0 without one. -/
def balloc : FsProg Nat := do
  let sb ← superblock
  ballocFrom sb (sb.size / bpb + 1) 0

def bfree (b : Nat) : FsProg Unit := do
  let sb ← superblock
  bread (bblock sb b)
  let d ← load (bblock sb b)
  if bitAt d (b % bpb) then do
    store (bblock sb b) fun d => clearBit d (b % bpb)
    logWrite (bblock sb b)
    brelse (bblock sb b)
  else panic "freeing free block"

/-! ## Inodes -/

def iupdate (ip : Nat) : FsProg Unit := do
  let sb ← superblock
  let i ← inode ip
  bread (iblock sb i.inum)
  store (iblock sb i.inum) fun d => i.din.write d (ioff i.inum)
  logWrite (iblock sb i.inum)
  brelse (iblock sb i.inum)

def iget (inum : Nat) : FsProg Nat := do
  let m ← mem
  match (List.range nInode).find? fun ip =>
      0 < (m.itable ip).ref ∧ (m.itable ip).inum = inum with
  | some ip => do
      setInode ip fun i => { i with ref := i.ref + 1 }
      return ip
  | none =>
      match (List.range nInode).find? fun ip => (m.itable ip).ref = 0 with
      | some ip => do
          setInode ip fun i => { i with inum := inum, ref := 1, valid := false }
          return ip
      | none => panic "iget: no inodes"

def iallocFrom (sb : Superblock) (type : BitVec 16) : Nat → Nat → FsProg (Option Nat)
  | 0, _ => pure none
  | fuel + 1, inum =>
      if inum < sb.ninodes then do
        bread (iblock sb inum)
        let d ← load (iblock sb inum)
        if (Dinode.read d (ioff inum)).type = 0 then do
          store (iblock sb inum) fun d => { Dinode.zero with type := type }.write d (ioff inum)
          logWrite (iblock sb inum)
          brelse (iblock sb inum)
          some <$> iget inum
        else do
          brelse (iblock sb inum)
          iallocFrom sb type fuel (inum + 1)
      else pure none

def ialloc (type : BitVec 16) : FsProg (Option Nat) := do
  let sb ← superblock
  iallocFrom sb type sb.ninodes 1

def idup (ip : Nat) : FsProg Nat := do
  setInode ip fun i => { i with ref := i.ref + 1 }
  return ip

/-- `acquiresleep(&ip->lock)`; the lock's holder is the caller itself. -/
def acquiresleep (ip : Nat) : FsProg Unit := do
  let i ← inode ip
  if i.locked then stop .deadlock
  else setInode ip fun i => { i with locked := true }

def releasesleep (ip : Nat) : FsProg Unit :=
  setInode ip fun i => { i with locked := false }

def ilock (ip : Nat) : FsProg Unit := do
  let sb ← superblock
  let i ← inode ip
  if i.ref < 1 then panic "ilock"
  else do
    acquiresleep ip
    if i.valid then pure ()
    else do
      bread (iblock sb i.inum)
      let d ← load (iblock sb i.inum)
      setDin ip fun _ => Dinode.read d (ioff i.inum)
      brelse (iblock sb i.inum)
      setInode ip fun i => { i with valid := true }
      if (Dinode.read d (ioff i.inum)).type = 0 then panic "ilock: no type" else pure ()

def iunlock (ip : Nat) : FsProg Unit := do
  let i ← inode ip
  if !i.locked ∨ i.ref < 1 then panic "iunlock" else releasesleep ip

/-! ## Inode content -/

/-- The step `bmap` makes for a direct block and for the indirect block: the address in
`addrs[k]`, allocated if there is none. -/
def bmapAddr (ip k : Nat) : FsProg Nat := do
  let i ← inode ip
  if i.din.addr k = 0 then do
    let a ← balloc
    if a = 0 then pure 0
    else do
      setDin ip fun x => x.setAddr k a
      pure a
  else pure (i.din.addr k)

def bmapEntry (ind k : Nat) : FsProg Nat := do
  bread ind
  let d ← load ind
  if getLE d (4 * k) 4 = 0 then do
    let a ← balloc
    if a = 0 then do
      brelse ind
      pure 0
    else do
      store ind fun d => putLE d (4 * k) 4 a
      logWrite ind
      brelse ind
      pure a
  else do
    brelse ind
    pure (getLE d (4 * k) 4)

def bmap (ip bn : Nat) : FsProg Nat :=
  if bn < nDirect then bmapAddr ip bn
  else if bn - nDirect < nIndirect then do
    let ind ← bmapAddr ip nDirect
    if ind = 0 then pure 0 else bmapEntry ind (bn - nDirect)
  else panic "bmap: out of range"

def itruncDirect (ip k : Nat) : FsProg Unit := do
  let i ← inode ip
  if i.din.addr k = 0 then pure ()
  else do
    bfree (i.din.addr k)
    setDin ip fun x => x.setAddr k 0

def itruncIndirect (d : Block) (j : Nat) : FsProg Unit :=
  if getLE d (4 * j) 4 = 0 then pure () else bfree (getLE d (4 * j) 4)

/-- The part of `itrunc` about the indirect block `ind`. -/
def itruncBlock (ip ind : Nat) : FsProg Unit :=
  if ind = 0 then pure ()
  else do
    bread ind
    let d ← load ind
    Comp.loop (itruncIndirect d) 0 nIndirect
    brelse ind
    bfree ind
    setDin ip fun x => x.setAddr nDirect 0

def itrunc (ip : Nat) : FsProg Unit := do
  Comp.loop (itruncDirect ip) 0 nDirect
  let i ← inode ip
  itruncBlock ip (i.din.addr nDirect)
  setDin ip fun x => { x with size := 0 }
  iupdate ip

/-- What `iput` does when the last reference to an inode without links goes. -/
def ifree (ip : Nat) : FsProg Unit := do
  acquiresleep ip
  itrunc ip
  setDin ip fun x => { x with type := 0 }
  iupdate ip
  setInode ip fun i => { i with valid := false }
  releasesleep ip

def iput (ip : Nat) : FsProg Unit := do
  let i ← inode ip
  if i.ref = 1 ∧ i.valid ∧ i.din.nlink = 0 then ifree ip else pure ()
  setInode ip fun i => { i with ref := i.ref - 1 }

def iunlockput (ip : Nat) : FsProg Unit := do
  iunlock ip
  iput ip

def blockBytes (d : Block) (o m : Nat) : List UInt8 :=
  (List.range m).map fun j => d (o + j)

def readLoop (ip : Nat) (dst : Dst) (n : Nat) :
    Nat → Nat → Nat → List UInt8 → FsProg (Int × List UInt8)
  | 0, tot, _, out => pure (tot, out)
  | fuel + 1, tot, off, out =>
      if tot < n then do
        let a ← bmap ip (off / bsize)
        if a = 0 then pure (tot, out)
        else do
          bread a
          let d ← load a
          let m := min (n - tot) (bsize - off % bsize)
          brelse a
          if dst.copied tot m = m then
            readLoop ip dst n fuel (tot + m) (off + m) (out ++ blockBytes d (off % bsize) m)
          else pure (-1, out ++ blockBytes d (off % bsize) (dst.copied tot m))
      else pure (tot, out)

def readi (ip : Nat) (dst : Dst) (off n : Nat) : FsProg (Int × List UInt8) := do
  let i ← inode ip
  let sum := (off + n) % 2 ^ 32
  if i.din.size < off ∨ sum < off then pure (0, [])
  else
    let n := if i.din.size < sum then i.din.size - off else n
    readLoop ip dst n n 0 off []

/-- The stores of `either_copyin` into the held block `a`; a copy that fails at its first page
stores nothing. -/
def copyBlock (a o cnt : Nat) (bytes : Nat → UInt8) : FsProg Unit :=
  if cnt = 0 then pure () else store a fun d => splice d o cnt bytes

def writeLoop (ip : Nat) (src : Src) (n : Nat) : Nat → Nat → Nat → FsProg (Nat × Nat)
  | 0, tot, off => pure (tot, off)
  | fuel + 1, tot, off =>
      if tot < n then do
        let a ← bmap ip (off / bsize)
        if a = 0 then pure (tot, off)
        else do
          bread a
          let m := min (n - tot) (bsize - off % bsize)
          copyBlock a (off % bsize) (src.copied tot m) fun j => src.byte (tot + j)
          if src.copied tot m = m then do
            logWrite a
            brelse a
            writeLoop ip src n fuel (tot + m) (off + m)
          else do
            brelse a
            pure (tot, off)
      else pure (tot, off)

def writei (ip : Nat) (src : Src) (off n : Nat) : FsProg Int := do
  let i ← inode ip
  let sum := (off + n) % 2 ^ 32
  if i.din.size < off ∨ sum < off then return -1
  else if maxFile * bsize < sum then return -1
  else do
    let (tot, off) ← writeLoop ip src n n 0 off
    setDin ip fun x => { x with size := if x.size < off then off else x.size }
    iupdate ip
    return tot

/-! ## Directories -/

/-- The comparison `strncmp(s, t, n) == 0`; strings end at a zero or with their list. -/
def strncmpEq : Nat → List UInt8 → List UInt8 → Bool
  | 0, _, _ => true
  | n + 1, s, t =>
      if s.headD 0 ≠ 0 ∧ s.headD 0 = t.headD 0 then strncmpEq n s.tail t.tail
      else s.headD 0 = t.headD 0

def namecmpEq (s t : List UInt8) : Bool := strncmpEq dirSiz s t

def direntInum (de : List UInt8) : Nat :=
  (de.getD 0 0).toNat + 256 * (de.getD 1 0).toNat

def direntName (de : List UInt8) : List UInt8 := de.drop 2

def dirlookupFrom (dp : Nat) (name : List UInt8) (size : Nat) :
    Nat → Nat → FsProg (Option (Nat × Nat))
  | 0, _ => pure none
  | fuel + 1, off =>
      if off < size then do
        let (r, de) ← readi dp .kernel off direntSize
        if r ≠ direntSize then panic "dirlookup read"
        else if direntInum de ≠ 0 ∧ namecmpEq name (direntName de) then do
          let ip ← iget (direntInum de)
          return some (ip, off)
        else dirlookupFrom dp name size fuel (off + direntSize)
      else pure none

def dirlookup (dp : Nat) (name : List UInt8) : FsProg (Option (Nat × Nat)) := do
  let d ← inode dp
  if d.din.type ≠ tDir then panic "dirlookup not DIR"
  else dirlookupFrom dp name d.din.size (d.din.size / direntSize + 1) 0

/-- The search of `dirlink` for an empty entry. -/
def dirlinkOff (dp size : Nat) : Nat → Nat → FsProg Nat
  | 0, off => pure off
  | fuel + 1, off =>
      if off < size then do
        let (r, de) ← readi dp .kernel off direntSize
        if r ≠ direntSize then panic "dirlink read"
        else if direntInum de = 0 then pure off
        else dirlinkOff dp size fuel (off + direntSize)
      else pure off

def direntBytes (name : List UInt8) (inum : Nat) : Nat → UInt8
  | 0 => UInt8.ofNat inum
  | 1 => UInt8.ofNat (inum / 256)
  | j + 2 => (name.takeWhile (· ≠ 0)).getD j 0

def dirlink (dp : Nat) (name : List UInt8) (inum : Nat) : FsProg Int := do
  match ← dirlookup dp name with
  | some (ip, _) => do
      iput ip
      return -1
  | none => do
      let d ← inode dp
      let off ← dirlinkOff dp d.din.size (d.din.size / direntSize + 1) 0
      let r ← writei dp (.kernel (direntBytes name inum)) off direntSize
      if r ≠ direntSize then return -1 else return 0

/-! ## Paths -/

def slash : UInt8 := 47

/-- `skipelem`: the next element of a path, cut to the length of a name, and the rest. -/
def skipelem (path : List UInt8) : Option (List UInt8 × List UInt8) :=
  let path := path.dropWhile (· = slash)
  if path.headD 0 = 0 then none
  else
    let elem := path.takeWhile fun c => c ≠ slash ∧ c ≠ 0
    let rest := path.dropWhile fun c => c ≠ slash ∧ c ≠ 0
    some (elem.take dirSiz, rest.dropWhile (· = slash))

/-- The elements that repeated calls of `skipelem` take off a path. -/
def pathElems : Nat → List UInt8 → List (List UInt8)
  | 0, _ => []
  | fuel + 1, path =>
      match skipelem path with
      | none => []
      | some (name, rest) => name :: pathElems fuel rest

/-- The loop of `namex` over the elements that are left; `*path == '\0'` after `skipelem`
says that there are none. -/
def namexFrom (parent : Bool) : Nat → List (List UInt8) → FsProg (Option (Nat × List UInt8))
  | ip, [] =>
      if parent then do
        iput ip
        return none
      else return some (ip, [])
  | ip, name :: rest => do
      ilock ip
      let i ← inode ip
      if i.din.type ≠ tDir then do
        iunlockput ip
        return none
      else if parent ∧ rest = [] then do
        iunlock ip
        return some (ip, name)
      else do
        match ← dirlookup ip name with
        | none => do
            iunlockput ip
            return none
        | some (next, _) => do
            iunlockput ip
            namexFrom parent next rest

def namex (cwd : Nat) (path : List UInt8) (parent : Bool) :
    FsProg (Option (Nat × List UInt8)) := do
  let ip ← if path.headD 0 = slash then iget rootIno else idup cwd
  namexFrom parent ip (pathElems path.length path)

def namei (cwd : Nat) (path : List UInt8) : FsProg (Option Nat) := do
  return (← namex cwd path false).map Prod.fst

def nameiparent (cwd : Nat) (path : List UInt8) : FsProg (Option (Nat × List UInt8)) :=
  namex cwd path true

end Xv6.Fs
