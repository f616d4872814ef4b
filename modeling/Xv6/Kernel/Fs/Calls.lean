import Xv6.Kernel.Fs.Code

/-! # The code of `kernel/file.c` and `kernel/sysfile.c`

A system call is made by process `p`. A path argument is what `argstr` fetched,
`none` if it failed. The part of `fork`, `exit` and `exec` that concerns files is
here too; pipes and devices only occupy entries of the file table.
-/

namespace Xv6.Fs

open Lib

/-! ## Open files -/

def filealloc : FsProg (Option Nat) := do
  let m ← mem
  match (List.range nFile).find? fun f => (m.ftable f).ref = 0 with
  | some f => do
      setFile f fun f => { f with ref := 1 }
      return some f
  | none => return none

def filedup (f : Nat) : FsProg Unit := do
  let x ← file f
  if x.ref < 1 then panic "filedup"
  else setFile f fun x => { x with ref := x.ref + 1 }

def fileclose (f : Nat) : FsProg Unit := do
  let x ← file f
  if x.ref < 1 then panic "fileclose"
  else if 0 < x.ref - 1 then setFile f fun x => { x with ref := x.ref - 1 }
  else do
    setFile f fun x => { x with ref := 0, type := .none }
    if x.type = .inode ∨ x.type = .device then do
      beginOp
      iput x.ip
      endOp
    else pure ()

/-- `filestat`; `ok` says whether the copy to the user succeeds. -/
def filestat (f : Nat) (ok : Bool) : FsProg Int := do
  let x ← file f
  if x.type = .inode ∨ x.type = .device then do
    ilock x.ip
    iunlock x.ip
    if ok then return 0 else return -1
  else return -1

def toUint (n : Int) : Nat := (n % 2 ^ 32).toNat

/-- `fileread`: what it returns, and the bytes it copies to user memory. Reads of pipes and
devices do not touch the file system; `other` says what comes of them. -/
def fileread (f : Nat) (um : UserMem) (addr : Nat) (n : Int) (other : File → Int × List UInt8) :
    FsProg (Int × List UInt8) := do
  let x ← file f
  if !x.readable then return (-1, [])
  else
    match x.type with
    | .pipe => return other x
    | .device => return other x
    | .inode => do
        ilock x.ip
        let r ← readi x.ip (.user um addr) x.off (toUint n)
        if 0 < r.1 then setFile f fun x => { x with off := (x.off + r.1.toNat) % 2 ^ 32 }
        else pure ()
        iunlock x.ip
        return r
    | .none => panic "fileread"

/-- The bytes `filewrite` writes in one transaction. -/
def maxWrite : Nat := (maxOpBlocks - 1 - 1 - 2) / 2 * bsize

def filewriteFrom (f ip : Nat) (um : UserMem) (addr n : Nat) : Nat → Nat → FsProg Nat
  | 0, i => pure i
  | fuel + 1, i =>
      if i < n then do
        let n1 := min (n - i) maxWrite
        beginOp
        ilock ip
        let x ← file f
        let r ← writei ip (.user um ((addr + i) % 2 ^ 64)) x.off n1
        if 0 < r then setFile f fun x => { x with off := (x.off + r.toNat) % 2 ^ 32 } else pure ()
        iunlock ip
        endOp
        if r ≠ n1 then return i else filewriteFrom f ip um addr n fuel (i + n1)
      else return i

/-- `filewrite`; `other` says what a pipe or a device returns. -/
def filewrite (f : Nat) (um : UserMem) (addr : Nat) (n : Int) (other : File → Int) :
    FsProg Int := do
  let x ← file f
  if !x.writable then return -1
  else
    match x.type with
    | .pipe => return other x
    | .device => return other x
    | .inode => do
        let i ← filewriteFrom f x.ip um addr n.toNat n.toNat 0
        if (i : Int) = n then return n else return -1
    | .none => panic "filewrite"

/-! ## Descriptors -/

def argfd (p : Nat) (fd : Int) : FsProg (Option Nat) := do
  let pr ← proc p
  if 0 ≤ fd ∧ fd < nOfile then return pr.ofile fd.toNat else return none

def fdalloc (p f : Nat) : FsProg (Option Nat) := do
  let pr ← proc p
  match (List.range nOfile).find? fun fd => (pr.ofile fd).isNone with
  | some fd => do
      setProc p fun pr => { pr with ofile := upd pr.ofile fd (some f) }
      return some fd
  | none => return none

def clearFd (p fd : Nat) : FsProg Unit :=
  setProc p fun pr => { pr with ofile := upd pr.ofile fd none }

def sysDup (p : Nat) (fd : Int) : FsProg Int := do
  match ← argfd p fd with
  | none => return -1
  | some f =>
      match ← fdalloc p f with
      | none => return -1
      | some fd => do
          filedup f
          return fd

def sysRead (p : Nat) (fd : Int) (um : UserMem) (addr : Nat) (n : Int)
    (other : File → Int × List UInt8) : FsProg Int := do
  match ← argfd p fd with
  | none => return -1
  | some f => Prod.fst <$> fileread f um addr n other

def sysWrite (p : Nat) (fd : Int) (um : UserMem) (addr : Nat) (n : Int) (other : File → Int) :
    FsProg Int := do
  match ← argfd p fd with
  | none => return -1
  | some f => filewrite f um addr n other

def sysClose (p : Nat) (fd : Int) : FsProg Int := do
  match ← argfd p fd with
  | none => return -1
  | some f => do
      clearFd p fd.toNat
      fileclose f
      return 0

def sysFstat (p : Nat) (fd : Int) (ok : Bool) : FsProg Int := do
  match ← argfd p fd with
  | none => return -1
  | some f => filestat f ok

/-! ## Names -/

def linkBad (ip : Nat) : FsProg Int := do
  ilock ip
  setDin ip fun x => { x with nlink := x.nlink - 1 }
  iupdate ip
  iunlockput ip
  endOp
  return -1

def sysLink (p : Nat) (old new : Option (List UInt8)) : FsProg Int :=
  match old, new with
  | some old, some new => do
      beginOp
      let pr ← proc p
      match ← namei pr.cwd old with
      | none => do
          endOp
          return -1
      | some ip => do
          ilock ip
          let i ← inode ip
          if i.din.type = tDir then do
            iunlockput ip
            endOp
            return -1
          else do
            setDin ip fun x => { x with nlink := x.nlink + 1 }
            iupdate ip
            iunlock ip
            match ← nameiparent pr.cwd new with
            | none => linkBad ip
            | some (dp, name) => do
                ilock dp
                let i ← inode ip
                let r ← dirlink dp name i.inum
                if r < 0 then do
                  iunlockput dp
                  linkBad ip
                else do
                  iunlockput dp
                  iput ip
                  endOp
                  return 0
  | _, _ => return -1

def isdiremptyFrom (dp size : Nat) : Nat → Nat → FsProg Bool
  | 0, _ => pure true
  | fuel + 1, off =>
      if off < size then do
        let (r, de) ← readi dp .kernel off direntSize
        if r ≠ direntSize then panic "isdirempty: readi"
        else if direntInum de ≠ 0 then pure false
        else isdiremptyFrom dp size fuel (off + direntSize)
      else pure true

def isdirempty (dp : Nat) : FsProg Bool := do
  let d ← inode dp
  isdiremptyFrom dp d.din.size (d.din.size / direntSize + 1) (2 * direntSize)

def dot : List UInt8 := [46]

def dotdot : List UInt8 := [46, 46]

def unlinkBad (dp : Nat) : FsProg Int := do
  iunlockput dp
  endOp
  return -1

def unlinkEntry (dp ip off : Nat) : FsProg Int := do
  ilock ip
  let i ← inode ip
  if i.din.nlink.toInt < 1 then panic "unlink: nlink < 1"
  else do
    let empty ← if i.din.type = tDir then isdirempty ip else pure true
    if !empty then do
      iunlockput ip
      unlinkBad dp
    else do
      let r ← writei dp (.kernel fun _ => 0) off direntSize
      if r ≠ direntSize then panic "unlink: writei"
      else do
        if i.din.type = tDir then do
          setDin dp fun x => { x with nlink := x.nlink - 1 }
          iupdate dp
        else pure ()
        iunlockput dp
        setDin ip fun x => { x with nlink := x.nlink - 1 }
        iupdate ip
        iunlockput ip
        endOp
        return 0

def sysUnlink (p : Nat) (path : Option (List UInt8)) : FsProg Int :=
  match path with
  | none => return -1
  | some path => do
      beginOp
      let pr ← proc p
      match ← nameiparent pr.cwd path with
      | none => do
          endOp
          return -1
      | some (dp, name) => do
          ilock dp
          if namecmpEq name dot ∨ namecmpEq name dotdot then unlinkBad dp
          else
            match ← dirlookup dp name with
            | none => unlinkBad dp
            | some (ip, off) => unlinkEntry dp ip off

def createFail (dp ip : Nat) : FsProg (Option Nat) := do
  setDin ip fun x => { x with nlink := 0 }
  iupdate ip
  iunlockput ip
  iunlockput dp
  return none

/-- `create` once the new inode `ip` is locked: its fields, its `.` and `..`, its entry. -/
def createNew (dp : Nat) (name : List UInt8) (type major minor : BitVec 16) (ip : Nat) :
    FsProg (Option Nat) := do
  let d ← inode dp
  let i ← inode ip
  setDin ip fun x => { x with major := major, minor := minor, nlink := 1 }
  iupdate ip
  let dots ← if type = tDir then do
      let r ← dirlink ip dot i.inum
      if r < 0 then pure false
      else do
        let r ← dirlink ip dotdot d.inum
        pure (0 ≤ r : Bool)
    else pure true
  if !dots then createFail dp ip
  else do
    let r ← dirlink dp name i.inum
    if r < 0 then createFail dp ip
    else do
      if type = tDir then do
        setDin dp fun x => { x with nlink := x.nlink + 1 }
        iupdate dp
      else pure ()
      iunlockput dp
      return some ip

def create (cwd : Nat) (path : List UInt8) (type major minor : BitVec 16) :
    FsProg (Option Nat) := do
  match ← nameiparent cwd path with
  | none => return none
  | some (dp, name) => do
      ilock dp
      match ← dirlookup dp name with
      | some (ip, _) => do
          iunlockput dp
          ilock ip
          let i ← inode ip
          if type = tFile ∧ (i.din.type = tFile ∨ i.din.type = tDevice) then return some ip
          else do
            iunlockput ip
            return none
      | none =>
          match ← ialloc type with
          | none => do
              iunlockput dp
              return none
          | some ip => do
              ilock ip
              createNew dp name type major minor ip

/-! ## System calls -/

def oWronly : Nat := 0x001

def oRdwr : Nat := 0x002

def oCreate : Nat := 0x200

def oTrunc : Nat := 0x400

def openBad (ip : Nat) : FsProg Int := do
  iunlockput ip
  endOp
  return -1

def openFile (x : File) (din : Dinode) (ip omode : Nat) : File :=
  let x := { x with ip := ip, readable := omode &&& oWronly = 0 }
  let x := { x with writable := omode &&& oWronly ≠ 0 ∨ omode &&& oRdwr ≠ 0 }
  if din.type = tDevice then { x with type := .device, major := din.major }
  else { x with type := .inode, off := 0 }

def openInode (p ip omode : Nat) : FsProg Int := do
  let i ← inode ip
  if i.din.type = tDevice ∧ (i.din.major.toInt < 0 ∨ nDev ≤ i.din.major.toInt) then openBad ip
  else
    match ← filealloc with
    | none => openBad ip
    | some f =>
        match ← fdalloc p f with
        | none => do
            fileclose f
            openBad ip
        | some fd => do
            setFile f fun x => openFile x i.din ip omode
            if omode &&& oTrunc ≠ 0 ∧ i.din.type = tFile then itrunc ip else pure ()
            iunlock ip
            endOp
            return fd

def sysOpen (p : Nat) (path : Option (List UInt8)) (omode : Nat) : FsProg Int :=
  match path with
  | none => return -1
  | some path => do
      beginOp
      let pr ← proc p
      if omode &&& oCreate ≠ 0 then
        match ← create pr.cwd path tFile 0 0 with
        | none => do
            endOp
            return -1
        | some ip => openInode p ip omode
      else
        match ← namei pr.cwd path with
        | none => do
            endOp
            return -1
        | some ip => do
            ilock ip
            let i ← inode ip
            if i.din.type = tDir ∧ omode ≠ 0 then openBad ip else openInode p ip omode

/-- `sys_mkdir` and `sys_mknod`: the new inode is not kept. -/
def sysCreate (p : Nat) (path : Option (List UInt8)) (type major minor : BitVec 16) :
    FsProg Int := do
  beginOp
  let pr ← proc p
  match path with
  | none => do
      endOp
      return -1
  | some path =>
      match ← create pr.cwd path type major minor with
      | none => do
          endOp
          return -1
      | some ip => do
          iunlockput ip
          endOp
          return 0

def sysMkdir (p : Nat) (path : Option (List UInt8)) : FsProg Int :=
  sysCreate p path tDir 0 0

def sysMknod (p : Nat) (path : Option (List UInt8)) (major minor : Int) : FsProg Int :=
  sysCreate p path tDevice (.ofInt 16 major) (.ofInt 16 minor)

def sysChdir (p : Nat) (path : Option (List UInt8)) : FsProg Int := do
  beginOp
  let pr ← proc p
  match path with
  | none => do
      endOp
      return -1
  | some path =>
      match ← namei pr.cwd path with
      | none => do
          endOp
          return -1
      | some ip => do
          ilock ip
          let i ← inode ip
          if i.din.type ≠ tDir then do
            iunlockput ip
            endOp
            return -1
          else do
            iunlock ip
            iput pr.cwd
            endOp
            setProc p fun pr => { pr with cwd := ip }
            return 0

/-- `pipealloc` and `sys_pipe`; `mem` says whether `kalloc` succeeds, `copied` whether both
descriptors reach the user. -/
def sysPipe (p : Nat) (mem copied : Bool) : FsProg Int := do
  match ← filealloc with
  | none => return -1
  | some rf =>
      match ← filealloc with
      | none => do
          fileclose rf
          return -1
      | some wf =>
          if !mem then do
            fileclose rf
            fileclose wf
            return -1
          else do
            setFile rf fun x => { x with type := .pipe, readable := true, writable := false }
            setFile wf fun x => { x with type := .pipe, readable := false, writable := true }
            match ← fdalloc p rf with
            | none => do
                fileclose rf
                fileclose wf
                return -1
            | some fd0 =>
                match ← fdalloc p wf with
                | none => do
                    clearFd p fd0
                    fileclose rf
                    fileclose wf
                    return -1
                | some fd1 =>
                    if copied then return 0
                    else do
                      clearFd p fd0
                      clearFd p fd1
                      fileclose rf
                      fileclose wf
                      return -1

def forkFd (p child fd : Nat) : FsProg Unit := do
  let pr ← proc p
  match pr.ofile fd with
  | none => pure ()
  | some f => do
      filedup f
      setProc child fun c => { c with ofile := upd c.ofile fd (some f) }

/-- `fork` into the entry `child`, which `allocproc` found unused. -/
def sysFork (p child : Nat) : FsProg Int := do
  let c ← proc child
  if c.live ∨ nProc ≤ child then return -1
  else do
    Comp.loop (forkFd p child) 0 nOfile
    let pr ← proc p
    let cwd ← idup pr.cwd
    setProc child fun c => { c with cwd := cwd, live := true }
    return child

def exitFd (p fd : Nat) : FsProg Unit := do
  let pr ← proc p
  match pr.ofile fd with
  | none => pure ()
  | some f => do
      fileclose f
      clearFd p fd

/-- `exit`; process 0 is `initproc`. -/
def sysExit (p : Nat) : FsProg Int :=
  if p = 0 then panic "init exiting"
  else do
    Comp.loop (exitFd p) 0 nOfile
    let pr ← proc p
    beginOp
    iput pr.cwd
    endOp
    setProc p fun pr => { pr with live := false }
    return 0

/-- The reads of `exec`, whose places depend on the file and on the memory left. -/
def execReads (ip : Nat) : List (Nat × Nat) → FsProg Unit
  | [] => pure ()
  | (off, n) :: rest => do
      let _ ← readi ip .kernel off n
      execReads ip rest

def sysExec (p : Nat) (path : Option (List UInt8)) (reads : List (Nat × Nat)) (ret : Int) :
    FsProg Int :=
  match path with
  | none => return -1
  | some path => do
      beginOp
      let pr ← proc p
      match ← namei pr.cwd path with
      | none => do
          endOp
          return -1
      | some ip => do
          ilock ip
          execReads ip reads
          iunlockput ip
          endOp
          return ret

/-- The system calls that reach the file system, with what they fetched from the user. -/
inductive Syscall where
  | open (path : Option (List UInt8)) (omode : Nat)
  | mkdir (path : Option (List UInt8))
  | mknod (path : Option (List UInt8)) (major minor : Int)
  | link (old new : Option (List UInt8))
  | unlink (path : Option (List UInt8))
  | chdir (path : Option (List UInt8))
  | close (fd : Int)
  | dup (fd : Int)
  | read (fd : Int) (um : UserMem) (addr : Nat) (n : Int) (other : File → Int × List UInt8)
  | write (fd : Int) (um : UserMem) (addr : Nat) (n : Int) (other : File → Int)
  | fstat (fd : Int) (copied : Bool)
  | pipe (mem copied : Bool)
  | fork (child : Nat)
  | exit
  | exec (path : Option (List UInt8)) (reads : List (Nat × Nat)) (ret : Int)

/-- The system call `c` made by process `p`; a dead process makes none. -/
def syscall (p : Nat) (c : Syscall) : FsProg Int := do
  let pr ← proc p
  if !pr.live ∨ nProc ≤ p then return -1
  else
    match c with
    | .open path omode => sysOpen p path omode
    | .mkdir path => sysMkdir p path
    | .mknod path major minor => sysMknod p path major minor
    | .link old new => sysLink p old new
    | .unlink path => sysUnlink p path
    | .chdir path => sysChdir p path
    | .close fd => sysClose p fd
    | .dup fd => sysDup p fd
    | .read fd um addr n other => sysRead p fd um addr n other
    | .write fd um addr n other => sysWrite p fd um addr n other
    | .fstat fd copied => sysFstat p fd copied
    | .pipe mem copied => sysPipe p mem copied
    | .fork child => sysFork p child
    | .exit => sysExit p
    | .exec path reads ret => sysExec p path reads ret

end Xv6.Fs
