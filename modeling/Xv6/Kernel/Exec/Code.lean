import Xv6.Kernel.Vm.Code

/-! # `exec`

The code of `kernel/exec.c` over physical memory, the calling process and what the file
system shows of the file: its contents, the references to its inode, the lock, and the
number of open file system calls. A call of `readi` may break off early, when a block of the
file cannot be had; `faults` says after how many bytes the next calls do.
-/

namespace Xv6.Exec

open Lib Vm

/-- The fields of `struct proc` that a system call on memory reads or that must survive it. -/
structure Proc where
  pagetable : Nat
  sz : Nat
  trapframe : Nat
  name : Bytes
  ofile : Nat → Option Nat
  cwd : Nat

structure Kern where
  phys : Phys
  proc : Proc
  ref : Int
  locked : Bool
  outstanding : Int
  faults : List Nat

abbrev Code := Comp Kern String

structure File where
  size : Nat
  data : Bytes
  size_lt : size < 2 ^ 32

def vm {α : Type} (m : Vm.Code α) : Code α :=
  Comp.zoom Kern.phys (fun k t => { k with phys := t }) m

/-! ## The file system -/

def beginOp : Code Unit := Comp.assign fun k => { k with outstanding := k.outstanding + 1 }

def endOp : Code Unit := Comp.assign fun k => { k with outstanding := k.outstanding - 1 }

/-- `namei` ends with a reference to the inode it has found. -/
def namei (file : Option File) : Code (Option File) := do
  if file.isSome then Comp.assign fun k => { k with ref := k.ref + 1 }
  return file

def ilock : Code Unit := do
  let k ← Comp.get
  if k.ref < 1 then Comp.stop "ilock"
  else if k.locked then Comp.stop "acquiresleep"
  else Comp.assign fun k => { k with locked := true }

def iunlockput : Code Unit := do
  let k ← Comp.get
  if !k.locked ∨ k.ref < 1 then Comp.stop "iunlock"
  else Comp.assign fun k => { k with locked := false, ref := k.ref - 1 }

/-- The number of bytes that `readi` delivers. -/
def readi (f : File) (off n : Nat) : Code Nat := do
  if f.size < off ∨ (off + n) % 2 ^ 32 < off then return 0
  else
    let n := if f.size < off + n then f.size - off else n
    let k ← Comp.get
    Comp.assign fun k => { k with faults := k.faults.tail }
    return min n (k.faults.headD n)

/-! ## ELF files -/

def elfMagic : Nat := 0x464C457F

structure Elfhdr where
  magic : Nat
  entry : Nat
  phoff : Nat
  phnum : Nat

structure Proghdr where
  type : Nat
  flags : Nat
  off : Nat
  vaddr : Nat
  filesz : Nat
  memsz : Nat
  vaddr_lt : vaddr < 2 ^ 64
  memsz_lt : memsz < 2 ^ 64

def sizeofElfhdr : Nat := 64

def sizeofProghdr : Nat := 56

def Elfhdr.read (b : Bytes) (a : Nat) : Elfhdr where
  magic := getLE b a 4
  entry := getLE b (a + 24) 8
  phoff := getLE b (a + 32) 8
  phnum := getLE b (a + 56) 2

def Proghdr.read (b : Bytes) (a : Nat) : Proghdr where
  type := getLE b a 4
  flags := getLE b (a + 4) 4
  off := getLE b (a + 8) 8
  vaddr := getLE b (a + 16) 8
  filesz := getLE b (a + 32) 8
  memsz := getLE b (a + 40) 8
  vaddr_lt := getLE_lt b (a + 16) 8
  memsz_lt := getLE_lt b (a + 40) 8

def flags2perm (flags : Nat) : Nat :=
  let perm := if flags &&& 1 ≠ 0 then pteX else 0
  if flags &&& 2 ≠ 0 then perm ||| pteW else perm

/-! ## Loading -/

/-- The loop of `loadseg` from `i` on. The counter is 32 bits wide; a loop that has not ended
when it wraps around does not end. -/
def loadsegFrom (f : File) (pagetable va offset sz : Nat) : Nat → Nat → Code Int
  | 0, _ => Comp.stop "loadseg does not end"
  | fuel + 1, i => do
      if i < sz then
        let pa ← vm (walkaddr pagetable ((va + i) % 2 ^ 64))
        if pa = 0 then Comp.stop "loadseg: address should exist"
        else
          let n := if sz - i < pgSize then sz - i else pgSize
          let off := (offset + i) % 2 ^ 32
          let r ← readi f off n
          vm (Comp.assign fun s => { s with mem := splice s.mem pa r fun j => f.data (off + j) })
          if r ≠ n then return -1
          else loadsegFrom f pagetable va offset sz fuel ((i + pgSize) % 2 ^ 32)
      else return 0

def loadseg (f : File) (pagetable va offset sz : Nat) : Code Int :=
  loadsegFrom f pagetable va offset sz (2 ^ 32 / pgSize) 0

section

variable (K : Image)

/-- A segment with the header `ph`. The result is the new size, or the size at `goto bad`. -/
def loadPhdr (f : File) (pagetable : Nat) (ph : Proghdr) (sz : Nat) :
    Code (Except Nat Nat) := do
  if ph.type ≠ 1 then return .ok sz
  else if ph.memsz < ph.filesz then return .error sz
  else if (ph.vaddr + ph.memsz) % 2 ^ 64 < ph.vaddr then return .error sz
  else if ph.vaddr % pgSize ≠ 0 then return .error sz
  else
    let sz1 ← vm (uvmalloc K pagetable sz ((ph.vaddr + ph.memsz) % 2 ^ 64) (flags2perm ph.flags))
    if sz1 = 0 then return .error sz
    else
      let r ← loadseg f pagetable ph.vaddr (ph.off % 2 ^ 32) (ph.filesz % 2 ^ 32)
      if r < 0 then return .error sz1
      else return .ok sz1

def loadPhdrs (f : File) (pagetable : Nat) : Nat → Nat → Nat → Code (Except Nat Nat)
  | 0, _, sz => return .ok sz
  | k + 1, off, sz => do
      let n ← readi f off sizeofProghdr
      if n ≠ sizeofProghdr then return .error sz
      else
        match ← loadPhdr K f pagetable (Proghdr.read f.data off) sz with
        | .error sz => return .error sz
        | .ok sz => loadPhdrs f pagetable k ((off + sizeofProghdr) % 2 ^ 32) sz

/-! ## The stack -/

def sub64 (a b : Nat) : Nat := (a + (2 ^ 64 - b % 2 ^ 64)) % 2 ^ 64

def align16 (sp : Nat) : Nat := sp - sp % 16

def bytesOf (l : List UInt8) : Bytes := fun i => l.getD i 0

def wordsOf (l : List Nat) : Bytes := fun i => UInt8.ofNat (l.getD (i / 8) 0 / 256 ^ (i % 8))

/-- The argument strings are pushed; `ustack` has the addresses of those already done. -/
def pushArgs (pagetable stackbase : Nat) :
    List (List UInt8) → Nat → List Nat → Code (Option (Nat × List Nat))
  | [], sp, ustack => return some (sp, ustack)
  | arg :: argv, sp, ustack => do
      if maxArg ≤ ustack.length then return none
      else
        let sp := align16 (sub64 sp (arg.length + 1))
        if sp < stackbase then return none
        else
          let r ← vm (copyout pagetable sp (bytesOf (arg ++ [0])) (arg.length + 1))
          if r < 0 then return none
          else pushArgs pagetable stackbase argv sp (ustack ++ [sp])

/-- The stack pages and what is pushed on them. -/
def buildStack (pagetable sz : Nat) (argv : List (List UInt8)) :
    Code (Except Nat (Nat × Nat × Nat)) := do
  let sz := pgRoundUp sz
  let sz1 ← vm (uvmalloc K pagetable sz ((sz + 2 * pgSize) % 2 ^ 64) pteW)
  if sz1 = 0 then return .error sz
  else
    vm (uvmclear pagetable (sub64 sz1 (2 * pgSize)))
    let stackbase := sub64 sz1 pgSize
    match ← pushArgs pagetable stackbase argv sz1 [] with
    | none => return .error sz1
    | some (sp, ustack) =>
      -- `ustack` has room for `MAXARG` words, the last is 0
      if maxArg ≤ ustack.length then Comp.stop "ustack"
      else
        let sp := align16 (sub64 sp ((ustack.length + 1) * 8))
        if sp < stackbase then return .error sz1
        else
          let r ← vm (copyout pagetable sp (wordsOf (ustack ++ [0])) ((ustack.length + 1) * 8))
          if r < 0 then return .error sz1
          else return .ok (sz1, sp, ustack.length)

/-! ## The whole -/

/-- The rest of the path after its last slash. -/
def lastElem : List UInt8 → List UInt8 → List UInt8
  | last, [] => last
  | last, c :: s => if c = 47 then lastElem s s else lastElem last s

/-- The loop copies at most `n - 1` bytes, the NUL of `t` among them; then it writes another. -/
def safestrcpy (s : Bytes) (t : List UInt8) (n : Nat) : Bytes :=
  if n = 0 then s
  else
    let l := (t ++ [0]).take (n - 1)
    splice s 0 (l.length + 1) (bytesOf (l ++ [0]))

def sizeofName : Nat := 16

/-- Offsets in `struct trapframe`. -/
def tfEpc : Nat := 24

def tfSp : Nat := 48

def tfA1 : Nat := 120

def commit (pagetable sz sp entry : Nat) (path : List UInt8) : Code Unit := do
  let k ← Comp.get
  let p := k.proc
  vm (store (p.trapframe + tfA1) sp)
  Comp.assign fun k => { k with proc := { p with
    name := safestrcpy p.name (lastElem path path) sizeofName
    pagetable := pagetable
    sz := sz } }
  vm (store (p.trapframe + tfEpc) entry)
  vm (store (p.trapframe + tfSp) sp)
  vm (procFreepagetable K p.pagetable p.sz)

def bad (pagetable sz : Nat) (ip : Bool) : Code Int := do
  if pagetable ≠ 0 then vm (procFreepagetable K pagetable sz)
  if ip then
    iunlockput
    endOp
  return -1

/-- The part of `exec` after the file has been read. -/
def enter (pagetable sz entry : Nat) (path : List UInt8) (argv : List (List UInt8)) :
    Code Int := do
  match ← buildStack K pagetable sz argv with
  | .error sz => bad K pagetable sz false
  | .ok (sz, sp, argc) =>
    commit K pagetable sz sp entry path
    return argc

def execFile (f : File) (path : List UInt8) (argv : List (List UInt8)) : Code Int := do
  let n ← readi f 0 sizeofElfhdr
  let elf := Elfhdr.read f.data 0
  if n ≠ sizeofElfhdr then bad K 0 0 true
  else if elf.magic ≠ elfMagic then bad K 0 0 true
  else
    let k ← Comp.get
    let pagetable ← vm (procPagetable K k.proc.trapframe)
    if pagetable = 0 then bad K 0 0 true
    else
      match ← loadPhdrs K f pagetable elf.phnum (elf.phoff % 2 ^ 32) 0 with
      | .error sz => bad K pagetable sz true
      | .ok sz =>
        iunlockput
        endOp
        enter K pagetable sz elf.entry path argv

def exec (file : Option File) (path : List UInt8) (argv : List (List UInt8)) : Code Int := do
  beginOp
  match ← namei file with
  | none =>
    endOp
    return -1
  | some f =>
    ilock
    execFile K f path argv

end

end Xv6.Exec
