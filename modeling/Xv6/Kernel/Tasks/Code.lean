import Xv6.Kernel.Vm.Fork
import Xv6.Lib.Run

/-! # Processes and their memory

What any processes of the table, in any order, do to memory: `fork`, `exec`, `sbrk`, `copyout`,
which also stands for what a process writes itself, and `wait` for one that has exited. Every
`kalloc` may find the free list empty. A process is named by its place in the table. Files, what
`fork` writes to the trapframe, the pages on which `sys_exec` keeps the arguments, and who may
wait for whom are left out.
-/

namespace Xv6.Tasks

open Lib Vm

structure Sys where
  phys : Phys
  -- the entries that are in use
  proc : Nat → Option Exec.Proc

abbrev Code := Comp Sys String

def vm {α : Type} (m : Vm.Code α) : Code α := Comp.zoom Sys.phys (fun s t => { s with phys := t }) m

def setProc (i : Nat) (x : Option Exec.Proc) : Code Unit :=
  Comp.assign fun s => { s with proc := upd s.proc i x }

section

variable (K : Image) (i : Nat) (p : Exec.Proc)

/-! ## Calls of process `i`, whose entry is `p` -/

def sbrk (n : Int) : Code Int := do
  let r ← vm (growproc K p.pagetable p.sz n)
  setProc i (some { p with sz := r.2 })
  if r.1 < 0 then return -1 else return p.sz

def fork : Code Int := do
  let s ← Comp.get
  -- the search of `allocproc`
  match (List.range nProc).find? fun j => (s.proc j).isNone with
  | none => return -1
  | some j =>
    match ← vm (Vm.fork K p.pagetable p.sz) with
    | none => return -1
    | some (trapframe, pagetable) =>
      setProc j (some { p with pagetable := pagetable, trapframe := trapframe })
      return j

/-- `exec` of the file found at `path`, unless there are too many arguments; `faults` are the
reads of the file that break off. -/
def exec (file : Option Exec.File) (path : List UInt8) (argv : List (List UInt8))
    (faults : List Nat) : Code Int :=
  if argv.length < maxArg then
    Comp.zoom (fun s => ⟨s.phys, p, 0, false, 0, faults⟩)
      (fun s k => ⟨k.phys, upd s.proc i (some k.proc)⟩) (Exec.exec K file path argv)
  else return -1

/-- `wait` from the point on where it frees the child `j`, which has exited. -/
def wait (j : Nat) : Code Int := do
  let s ← Comp.get
  match s.proc j with
  | none => return -1
  | some q =>
    vm (freeproc K q.trapframe q.pagetable q.sz)
    setProc j none
    return j

inductive Call where
  | fork
  | exec (file : Option Exec.File) (path : List UInt8) (argv : List (List UInt8))
      (faults : List Nat)
  | sbrk (n : Int)
  | copyout (va : Nat) (src : Bytes) (len : Nat)
  | wait (j : Nat)

def syscall : Call → Code Int
  | .fork => fork K p
  | .exec file path argv faults => exec K i p file path argv faults
  | .sbrk n => sbrk K i p n
  | .copyout va src len => vm (copyout p.pagetable va src len)
  | .wait j => wait K j

end

def step (K : Image) (s : Sys) (e : Nat × Call) : Option Sys :=
  match s.proc e.1 with
  | none => none
  | some p =>
    match syscall K e.1 p e.2 s with
    | ⟨.ok _, t, _⟩ => some t
    | ⟨.error _, _, _⟩ => none

def alone (phys : Phys) (p : Exec.Proc) : Sys := ⟨phys, upd (fun _ => none) 0 (some p)⟩

end Xv6.Tasks
