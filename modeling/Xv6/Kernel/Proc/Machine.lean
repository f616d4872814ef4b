import Xv6.Lib.Map
import Xv6.Kernel.Param
import Mathlib.Data.Fintype.Basic
import Mathlib.Data.BitVec

/-! # Processes on any number of CPUs

The code of `kernel/proc.c` that touches the state of processes, run by any number
of CPUs at the granularity of its locks. What a process does besides is a parameter:
a `code` that says, for each of its local states, which function it calls next.
Memory of type `M` is shared, spinlocks of type `Λ` protect it, and `ω` is what the
environment may answer.

A critical section of a `p->lock` that holds nothing else in between is one step,
which waits until the lock is free. The sections of `sleep`, `yield`, `exit`, `fork`
and `scheduler`, which hold it across other steps and across `swtch`, are not.
-/

namespace Xv6.Procs

open Lib

inductive ProcState where
  | unused
  | used
  | sleeping
  | runnable
  | running
  | zombie
deriving DecidableEq, Repr

/-- A wait channel: the address of a `struct proc`, or another one. -/
inductive Chan where
  | proc (p : Nat)
  | addr (a : Nat)
deriving DecidableEq, Repr

/-- The fields of `struct proc` that other processes read or write; `lock` is the CPU that
holds `p->lock`. -/
structure Proc where
  lock : Option Nat
  state : ProcState
  chan : Option Chan
  killed : Bool
  xstate : Int
  pid : BitVec 32
  parent : Option Nat
  traceMask : BitVec 32

/-- `wait_lock`, or a lock of the code that runs on top. -/
inductive Lock (Λ : Type) where
  | wait
  | other (l : Λ)
deriving DecidableEq

/-- The next thing a process does in one of its local states `κ`. -/
inductive Instr (κ M ω Λ : Type) where
  | acquire (l : Λ) (k : κ)
  | release (l : Λ) (k : κ)
  -- A read or write of the shared memory by process `p`.
  | access (f : (p : Nat) → ω → M → M × κ)
  -- `killed(myproc())`.
  | killed (k : Bool → κ)
  | sleep (chan : Nat) (l : Λ) (k : κ)
  | wakeup (chan : Nat) (k : κ)
  | kill (pid : BitVec 32) (k : Int → κ)
  -- `setkilled(myproc())`.
  | setkilled (k : κ)
  | fork (k : Int → κ) (child : κ)
  -- `wait(addr)`; `addr` says whether a status is asked for. It returns the pid and what it
  -- stored.
  | wait (addr : Bool) (k : Int → Option Int → κ)
  | exit (status : Int)
  -- `sys_trace(mask)`.
  | trace (mask : BitVec 32) (k : κ)

/-- Where the kernel thread of a process stands. The comment of a constructor is the next
statement it runs. -/
inductive Pc (κ Λ : Type) where
  | run (k : κ)
  -- `forkret`: `release(&p->lock)`
  | forkret (k : κ)
  -- `sleep`: `acquire(&p->lock)`
  | sleepAcquire (chan : Chan) (l : Lock Λ) (next : Pc κ Λ)
  -- `release(lk)`
  | sleepRelease (chan : Chan) (l : Lock Λ) (next : Pc κ Λ)
  -- `p->chan = chan; p->state = SLEEPING`
  | sleepSet (chan : Chan) (l : Lock Λ) (next : Pc κ Λ)
  -- `sched`: `swtch(&p->context, &mycpu()->context)`
  | sched (next : Pc κ Λ)
  -- `p->chan = 0; release(&p->lock)`
  | sleepTidy (l : Lock Λ) (next : Pc κ Λ)
  -- `acquire(lk)`
  | relock (l : Lock Λ) (next : Pc κ Λ)
  -- `yield`: `acquire(&p->lock); p->state = RUNNABLE`
  | yieldAcquire (next : Pc κ Λ)
  -- `release(&p->lock)`
  | yieldRelease (next : Pc κ Λ)
  -- `wakeup(chan)`: the loop at entry `j`
  | wake (chan : Option Chan) (j : Nat) (next : Pc κ Λ)
  -- `kill(pid)`: the loop at entry `j`
  | kill (pid : BitVec 32) (j : Nat) (k : Int → κ)
  -- `allocproc`: the loop at entry `j`
  | forkScan (j : Nat) (k : Int → κ) (child : κ)
  -- the allocations of `allocproc` and `uvmcopy`, then `release(&np->lock)`
  | forkAlloc (j : Nat) (k : Int → κ) (child : κ)
  -- `acquire(&wait_lock)`
  | forkWait (j : Nat) (pid : BitVec 32) (k : Int → κ)
  -- `np->parent = p`
  | forkParent (j : Nat) (pid : BitVec 32) (k : Int → κ)
  -- `release(&wait_lock)`
  | forkUnwait (j : Nat) (pid : BitVec 32) (k : Int → κ)
  -- `acquire(&np->lock); np->state = RUNNABLE; release(&np->lock)`
  | forkRunnable (j : Nat) (pid : BitVec 32) (k : Int → κ)
  -- `np->trace_mask = p->trace_mask`
  | forkMask (j : Nat) (pid : BitVec 32) (k : Int → κ)
  -- `exit`: `acquire(&wait_lock)`
  | exitWait (status : Int)
  -- `reparent`: the loop at entry `j`
  | exitReparent (j : Nat) (status : Int)
  -- `acquire(&p->lock); p->xstate = status; p->state = ZOMBIE`
  | exitZombie (status : Int)
  -- `release(&wait_lock)`
  | exitUnwait
  -- `panic("zombie exit")`
  | dead
  -- `wait`: `acquire(&wait_lock)`
  | waitLock (addr : Bool) (k : Int → Option Int → κ)
  -- the loop at entry `j`
  | waitScan (j : Nat) (havekids : Bool) (addr : Bool) (k : Int → Option Int → κ)
  -- `if(!havekids || killed(p))`
  | waitKids (havekids : Bool) (addr : Bool) (k : Int → Option Int → κ)
  -- `release(&wait_lock); return`
  | waitReturn (k : κ)

/-- Where a CPU stands in `scheduler`, at entry `i` of its loop. -/
inductive CpuPc where
  -- `acquire(&p->lock)` and the test of `p->state`
  | scan (i : Nat)
  -- `swtch(&c->context, &p->context)`
  | swtch (i : Nat)
  -- inside `swtch`: process `i` runs
  | process (i : Nat)
  -- `c->proc = 0`
  | back (i : Nat)
  -- `release(&p->lock)`
  | release (i : Nat)
deriving DecidableEq, Repr

structure Cpu where
  proc : Option Nat
  pc : CpuPc
deriving DecidableEq, Repr

structure Sys (κ M Λ : Type) where
  proc : Nat → Proc
  pc : Nat → Pc κ Λ
  cpu : Nat → Cpu
  lock : Lock Λ → Option Nat
  nextpid : BitVec 32
  mem : M

def initproc : Nat := 0

section

variable {κ M ω Λ : Type}

namespace Sys

def setProc (s : Sys κ M Λ) (j : Nat) (f : Proc → Proc) : Sys κ M Λ :=
  { s with proc := upd s.proc j (f (s.proc j)) }

def setPc (s : Sys κ M Λ) (i : Nat) (pc : Pc κ Λ) : Sys κ M Λ :=
  { s with pc := upd s.pc i pc }

def setCpu (s : Sys κ M Λ) (c : Nat) (x : Cpu) : Sys κ M Λ :=
  { s with cpu := upd s.cpu c x }

def setLock [DecidableEq Λ] (s : Sys κ M Λ) (l : Lock Λ) (c : Option Nat) : Sys κ M Λ :=
  { s with lock := upd s.lock l c }

section

variable (s : Sys κ M Λ)

@[simp] theorem setProc_proc (j : Nat) (f : Proc → Proc) (i : Nat) :
    (s.setProc j f).proc i = if i = j then f (s.proc j) else s.proc i := rfl

@[simp] theorem setProc_pc (j : Nat) (f : Proc → Proc) : (s.setProc j f).pc = s.pc := rfl

@[simp] theorem setProc_cpu (j : Nat) (f : Proc → Proc) : (s.setProc j f).cpu = s.cpu := rfl

@[simp] theorem setProc_lock (j : Nat) (f : Proc → Proc) : (s.setProc j f).lock = s.lock := rfl

@[simp] theorem setProc_nextpid (j : Nat) (f : Proc → Proc) :
    (s.setProc j f).nextpid = s.nextpid := rfl

@[simp] theorem setProc_mem (j : Nat) (f : Proc → Proc) : (s.setProc j f).mem = s.mem := rfl

@[simp] theorem setPc_pc (i : Nat) (pc : Pc κ Λ) (j : Nat) :
    (s.setPc i pc).pc j = if j = i then pc else s.pc j := rfl

@[simp] theorem setPc_proc (i : Nat) (pc : Pc κ Λ) : (s.setPc i pc).proc = s.proc := rfl

@[simp] theorem setPc_cpu (i : Nat) (pc : Pc κ Λ) : (s.setPc i pc).cpu = s.cpu := rfl

@[simp] theorem setPc_lock (i : Nat) (pc : Pc κ Λ) : (s.setPc i pc).lock = s.lock := rfl

@[simp] theorem setPc_nextpid (i : Nat) (pc : Pc κ Λ) :
    (s.setPc i pc).nextpid = s.nextpid := rfl

@[simp] theorem setPc_mem (i : Nat) (pc : Pc κ Λ) : (s.setPc i pc).mem = s.mem := rfl

@[simp] theorem setCpu_cpu (c : Nat) (x : Cpu) (d : Nat) :
    (s.setCpu c x).cpu d = if d = c then x else s.cpu d := rfl

@[simp] theorem setCpu_proc (c : Nat) (x : Cpu) : (s.setCpu c x).proc = s.proc := rfl

@[simp] theorem setCpu_pc (c : Nat) (x : Cpu) : (s.setCpu c x).pc = s.pc := rfl

@[simp] theorem setCpu_lock (c : Nat) (x : Cpu) : (s.setCpu c x).lock = s.lock := rfl

@[simp] theorem setCpu_nextpid (c : Nat) (x : Cpu) : (s.setCpu c x).nextpid = s.nextpid := rfl

@[simp] theorem setCpu_mem (c : Nat) (x : Cpu) : (s.setCpu c x).mem = s.mem := rfl

variable [DecidableEq Λ]

@[simp] theorem setLock_lock (l : Lock Λ) (o : Option Nat) (l' : Lock Λ) :
    (s.setLock l o).lock l' = if l' = l then o else s.lock l' := rfl

@[simp] theorem setLock_proc (l : Lock Λ) (o : Option Nat) : (s.setLock l o).proc = s.proc := rfl

@[simp] theorem setLock_pc (l : Lock Λ) (o : Option Nat) : (s.setLock l o).pc = s.pc := rfl

@[simp] theorem setLock_cpu (l : Lock Λ) (o : Option Nat) : (s.setLock l o).cpu = s.cpu := rfl

@[simp] theorem setLock_nextpid (l : Lock Λ) (o : Option Nat) :
    (s.setLock l o).nextpid = s.nextpid := rfl

@[simp] theorem setLock_mem (l : Lock Λ) (o : Option Nat) : (s.setLock l o).mem = s.mem := rfl

end

/-- CPU `c` holds no lock but perhaps the one of process `i`. -/
def LocksOnly (s : Sys κ M Λ) (c i : Nat) : Prop :=
  (∀ j < nProc, j ≠ i → (s.proc j).lock ≠ some c) ∧ s.lock .wait ≠ some c ∧
    ∀ l, s.lock (.other l) ≠ some c

instance [Fintype Λ] (s : Sys κ M Λ) (c i : Nat) : Decidable (s.LocksOnly c i) :=
  inferInstanceAs (Decidable (_ ∧ _ ∧ _))

end Sys

/-- `freeproc`; it leaves the trace mask. -/
def freeproc (x : Proc) : Proc :=
  { x with
    pid := 0, parent := none, chan := none, killed := false, xstate := 0, state := .unused }

/-- The body of the loop of `wakeup`. -/
def wakeOne (chan : Option Chan) (x : Proc) : Proc :=
  if x.state = .sleeping ∧ x.chan = chan then { x with state := .runnable } else x

def killOne (x : Proc) : Proc :=
  { x with killed := true, state := if x.state = .sleeping then .runnable else x.state }

end

inductive Ev (ω : Type) where
  -- The scheduler of CPU `c`.
  | sched (c : Nat)
  -- The process on CPU `c`; the environment answers `x`, and `ok` if an allocation or a copy is
  -- to succeed.
  | run (c : Nat) (x : ω) (ok : Bool)
  -- A timer interrupt on CPU `c`.
  | tick (c : Nat)
  -- A `wakeup` by an interrupt handler reaches process `p`.
  | intr (p : Nat)

section

variable {κ M ω Λ : Type} [Fintype Λ] [DecidableEq Λ]

/-- A step of `scheduler` on CPU `c`. -/
def schedStep (s : Sys κ M Λ) (c : Nat) : Option (Sys κ M Λ) :=
  match (s.cpu c).pc with
  | .scan i =>
      if (s.proc i).lock = none then
        if (s.proc i).state = .runnable then
          some <| (s.setProc i fun x => { x with lock := some c, state := .running }).setCpu c
            ⟨some i, .swtch i⟩
        else some (s.setCpu c ⟨(s.cpu c).proc, .scan ((i + 1) % nProc)⟩)
      else none
  | .swtch i => some (s.setCpu c ⟨(s.cpu c).proc, .process i⟩)
  | .process _ => none
  | .back i => some (s.setCpu c ⟨none, .release i⟩)
  | .release i =>
      some <| (s.setProc i fun x => { x with lock := none }).setCpu c
        ⟨(s.cpu c).proc, .scan ((i + 1) % nProc)⟩

def instrStep (s : Sys κ M Λ) (c i : Nat) (x : ω) : Instr κ M ω Λ → Option (Sys κ M Λ)
  | .acquire l k =>
      if s.lock (.other l) = none then some ((s.setLock (.other l) (some c)).setPc i (.run k))
      else none
  | .release l k =>
      if s.lock (.other l) = some c then some ((s.setLock (.other l) none).setPc i (.run k))
      else none
  | .access f => some ({ s with mem := (f i x s.mem).1 }.setPc i (.run (f i x s.mem).2))
  | .killed k =>
      if (s.proc i).lock = none then some (s.setPc i (.run (k (s.proc i).killed))) else none
  | .sleep a l k => some (s.setPc i (.sleepAcquire (.addr a) (.other l) (.run k)))
  | .wakeup a k => some (s.setPc i (.wake (some (.addr a)) 0 (.run k)))
  | .kill pid k => some (s.setPc i (.kill pid 0 k))
  | .setkilled k =>
      if (s.proc i).lock = none then
        some ((s.setProc i fun x => { x with killed := true }).setPc i (.run k))
      else none
  | .fork k child => some (s.setPc i (.forkScan 0 k child))
  | .wait addr k => some (s.setPc i (.waitLock addr k))
  | .exit status => if i = initproc then none else some (s.setPc i (.exitWait status))
  | .trace mask k =>
      some ((s.setProc i fun x => { x with traceMask := mask }).setPc i (.run k))

/-- A step of the kernel thread of process `i` on CPU `c`. -/
def threadStep (code : κ → Instr κ M ω Λ) (s : Sys κ M Λ) (c i : Nat) (x : ω) (ok : Bool) :
    Option (Sys κ M Λ) :=
  match s.pc i with
  | .run k => instrStep s c i x (code k)
  | .forkret k => some ((s.setProc i fun x => { x with lock := none }).setPc i (.run k))
  | .sleepAcquire ch l next =>
      if (s.proc i).lock = none then
        some ((s.setProc i fun x => { x with lock := some c }).setPc i (.sleepRelease ch l next))
      else none
  | .sleepRelease ch l next =>
      if s.lock l = some c then some ((s.setLock l none).setPc i (.sleepSet ch l next)) else none
  | .sleepSet ch l next =>
      some <| (s.setProc i fun x => { x with chan := some ch, state := .sleeping }).setPc i
        (.sched (.sleepTidy l next))
  | .sched next =>
      if (s.proc i).lock = some c ∧ s.LocksOnly c i ∧ (s.proc i).state ≠ .running then
        some ((s.setCpu c ⟨(s.cpu c).proc, .back i⟩).setPc i next)
      else none
  | .sleepTidy l next =>
      some ((s.setProc i fun x => { x with chan := none, lock := none }).setPc i (.relock l next))
  | .relock l next =>
      if s.lock l = none then some ((s.setLock l (some c)).setPc i next) else none
  | .yieldAcquire next =>
      if (s.proc i).lock = none then
        some <| (s.setProc i fun x => { x with lock := some c, state := .runnable }).setPc i
          (.sched (.yieldRelease next))
      else none
  | .yieldRelease next => some ((s.setProc i fun x => { x with lock := none }).setPc i next)
  | .wake ch j next =>
      if j < nProc then
        if j = i then some (s.setPc i (.wake ch (j + 1) next))
        else if (s.proc j).lock = none then
          some ((s.setProc j (wakeOne ch)).setPc i (.wake ch (j + 1) next))
        else none
      else some (s.setPc i next)
  | .kill pid j k =>
      if j < nProc then
        if (s.proc j).lock = none then
          if (s.proc j).pid = pid then some ((s.setProc j killOne).setPc i (.run (k 0)))
          else some (s.setPc i (.kill pid (j + 1) k))
        else none
      else some (s.setPc i (.run (k (-1))))
  | .forkScan j k child =>
      if j < nProc then
        if (s.proc j).lock = none then
          if (s.proc j).state = .unused then
            some <| ({ s with nextpid := s.nextpid + 1 }.setProc j fun x =>
              { x with lock := some c, pid := s.nextpid, state := .used }).setPc i
              (.forkAlloc j k child)
          else some (s.setPc i (.forkScan (j + 1) k child))
        else none
      else some (s.setPc i (.run (k (-1))))
  | .forkAlloc j k child =>
      if ok then
        some <| ((s.setProc j fun x => { x with lock := none }).setPc j (.forkret child)).setPc i
          (.forkWait j (s.proc j).pid k)
      else
        some ((s.setProc j fun x => { freeproc x with lock := none }).setPc i (.run (k (-1))))
  | .forkWait j pid k =>
      if s.lock .wait = none then
        some ((s.setLock .wait (some c)).setPc i (.forkParent j pid k))
      else none
  | .forkParent j pid k =>
      some ((s.setProc j fun x => { x with parent := some i }).setPc i (.forkUnwait j pid k))
  | .forkUnwait j pid k => some ((s.setLock .wait none).setPc i (.forkRunnable j pid k))
  | .forkRunnable j pid k =>
      if (s.proc j).lock = none then
        some ((s.setProc j fun x => { x with state := .runnable }).setPc i (.forkMask j pid k))
      else none
  | .forkMask j pid k =>
      some <| (s.setProc j fun x => { x with traceMask := (s.proc i).traceMask }).setPc i
        (.run (k pid.toInt))
  | .exitWait status =>
      if s.lock .wait = none then
        some ((s.setLock .wait (some c)).setPc i (.exitReparent 0 status))
      else none
  | .exitReparent j status =>
      if j < nProc then
        if (s.proc j).parent = some i then
          some <| (s.setProc j fun x => { x with parent := some initproc }).setPc i
            (.wake (some (.proc initproc)) 0 (.exitReparent (j + 1) status))
        else some (s.setPc i (.exitReparent (j + 1) status))
      else some (s.setPc i (.wake ((s.proc i).parent.map .proc) 0 (.exitZombie status)))
  | .exitZombie status =>
      if (s.proc i).lock = none then
        some <| (s.setProc i fun x =>
          { x with lock := some c, xstate := status, state := .zombie }).setPc i .exitUnwait
      else none
  | .exitUnwait => some ((s.setLock .wait none).setPc i (.sched .dead))
  | .dead => none
  | .waitLock addr k =>
      if s.lock .wait = none then
        some ((s.setLock .wait (some c)).setPc i (.waitScan 0 false addr k))
      else none
  | .waitScan j havekids addr k =>
      if j < nProc then
        if (s.proc j).parent = some i then
          if (s.proc j).lock = none then
            if (s.proc j).state = .zombie then
              if addr ∧ !ok then some (s.setPc i (.waitReturn (k (-1) none)))
              else
                some <| (s.setProc j freeproc).setPc i (.waitReturn
                  (k (s.proc j).pid.toInt (if addr then some (s.proc j).xstate else none)))
            else some (s.setPc i (.waitScan (j + 1) true addr k))
          else none
        else some (s.setPc i (.waitScan (j + 1) havekids addr k))
      else some (s.setPc i (.waitKids havekids addr k))
  | .waitKids havekids addr k =>
      if !havekids then some (s.setPc i (.waitReturn (k (-1) none)))
      else if (s.proc i).lock = none then
        if (s.proc i).killed then some (s.setPc i (.waitReturn (k (-1) none)))
        else some (s.setPc i (.sleepAcquire (.proc i) .wait (.waitScan 0 false addr k)))
      else none
  | .waitReturn k => some ((s.setLock .wait none).setPc i (.run k))

def step (code : κ → Instr κ M ω Λ) (s : Sys κ M Λ) : Ev ω → Option (Sys κ M Λ)
  | .sched c => schedStep s c
  | .run c x ok =>
      match (s.cpu c).pc with
      | .process i => threadStep code s c i x ok
      | _ => none
  | .tick c =>
      match (s.cpu c).pc with
      | .process i =>
          -- interrupts are off while the CPU holds a lock
          if (s.proc i).lock ≠ some c ∧ s.LocksOnly c i then
            some (s.setPc i (.yieldAcquire (s.pc i)))
          else none
      | _ => none
  | .intr p =>
      if (s.proc p).lock = none ∧ (s.proc p).state = .sleeping then
        some (s.setProc p fun x => { x with state := .runnable })
      else none

def Proc.fresh : Proc := ⟨none, .unused, none, false, 0, 0, none, 0⟩

/-- The state after `userinit`: the first process can run, in local state `k`. -/
def init (k : κ) (m : M) : Sys κ M Λ where
  proc := upd (fun _ => Proc.fresh) initproc { Proc.fresh with state := .runnable, pid := 1 }
  pc := upd (fun _ => .dead) initproc (.forkret k)
  cpu := fun _ => ⟨none, .scan 0⟩
  lock := fun _ => none
  nextpid := 2
  mem := m

def exec (code : κ → Instr κ M ω Λ) (s : Sys κ M Λ) : List (Ev ω) → Option (Sys κ M Λ)
  | [] => some s
  | e :: evs => (step code s e).bind fun t => exec code t evs

/-- A schedule leads from `s` to `t`, and every step of it meets `ok`. -/
def Runs (code : κ → Instr κ M ω Λ) (ok : Sys κ M Λ → Ev ω → Prop) (s : Sys κ M Λ) :
    List (Ev ω) → Sys κ M Λ → Prop
  | [], t => t = s
  | e :: evs, t => ok s e ∧ ∃ u, step code s e = some u ∧ Runs code ok u evs t

section

variable {code : κ → Instr κ M ω Λ} {ok : Sys κ M Λ → Ev ω → Prop} {s t : Sys κ M Λ}
  {evs : List (Ev ω)}

theorem Runs.exec (h : Runs code ok s evs t) : exec code s evs = some t := by
  induction evs generalizing s with
  | nil => exact congrArg some h.symm
  | cons e evs ih =>
    obtain ⟨-, u, hu, h⟩ := h
    rw [Procs.exec, hu]
    exact ih h

theorem Runs.snoc {e : Ev ω} :
    Runs code ok s (evs ++ [e]) t ↔
      ∃ u, Runs code ok s evs u ∧ ok u e ∧ step code u e = some t := by
  induction evs generalizing s with
  | nil =>
    simp only [List.nil_append, Runs]
    constructor
    · rintro ⟨ho, u, hu, rfl⟩
      exact ⟨s, rfl, ho, hu⟩
    · rintro ⟨u, rfl, ho, hu⟩
      exact ⟨ho, t, hu, rfl⟩
  | cons a evs ih =>
    simp only [List.cons_append, Runs, ih]
    constructor
    · rintro ⟨ha, v, hv, u, hr, ho, hu⟩
      exact ⟨u, ⟨ha, v, hv, hr⟩, ho, hu⟩
    · rintro ⟨u, ⟨ha, v, hv, hr⟩, ho, hu⟩
      exact ⟨ha, v, hv, u, hr, ho, hu⟩

end

/-! ## What one step can do -/

inductive Call (s : Sys κ M Λ) (c i : Nat) (x : ω) : Instr κ M ω Λ → Sys κ M Λ → Prop where
  | acquire {l : Λ} {k : κ} : s.lock (.other l) = none →
      Call s c i x (.acquire l k) ((s.setLock (.other l) (some c)).setPc i (.run k))
  | release {l : Λ} {k : κ} : s.lock (.other l) = some c →
      Call s c i x (.release l k) ((s.setLock (.other l) none).setPc i (.run k))
  | access {f : (p : Nat) → ω → M → M × κ} :
      Call s c i x (.access f) ({ s with mem := (f i x s.mem).1 }.setPc i (.run (f i x s.mem).2))
  | killed {k : Bool → κ} : (s.proc i).lock = none →
      Call s c i x (.killed k) (s.setPc i (.run (k (s.proc i).killed)))
  | sleep {a : Nat} {l : Λ} {k : κ} :
      Call s c i x (.sleep a l k) (s.setPc i (.sleepAcquire (.addr a) (.other l) (.run k)))
  | wakeup {a : Nat} {k : κ} :
      Call s c i x (.wakeup a k) (s.setPc i (.wake (some (.addr a)) 0 (.run k)))
  | kill {pid : BitVec 32} {k : Int → κ} :
      Call s c i x (.kill pid k) (s.setPc i (.kill pid 0 k))
  | setkilled {k : κ} : (s.proc i).lock = none →
      Call s c i x (.setkilled k)
        ((s.setProc i fun x => { x with killed := true }).setPc i (.run k))
  | fork {k : Int → κ} {child : κ} :
      Call s c i x (.fork k child) (s.setPc i (.forkScan 0 k child))
  | wait {addr : Bool} {k : Int → Option Int → κ} :
      Call s c i x (.wait addr k) (s.setPc i (.waitLock addr k))
  | exit {status : Int} : i ≠ initproc →
      Call s c i x (.exit status) (s.setPc i (.exitWait status))
  | trace {mask : BitVec 32} {k : κ} :
      Call s c i x (.trace mask k)
        ((s.setProc i fun x => { x with traceMask := mask }).setPc i (.run k))

/-- Every step of a kernel thread in a function of `proc.c`, with its guard and its result. -/
inductive Thread (s : Sys κ M Λ) (c i : Nat) : Bool → Sys κ M Λ → Prop where
  | forkret {ok : Bool} {k : κ} : s.pc i = .forkret k →
      Thread s c i ok ((s.setProc i fun x => { x with lock := none }).setPc i (.run k))
  | sleepAcquire {ok : Bool} {ch : Chan} {l : Lock Λ} {next : Pc κ Λ} :
      s.pc i = .sleepAcquire ch l next → (s.proc i).lock = none →
      Thread s c i ok
        ((s.setProc i fun x => { x with lock := some c }).setPc i (.sleepRelease ch l next))
  | sleepRelease {ok : Bool} {ch : Chan} {l : Lock Λ} {next : Pc κ Λ} :
      s.pc i = .sleepRelease ch l next → s.lock l = some c →
      Thread s c i ok ((s.setLock l none).setPc i (.sleepSet ch l next))
  | sleepSet {ok : Bool} {ch : Chan} {l : Lock Λ} {next : Pc κ Λ} :
      s.pc i = .sleepSet ch l next →
      Thread s c i ok
        ((s.setProc i fun x => { x with chan := some ch, state := .sleeping }).setPc i
          (.sched (.sleepTidy l next)))
  | sched {ok : Bool} {next : Pc κ Λ} : s.pc i = .sched next → (s.proc i).lock = some c →
      s.LocksOnly c i → (s.proc i).state ≠ .running →
      Thread s c i ok ((s.setCpu c ⟨(s.cpu c).proc, .back i⟩).setPc i next)
  | sleepTidy {ok : Bool} {l : Lock Λ} {next : Pc κ Λ} : s.pc i = .sleepTidy l next →
      Thread s c i ok
        ((s.setProc i fun x => { x with chan := none, lock := none }).setPc i (.relock l next))
  | relock {ok : Bool} {l : Lock Λ} {next : Pc κ Λ} : s.pc i = .relock l next →
      s.lock l = none → Thread s c i ok ((s.setLock l (some c)).setPc i next)
  | yieldAcquire {ok : Bool} {next : Pc κ Λ} : s.pc i = .yieldAcquire next →
      (s.proc i).lock = none →
      Thread s c i ok
        ((s.setProc i fun x => { x with lock := some c, state := .runnable }).setPc i
          (.sched (.yieldRelease next)))
  | yieldRelease {ok : Bool} {next : Pc κ Λ} : s.pc i = .yieldRelease next →
      Thread s c i ok ((s.setProc i fun x => { x with lock := none }).setPc i next)
  | wakeSelf {ok : Bool} {ch : Option Chan} {next : Pc κ Λ} : s.pc i = .wake ch i next →
      i < nProc → Thread s c i ok (s.setPc i (.wake ch (i + 1) next))
  | wake {ok : Bool} {ch : Option Chan} {j : Nat} {next : Pc κ Λ} : s.pc i = .wake ch j next →
      j < nProc → j ≠ i → (s.proc j).lock = none →
      Thread s c i ok ((s.setProc j (wakeOne ch)).setPc i (.wake ch (j + 1) next))
  | wakeEnd {ok : Bool} {ch : Option Chan} {j : Nat} {next : Pc κ Λ} :
      s.pc i = .wake ch j next → nProc ≤ j → Thread s c i ok (s.setPc i next)
  | kill {ok : Bool} {pid : BitVec 32} {j : Nat} {k : Int → κ} : s.pc i = .kill pid j k →
      j < nProc → (s.proc j).lock = none → (s.proc j).pid = pid →
      Thread s c i ok ((s.setProc j killOne).setPc i (.run (k 0)))
  | killNext {ok : Bool} {pid : BitVec 32} {j : Nat} {k : Int → κ} : s.pc i = .kill pid j k →
      j < nProc → (s.proc j).lock = none → (s.proc j).pid ≠ pid →
      Thread s c i ok (s.setPc i (.kill pid (j + 1) k))
  | killEnd {ok : Bool} {pid : BitVec 32} {j : Nat} {k : Int → κ} : s.pc i = .kill pid j k →
      nProc ≤ j → Thread s c i ok (s.setPc i (.run (k (-1))))
  | forkFound {ok : Bool} {j : Nat} {k : Int → κ} {child : κ} :
      s.pc i = .forkScan j k child → j < nProc → (s.proc j).lock = none →
      (s.proc j).state = .unused →
      Thread s c i ok
        (({ s with nextpid := s.nextpid + 1 }.setProc j fun x =>
          { x with lock := some c, pid := s.nextpid, state := .used }).setPc i
          (.forkAlloc j k child))
  | forkNext {ok : Bool} {j : Nat} {k : Int → κ} {child : κ} :
      s.pc i = .forkScan j k child → j < nProc → (s.proc j).lock = none →
      (s.proc j).state ≠ .unused → Thread s c i ok (s.setPc i (.forkScan (j + 1) k child))
  | forkFull {ok : Bool} {j : Nat} {k : Int → κ} {child : κ} :
      s.pc i = .forkScan j k child → nProc ≤ j → Thread s c i ok (s.setPc i (.run (k (-1))))
  | forkAlloc {j : Nat} {k : Int → κ} {child : κ} : s.pc i = .forkAlloc j k child →
      Thread s c i true
        (((s.setProc j fun x => { x with lock := none }).setPc j (.forkret child)).setPc i
          (.forkWait j (s.proc j).pid k))
  | forkFail {j : Nat} {k : Int → κ} {child : κ} : s.pc i = .forkAlloc j k child →
      Thread s c i false
        ((s.setProc j fun x => { freeproc x with lock := none }).setPc i (.run (k (-1))))
  | forkWait {ok : Bool} {j : Nat} {pid : BitVec 32} {k : Int → κ} :
      s.pc i = .forkWait j pid k → s.lock .wait = none →
      Thread s c i ok ((s.setLock .wait (some c)).setPc i (.forkParent j pid k))
  | forkParent {ok : Bool} {j : Nat} {pid : BitVec 32} {k : Int → κ} :
      s.pc i = .forkParent j pid k →
      Thread s c i ok
        ((s.setProc j fun x => { x with parent := some i }).setPc i (.forkUnwait j pid k))
  | forkUnwait {ok : Bool} {j : Nat} {pid : BitVec 32} {k : Int → κ} :
      s.pc i = .forkUnwait j pid k →
      Thread s c i ok ((s.setLock .wait none).setPc i (.forkRunnable j pid k))
  | forkRunnable {ok : Bool} {j : Nat} {pid : BitVec 32} {k : Int → κ} :
      s.pc i = .forkRunnable j pid k → (s.proc j).lock = none →
      Thread s c i ok
        ((s.setProc j fun x => { x with state := .runnable }).setPc i (.forkMask j pid k))
  | forkMask {ok : Bool} {j : Nat} {pid : BitVec 32} {k : Int → κ} :
      s.pc i = .forkMask j pid k →
      Thread s c i ok
        ((s.setProc j fun x => { x with traceMask := (s.proc i).traceMask }).setPc i
          (.run (k pid.toInt)))
  | exitWait {ok : Bool} {status : Int} : s.pc i = .exitWait status → s.lock .wait = none →
      Thread s c i ok ((s.setLock .wait (some c)).setPc i (.exitReparent 0 status))
  | reparent {ok : Bool} {j : Nat} {status : Int} : s.pc i = .exitReparent j status →
      j < nProc → (s.proc j).parent = some i →
      Thread s c i ok
        ((s.setProc j fun x => { x with parent := some initproc }).setPc i
          (.wake (some (.proc initproc)) 0 (.exitReparent (j + 1) status)))
  | reparentNext {ok : Bool} {j : Nat} {status : Int} : s.pc i = .exitReparent j status →
      j < nProc → (s.proc j).parent ≠ some i →
      Thread s c i ok (s.setPc i (.exitReparent (j + 1) status))
  | reparentEnd {ok : Bool} {j : Nat} {status : Int} : s.pc i = .exitReparent j status →
      nProc ≤ j →
      Thread s c i ok
        (s.setPc i (.wake ((s.proc i).parent.map .proc) 0 (.exitZombie status)))
  | exitZombie {ok : Bool} {status : Int} : s.pc i = .exitZombie status →
      (s.proc i).lock = none →
      Thread s c i ok
        ((s.setProc i fun x => { x with lock := some c, xstate := status, state := .zombie }).setPc
          i .exitUnwait)
  | exitUnwait {ok : Bool} : s.pc i = .exitUnwait →
      Thread s c i ok ((s.setLock .wait none).setPc i (.sched .dead))
  | waitLock {ok addr : Bool} {k : Int → Option Int → κ} : s.pc i = .waitLock addr k →
      s.lock .wait = none →
      Thread s c i ok ((s.setLock .wait (some c)).setPc i (.waitScan 0 false addr k))
  | waitFault {j : Nat} {kids addr : Bool} {k : Int → Option Int → κ} :
      s.pc i = .waitScan j kids addr k → j < nProc → (s.proc j).parent = some i →
      (s.proc j).lock = none → (s.proc j).state = .zombie → addr = true →
      Thread s c i false (s.setPc i (.waitReturn (k (-1) none)))
  | waitReap {ok : Bool} {j : Nat} {kids addr : Bool} {k : Int → Option Int → κ} :
      s.pc i = .waitScan j kids addr k → j < nProc → (s.proc j).parent = some i →
      (s.proc j).lock = none → (s.proc j).state = .zombie → ¬ (addr = true ∧ ok = false) →
      Thread s c i ok
        ((s.setProc j freeproc).setPc i (.waitReturn
          (k (s.proc j).pid.toInt (if addr then some (s.proc j).xstate else none))))
  | waitKid {ok : Bool} {j : Nat} {kids addr : Bool} {k : Int → Option Int → κ} :
      s.pc i = .waitScan j kids addr k → j < nProc → (s.proc j).parent = some i →
      (s.proc j).lock = none → (s.proc j).state ≠ .zombie →
      Thread s c i ok (s.setPc i (.waitScan (j + 1) true addr k))
  | waitNext {ok : Bool} {j : Nat} {kids addr : Bool} {k : Int → Option Int → κ} :
      s.pc i = .waitScan j kids addr k → j < nProc → (s.proc j).parent ≠ some i →
      Thread s c i ok (s.setPc i (.waitScan (j + 1) kids addr k))
  | waitEnd {ok : Bool} {j : Nat} {kids addr : Bool} {k : Int → Option Int → κ} :
      s.pc i = .waitScan j kids addr k → nProc ≤ j →
      Thread s c i ok (s.setPc i (.waitKids kids addr k))
  | waitNone {ok kids addr : Bool} {k : Int → Option Int → κ} :
      s.pc i = .waitKids kids addr k → (kids = false ∨ (s.proc i).killed = true) →
      Thread s c i ok (s.setPc i (.waitReturn (k (-1) none)))
  | waitSleep {ok addr : Bool} {k : Int → Option Int → κ} :
      s.pc i = .waitKids true addr k → (s.proc i).lock = none → (s.proc i).killed = false →
      Thread s c i ok (s.setPc i (.sleepAcquire (.proc i) .wait (.waitScan 0 false addr k)))
  | waitReturn {ok : Bool} {k : κ} : s.pc i = .waitReturn k →
      Thread s c i ok ((s.setLock .wait none).setPc i (.run k))

inductive Step (code : κ → Instr κ M ω Λ) (s : Sys κ M Λ) : Ev ω → Sys κ M Λ → Prop where
  | dispatch {c i : Nat} : (s.cpu c).pc = .scan i → (s.proc i).lock = none →
      (s.proc i).state = .runnable →
      Step code s (.sched c)
        ((s.setProc i fun x => { x with lock := some c, state := .running }).setCpu c
          ⟨some i, .swtch i⟩)
  | scan {c i : Nat} : (s.cpu c).pc = .scan i → (s.proc i).lock = none →
      (s.proc i).state ≠ .runnable →
      Step code s (.sched c) (s.setCpu c ⟨(s.cpu c).proc, .scan ((i + 1) % nProc)⟩)
  | swtch {c i : Nat} : (s.cpu c).pc = .swtch i →
      Step code s (.sched c) (s.setCpu c ⟨(s.cpu c).proc, .process i⟩)
  | back {c i : Nat} : (s.cpu c).pc = .back i →
      Step code s (.sched c) (s.setCpu c ⟨none, .release i⟩)
  | release {c i : Nat} : (s.cpu c).pc = .release i →
      Step code s (.sched c)
        ((s.setProc i fun x => { x with lock := none }).setCpu c
          ⟨(s.cpu c).proc, .scan ((i + 1) % nProc)⟩)
  | instr {c i : Nat} {x : ω} {ok : Bool} {k : κ} {t : Sys κ M Λ} : (s.cpu c).pc = .process i →
      s.pc i = .run k → Call s c i x (code k) t → Step code s (.run c x ok) t
  | thread {c i : Nat} {x : ω} {ok : Bool} {t : Sys κ M Λ} : (s.cpu c).pc = .process i →
      Thread s c i ok t → Step code s (.run c x ok) t
  | tick {c i : Nat} : (s.cpu c).pc = .process i → (s.proc i).lock ≠ some c →
      s.LocksOnly c i → Step code s (.tick c) (s.setPc i (.yieldAcquire (s.pc i)))
  | intr {p : Nat} : (s.proc p).lock = none → (s.proc p).state = .sleeping →
      Step code s (.intr p) (s.setProc p fun x => { x with state := .runnable })

section

variable {code : κ → Instr κ M ω Λ} {s t : Sys κ M Λ} {c i : Nat} {x : ω} {ok : Bool} {e : Ev ω}

theorem of_guard {α : Type} {p : Prop} [Decidable p] {a b : α}
    (h : (if p then some a else none) = some b) : p ∧ a = b := by
  rwa [Option.ite_none_right_eq_some, Option.some.injEq] at h

omit [Fintype Λ] in
theorem instrStep_cases {instr : Instr κ M ω Λ} (h : instrStep s c i x instr = some t) :
    Call s c i x instr t := by
  cases instr with
  | acquire l k =>
    obtain ⟨hl, rfl⟩ := of_guard h
    exact .acquire hl
  | release l k =>
    obtain ⟨hl, rfl⟩ := of_guard h
    exact .release hl
  | access f => exact Option.some.inj h ▸ .access
  | killed k =>
    obtain ⟨hl, rfl⟩ := of_guard h
    exact .killed hl
  | sleep a l k => exact Option.some.inj h ▸ .sleep
  | wakeup a k => exact Option.some.inj h ▸ .wakeup
  | kill pid k => exact Option.some.inj h ▸ .kill
  | setkilled k =>
    obtain ⟨hl, rfl⟩ := of_guard h
    exact .setkilled hl
  | fork k child => exact Option.some.inj h ▸ .fork
  | wait addr k => exact Option.some.inj h ▸ .wait
  | exit status =>
    simp only [instrStep, Option.ite_none_left_eq_some, Option.some.injEq] at h
    obtain ⟨hi, rfl⟩ := h
    exact .exit hi
  | trace mask k => exact Option.some.inj h ▸ .trace

theorem threadStep_cases (h : threadStep code s c i x ok = some t) :
    (∃ k, s.pc i = .run k ∧ Call s c i x (code k) t) ∨ Thread s c i ok t := by
  unfold threadStep at h
  generalize hpc : s.pc i = pc at h
  cases pc with
  | run k => exact .inl ⟨k, rfl, instrStep_cases h⟩
  | dead => cases h
  | forkret k => exact .inr (Option.some.inj h ▸ .forkret hpc)
  | sleepSet ch l next => exact .inr (Option.some.inj h ▸ .sleepSet hpc)
  | sleepTidy l next => exact .inr (Option.some.inj h ▸ .sleepTidy hpc)
  | yieldRelease next => exact .inr (Option.some.inj h ▸ .yieldRelease hpc)
  | forkParent j pid k => exact .inr (Option.some.inj h ▸ .forkParent hpc)
  | forkUnwait j pid k => exact .inr (Option.some.inj h ▸ .forkUnwait hpc)
  | forkMask j pid k => exact .inr (Option.some.inj h ▸ .forkMask hpc)
  | exitUnwait => exact .inr (Option.some.inj h ▸ .exitUnwait hpc)
  | waitReturn k => exact .inr (Option.some.inj h ▸ .waitReturn hpc)
  | sleepAcquire ch l next =>
    obtain ⟨hg, rfl⟩ := of_guard h
    exact .inr (.sleepAcquire hpc hg)
  | sleepRelease ch l next =>
    obtain ⟨hg, rfl⟩ := of_guard h
    exact .inr (.sleepRelease hpc hg)
  | relock l next =>
    obtain ⟨hg, rfl⟩ := of_guard h
    exact .inr (.relock hpc hg)
  | yieldAcquire next =>
    obtain ⟨hg, rfl⟩ := of_guard h
    exact .inr (.yieldAcquire hpc hg)
  | forkWait j pid k =>
    obtain ⟨hg, rfl⟩ := of_guard h
    exact .inr (.forkWait hpc hg)
  | forkRunnable j pid k =>
    obtain ⟨hg, rfl⟩ := of_guard h
    exact .inr (.forkRunnable hpc hg)
  | exitWait status =>
    obtain ⟨hg, rfl⟩ := of_guard h
    exact .inr (.exitWait hpc hg)
  | exitZombie status =>
    obtain ⟨hg, rfl⟩ := of_guard h
    exact .inr (.exitZombie hpc hg)
  | waitLock addr k =>
    obtain ⟨hg, rfl⟩ := of_guard h
    exact .inr (.waitLock hpc hg)
  | sched next =>
    obtain ⟨⟨hl, ho, hr⟩, rfl⟩ := of_guard h
    exact .inr (.sched hpc hl ho hr)
  | wake ch j next =>
    dsimp only at h
    split at h
    · rename_i hj
      split at h
      · rename_i heq
        cases h
        subst heq
        exact .inr (.wakeSelf hpc hj)
      · obtain ⟨hl, rfl⟩ := of_guard h
        exact .inr (.wake hpc hj ‹_› hl)
    · cases h
      exact .inr (.wakeEnd hpc (Nat.le_of_not_lt ‹_›))
  | kill pid j k =>
    dsimp only at h
    split at h
    · simp only [Option.ite_none_right_eq_some] at h
      obtain ⟨hl, h⟩ := h
      split at h
      · cases h
        exact .inr (.kill hpc ‹_› hl ‹_›)
      · cases h
        exact .inr (.killNext hpc ‹_› hl ‹_›)
    · cases h
      exact .inr (.killEnd hpc (Nat.le_of_not_lt ‹_›))
  | forkScan j k child =>
    dsimp only at h
    split at h
    · simp only [Option.ite_none_right_eq_some] at h
      obtain ⟨hl, h⟩ := h
      split at h
      · cases h
        exact .inr (.forkFound hpc ‹_› hl ‹_›)
      · cases h
        exact .inr (.forkNext hpc ‹_› hl ‹_›)
    · cases h
      exact .inr (.forkFull hpc (Nat.le_of_not_lt ‹_›))
  | forkAlloc j k child =>
    cases ok with
    | true => exact .inr (Option.some.inj h ▸ .forkAlloc hpc)
    | false => exact .inr (Option.some.inj h ▸ .forkFail hpc)
  | exitReparent j status =>
    dsimp only at h
    split at h
    · split at h
      · cases h
        exact .inr (.reparent hpc ‹_› ‹_›)
      · cases h
        exact .inr (.reparentNext hpc ‹_› ‹_›)
    · cases h
      exact .inr (.reparentEnd hpc (Nat.le_of_not_lt ‹_›))
  | waitScan j kids addr k =>
    dsimp only at h
    split at h
    · rename_i hj
      split at h
      · rename_i hp
        simp only [Option.ite_none_right_eq_some] at h
        obtain ⟨hl, h⟩ := h
        split at h
        · rename_i hz
          split at h
          · rename_i hf
            cases h
            obtain ⟨ha, hok⟩ := hf
            cases ok with
            | true => simp at hok
            | false => exact .inr (.waitFault hpc hj hp hl hz ha)
          · rename_i hf
            cases h
            exact .inr (.waitReap hpc hj hp hl hz (by simpa using hf))
        · cases h
          exact .inr (.waitKid hpc hj hp hl ‹_›)
      · cases h
        exact .inr (.waitNext hpc hj ‹_›)
    · cases h
      exact .inr (.waitEnd hpc (Nat.le_of_not_lt ‹_›))
  | waitKids kids addr k =>
    cases kids with
    | false => exact .inr (Option.some.inj h ▸ .waitNone hpc (.inl rfl))
    | true =>
      simp only [Bool.not_true, Bool.false_eq_true, if_false, Option.ite_none_right_eq_some] at h
      obtain ⟨hl, h⟩ := h
      split at h
      · cases h
        exact .inr (.waitNone hpc (.inr ‹_›))
      · rename_i hk
        cases h
        exact .inr (.waitSleep hpc hl (by simpa using hk))

theorem step_cases (h : step code s e = some t) : Step code s e t := by
  cases e with
  | sched c =>
    simp only [step, schedStep] at h
    split at h
    · simp only [Option.ite_none_right_eq_some] at h
      obtain ⟨hl, h⟩ := h
      split at h
      · cases h
        exact .dispatch ‹_› hl ‹_›
      · cases h
        exact .scan ‹_› hl ‹_›
    · cases h
      exact .swtch ‹_›
    · cases h
    · cases h
      exact .back ‹_›
    · cases h
      exact .release ‹_›
  | run c x ok =>
    simp only [step] at h
    split at h
    · rename_i i hpc
      rcases threadStep_cases h with ⟨k, hk, hi⟩ | ht
      · exact .instr hpc hk hi
      · exact .thread hpc ht
    · cases h
  | tick c =>
    simp only [step] at h
    split at h
    · obtain ⟨⟨hl, ho⟩, rfl⟩ := of_guard h
      exact .tick ‹_› hl ho
    · cases h
  | intr p =>
    obtain ⟨⟨hl, hs⟩, rfl⟩ := of_guard h
    exact .intr hl hs

end

section

variable {code : κ → Instr κ M ω Λ} {ok : Sys κ M Λ → Ev ω → Prop} {s t : Sys κ M Λ}
  {evs : List (Ev ω)}

/-- What holds at the start and is kept by every step holds after every run. -/
theorem Runs.invariant {P : Sys κ M Λ → Prop}
    (hstep : ∀ s e t, P s → ok s e → Step code s e t → P t) (hs : P s)
    (h : Runs code ok s evs t) : P t := by
  induction evs generalizing s with
  | nil => exact h ▸ hs
  | cons e evs ih =>
    obtain ⟨ho, u, hu, ht⟩ := h
    exact ih (hstep s e u hs ho (step_cases hu)) ht

theorem Runs.of_exec (hok : ∀ s, ∀ e ∈ evs, ok s e)
    (h : Procs.exec code s evs = some t) : Runs code ok s evs t := by
  induction evs generalizing s with
  | nil =>
    simp only [Procs.exec, Option.some.injEq] at h
    exact h.symm
  | cons e evs ih =>
    simp only [Procs.exec, Option.bind_eq_some_iff] at h
    obtain ⟨u, hu, ht⟩ := h
    exact ⟨hok s e List.mem_cons_self, u, hu,
      ih (fun s e he => hok s e (List.mem_cons_of_mem _ he)) ht⟩

/-- `exec`, given up at the first step that fails the test. -/
def execIf (code : κ → Instr κ M ω Λ) (test : Sys κ M Λ → Ev ω → Bool) (s : Sys κ M Λ) :
    List (Ev ω) → Option (Sys κ M Λ)
  | [] => some s
  | e :: evs => if test s e then (step code s e).bind fun t => execIf code test t evs else none

theorem Runs.of_execIf {test : Sys κ M Λ → Ev ω → Bool}
    (hok : ∀ s e, test s e = true → ok s e) (h : execIf code test s evs = some t) :
    Runs code ok s evs t := by
  induction evs generalizing s with
  | nil =>
    simp only [execIf, Option.some.injEq] at h
    exact h.symm
  | cons e evs ih =>
    simp only [execIf, Option.ite_none_right_eq_some, Option.bind_eq_some_iff] at h
    obtain ⟨he, u, hu, ht⟩ := h
    exact ⟨hok s e he, u, hu, ih ht⟩

end

end

end Xv6.Procs
