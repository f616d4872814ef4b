import Xv6.Kernel.Proc.Client
import Xv6.Kernel.Fs.Types

/-! # Pipes

`pipewrite`, `piperead` and `pipeclose` of `kernel/pipe.c` on one pipe, called by any
number of processes. Between the points the code holds `pi->lock` or touches nothing
of the pipe, except in `sleep`. The calls and what becomes of the bytes are logged
beside the pipe; nothing in the code reads the log.
-/

namespace Xv6.Pipes

open Lib Procs Fs

def pipeSize : Nat := 512

/-- `struct pipe` without its lock; `freed` is set when its page is given back. -/
structure Pipe where
  data : Nat → UInt8
  nread : BitVec 32
  nwrite : BitVec 32
  readopen : Bool
  writeopen : Bool
  freed : Bool

/-- The arguments of `piperead` and `pipewrite`, with the user memory of the caller, which stays
as it is while it is in the kernel. -/
structure Args where
  um : UserMem
  addr : Nat
  n : Int

def Args.va (a : Args) (i : Nat) : Nat := (a.addr + i) % 2 ^ 64

/-- The loop of `copyin` and `copyout` gets a single byte across. -/
def Args.copies (a : Args) (i : Nat) : Bool := copySpan a.um.mapped 1 (a.va i) 1 == 1

structure Call where
  proc : Nat
  write : Bool
  args : Args

/-- What happened, in order. A call is named by its place in `calls`. -/
structure Log where
  calls : List Call
  -- The bytes put into the pipe.
  accepted : List (Nat × UInt8)
  -- The bytes taken out of the pipe.
  removed : List (Nat × UInt8)
  -- The bytes written to user memory.
  delivered : List (Nat × UInt8)
  -- What the calls have returned.
  returned : List (Nat × Int)

structure Mem where
  pipe : Pipe
  log : Log

namespace Mem

def store (m : Mem) (id : Nat) (ch : UInt8) : Mem where
  pipe := { m.pipe with
    data := upd m.pipe.data (m.pipe.nwrite.toNat % pipeSize) ch
    nwrite := m.pipe.nwrite + 1 }
  log := { m.log with accepted := m.log.accepted ++ [(id, ch)] }

def next (m : Mem) : UInt8 := m.pipe.data (m.pipe.nread.toNat % pipeSize)

def take (m : Mem) (id : Nat) : Mem where
  pipe := { m.pipe with nread := m.pipe.nread + 1 }
  log := { m.log with removed := m.log.removed ++ [(id, m.next)] }

def deliver (m : Mem) (id : Nat) (ch : UInt8) : Mem :=
  { m with log := { m.log with delivered := m.log.delivered ++ [(id, ch)] } }

def call (m : Mem) (c : Call) : Mem :=
  { m with log := { m.log with calls := m.log.calls ++ [c] } }

def ret (m : Mem) (id : Nat) (r : Int) : Mem :=
  { m with log := { m.log with returned := m.log.returned ++ [(id, r)] } }

def full (m : Mem) : Bool := m.pipe.nwrite == m.pipe.nread + BitVec.ofNat 32 pipeSize

def empty (m : Mem) : Bool := m.pipe.nread == m.pipe.nwrite

def close (m : Mem) (writable : Bool) : Mem :=
  { m with pipe := if writable then { m.pipe with writeopen := false }
      else { m.pipe with readopen := false } }

def free (m : Mem) : Mem := { m with pipe := { m.pipe with freed := true } }

end Mem

/-- Where a process stands. The comment of a constructor is what it does next; `id` is the call,
`i` the bytes done, and `w` those done when `pipewrite` last woke the readers. -/
inductive Point where
  | user
  -- `acquire(&pi->lock)`
  | writeAcquire (id : Nat) (a : Args)
  -- `while(i < n)`, `if(pi->readopen == 0 || ...`
  | writeHead (id : Nat) (a : Args) (i w : Nat)
  -- `... killed(pr))`
  | writeKilled (id : Nat) (a : Args) (i w : Nat)
  -- the rest of the body
  | writeBody (id : Nat) (a : Args) (i w : Nat)
  -- `wakeup(&pi->nread)` of a full pipe
  | writeFull (id : Nat) (a : Args) (i : Nat)
  -- `sleep(&pi->nwrite, &pi->lock)`
  | writeSleep (id : Nat) (a : Args) (i : Nat)
  -- `wakeup(&pi->nread)` after the loop
  | writeWake (id : Nat) (a : Args) (i : Nat)
  -- `release(&pi->lock)` and `return r`
  | writeRelease (id : Nat) (a : Args) (r : Int)
  -- `acquire(&pi->lock)`
  | readAcquire (id : Nat) (a : Args)
  -- `while(pi->nread == pi->nwrite && pi->writeopen)`
  | readHead (id : Nat) (a : Args)
  -- `if(killed(pr))`
  | readKilled (id : Nat) (a : Args)
  -- `sleep(&pi->nread, &pi->lock)`
  | readSleep (id : Nat) (a : Args)
  -- the loop that copies, at byte `i`
  | readCopy (id : Nat) (a : Args) (i : Nat)
  -- `wakeup(&pi->nwrite)`
  | readWake (id : Nat) (a : Args) (i : Nat)
  -- `release(&pi->lock)` and `return r`
  | readRelease (id : Nat) (a : Args) (r : Int)
  -- `piperead` or `pipewrite` returns `r`
  | ret (id : Nat) (r : Int)
  -- `acquire(&pi->lock)`
  | closeAcquire (writable : Bool)
  -- `pi->writeopen = 0` or `pi->readopen = 0`
  | closeSet (writable : Bool)
  -- `wakeup(&pi->nread)` or `wakeup(&pi->nwrite)`
  | closeWake (writable : Bool)
  -- `if(pi->readopen == 0 && pi->writeopen == 0)`
  | closeTest
  -- `release(&pi->lock)`
  | closeRelease (free : Bool)
  -- `kfree((char*)pi)`
  | closeFree
  | fork
  | kill (pid : BitVec 32)
  | wait
  | exit (status : Int)

inductive Op where
  | write (a : Args)
  | read (a : Args)
  | close (writable : Bool)
  | fork
  | kill (pid : BitVec 32)
  | wait
  | exit (status : Int)

def nreadAddr : Nat := 0

def nwriteAddr : Nat := 4

/-- Process `p` leaves user space. -/
def enter (p : Nat) (m : Mem) : Op → Mem × Point
  | .write a => (m.call ⟨p, true, a⟩, .writeAcquire m.log.calls.length a)
  | .read a => (m.call ⟨p, false, a⟩, .readAcquire m.log.calls.length a)
  | .close writable => (m, .closeAcquire writable)
  | .fork => (m, .fork)
  | .kill pid => (m, .kill pid)
  | .wait => (m, .wait)
  | .exit status => (m, .exit status)

def writeHead (id : Nat) (a : Args) (i w : Nat) (m : Mem) : Point :=
  if (i : Int) < a.n then
    if m.pipe.readopen then .writeKilled id a i w else .writeRelease id a (-1)
  else .writeWake id a i

def writeBody (id : Nat) (a : Args) (i w : Nat) (m : Mem) : Mem × Point :=
  if m.full then (m, .writeFull id a i)
  else if a.copies i then (m.store id (a.um.byte (a.va i)), .writeHead id a (i + 1) w)
  else (m, .writeWake id a i)

def readHead (id : Nat) (a : Args) (m : Mem) : Point :=
  if m.empty && m.pipe.writeopen then .readKilled id a else .readCopy id a 0

def readCopy (id : Nat) (a : Args) (i : Nat) (m : Mem) : Mem × Point :=
  if (i : Int) < a.n ∧ m.empty = false then
    if a.copies i then ((m.take id).deliver id m.next, .readCopy id a (i + 1))
    else (m.take id, .readWake id a i)
  else (m, .readWake id a i)

def code : Point → Instr Point Mem Op Unit
  | .user => .access fun p x m => enter p m x
  | .writeAcquire id a => .acquire () (.writeHead id a 0 0)
  | .writeHead id a i w => .access fun _ _ m => (m, writeHead id a i w m)
  | .writeKilled id a i w =>
      .killed fun b => if b then .writeRelease id a (-1) else .writeBody id a i w
  | .writeBody id a i w => .access fun _ _ m => writeBody id a i w m
  | .writeFull id a i => .wakeup nreadAddr (.writeSleep id a i)
  | .writeSleep id a i => .sleep nwriteAddr () (.writeHead id a i i)
  | .writeWake id a i => .wakeup nreadAddr (.writeRelease id a i)
  | .writeRelease id _ r => .release () (.ret id r)
  | .readAcquire id a => .acquire () (.readHead id a)
  | .readHead id a => .access fun _ _ m => (m, readHead id a m)
  | .readKilled id a => .killed fun b => if b then .readRelease id a (-1) else .readSleep id a
  | .readSleep id a => .sleep nreadAddr () (.readHead id a)
  | .readCopy id a i => .access fun _ _ m => readCopy id a i m
  | .readWake id a i => .wakeup nwriteAddr (.readRelease id a i)
  | .readRelease id _ r => .release () (.ret id r)
  | .ret id r => .access fun _ _ m => (m.ret id r, .user)
  | .closeAcquire writable => .acquire () (.closeSet writable)
  | .closeSet writable => .access fun _ _ m => (m.close writable, .closeWake writable)
  | .closeWake writable => .wakeup (if writable then nreadAddr else nwriteAddr) .closeTest
  | .closeTest => .access fun _ _ m =>
      (m, .closeRelease (!m.pipe.readopen && !m.pipe.writeopen))
  | .closeRelease free => .release () (if free then .closeFree else .user)
  | .closeFree => .access fun _ _ m => (m.free, .user)
  | .fork => .fork (fun _ => .user) .user
  | .kill pid => .kill pid fun _ => .user
  | .wait => .wait false fun _ _ => .user
  | .exit status => .exit status

def pipealloc (page : Nat → UInt8) : Mem where
  pipe := ⟨page, 0, 0, true, true, false⟩
  log := ⟨[], [], [], [], []⟩

end Xv6.Pipes
