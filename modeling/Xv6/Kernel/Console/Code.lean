import Xv6.Lib.Ring
import Xv6.Lib.Run

/-! # The console

The input side of `kernel/console.c`: the interrupt handler that edits a line, and the
reads that take lines out. The handler and a read hold `cons.lock` from the start to the
end or until the read sleeps, so each runs as one step. Copies to the reader succeed and
no reader is killed.
-/

namespace Xv6.Console

open Lib

def inputBufSize : Nat := 128

/-- `C(x)`: Control-x -/
def ctrl (x : Char) : UInt8 := x.toUInt8 - '@'.toUInt8

def newline : UInt8 := '\n'.toUInt8

def carriageReturn : UInt8 := '\r'.toUInt8

def delete : UInt8 := 0x7f

/-- The input part of `cons`; its counters run freely. -/
structure Cons where
  buf : Nat → UInt8
  -- Read index
  r : BitVec 32
  -- Write index
  w : BitVec 32
  -- Edit index
  e : BitVec 32

def Cons.char (c : Cons) (i : BitVec 32) : UInt8 := c.buf (i.toNat % inputBufSize)

/-- The loop of `consoleintr` for `C('U')`. It takes `cons.e` down to `cons.w` at most. -/
def killLine : Nat → Cons → Cons
  | 0, c => c
  | fuel + 1, c =>
    if c.e ≠ c.w ∧ c.char (c.e - 1) ≠ newline then killLine fuel { c with e := c.e - 1 } else c

def consoleintr (c : Cons) (ch : UInt8) : Cons :=
  if ch = ctrl 'P' then c
  else if ch = ctrl 'U' then killLine (c.e - c.w).toNat c
  else if ch = ctrl 'H' ∨ ch = delete then
    if c.e ≠ c.w then { c with e := c.e - 1 } else c
  else if ch ≠ 0 ∧ (c.e - c.r).toNat < inputBufSize then
    let ch := if ch = carriageReturn then newline else ch
    let c := { c with buf := upd c.buf (c.e.toNat % inputBufSize) ch, e := c.e + 1 }
    if ch = newline ∨ ch = ctrl 'D' ∨ (c.e - c.r).toNat = inputBufSize then { c with w := c.e }
    else c
  else c

inductive Status where
  | asleep
  | done
deriving DecidableEq, Repr

/-- What a read has done between taking the lock and leaving it: the bytes it copied, and how
many are still asked for. -/
structure Progress (σ : Type) where
  state : σ
  status : Status
  n : Nat
  bytes : List UInt8

def Progress.after {σ : Type} (b : UInt8) (p : Progress σ) : Progress σ :=
  { p with bytes := b :: p.bytes }

/-- The loop of `consoleread`, with `n` bytes to go. -/
def consoleread (target : Nat) : Nat → Cons → Progress Cons
  | 0, c => ⟨c, .done, 0, []⟩
  | n + 1, c =>
    if c.r = c.w then ⟨c, .asleep, n + 1, []⟩
    else
      let ch := c.char c.r
      let c := { c with r := c.r + 1 }
      if ch = ctrl 'D' then
        -- a ^D after some bytes is saved for the next read
        if n + 1 < target then ⟨{ c with r := c.r - 1 }, .done, n + 1, []⟩
        else ⟨c, .done, n + 1, []⟩
      else if ch = newline then ⟨c, .done, n, [ch]⟩
      else (consoleread target n c).after ch

/-! ## Readers -/

/-- A read that is asleep: how many bytes it was asked for, how many are missing, and those it
has. -/
structure Reader where
  target : Nat
  n : Nat
  got : List UInt8

structure Return where
  value : Nat
  bytes : List UInt8

structure Sys (σ : Type) where
  console : σ
  readers : Nat → Option Reader
  -- Every byte that was copied, and to whom.
  out : List (Nat × UInt8)
  returns : List Return

inductive Ev where
  | intr (ch : UInt8)
  -- Reader `i` calls `read` for `n` bytes.
  | read (i n : Nat)
  -- Reader `i` is woken up.
  | resume (i : Nat)

section

variable {σ : Type} (intr : σ → UInt8 → σ) (read : Nat → Nat → σ → Progress σ)

/-- Reader `i` runs until it sleeps or returns. -/
def Sys.go (s : Sys σ) (i : Nat) (x : Reader) : Sys σ :=
  let p := read x.target x.n s.console
  let s := { s with console := p.state, out := s.out ++ p.bytes.map fun b => (i, b) }
  match p.status with
  | .asleep => { s with readers := upd s.readers i (some ⟨x.target, p.n, x.got ++ p.bytes⟩) }
  | .done =>
    { s with
      readers := upd s.readers i none
      returns := s.returns ++ [⟨x.target - p.n, x.got ++ p.bytes⟩] }

def Sys.step (s : Sys σ) : Ev → Option (Sys σ)
  | .intr ch => some { s with console := intr s.console ch }
  | .read i n =>
    if 0 < n ∧ (s.readers i).isNone then some (s.go read i ⟨n, n, []⟩) else none
  | .resume i => (s.readers i).map (s.go read i)

def Sys.start (c : σ) : Sys σ := ⟨c, fun _ => none, [], []⟩

variable {read} {s : Sys σ} {i : Nat} {x : Reader} {p : Progress σ}

theorem Sys.go_asleep (hp : read x.target x.n s.console = p) (h : p.status = .asleep) :
    s.go read i x = ⟨p.state, upd s.readers i (some ⟨x.target, p.n, x.got ++ p.bytes⟩),
      s.out ++ p.bytes.map fun b => (i, b), s.returns⟩ := by
  simp only [Sys.go, hp, h]

theorem Sys.go_done (hp : read x.target x.n s.console = p) (h : p.status = .done) :
    s.go read i x = ⟨p.state, upd s.readers i none, s.out ++ p.bytes.map fun b => (i, b),
      s.returns ++ [⟨x.target - p.n, x.got ++ p.bytes⟩]⟩ := by
  simp only [Sys.go, hp, h]

end

/-- The console after `consoleinit`; the buffer is in the zeroed data of the kernel. -/
def consoleinit : Cons := ⟨fun _ => 0, 0, 0, 0⟩

def step : Sys Cons → Ev → Option (Sys Cons) := Sys.step consoleintr consoleread

end Xv6.Console
