import Mathlib.Data.BitVec
import Xv6.Lib.Map

/-! # The user heap allocator

`malloc` and `free` of user/umalloc.c. Every block starts with a header of 16 bytes that
holds a link and the size of the block in units of that length, so a block of `nunits`
units has `nunits - 1` of them for its user. The free blocks are on a circular list through
`base`, at which `freep` points anywhere.
-/

namespace Xv6.Umalloc

open Lib

/-- `sizeof(Header)`: the pointer, the size and the padding that the pointer asks for. -/
def headerSize : Nat := 16

/-- A call of `sbrk` by `morecore`: the units that it is for, the argument, and the bytes by which
the memory of the process has grown, `none` if the call has failed. -/
structure Growth where
  units : Nat
  amount : Int
  provided : Option Nat
deriving DecidableEq

/-- The two fields of the header at each address, the roving pointer, the end of the memory
of the process, and the calls of `sbrk` since `malloc` was entered. -/
structure Heap where
  ptr : Nat → Nat
  size : Nat → Nat
  freep : Nat
  brk : Nat
  grown : List Growth

def plus (p n : Nat) : Nat := p + headerSize * n

/-! ## Giving blocks back -/

def freeLoop (h : Heap) (bp : Nat) : Nat → Nat → Option Nat
  | 0, _ => none
  | fuel + 1, p =>
    if ¬ (bp > p ∧ bp < h.ptr p) then
      if p ≥ h.ptr p ∧ (bp > p ∨ bp < h.ptr p) then some p
      else freeLoop h bp fuel (h.ptr p)
    else some p

/-- `free` joins `bp` to the block behind it, or links it to that block. -/
def joinAbove (h : Heap) (bp p : Nat) : Heap :=
  if plus bp (h.size bp) = h.ptr p then
    let h := { h with size := upd h.size bp ((h.size bp + h.size (h.ptr p)) % 2 ^ 32) }
    { h with ptr := upd h.ptr bp (h.ptr (h.ptr p)) }
  else { h with ptr := upd h.ptr bp (h.ptr p) }

/-- `free` joins `bp` to the block before it, or links that block to it. -/
def joinBelow (h : Heap) (bp p : Nat) : Heap :=
  if plus p (h.size p) = bp then
    let h := { h with size := upd h.size p ((h.size p + h.size bp) % 2 ^ 32) }
    { h with ptr := upd h.ptr p (h.ptr bp) }
  else { h with ptr := upd h.ptr p bp }

def free (fuel : Nat) (h : Heap) (ap : Nat) : Option Heap :=
  let bp := ap - headerSize
  (freeLoop h bp fuel h.freep).map fun p =>
    let h := joinAbove h bp p
    let h := joinBelow h bp p
    { h with freep := p }

/-! ## Taking blocks -/

def sbrkArg (nu : Nat) : Int := (BitVec.ofNat 32 (nu * headerSize)).toInt

/-- The block that `morecore` asks for. -/
def moreUnits (nu : Nat) : Nat := if nu < 4096 then 4096 else nu

/-- The end of the memory after `sbrk`, `none` for -1: `growproc` fails only if it has to find
memory and there is none, which `granted` decides. It never goes below zero, but reports
success. -/
def sbrk (granted : Bool) (brk : Nat) (n : Int) : Option Nat :=
  if n > 0 then if granted then some (brk + n.toNat) else none
  else if 0 ≤ brk + n then some (brk + n).toNat
  else some brk

/-- The value is the pointer that `morecore` returns, 0 if there is no memory. -/
def morecore (fuel : Nat) (granted : Bool) (h : Heap) (nu : Nat) : Option (Nat × Heap) :=
  let nu := moreUnits nu
  let n := sbrkArg nu
  match sbrk granted h.brk n with
  | none => some (0, { h with grown := h.grown ++ [Growth.mk nu n none] })
  | some brk =>
    let p := h.brk
    let h := { h with brk, grown := h.grown ++ [Growth.mk nu n (some (brk - h.brk))] }
    let h := { h with size := upd h.size p nu }
    (free fuel h (plus p 1)).map fun h => (h.freep, h)

def take (h : Heap) (nunits prevp p : Nat) : Nat × Heap :=
  if h.size p = nunits then
    (plus p 1, { h with ptr := upd h.ptr prevp (h.ptr p), freep := prevp })
  else
    let h := { h with size := upd h.size p (h.size p - nunits) }
    let p := plus p (h.size p)
    let h := { h with size := upd h.size p nunits }
    (plus p 1, { h with freep := prevp })

/-- The search of `malloc`. The answers of the kernel to its calls of `sbrk` are `granted k`,
`granted (k + 1)` and so on. -/
def mallocLoop (granted : Nat → Bool) (nunits : Nat) :
    Nat → Nat → Nat → Nat → Heap → Option (Nat × Heap)
  | 0, _, _, _, _ => none
  | fuel + 1, k, prevp, p, h =>
    if h.size p ≥ nunits then some (take h nunits prevp p)
    else if p = h.freep then
      match morecore fuel (granted k) h nunits with
      | none => none
      | some (p, h) =>
        if p = 0 then some (0, h) else mallocLoop granted nunits fuel (k + 1) p (h.ptr p) h
    else mallocLoop granted nunits fuel k p (h.ptr p) h

/-- The units for `nbytes` bytes and the header. -/
def units (nbytes : Nat) : Nat :=
  ((nbytes + headerSize - 1) / headerSize + 1) % 2 ^ 32

def initFree (base : Nat) (h : Heap) : Heap :=
  if h.freep = 0 then
    { h with ptr := upd h.ptr base base, freep := base, size := upd h.size base 0 }
  else h

def malloc (base fuel : Nat) (granted : Nat → Bool) (h : Heap) (nbytes : Nat) :
    Option (Nat × Heap) :=
  let nunits := units nbytes
  let h := { initFree base h with grown := [] }
  let prevp := h.freep
  mallocLoop granted nunits fuel 0 prevp (h.ptr prevp) h

end Xv6.Umalloc
