import Xv6.Kernel.Vm.Kalloc

/-! # Page tables

The functions of `kernel/vm.c` on user page tables, and those of `kernel/proc.c` that
set one up and free it. Addresses and page table entries are 64-bit numbers; a table
is the physical address of its root page.
-/

namespace Xv6.Vm

open Lib

/-! ## Entries and addresses -/

def pteV : Nat := 1

def pteR : Nat := 2

def pteW : Nat := 4

def pteX : Nat := 8

def pteU : Nat := 16

def pa2pte (pa : Nat) : Nat := pa / 2 ^ 12 * 2 ^ 10

def pte2pa (pte : Nat) : Nat := pte / 2 ^ 10 * 2 ^ 12 % 2 ^ 64

def pteFlags (pte : Nat) : Nat := pte % 2 ^ 10

/-- The index into a table of level `level`. -/
def px (level va : Nat) : Nat := va / 2 ^ (12 + 9 * level) % 512

def maxVa : Nat := 2 ^ 38

def trampolineVa : Nat := maxVa - pgSize

def trapframeVa : Nat := trampolineVa - pgSize

def memmove (dst src n : Nat) : Code Unit :=
  Comp.assign fun s => { s with mem := splice s.mem dst n fun j => s.mem (src + j) }

/-! ## `walk` and its users -/

/-- The loop of `walk` from a table of level `level` on. -/
def walkFrom (va : Nat) (alloc : Bool) : Nat → Nat → Code Nat
  | 0, pagetable => return pagetable + 8 * px 0 va
  | level + 1, pagetable => do
      let pte := pagetable + 8 * px (level + 1) va
      let w ← load pte
      if w &&& pteV ≠ 0 then walkFrom va alloc level (pte2pa w)
      else if !alloc then return 0
      else
        let pagetable ← kalloc
        if pagetable = 0 then return 0
        else
          memset pagetable 0 pgSize
          store pte (pa2pte pagetable ||| pteV)
          walkFrom va alloc level pagetable

def walk (pagetable va : Nat) (alloc : Bool) : Code Nat :=
  if va ≥ maxVa then panic "walk" else walkFrom va alloc 2 pagetable

def walkaddr (pagetable va : Nat) : Code Nat := do
  if va ≥ maxVa then return 0
  else
    let pte ← walk pagetable va false
    if pte = 0 then return 0
    else
      let w ← load pte
      if w &&& pteV = 0 then return 0
      else if w &&& pteU = 0 then return 0
      else return pte2pa w

/-- The loop of `mappages`. It ends before the fuel does: `walk` panics at `MAXVA`. -/
def mapFrom (pagetable last perm : Nat) : Nat → Nat → Nat → Code Int
  | 0, _, _ => panic "walk"
  | fuel + 1, a, pa => do
      let pte ← walk pagetable a true
      if pte = 0 then return -1
      else
        let w ← load pte
        if w &&& pteV ≠ 0 then panic "mappages: remap"
        else
          store pte (pa2pte pa ||| perm ||| pteV)
          if a = last then return 0
          else mapFrom pagetable last perm fuel (a + pgSize) (pa + pgSize)

def mappages (pagetable va size pa perm : Nat) : Code Int :=
  if size = 0 then panic "mappages: size"
  else mapFrom pagetable (pgRoundDown ((va + size - 1) % 2 ^ 64)) perm (maxVa / pgSize + 1)
    (pgRoundDown va) pa

def uvmcreate : Code Nat := do
  let pagetable ← kalloc
  if pagetable = 0 then return 0
  else
    memset pagetable 0 pgSize
    return pagetable

def uvmclear (pagetable va : Nat) : Code Unit := do
  let pte ← walk pagetable va false
  if pte = 0 then panic "uvmclear"
  else
    let w ← load pte
    store pte (w &&& (2 ^ 64 - 1 - pteU))

/-- The loop of `copyout`. Each turn copies a byte at least, so `fuel = len` is enough. -/
def copyoutFrom (pagetable : Nat) : Nat → Nat → Bytes → Nat → Code Int
  | 0, _, _, _ => return 0
  | fuel + 1, dstva, src, len => do
      if len > 0 then
        let va0 := pgRoundDown dstva
        let pa0 ← walkaddr pagetable va0
        if pa0 = 0 then return -1
        else
          let n := min (pgSize - (dstva - va0)) len
          Comp.assign fun s => { s with mem := splice s.mem (pa0 + (dstva - va0)) n src }
          copyoutFrom pagetable fuel ((va0 + pgSize) % 2 ^ 64) (fun j => src (n + j)) (len - n)
      else return 0

def copyout (pagetable dstva : Nat) (src : Bytes) (len : Nat) : Code Int :=
  copyoutFrom pagetable len dstva src len

section

variable (K : Image)

def unmapAt (pagetable : Nat) (doFree : Bool) (a : Nat) : Code Unit := do
  let pte ← walk pagetable a false
  if pte = 0 then panic "uvmunmap: walk"
  else
    let w ← load pte
    if w &&& pteV = 0 then panic "uvmunmap: not mapped"
    else if pteFlags w = pteV then panic "uvmunmap: not a leaf"
    else
      if doFree then kfree K (pte2pa w)
      store pte 0

def uvmunmap (pagetable va npages : Nat) (doFree : Bool) : Code Unit :=
  if va % pgSize ≠ 0 then panic "uvmunmap: not aligned"
  else Comp.loop (fun i => unmapAt K pagetable doFree (va + i * pgSize)) 0
    (((va + npages * pgSize) % 2 ^ 64 - va) / pgSize)

/-- A number in an `int` that is passed on as a `uint64`. -/
def throughInt (x : Nat) : Nat := ((BitVec.ofNat 32 x).signExtend 64).toNat

def uvmdealloc (pagetable oldsz newsz : Nat) : Code Nat := do
  if newsz ≥ oldsz then return oldsz
  else
    if pgRoundUp newsz < pgRoundUp oldsz then
      let npages := throughInt ((pgRoundUp oldsz - pgRoundUp newsz) / pgSize)
      uvmunmap K pagetable (pgRoundUp newsz) npages true
    return newsz

def uvmallocFrom (pagetable oldsz newsz xperm : Nat) : Nat → Nat → Code Nat
  | _, 0 => return newsz
  | a, k + 1 => do
      let mem ← kalloc
      if mem = 0 then
        let _ ← uvmdealloc K pagetable a oldsz
        return 0
      else
        memset mem 0 pgSize
        let r ← mappages pagetable a pgSize mem (pteR ||| pteU ||| xperm)
        if r ≠ 0 then
          kfree K mem
          let _ ← uvmdealloc K pagetable a oldsz
          return 0
        else uvmallocFrom pagetable oldsz newsz xperm (a + pgSize) k

def uvmalloc (pagetable oldsz newsz xperm : Nat) : Code Nat :=
  if newsz < oldsz then return oldsz
  else
    let oldsz := pgRoundUp oldsz
    uvmallocFrom K pagetable oldsz newsz xperm oldsz ((newsz - oldsz + pgSize - 1) / pgSize)

def freeEntry (freewalk : Nat → Code Unit) (pagetable i : Nat) : Code Unit := do
  let pte ← load (pagetable + 8 * i)
  if pte &&& pteV ≠ 0 ∧ pte &&& (pteR ||| pteW ||| pteX) = 0 then
    freewalk (pte2pa pte)
    store (pagetable + 8 * i) 0
  else if pte &&& pteV ≠ 0 then panic "freewalk: leaf"
  else return ()

def freewalk : Nat → Nat → Code Unit
  | 0, _ => panic "freewalk: too deep"
  | fuel + 1, pagetable => do
      Comp.loop (freeEntry (freewalk fuel) pagetable) 0 512
      kfree K pagetable

def uvmfree (pagetable sz : Nat) : Code Unit := do
  if sz > 0 then uvmunmap K pagetable 0 (pgRoundUp sz / pgSize) true
  freewalk K 3 pagetable

def uvmcopyFrom (old new : Nat) : Nat → Nat → Code Int
  | _, 0 => return 0
  | i, k + 1 => do
      let pte ← walk old i false
      if pte = 0 then panic "uvmcopy: pte should exist"
      else
        let w ← load pte
        if w &&& pteV = 0 then panic "uvmcopy: page not present"
        else
          let mem ← kalloc
          if mem = 0 then
            uvmunmap K new 0 (i / pgSize) true
            return -1
          else
            memmove mem (pte2pa w) pgSize
            let r ← mappages new i pgSize mem (pteFlags w)
            if r ≠ 0 then
              kfree K mem
              uvmunmap K new 0 (i / pgSize) true
              return -1
            else uvmcopyFrom old new (i + pgSize) k

def uvmcopy (old new sz : Nat) : Code Int :=
  uvmcopyFrom K old new 0 ((sz + pgSize - 1) / pgSize)

/-! ## The table of a process -/

def procPagetable (trapframe : Nat) : Code Nat := do
  let pagetable ← uvmcreate
  if pagetable = 0 then return 0
  else
    let r ← mappages pagetable trampolineVa pgSize K.trampoline (pteR ||| pteX)
    if r < 0 then
      uvmfree K pagetable 0
      return 0
    else
      let r ← mappages pagetable trapframeVa pgSize trapframe (pteR ||| pteW)
      if r < 0 then
        uvmunmap K pagetable trampolineVa 1 false
        uvmfree K pagetable 0
        return 0
      else return pagetable

def procFreepagetable (pagetable sz : Nat) : Code Unit := do
  uvmunmap K pagetable trampolineVa 1 false
  uvmunmap K pagetable trapframeVa 1 false
  uvmfree K pagetable sz

end

end Xv6.Vm
