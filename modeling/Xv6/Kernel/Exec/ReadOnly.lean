import Xv6.Kernel.Exec.Atomic

/-! # Read-only user memory

The hardware keeps a user program from writing to a page without `PTE_W`. The kernel
writes to user memory through `copyout`, which asks `walkaddr` for `PTE_V` and `PTE_U`
and for nothing else: it writes to the text of a program. A copy keeps read-only pages as
they are, and fails on them, exactly when every page that it reaches is writable.
-/

namespace Xv6.Exec

open Lib Vm

/-! ## Copies to writable pages -/

def UserWritable (us : List UserPage) (v : Nat) : Prop :=
  ∃ u, us[v]? = some u ∧ u.flags &&& pteU ≠ 0 ∧ u.flags &&& pteW ≠ 0

def ReachesWritable (us : List UserPage) (va len : Nat) : Prop :=
  ∀ v, Reaches us va len v → UserWritable us v

def ReadOnlyKept (us : List UserPage) (s t : Phys) : Prop :=
  ∀ u ∈ us, u.flags &&& pteW = 0 → ∀ a, InBlock pgSize u.pa a → t.mem a = s.mem a

theorem ReadOnlyKept.trans {us : List UserPage} {s t w : Phys} (h : ReadOnlyKept us s t)
    (h' : ReadOnlyKept us t w) : ReadOnlyKept us s w := by
  intro u hu hw a ha
  rw [h' u hu hw a ha, h u hu hw a ha]

section

variable {K : Image} {s t : Phys} {L : List Nat} {pt va len : Nat} {us : List UserPage}
  {g : Nat → Nat} {Q : Multiset Nat} {src : Bytes}

/-- A copy that only reaches writable pages keeps the others. -/
theorem ReachesWritable.kept {r : Int} (hw : ReachesWritable us va len)
    (h : Copied us va len src s r t) : ReadOnlyKept us s t := by
  intro u hu hno
  refine h.kept u hu fun v hv hvu => ?_
  obtain ⟨x, hx, -, hW⟩ := hw v hv
  rw [hvu, Option.some.injEq] at hx
  subst hx
  exact hW hno

theorem ReachesWritable.refuses {r : Int} (hw : ReachesWritable us va len)
    (h : Copied us va len src s r t) (hv : ∃ v, Touches va len v ∧ ¬ UserWritable us v) :
    r = -1 := by
  obtain ⟨v, htouch, hno⟩ := hv
  rw [h.fault]
  by_contra hall
  refine hno (hw v ⟨htouch, fun w hle hge => ?_⟩)
  by_contra hclosed
  refine hall ⟨w, ⟨htouch.1, hle, ?_⟩, hclosed⟩
  have := htouch.2.2
  have := Nat.mul_le_mul_right pgSize hge
  omega

/-- The copy keeps the read-only pages, and it fails if one of its pages is not mapped with
`PTE_V`, `PTE_U` and `PTE_W`. -/
def CopyoutKeeps (us : List UserPage) (pt va : Nat) (src : Bytes) (len : Nat) (s : Phys) : Prop :=
  ∃ r t vs, copyout pt va src len s = ⟨.ok r, t, vs⟩ ∧ ReadOnlyKept us s t ∧
    ((∃ v, Touches va len v ∧ ¬ UserWritable us v) → r = -1)

theorem copyout_keeps_iff (h : Space K s L pt us g Q) (hg : Kernel g) :
    (∀ src, CopyoutKeeps us pt va src len s) ↔ ReachesWritable us va len := by
  have hcopied : ∀ src, Does (copyout pt va src len) _ s :=
    fun src => copyoutFrom_copied h hg (Nat.le_refl len)
  constructor
  · intro hall v hv
    obtain ⟨u, hu, hU⟩ := hv.2 v hv.1.2.1 (Nat.le_refl v)
    by_contra hno
    have hW : u.flags &&& pteW = 0 := by
      by_contra hW
      exact hno ⟨u, hu, hU, hW⟩
    -- a byte that differs from the one that is there
    have hc : s.mem (u.pa + firstByte va v) + 1 ≠ s.mem (u.pa + firstByte va v) := by
      simp
    obtain ⟨r, t, vs, heq, hkept, -⟩ := hall fun _ => s.mem (u.pa + firstByte va v) + 1
    obtain ⟨r', t', vs', heq', hspec⟩ := (hcopied fun _ => s.mem (u.pa + firstByte va v) + 1).result
    rw [heq] at heq'
    cases heq'
    have hoff : firstByte va v < pgSize := by
      unfold firstByte
      split
      · exact Nat.mod_lt _ (by decide)
      · decide
    have hsame := hkept u (List.mem_of_getElem? hu) hW (u.pa + firstByte va v)
      ⟨Nat.le_add_right _ _, by omega⟩
    rw [hspec.2.2.wrote _ (fun _ => rfl) v u hv hu] at hsame
    exact hc hsame
  · intro hw src
    obtain ⟨r, t, vs, heq, -, -, hspec⟩ := (hcopied src).result
    exact ⟨r, t, vs, heq, hw.kept hspec, hw.refuses hspec⟩

end

/-! ## System calls -/

structure Copy where
  dst : Nat
  len : Nat
  src : Bytes

inductive Call where
  -- `read` of a file of any kind, which comes in pieces: single bytes from a pipe or from the
  -- console, and at most a block at a time from an inode.
  | read (addr : Nat) (pieces : List (Nat × Bytes))
  | fstat (addr : Nat) (st : Bytes)
  | pipe (fdarray : Nat) (fd0 fd1 : Bytes)
  | wait (addr : Nat) (xstate : Bytes)
  | sysinfo (addr : Nat) (info : Bytes)

def pieceCopies (addr : Nat) : List (Nat × Bytes) → List Copy
  | [] => []
  | (n, src) :: pieces => ⟨addr, n, src⟩ :: pieceCopies ((addr + n) % 2 ^ 64) pieces

/-- The copies of a system call, in the order it makes them until one fails. -/
def Call.copies : Call → List Copy
  | .read addr pieces => pieceCopies addr pieces
  | .fstat addr st => [⟨addr, 24, st⟩]
  | .pipe fdarray fd0 fd1 => [⟨fdarray, 4, fd0⟩, ⟨(fdarray + 4) % 2 ^ 64, 4, fd1⟩]
  | .wait addr xstate => if addr ≠ 0 then [⟨addr, 4, xstate⟩] else []
  | .sysinfo addr info => [⟨addr, 16, info⟩]

/-- The first copy that fails ends the call. -/
def copyouts (pagetable : Nat) : List Copy → Vm.Code Int
  | [] => return 0
  | x :: xs => do
      let r ← copyout pagetable x.dst x.src x.len
      if r = -1 then return -1 else copyouts pagetable xs

def runCalls (pagetable : Nat) : List Call → Vm.Code Unit
  | [] => return ()
  | c :: cs => do
      let _ ← copyouts pagetable c.copies
      runCalls pagetable cs

section

variable {K : Image} {s t : Phys} {L : List Nat} {pt sz tf : Nat} {us : List UserPage}
  {Q : Multiset Nat}

/-- The address space is as it was and the read-only pages have their contents. -/
structure Kept (K : Image) (L : List Nat) (pt sz tf : Nat) (us : List UserPage)
    (Q : Multiset Nat) (s t : Phys) : Prop where
  space : AddrSpace K t L pt sz tf us Q
  contents : ReadOnlyKept us s t

theorem Kept.trans {w : Phys} (h : Kept K L pt sz tf us Q s t) (h' : Kept K L pt sz tf us Q t w) :
    Kept K L pt sz tf us Q s w := ⟨h'.space, h.contents.trans h'.contents⟩

theorem Kept.refl (ha : AddrSpace K s L pt sz tf us Q) : Kept K L pt sz tf us Q s s :=
  ⟨ha, fun _ _ _ _ _ => rfl⟩

/-- Every copy that is made reaches writable pages only; one that fails is the last. -/
def Reaching (us : List UserPage) : List Copy → Prop
  | [] => True
  | x :: xs => ReachesWritable us x.dst x.len ∧
      ((∀ v, Touches x.dst x.len v → UserWritable us v) → Reaching us xs)

theorem copyouts_kept {xs : List Copy} (ha : AddrSpace K s L pt sz tf us Q)
    (hw : Reaching us xs) :
    Does (copyouts pt xs) (fun _ t => Kept K L pt sz tf us Q s t) s := by
  induction xs generalizing s with
  | nil =>
    rw [copyouts, Does.pure]
    exact .refl ha
  | cons x xs ih =>
    rw [copyouts, Does.bind]
    refine (copyoutFrom_copied ha.space (upper_kernel K tf) (Nat.le_refl _)).mono
      fun r t hr => ?_
    obtain ⟨hspace, -, hcopied⟩ := hr
    have hkept : Kept K L pt sz tf us Q s t :=
      ⟨⟨hspace, ha.size, ha.frame, ha.apart⟩, hw.1.kept hcopied⟩
    refine Does.ite (fun _ => ?_) fun hr => ?_
    · rw [Does.pure]
      exact hkept
    · have hall : ∀ v, Touches x.dst x.len v → UserWritable us v := fun v hv => by
        by_contra hno
        exact hr (hw.1.refuses hcopied ⟨v, hv, hno⟩)
      exact (ih hkept.space (hw.2 hall)).mono fun _ w hkw => hkept.trans hkw

theorem runCalls_kept {calls : List Call} (ha : AddrSpace K s L pt sz tf us Q)
    (hw : ∀ c ∈ calls, Reaching us c.copies) :
    Does (runCalls pt calls) (fun _ t => Kept K L pt sz tf us Q s t) s := by
  induction calls generalizing s with
  | nil =>
    rw [runCalls, Does.pure]
    exact .refl ha
  | cons c calls ih =>
    rw [runCalls, Does.bind]
    refine (copyouts_kept ha (hw c List.mem_cons_self)).mono fun _ t ht => ?_
    refine (ih ht.space fun d hd => hw d (List.mem_cons_of_mem _ hd)).mono fun _ w hkw => ?_
    exact ht.trans hkw

/-- A copy to user memory keeps read-only pages and fails on pages that are not writable, for
all bytes it could copy, exactly when it reaches writable pages only; and any sequence of system
calls whose copies are all so keeps the read-only pages. -/
theorem read_only_kept_iff_reaches_writable (ha : AddrSpace K s L pt sz tf us Q) :
    (∀ va len, (∀ src, CopyoutKeeps us pt va src len s) ↔ ReachesWritable us va len) ∧
    ∀ calls : List Call, (∀ c ∈ calls, Reaching us c.copies) →
      ∃ t vs, runCalls pt calls s = ⟨.ok (), t, vs⟩ ∧ AddrSpace K t L pt sz tf us Q ∧
        ReadOnlyKept us s t := by
  refine ⟨fun va len => copyout_keeps_iff ha.space (upper_kernel K tf), fun calls hw => ?_⟩
  have hrun : Does (runCalls pt calls) _ s := runCalls_kept ha hw
  obtain ⟨r, t, vs, heq, hkept⟩ := hrun.result
  exact ⟨t, vs, heq, hkept.space, hkept.contents⟩

end

theorem read_only_kept_iff_reaches_writable_first :
    ∃ L us Q, AddrSpace sixteenPages firstKern.phys L (physTop - 2 * pgSize) pgSize
        (physTop - pgSize) us Q ∧
      ∀ va len, (∀ src, CopyoutKeeps us (physTop - 2 * pgSize) va src len firstKern.phys) ↔
        ReachesWritable us va len := by
  obtain ⟨L, us, Q, ha⟩ := firstKern_space
  exact ⟨L, us, Q, ha, (read_only_kept_iff_reaches_writable ha).1⟩

/-! ## A program that has its text overwritten -/

/-- The page table of a process with one page of text, mapped as `exec` maps a segment with the
flags of code. -/
def textProcess (K : Image) : Vm.Code Nat := do
  kinit K
  let tf ← kalloc
  let pagetable ← procPagetable K tf
  let _ ← uvmalloc K pagetable 0 pgSize (flags2perm 5)
  return pagetable

def textMemory : Phys := (textProcess sixteenPages ⟨fun _ => 0, 0⟩).final

def entryOf (pagetable va : Nat) : Vm.Code Nat := do
  let pte ← walk pagetable va false
  load pte

/-- `fstat` with the address of the text: its page has `PTE_V` and `PTE_U` but not `PTE_W`,
`copyout` returns 0, and the first byte of the text has changed. -/
theorem fstat_overwrites_text :
    (textProcess sixteenPages ⟨fun _ => 0, 0⟩).result.toOption = some (physTop - 2 * pgSize) ∧
    (entryOf (physTop - 2 * pgSize) 0 textMemory).result.toOption =
      some (pa2pte (physTop - 5 * pgSize) ||| (pteR ||| pteX ||| pteU ||| pteV)) ∧
    (copyout (physTop - 2 * pgSize) 0 (fun _ => 1) 24 textMemory).result.toOption = some 0 ∧
    textMemory.mem (physTop - 5 * pgSize) = 0 ∧
    (runCalls (physTop - 2 * pgSize) [.fstat 0 fun _ => 1] textMemory).final.mem
      (physTop - 5 * pgSize) = 1 := by
  decide +kernel

end Xv6.Exec
