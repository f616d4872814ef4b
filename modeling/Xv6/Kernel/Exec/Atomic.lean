import Xv6.Kernel.Exec.Load

/-! # `exec` is safe and atomic

A failing `exec` gives back every page it took and leaves the process and the books of the
file system as they were. A successful one swaps the address space of the process: the old
one is freed and the new one is made of pages that were free.
-/

namespace Xv6.Exec

open Lib Vm

variable {K : Image} {L : List Nat} {k w : Kern} {pt sz : Nat} {us : List UserPage}
  {Q : Multiset Nat}

def Kern.opened (k : Kern) : Kern :=
  { k with ref := k.ref + 1, locked := true, outstanding := k.outstanding + 1 }

/-- Nothing has happened but to pages that are free before and after. -/
structure Unchanged (K : Image) (L : List Nat) (k t : Kern) : Prop where
  books : t.books = k.books
  free : Restored K L k.phys t.phys

/-- The state after `exec` has replaced the address space of user pages `us`. -/
structure Replaced (K : Image) (L : List Nat) (us : List UserPage) (Q : Multiset Nat)
    (k t : Kern) (L' : List Nat) (us' : List UserPage) (Q' : Multiset Nat) : Prop where
  space : AddrSpace K t.phys L' t.proc.pagetable t.proc.sz t.proc.trapframe us' Q'
  total : ↑L + Q + pagesOf us = ↑L' + Q' + pagesOf us'
  agree : AgreeOff pgSize (k.proc.trapframe ::ₘ (↑L + Q + pagesOf us)) k.phys.mem t.phys.mem
  trapframe : t.proc.trapframe = k.proc.trapframe
  ofile : t.proc.ofile = k.proc.ofile
  cwd : t.proc.cwd = k.proc.cwd
  files : (t.ref, t.locked, t.outstanding) = (k.ref, k.locked, k.outstanding)

/-! ## Giving up -/

theorem Kern.books_ext {t : Kern} (h : t.books = k.books) :
    t.proc = k.proc ∧ t.ref = k.ref ∧ t.locked = k.locked ∧ t.outstanding = k.outstanding := by
  simpa only [books, Prod.mk.injEq] using h

def Kern.closed (k : Kern) : Kern :=
  { k with ref := k.ref - 1, locked := false, outstanding := k.outstanding - 1 }

theorem Kern.closed_books (hlock : k.locked = false) (h : w.books = k.opened.books) :
    w.closed.books = k.books := by
  obtain ⟨hproc, hr, hl, ho⟩ := Kern.books_ext h
  have hr' : w.ref = k.ref + 1 := hr
  have ho' : w.outstanding = k.outstanding + 1 := ho
  simp only [Kern.books, Kern.closed, hr', ho', hlock, Prod.mk.injEq]
  exact ⟨hproc, by omega, trivial, by omega⟩

theorem close_iff {α : Type} {m : Code α} {R : α → Kern → Prop} (href : 0 ≤ k.ref)
    (h : w.books = k.opened.books) :
    Does (do iunlockput; endOp; m) R w ↔ Does m R w.closed := by
  obtain ⟨-, hr, hl, -⟩ := Kern.books_ext h
  have hr' : w.ref = k.ref + 1 := hr
  have hl' : w.locked = true := hl
  rw [Does.bind, iunlockput, Does.bind, Does.get, if_neg (by simp [hl', hr']; omega), Does.assign,
    Does.bind, endOp, Does.assign]
  rfl

theorem Built.free {k₀ : Kern} (h : Built K L k₀ pt sz w) :
    Does (vm (procFreepagetable K pt sz)) (fun _ t => t.books = k₀.books ∧
      Restored K L k₀.phys t.phys) w := by
  obtain ⟨us, L', Q, h⟩ := h
  rw [does_vm]
  refine (procFreepagetable_spec h.space h.size).mono fun _ t ht => ⟨h.books, ?_⟩
  obtain ⟨L'', hfree, hL'', hagree⟩ := ht
  refine ⟨L'', hfree, ?_, h.agree.trans (hagree.mono ?_)⟩
  · rw [hL'', h.total, add_assoc]
  · rw [h.total, add_assoc]
    exact Multiset.subset_of_le (Multiset.le_add_left _ _)

theorem Built.pt_ne {k₀ : Kern} (h : Built K L k₀ pt sz w) : pt ≠ 0 := by
  obtain ⟨us, L', Q, h⟩ := h
  have hpage := h.space.owns.table.pages pt h.space.owns.table.root_mem
  exact Nat.pos_iff_ne_zero.mp hpage.pos

theorem bad_closed (h : Built K L k pt sz w) :
    Does (bad K pt sz false) (fun r t => r = -1 ∧ Unchanged K L k t) w := by
  unfold bad
  dsimp only
  rw [if_pos h.pt_ne, Does.bind]
  refine h.free.mono fun _ t ht => ?_
  rw [if_neg (by decide), Does.pure]
  exact ⟨rfl, ht.1, ht.2⟩

theorem bad_opened (hlock : k.locked = false) (href : 0 ≤ k.ref) (h : Built K L k.opened pt sz w) :
    Does (bad K pt sz true) (fun r t => r = -1 ∧ Unchanged K L k t) w := by
  unfold bad
  dsimp only
  rw [if_pos h.pt_ne, Does.bind]
  refine h.free.mono fun _ t ht => ?_
  rw [if_pos rfl]
  rw [close_iff href ht.1, Does.pure]
  exact ⟨rfl, Kern.closed_books hlock ht.1, ht.2⟩

theorem bad_early (hlock : k.locked = false) (href : 0 ≤ k.ref) (h : w.books = k.opened.books)
    (hfree : Restored K L k.phys w.phys) :
    Does (bad K 0 0 true) (fun r t => r = -1 ∧ Unchanged K L k t) w := by
  unfold bad
  dsimp only
  rw [if_neg (by simp), if_pos rfl]
  rw [close_iff href h, Does.pure]
  exact ⟨rfl, Kern.closed_books hlock h, hfree⟩

/-! ## Success -/

/-- The trapframe as `exec` leaves it. -/
structure Entered (tf sp entry : Nat) (m : Bytes) : Prop where
  stack : getLE m (tf + tfSp) 8 = sp % 2 ^ 64
  a1 : getLE m (tf + tfA1) 8 = sp % 2 ^ 64
  epc : getLE m (tf + tfEpc) 8 = entry % 2 ^ 64

theorem entered_put (tf sp entry : Nat) (m : Bytes) : Entered tf sp entry
    (putLE (putLE (putLE m (tf + tfA1) 8 sp) (tf + tfEpc) 8 entry) (tf + tfSp) 8 sp) where
  stack := getLE_putLE _ _ _ _
  a1 := by
    rw [getLE_putLE_of_disjoint (by simp only [tfA1, tfSp]; omega),
      getLE_putLE_of_disjoint (by simp only [tfA1, tfEpc]; omega)]
    exact getLE_putLE _ _ _ _
  epc := by
    rw [getLE_putLE_of_disjoint (by simp only [tfEpc, tfSp]; omega)]
    exact getLE_putLE _ _ _ _

theorem Entered.congr {tf sp entry : Nat} {m m' : Bytes} (h : Entered tf sp entry m)
    (hm : ∀ a, InBlock pgSize tf a → m' a = m a) : Entered tf sp entry m' := by
  have hword : ∀ {off}, off + 8 ≤ pgSize → getLE m' (tf + off) 8 = getLE m (tf + off) 8 :=
    fun hoff => getLE_congr fun i hlo hhi => hm i ⟨by omega, by omega⟩
  constructor
  · rw [hword (by decide), h.stack]
  · rw [hword (by decide), h.a1]
  · rw [hword (by decide), h.epc]

structure Committed (K : Image) (L : List Nat) (us : List UserPage) (Q : Multiset Nat) (k w : Kern)
    (pt sz sp entry : Nat) (us' : List UserPage) (Q' : Multiset Nat) (t : Kern) : Prop where
  replaced : ∃ L', Replaced K L us Q k t L' us' Q'
  pagetable : t.proc.pagetable = pt
  size : t.proc.sz = sz
  agree : AgreeOff pgSize (k.proc.trapframe ::ₘ (Q + pagesOf us)) w.phys.mem t.phys.mem
  entered : Entered k.proc.trapframe sp entry t.phys.mem

theorem commit_spec {sp entry : Nat} {path : List UInt8} {us' : List UserPage} {L' : List Nat}
    {Q' : Multiset Nat} (h : Building K L k pt sz us' L' Q' w)
    (ha : AddrSpace K k.phys L k.proc.pagetable k.proc.sz k.proc.trapframe us Q) :
    Does (commit K pt sz sp entry path)
      (fun _ => Committed K L us Q k w pt sz sp entry us' Q') w := by
  obtain ⟨hproc, hr, hl, ho⟩ := Kern.books_ext h.books
  have hput : ∀ {m : Bytes} {off v : Nat}, off + 8 ≤ pgSize → AgreeOff pgSize
      {k.proc.trapframe} m (putLE m (k.proc.trapframe + off) 8 v) :=
    fun hoff => AgreeOff.putLE (Multiset.mem_singleton_self _) (Nat.le_add_right _ _) (by omega)
  have hframe : AgreeOff pgSize {k.proc.trapframe} w.phys.mem
      (putLE (putLE (putLE w.phys.mem (k.proc.trapframe + tfA1) 8 sp)
        (k.proc.trapframe + tfEpc) 8 entry) (k.proc.trapframe + tfSp) 8 sp) :=
    ((hput (by decide)).trans (hput (by decide))).trans (hput (by decide))
  unfold commit
  simp only [Does.bind, Does.get, does_vm, Does.assign, does_store]
  rw [hproc]
  refine (ha.swap h.space h.size h.total h.agree ?_ hframe).mono fun _ x hx => ?_
  · rfl
  · obtain ⟨L'', hspace, htotal, hagree, hfreed⟩ := hx
    refine ⟨⟨L'', hspace, htotal, hagree, rfl, rfl, rfl, ?_⟩, rfl, rfl, ?_, ?_⟩
    · exact show (w.ref, w.locked, w.outstanding) = _ by rw [hr, hl, ho]
    · exact (hframe.mono (by simp)).trans (hfreed.mono (Multiset.subset_cons _ _))
    · refine (entered_put _ sp entry w.phys.mem).congr fun a hin => ?_
      refine hfreed.block (fun p hp => ?_) ha.frame.aligned (fun hp => ?_) hin
      · exact (ha.not_free (Multiset.mem_cons_of_mem hp)).1
      · exact ha.apart (by rw [add_assoc]; exact Multiset.mem_add.mpr (.inr hp))

/-! ## The whole call -/

/-- A change of what is not on the books does not matter to the address space being built. -/
theorem Built.rebase {k₀ k₁ t : Kern} (h : Built K L k₀ pt sz w) (hphys : t.phys = w.phys)
    (hphys₀ : k₁.phys = k₀.phys) (hproc : k₁.proc = k₀.proc) (hbooks : t.books = k₁.books) :
    Built K L k₁ pt sz t := by
  obtain ⟨us, L', Q, h⟩ := h
  refine ⟨us, L', Q, ?_, h.size, h.total, ?_, hbooks⟩
  · rw [hphys, hproc]
    exact h.space
  · rw [hphys, hphys₀]
    exact h.agree

theorem Restored.refl {s : Phys} (h : FreeList K s L) : Restored K L s s :=
  ⟨L, h, rfl, AgreeOff.refl _⟩

def Execs (K : Image) (L : List Nat) (us : List UserPage) (Q : Multiset Nat) (k : Kern) (r : Int)
    (t : Kern) : Prop :=
  r = -1 ∧ Unchanged K L k t ∨ 0 ≤ r ∧ ∃ L' us' Q', Replaced K L us Q k t L' us' Q'

section

variable {f : File} {path : List UInt8} {argv : List (List UInt8)}

theorem enter_spec {entry : Nat} (h : Built K L k pt sz w) (hargv : argv.length < maxArg)
    (ha : AddrSpace K k.phys L k.proc.pagetable k.proc.sz k.proc.trapframe us Q) :
    Does (enter K pt sz entry path argv) (Execs K L us Q k) w := by
  unfold enter
  rw [Does.bind]
  refine (buildStack_spec h hargv).mono fun r t hr => ?_
  cases r with
  | error sz => exact (bad_closed hr).mono fun _ _ hbad => .inl hbad
  | ok p =>
    obtain ⟨us', L', Q', hb⟩ := hr
    rw [Does.bind]
    refine (commit_spec hb ha).mono fun _ u hu => ?_
    obtain ⟨L'', hu⟩ := hu.replaced
    rw [Does.pure]
    exact .inr ⟨Int.natCast_nonneg _, L'', us', Q', hu⟩

theorem execFile_spec (hargv : argv.length < maxArg)
    (ha : AddrSpace K k.phys L k.proc.pagetable k.proc.sz k.proc.trapframe us Q)
    (hlock : k.locked = false) (href : 0 ≤ k.ref) :
    Does (execFile K f path argv) (Execs K L us Q k) k.opened := by
  have hfree := ha.space.owns.free
  unfold execFile
  rw [Does.bind]
  refine readi_spec.mono fun n t ht => ?_
  obtain ⟨-, l, rfl⟩ := ht
  have hearly : ∀ {w : Kern}, w.books = k.opened.books → Restored K L k.phys w.phys →
      Does (bad K 0 0 true) (Execs K L us Q k) w :=
    fun hw hr => (bad_early hlock href hw hr).mono fun _ _ hbad => .inl hbad
  refine Does.ite (fun _ => hearly rfl (Restored.refl hfree)) fun _ => ?_
  refine Does.ite (fun _ => hearly rfl (Restored.refl hfree)) fun _ => ?_
  rw [Does.bind, Does.get, Does.bind, does_vm]
  refine (procPagetable_spec hfree ha.frame).mono fun pt t hpt => ?_
  rcases hpt with ⟨rfl, hrest⟩ | ⟨hne, L', Q', hmade⟩
  · rw [if_pos rfl]
    exact hearly rfl hrest
  · rw [if_neg hne, Does.bind]
    have hloaded : Loaded K L k.opened pt 0 { k.opened with phys := t, faults := l } := by
      refine ⟨[], L', Q', ⟨hmade.space, by decide, ?_, hmade.agree, rfl⟩, by simp [Accessible]⟩
      rw [hmade.total]
      simp [pagesOf]
    refine (loadPhdrs_spec hloaded).mono fun r w hr => ?_
    cases r with
    | error sz => exact (bad_opened hlock href hr).mono fun _ _ hbad => .inl hbad
    | ok sz =>
      have hbuilt := Loaded.built hr
      have hbooks : w.books = k.opened.books := by
        obtain ⟨_, _, _, h⟩ := hbuilt
        exact h.books
      rw [close_iff href hbooks]
      exact enter_spec (hbuilt.rebase rfl rfl rfl (Kern.closed_books hlock hbooks)) hargv ha

theorem exec_opened {R : Int → Kern → Prop} (hlock : k.locked = false) (href : 0 ≤ k.ref)
    (h : Does (execFile K f path argv) R k.opened) : Does (exec K (some f) path argv) R k := by
  have href' : ¬ k.ref + 1 < 1 := by omega
  unfold exec
  simp only [beginOp, namei, Option.isSome_some, if_true, Does.bind, Does.assign, Does.pure, ilock,
    Does.get, href', if_false, hlock, Bool.false_eq_true]
  exact h

theorem exec_missing (h : FreeList K k.phys L) :
    Does (exec K none path argv) (fun r t => r = -1 ∧ Unchanged K L k t) k := by
  simp only [exec, beginOp, namei, Option.isSome_none, Bool.false_eq_true, if_false, Does.bind,
    Does.pure, endOp, Does.assign]
  refine ⟨trivial, ?_, Restored.refl h⟩
  simp [Kern.books]

theorem exec_spec {file : Option File} (hargv : argv.length < maxArg)
    (ha : AddrSpace K k.phys L k.proc.pagetable k.proc.sz k.proc.trapframe us Q)
    (hlock : k.locked = false) (href : 0 ≤ k.ref) :
    Does (exec K file path argv) (Execs K L us Q k) k := by
  cases file with
  | none => exact (exec_missing ha.space.owns.free).mono fun _ _ h => .inl h
  | some f => exact exec_opened hlock href (execFile_spec hargv ha hlock href)

end

/-- For every file and every argument list, whatever calls of `kalloc` and `readi` fail: `exec`
returns, and if it returns -1 then the process, its page table, user pages and trapframe, the
free pages, the reference count of the inode and the number of open calls are as before. -/
theorem exec_safe_and_atomic (file : Option File) (path : List UInt8) (argv : List (List UInt8))
    (k : Kern) (hargv : argv.length < maxArg)
    (ha : AddrSpace K k.phys L k.proc.pagetable k.proc.sz k.proc.trapframe us Q)
    (hlock : k.locked = false) (href : 0 ≤ k.ref) :
    ∃ r t vs, exec K file path argv k = ⟨.ok r, t, vs⟩ ∧ (r = -1 →
      t.proc = k.proc ∧
      (∀ p ∈ k.proc.trapframe ::ₘ (Q + pagesOf us), ∀ a, InBlock pgSize p a →
        t.phys.mem a = k.phys.mem a) ∧
      (∃ L', FreeList K t.phys L' ∧ L'.Perm L) ∧
      t.ref = k.ref ∧ t.locked = k.locked ∧ t.outstanding = k.outstanding) := by
  have hspec : Does (exec K file path argv) _ k := exec_spec hargv ha hlock href
  obtain ⟨r, t, vs, heq, hr⟩ := hspec.result
  refine ⟨r, t, vs, heq, fun hfail => ?_⟩
  rcases hr with ⟨-, hsame⟩ | ⟨hpos, -⟩
  · obtain ⟨hproc, hr, hl, ho⟩ := Kern.books_ext hsame.books
    obtain ⟨L', hfree, hL', hagree⟩ := hsame.free
    refine ⟨hproc, ?_, ⟨L', hfree, Multiset.coe_eq_coe.mp hL'⟩, hr, hl, ho⟩
    intro p hp a hin
    obtain ⟨hal, hnot⟩ := ha.not_free hp
    exact hagree.block (fun q hq => (ha.space.owns.free.pages q hq).aligned) hal hnot hin
  · omega

/-! A process made by `proc_pagetable` and `uvmalloc`, in a memory of sixteen pages. -/

def sixteenPages : Image where
  kend := physTop - 16 * pgSize
  trampoline := kernBase
  trampoline_aligned := kernBase_aligned
  trampoline_pos := Nat.le_refl _
  trampoline_below := by decide
  kend_le := by decide

def firstProcess (K : Image) : Vm.Code (Nat × Nat × Nat) := do
  kinit K
  let tf ← kalloc
  if tf = 0 then return (0, 0, 0)
  else
    let pagetable ← procPagetable K tf
    if pagetable = 0 then return (0, 0, 0)
    else
      let sz ← uvmalloc K pagetable 0 pgSize pteW
      return (tf, pagetable, sz)

theorem firstProcess_spec {mem : Bytes} :
    Does (firstProcess K) (fun r t => r.2.2 ≠ 0 →
      ∃ L us Q, AddrSpace K t L r.2.1 r.2.2 r.1 us Q) ⟨mem, 0⟩ := by
  unfold firstProcess
  rw [Does.bind]
  refine (kinit_spec (K := K) (s := ⟨mem, 0⟩) rfl).mono fun _ s hs => ?_
  rw [Does.bind]
  refine (kalloc_spec hs).mono fun tf t ht => ?_
  rcases ht with ⟨-, rfl, -⟩ | ⟨L, hL, htook⟩
  · rw [if_pos rfl, Does.pure]
    exact fun hne => absurd rfl hne
  · rw [if_neg (Nat.pos_iff_ne_zero.mp htook.page.pos), Does.bind]
    refine (procPagetable_spec htook.free htook.page).mono fun pt u hpt => ?_
    rcases hpt with ⟨rfl, -⟩ | ⟨hne, L', Q, hmade⟩
    · rw [if_pos rfl, Does.pure]
      exact fun hne => absurd rfl hne
    · have hspace : AddrSpace K u L' pt 0 tf [] Q := by
        refine ⟨hmade.space, by decide, htook.page, ?_⟩
        rw [← hmade.total]
        simpa [pagesOf] using htook.fresh
      rw [if_neg hne, Does.bind]
      refine (hspace.uvmalloc (by decide)).mono fun r w hr => ?_
      rw [Does.pure]
      intro hr0
      obtain ⟨new, L'', Q', hspace', -⟩ := hr
      rw [if_neg hr0] at hspace'
      exact ⟨L'', _, Q', hspace'⟩

/-- An ELF file with one segment, larger than memory. -/
def hugeFile : File where
  size := 120
  data := putLE (putLE (putLE (putLE (putLE (fun _ => 0) 0 4 elfMagic) 32 8 64) 56 2 1) 64 4 1)
    104 8 (2 ^ 20)
  size_lt := by decide

def firstKern : Kern where
  phys := (firstProcess sixteenPages ⟨fun _ => 0, 0⟩).final
  proc := ⟨physTop - 2 * pgSize, pgSize, physTop - pgSize, fun _ => 0, fun _ => none, 0⟩
  ref := 0
  locked := false
  outstanding := 0
  faults := []

theorem firstKern_space : ∃ L us Q, AddrSpace sixteenPages firstKern.phys L (physTop - 2 * pgSize)
    pgSize (physTop - pgSize) us Q := by
  have hres : (firstProcess sixteenPages ⟨fun _ => 0, 0⟩).result.toOption =
      some (physTop - pgSize, physTop - 2 * pgSize, pgSize) := by decide +kernel
  obtain ⟨r, t, vs, heq, hr⟩ := (firstProcess_spec (K := sixteenPages)).result
  rw [heq] at hres
  obtain rfl : r = (physTop - pgSize, physTop - 2 * pgSize, pgSize) := Option.some.inj hres
  have hphys : firstKern.phys = t := by rw [firstKern, heq]
  rw [hphys]
  exact hr (by decide)

theorem exec_safe_and_atomic_huge :
    ∃ r t vs, exec sixteenPages (some hugeFile) [47, 104] [[104]] firstKern = ⟨.ok r, t, vs⟩ ∧
      (r = -1 → t.proc = firstKern.proc ∧ t.ref = 0) := by
  obtain ⟨L, us, Q, ha⟩ := firstKern_space
  obtain ⟨r, t, vs, heq, hr⟩ := exec_safe_and_atomic (some hugeFile) [47, 104] [[104]] firstKern
    (by decide) ha rfl (by decide)
  exact ⟨r, t, vs, heq, fun hfail => ⟨(hr hfail).1, (hr hfail).2.2.2.1⟩⟩

end Xv6.Exec
