import Xv6.Kernel.Tasks.Code
import Xv6.Lib.Shares

/-! # Every page is in one place

Each page is on the free list or is a page of one process. A call changes the share of one
process only, and never touches the tables of the others.
-/

namespace Xv6.Tasks

open Lib Vm Finset

structure Own where
  us : List UserPage
  tables : Multiset Nat

/-- The pages of an entry of the process table. -/
def slotPages : Option Exec.Proc → Own → Multiset Nat
  | none, _ => 0
  | some p, o => p.trapframe ::ₘ (o.tables + pagesOf o.us)

/-- The pages `all` are the free ones `L` and those of the processes. -/
structure Pages (K : Image) (all : Multiset Nat) (s : Sys) (L : List Nat) (own : Nat → Own) :
    Prop where
  free : FreeList K s.phys L
  held : ∀ i p, s.proc i = some p → i < nProc ∧
    AddrSpace K s.phys L p.pagetable p.sz p.trapframe (own i).us (own i).tables
  total : ↑L + ∑ i ∈ range nProc, slotPages (s.proc i) (own i) = all
  nodup : all.Nodup

def Kept (K : Image) (all : Multiset Nat) (s : Sys) : Prop := ∃ L own, Pages K all s L own

section

variable {K : Image} {all : Multiset Nat} {s u : Sys} {L L' : List Nat} {own : Nat → Own}
  {i : Nat} {p : Exec.Proc} {o : Own}

theorem Pages.split (h : Pages K all s L own) (hi : i < nProc) :
    slotPages (s.proc i) (own i) +
      (↑L + otherShares nProc (fun j => slotPages (s.proc j) (own j)) i) = all := by
  rw [← h.total, sum_share hi, add_left_comm]

theorem Pages.apart {j : Nat} {q : Exec.Proc} (h : Pages K all s L own) (hi : i < nProc)
    (hj : s.proc j = some q) (hne : j ≠ i) :
    Disjoint (slotPages (some q) (own j)) (slotPages (s.proc i) (own i)) := by
  have hnd := h.nodup
  rw [← h.split hi, Multiset.nodup_add] at hnd
  rw [Multiset.disjoint_right, ← hj]
  intro a ha hin
  refine Multiset.disjoint_left.mp hnd.2.2 ha (Multiset.mem_add.mpr (.inr ?_))
  exact mem_otherShares (h.held j q hj).1 hne hin

theorem Pages.aligned (h : Pages K all s L own) {a : Nat}
    (ha : a ∈ slotPages (s.proc i) (own i)) : pgSize ∣ a := by
  cases hp : s.proc i with
  | none => simp [hp, slotPages] at ha
  | some p =>
    rw [hp] at ha
    exact ((h.held i p hp).2.not_free ha).1

/-- The share of one process changes: what it has given up is free, and what it has got was
free. -/
theorem Pages.change {x : Option Exec.Proc} (h : Pages K all s L own) (hi : i < nProc)
    (hu : u.proc = upd s.proc i x) (hfree : FreeList K u.phys L')
    (hspace : ∀ q, x = some q →
      AddrSpace K u.phys L' q.pagetable q.sz q.trapframe o.us o.tables)
    (htotal : ↑L + slotPages (s.proc i) (own i) = ↑L' + slotPages x o)
    (hagree : AgreeOff pgSize (↑L + slotPages (s.proc i) (own i)) s.phys.mem u.phys.mem) :
    Kept K all u := by
  refine ⟨L', upd own i o, hfree, fun j q hq => ?_, ?_, h.nodup⟩
  · rw [hu] at hq
    by_cases hj : j = i
    · rw [hj, upd_same] at hq ⊢
      exact ⟨hi, hspace q hq⟩
    · rw [upd_other hj] at hq ⊢
      obtain ⟨hlt, hold⟩ := h.held j q hq
      exact ⟨hlt, (hold.untouched hfree (htotal ▸ Multiset.le_add_right _ _) hagree
        (h.apart hi hq hj) fun a => h.aligned).1⟩
  · have hshare : (fun j => slotPages (u.proc j) (upd own i o j)) =
        upd (fun j => slotPages (s.proc j) (own j)) i (slotPages x o) := by
      funext j
      rw [hu]
      by_cases hj : j = i
      · rw [hj, upd_same, upd_same, upd_same]
      · rw [upd_other hj, upd_other hj, upd_other hj]
    rw [hshare, sum_upd hi, ← h.split hi, ← add_assoc, ← htotal]
    abel

/-- The address space of a process changes. -/
theorem Pages.remap {us : List UserPage} {Q : Multiset Nat} {q : Exec.Proc}
    (h : Pages K all s L own) (hp : s.proc i = some p) (hu : u.proc = upd s.proc i (some q))
    (hspace : AddrSpace K u.phys L' q.pagetable q.sz q.trapframe us Q)
    (htf : q.trapframe = p.trapframe)
    (htotal : ↑L + (own i).tables + pagesOf (own i).us = ↑L' + Q + pagesOf us)
    (hagree : AgreeOff pgSize (p.trapframe ::ₘ (↑L + (own i).tables + pagesOf (own i).us))
      s.phys.mem u.phys.mem) : Kept K all u := by
  have hslot : ↑L + slotPages (s.proc i) (own i) =
      p.trapframe ::ₘ (↑L + (own i).tables + pagesOf (own i).us) := by
    rw [hp, slotPages, Multiset.add_cons, add_assoc]
  refine h.change (o := ⟨us, Q⟩) (h.held i p hp).1 hu hspace.space.owns.free (fun x hx => ?_) ?_
    (hslot ▸ hagree)
  · cases hx
    exact hspace
  · rw [hslot, htotal, slotPages, Multiset.add_cons, add_assoc, htf]

/-- Nothing has changed but the order and the contents of the free pages. -/
theorem Pages.restored (h : Pages K all s L own) (hp : s.proc i = some p) (hu : u.proc = s.proc)
    (hr : Restored K L s.phys u.phys) : Kept K all u := by
  obtain ⟨L', hfree, hL', hagree⟩ := hr
  have hspace := ((h.held i p hp).2.unwritten hfree hL'.le hagree).1
  apply h.remap hp (by rw [hu, ← hp, upd_self]) hspace rfl (by rw [hL'])
  apply hagree.mono
  intro a ha
  simp [Multiset.mem_coe.mp ha]

/-! ## The calls -/

theorem does_vm {α : Type} {m : Vm.Code α} {Q : α → Sys → Prop} :
    Does (vm m) Q s ↔ Does m (fun a t => Q a { s with phys := t }) s.phys := Does.zoom

theorem does_setProc {x : Option Exec.Proc} {Q : Unit → Sys → Prop} :
    Does (setProc i x) Q s ↔ Q () { s with proc := upd s.proc i x } := Does.assign _

theorem wait_spec (h : Kept K all s) : Does (wait K i) (fun _ => Kept K all) s := by
  unfold wait
  rw [Does.bind, Does.get]
  cases hq : s.proc i with
  | none =>
    rw [Does.pure]
    exact h
  | some q =>
    obtain ⟨L, own, h⟩ := h
    have ha := (h.held i q hq).2
    dsimp only
    rw [Does.bind, does_vm]
    refine (freeproc_spec ha.space ha.size ha.frame ha.apart).mono fun _ phys hf => ?_
    obtain ⟨L', hfree, hL', hagree⟩ := hf
    rw [Does.bind, does_setProc, Does.pure]
    refine h.change (o := own i) (h.held i q hq).1 rfl hfree (fun x hx => by cases hx) ?_ ?_
    · rw [hq, hL', slotPages, slotPages, add_zero]
    · rw [hq, slotPages]
      exact hagree.mono (Multiset.subset_of_le (Multiset.le_add_left _ _))

section

variable (h : Kept K all s) (hp : s.proc i = some p)

include h hp

theorem sbrk_spec (n : Int) : Does (sbrk K i p n) (fun _ => Kept K all) s := by
  obtain ⟨L, own, h⟩ := h
  unfold sbrk
  rw [Does.bind, does_vm]
  refine (growproc_pages (h.held i p hp).2).mono fun r phys hr => ?_
  obtain ⟨L', us, Q, hspace, htotal, hagree⟩ := hr
  rw [Does.bind, does_setProc]
  have hkept : Kept K all ⟨phys, upd s.proc i (some { p with sz := r.2 })⟩ :=
    h.remap hp rfl hspace rfl htotal (hagree.mono (Multiset.subset_cons _ _))
  exact Does.ite (fun _ => (Does.pure _).mpr hkept) fun _ => (Does.pure _).mpr hkept

theorem fork_spec : Does (fork K p) (fun _ => Kept K all) s := by
  unfold fork
  rw [Does.bind, Does.get]
  cases hfind : (List.range nProc).find? fun j => (s.proc j).isNone with
  | none =>
    rw [Does.pure]
    exact h
  | some j =>
    have hj : j < nProc := List.mem_range.mp (List.mem_of_find?_eq_some hfind)
    have hnone : s.proc j = none := by simpa using List.find?_some hfind
    obtain ⟨L, own, h⟩ := h
    have ha := (h.held i p hp).2
    dsimp only
    rw [Does.bind, does_vm]
    refine (fork_pages ha).mono fun r phys hr => ?_
    obtain ⟨rfl, hr⟩ | ⟨tf, pt, us, L', Q, rfl, hf⟩ := hr
    · rw [Does.pure]
      exact h.restored hp rfl hr
    · dsimp only
      rw [Does.bind, does_setProc, Does.pure]
      refine h.change (o := ⟨us, Q⟩) hj rfl hf.space.owns.free (fun q hq => ?_) ?_ ?_
      · cases hq
        have hnd := Multiset.coe_nodup.mpr h.free.nodup
        rw [hf.total] at hnd
        exact ⟨hf.space, hf.length.trans ha.size, hf.frame, (Multiset.nodup_cons.mp hnd).1⟩
      · rw [hnone, slotPages, slotPages, add_zero, hf.total, Multiset.add_cons, add_assoc]
      · rw [hnone, slotPages, add_zero]
        exact hf.agree

theorem exec_spec (file : Option Exec.File) (path : List UInt8) (argv : List (List UInt8))
    (faults : List Nat) : Does (exec K i p file path argv faults) (fun _ => Kept K all) s := by
  refine Does.ite (fun hargv => ?_) fun _ => (Does.pure _).mpr h
  obtain ⟨L, own, h⟩ := h
  rw [Does.zoom]
  refine (Exec.exec_spec (k := ⟨s.phys, p, 0, false, 0, faults⟩) hargv (h.held i p hp).2 rfl
    (Int.le_refl 0)).mono fun r k hk => ?_
  obtain ⟨-, hsame⟩ | ⟨-, L', us, Q, hnew⟩ := hk
  · rw [(Exec.Kern.books_ext hsame.books).1, ← hp, upd_self]
    exact h.restored hp rfl hsame.free
  · exact h.remap hp rfl hnew.space hnew.trapframe hnew.total hnew.agree

theorem copyout_kept (va : Nat) (src : Bytes) (len : Nat) :
    Does (vm (copyout p.pagetable va src len)) (fun _ => Kept K all) s := by
  obtain ⟨L, own, h⟩ := h
  have ha := (h.held i p hp).2
  rw [does_vm]
  refine (copyout_spec ha.space (upper_kernel K _)).mono fun r phys hr => ?_
  apply h.remap hp (by rw [← hp, upd_self]) ⟨hr.2.1, ha.size, ha.frame, ha.apart⟩ rfl rfl
  exact hr.2.2.mono fun a ha => by simp [ha]

/-- Every call returns. -/
theorem syscall_spec (c : Call) : Does (syscall K i p c) (fun _ => Kept K all) s := by
  cases c with
  | fork => exact fork_spec h hp
  | exec file path argv faults => exact exec_spec h hp file path argv faults
  | sbrk n => exact sbrk_spec h hp n
  | copyout va src len => exact copyout_kept h hp va src len
  | wait j => exact wait_spec h

end

end

end Xv6.Tasks
