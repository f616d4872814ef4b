import Xv6.Kernel.Tasks.Pages

/-! # Runs of the process table

From the first process on, whatever the processes call: no page is lost or has two owners, and
the tables map what they should.
-/

namespace Xv6.Tasks

open Lib Vm Exec Finset

section

variable {K : Image} {all : Multiset Nat} {s t : Sys} {L : List Nat} {i v : Nat} {p : Proc}
  {phys : Phys} {us : List UserPage} {Q : Multiset Nat} {evs : List (Nat × Call)}

theorem step_kept {e : Nat × Call} (h : Kept K all s) (hst : step K s e = some t) :
    Kept K all t := by
  unfold step at hst
  cases hp : s.proc e.1 with
  | none => simp [hp] at hst
  | some p =>
    obtain ⟨a, u, vs, heq, hu⟩ := (syscall_spec h hp e.2).result
    simp only [hp, heq, Option.some.injEq] at hst
    exact hst ▸ hu

theorem alone_kept (ha : AddrSpace K phys L p.pagetable p.sz p.trapframe us Q) :
    Kept K (p.trapframe ::ₘ (↑L + Q + pagesOf us)) (alone phys p) := by
  have hproc : ∀ i ≠ 0, (alone phys p).proc i = none := fun i hi =>
    upd_other hi (f := fun _ => none)
  refine ⟨L, fun _ => ⟨us, Q⟩, ha.space.owns.free, fun i q hq => ?_, ?_,
    Multiset.nodup_cons.mpr ⟨ha.apart, ha.space.nodup⟩⟩
  · obtain rfl : i = 0 := by
      by_contra hi
      rw [hproc i hi] at hq
      cases hq
    cases hq
    exact ⟨by decide, ha⟩
  · have hzero : otherShares nProc (fun i => slotPages ((alone phys p).proc i) ⟨us, Q⟩) 0 = 0 := by
      apply sum_eq_zero
      intro i hi
      rw [hproc i (ne_of_mem_erase hi), slotPages]
    rw [sum_share (by decide : 0 < nProc), hzero, add_zero, add_assoc]
    exact Multiset.add_cons _ _ _

theorem upper_valid (hv : v = nUser ∨ v = nUser + 1) : upper K i v &&& pteV ≠ 0 := by
  unfold upper
  obtain rfl | rfl := hv
  · rw [upd_same]
    exact (trapframePte_leaf i).valid
  · rw [upd_other (Nat.succ_ne_self _), upd_same]
    exact (trampolinePte_leaf K).valid

section

variable (ha : AddrSpace K phys L p.pagetable p.sz p.trapframe us Q)
  (hrun : Run (step K) (fun _ _ => True) (alone phys p) evs t)

include ha hrun

theorem run_kept : Kept K (p.trapframe ::ₘ (↑L + Q + pagesOf us)) t :=
  hrun.invariant (alone_kept ha) fun _ _ _ h _ hst => step_kept h hst

/-- After every sequence of calls by any processes, whatever `kalloc` answered, the pages of the
first process and the free ones are all there, each of them once on the free list or as one page
of one process, and every process has its address space. -/
theorem pages_owned_once : ∃ (L' : List Nat) (own : Nat → Own), FreeList K t.phys L' ∧
    ↑L' + ∑ i ∈ range nProc, slotPages (t.proc i) (own i) =
      p.trapframe ::ₘ (↑L + Q + pagesOf us) ∧
    (p.trapframe ::ₘ (↑L + Q + pagesOf us)).Nodup ∧
    ∀ i q, t.proc i = some q → i < nProc ∧
      AddrSpace K t.phys L' q.pagetable q.sz q.trapframe (own i).us (own i).tables := by
  obtain ⟨L', own, h⟩ := run_kept ha hrun
  exact ⟨L', own, h.free, h.total, h.nodup, h.held⟩

/-- In every state that the calls lead to, the valid entries of a process are those below its
size, the trapframe and the trampoline, the last two not for the user, and whatever it calls next
returns: no check of the page table code panics. -/
theorem address_spaces_in_shape (i : Nat) (q : Proc) (hq : t.proc i = some q) :
    (∀ v < vpnEnd, leafPte q.pagetable t.phys v &&& pteV ≠ 0 ↔
      v * pgSize < pgRoundUp q.sz ∨ v = nUser ∨ v = nUser + 1) ∧
    pgRoundUp q.sz ≤ trapframeVa ∧
    (∀ v < vpnEnd, nUser ≤ v → leafPte q.pagetable t.phys v &&& pteU = 0) ∧
    ∀ c, ∃ a u vs, syscall K i q c t = ⟨.ok a, u, vs⟩ := by
  obtain ⟨L', own, h⟩ := run_kept ha hrun
  have hspace := (h.held i q hq).2
  have hlen := hspace.space.length_lt
  have hsmall := hspace.space.small hspace.size
  have hupper : ∀ v < vpnEnd, nUser ≤ v →
      leafPte q.pagetable t.phys v = upper K q.trapframe v := by
    intro v hv hge
    rw [hspace.space.owns.table.leafPte hv, withUser_of_ge (hlen.le.trans hge)]
  refine ⟨fun v hv => ?_, ?_, fun v hv hge => ?_, fun c => ?_⟩
  · have hend : vpnEnd = nUser + 2 := by decide
    by_cases hlow : v < nUser
    · rw [hspace.mapped hlow]
      exact ⟨.inl, fun hor => hor.resolve_right (by omega)⟩
    · have htop : v = nUser ∨ v = nUser + 1 := by omega
      rw [hupper v hv (by omega)]
      exact ⟨fun _ => .inr htop, fun _ => upper_valid htop⟩
  · rw [pgRoundUp_eq (by simp only [pgSize]; omega), trapframeVa_eq, ← hspace.size]
    exact Nat.mul_le_mul_right _ hlen.le
  · rw [hupper v hv hge, upper_kernel K _ v]
  · obtain ⟨a, u, vs, heq, -⟩ := (syscall_spec ⟨L', own, h⟩ hq c).result
    exact ⟨a, u, vs, heq⟩

end

end

theorem fork_runs : ∃ t r, Run (step sixteenPages) (fun _ _ => True)
    (alone firstKern.phys firstKern.proc) [(0, .fork)] t ∧ t.proc 1 = some r := by
  have hsome : ((step sixteenPages (alone firstKern.phys firstKern.proc) (0, .fork)).bind
      (·.proc 1)).isSome = true := by decide +kernel
  obtain ⟨r, hr⟩ := Option.isSome_iff_exists.mp hsome
  obtain ⟨t, ht, hr⟩ := Option.bind_eq_some_iff.mp hr
  exact ⟨t, r, .cons trivial ht .nil, hr⟩

theorem pages_owned_once_forked : ∃ (t : Sys) (r : Proc) (L' : List Nat),
    t.proc 1 = some r ∧ FreeList sixteenPages t.phys L' := by
  obtain ⟨L, us, Q, ha⟩ := firstKern_space
  obtain ⟨t, r, hrun, hr⟩ := fork_runs
  obtain ⟨L', own, hfree, -⟩ := pages_owned_once ha hrun
  exact ⟨t, r, L', hr, hfree⟩

theorem address_spaces_in_shape_forked : ∃ (t : Sys) (r : Proc), t.proc 1 = some r ∧
    pgRoundUp r.sz ≤ trapframeVa := by
  obtain ⟨L, us, Q, ha⟩ := firstKern_space
  obtain ⟨t, r, hrun, hr⟩ := fork_runs
  exact ⟨t, r, hr, (address_spaces_in_shape ha hrun 1 r hr).2.1⟩

end Xv6.Tasks
