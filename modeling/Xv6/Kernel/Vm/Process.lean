import Xv6.Kernel.Vm.Space

/-! # The address space of a process

`proc_pagetable` makes a table with the trampoline and the trapframe and no user memory,
and `proc_freepagetable` gives everything back. Both keep every page in one place,
whatever the allocator answers.
-/

namespace Xv6.Vm

open Lib Radix

def trampolinePte (K : Image) : Nat := pa2pte K.trampoline ||| (pteR ||| pteX) ||| pteV

def trapframePte (tf : Nat) : Nat := pa2pte tf ||| (pteR ||| pteW) ||| pteV

/-- The entries above user memory. -/
def upper (K : Image) (tf : Nat) : Nat → Nat :=
  upd (upd (fun _ => 0) (nUser + 1) (trampolinePte K)) nUser (trapframePte tf)

variable {K : Image} {s t : Phys} {L : List Nat} {pt tf n : Nat} {us : List UserPage}
  {g : Nat → Nat} {Q : Multiset Nat}

theorem trapframeVa_eq : trapframeVa = nUser * pgSize := by decide

theorem trampolineVa_eq : trampolineVa = (nUser + 1) * pgSize := by decide

theorem upper_below (K : Image) (tf : Nat) : ∀ v < nUser, upper K tf v = 0 := by
  intro v hv
  unfold upper
  rw [upd_other (by omega), upd_other (by omega)]

theorem withUser_upd {v w : Nat} (hv : us.length ≤ v) :
    upd (withUser us g) v w = withUser us (upd g v w) := by
  funext x
  by_cases hx : x = v
  · subst hx
    rw [upd_same, withUser_of_ge hv, upd_same]
  · rw [upd_other hx]
    unfold withUser
    rw [upd_other hx]

theorem isLeaf_of_flags {pa perm : Nat} (h : perm ||| pteV < 2 ^ 10)
    (hperm : perm ||| pteV ≠ pteV) :
    IsLeaf (pa2pte pa ||| perm ||| pteV) := by
  rw [Nat.or_assoc]
  constructor
  · rw [and_flags (by decide), pteFlags_or h]
    intro heq
    have := congrArg (Nat.testBit · 0) heq
    simp [pteV] at this
  · rwa [pteFlags_or h]

theorem trampolinePte_leaf (K : Image) : IsLeaf (trampolinePte K) :=
  isLeaf_of_flags (by decide) (by decide)

theorem trapframePte_leaf (tf : Nat) : IsLeaf (trapframePte tf) :=
  isLeaf_of_flags (by decide) (by decide)

theorem trampolinePte_lt (K : Image) : trampolinePte K < 256 ^ 8 := by
  rw [trampolinePte, Nat.or_assoc]
  apply pte_lt _ (by decide)
  have := K.trampoline_below
  have := K.kend_le
  have : physTop < 2 ^ 64 := by decide
  omega

theorem trapframePte_lt (h : IsPage K tf) : trapframePte tf < 256 ^ 8 := by
  rw [trapframePte, Nat.or_assoc]
  exact pte_lt h.lt (by decide)

/-! ## Freeing -/

theorem Space.unmap_upper {v : Nat} (h : Space K s L pt us g Q) (hv : nUser ≤ v)
    (hva : (v + 1) * pgSize ≤ maxVa) (hleaf : IsLeaf (g v)) :
    Does (uvmunmap K pt (v * pgSize) 1 false) (fun _ t =>
      Space K t L pt us (upd g v 0) Q ∧ AgreeOff pgSize Q s.mem t.mem) s := by
  have hlen := h.length_lt
  refine (uvmunmap_keep h.owns.table hva ?_).mono fun _ t ht => ?_
  · rwa [withUser_of_ge (by omega)]
  · obtain ⟨hlist, htable, hagree⟩ := ht
    rw [withUser_upd (by omega)] at htable
    refine ⟨⟨h.owns.entries hlist htable hagree, h.users, fun v' hv' => ?_, h.nodup⟩, hagree⟩
    rw [upd_other (by omega)]
    exact h.above v' hv'

/-- All pages of a space without entries above its user memory go to the free list. -/
theorem uvmfree_spec {sz : Nat} (h : Space K s L pt us g Q) (hlen : us.length = npages sz)
    (hg : ∀ v < nVpn, Invalid (g v)) :
    Does (uvmfree K pt sz) (Frees K L (Q + pagesOf us) s) s := by
  have hsmall := h.small hlen
  have hwalk : ∀ {t : Phys} {L' : List Nat}, Space K t L' pt [] g Q →
      (L' : Multiset Nat) = ↑L + pagesOf us → AgreeOff pgSize (Q + pagesOf us) s.mem t.mem →
      Does (freewalk K 3 pt) (Frees K L (Q + pagesOf us) s) t := by
    intro t L' hspace hL' hagree
    have howns := hspace.owns
    rw [withUser_nil] at howns
    refine (freewalk_table howns hg).mono fun _ u hu => ?_
    obtain ⟨L'', hfree, hL'', hagree'⟩ := hu
    refine ⟨L'', hfree, ?_, hagree.trans (hagree'.mono ?_)⟩
    · rw [hL'', hL', add_assoc, add_comm (pagesOf us)]
    · exact Multiset.subset_of_le (Multiset.le_add_right _ _)
  unfold uvmfree
  dsimp only
  refine Does.ite (fun hpos => ?_) fun hzero => ?_
  · have hround : pgRoundUp sz / pgSize = us.length - 0 := by
      rw [pgRoundUp_eq (by simp only [pgSize]; omega), Nat.mul_div_cancel _ (by decide), hlen,
        Nat.sub_zero]
    rw [Does.bind, hround, show (0 : Nat) = 0 * pgSize from rfl]
    refine (h.unmap (n := 0) (Nat.zero_le _)).mono fun _ t ht => ?_
    obtain ⟨L', hspace, hL', hagree⟩ := ht
    exact hwalk hspace hL' hagree
  · have hnil : us = [] := by
      have : npages sz = 0 := by
        rw [show sz = 0 by omega]
        rfl
      exact List.eq_nil_of_length_eq_zero (hlen.trans this)
    subst hnil
    exact hwalk h (by simp [pagesOf]) (AgreeOff.refl _)

theorem procFreepagetable_spec {sz : Nat} (h : Space K s L pt us (upper K tf) Q)
    (hlen : us.length = npages sz) :
    Does (procFreepagetable K pt sz) (Frees K L (Q + pagesOf us) s) s := by
  unfold procFreepagetable
  rw [Does.bind, trampolineVa_eq, trapframeVa_eq]
  have htramp : upper K tf (nUser + 1) = trampolinePte K := by
    rw [upper, upd_other (by omega), upd_same]
  refine (h.unmap_upper (by omega) (by decide) (htramp ▸ trampolinePte_leaf K)).mono
    fun _ t ht => ?_
  obtain ⟨h₁, hagree₁⟩ := ht
  have htf : upd (upper K tf) (nUser + 1) 0 nUser = trapframePte tf := by
    rw [upd_other (by omega), upper, upd_same]
  rw [Does.bind]
  refine (h₁.unmap_upper (Nat.le_refl _) (by decide) (htf ▸ trapframePte_leaf tf)).mono
    fun _ u hu => ?_
  obtain ⟨h₂, hagree₂⟩ := hu
  refine (uvmfree_spec h₂ hlen fun v _ => ?_).mono fun _ w hw => ?_
  · unfold Invalid upper
    by_cases hv : v = nUser
    · rw [hv, upd_same]
      rfl
    · rw [upd_other hv]
      by_cases hv' : v = nUser + 1
      · rw [hv', upd_same]
        rfl
      · rw [upd_other hv', upd_other hv, upd_other hv']
        rfl
  · obtain ⟨L', hfree, hL', hagree⟩ := hw
    refine ⟨L', hfree, hL', ((hagree₁.trans hagree₂).mono ?_).trans hagree⟩
    exact Multiset.subset_of_le (Multiset.le_add_right _ _)

/-! ## Setting up -/

theorem uvmfree_table {f : Nat → Nat} (h : Owns K s L pt f Q) (hf : ∀ v < nVpn, Invalid (f v)) :
    Does (uvmfree K pt 0) (Frees K L Q s) s := by
  unfold uvmfree
  dsimp only
  rw [if_neg (by decide)]
  exact freewalk_table h hf

/-- A table without user memory, and the free list is short of its pages only. -/
structure Made (K : Image) (L : List Nat) (tf : Nat) (s : Phys) (pt : Nat) (L' : List Nat)
    (Q : Multiset Nat) (t : Phys) : Prop where
  space : Space K t L' pt [] (upper K tf) Q
  total : (L : Multiset Nat) = ↑L' + Q
  agree : AgreeOff pgSize ↑L s.mem t.mem

/-- The free list has the pages that it had. -/
def Restored (K : Image) (L : List Nat) (s t : Phys) : Prop :=
  ∃ L', FreeList K t L' ∧ (L' : Multiset Nat) = ↑L ∧ AgreeOff pgSize ↑L s.mem t.mem

theorem uvmfree_restores {f : Nat → Nat} {L' : List Nat} (h : Owns K t L' pt f Q)
    (hf : ∀ v < nVpn, Invalid (f v)) (htotal : (L : Multiset Nat) = ↑L' + Q)
    (hagree : AgreeOff pgSize ↑L s.mem t.mem) :
    Does (do uvmfree K pt 0; return 0) (fun r u => r = 0 ∧ Restored K L s u) t := by
  rw [Does.bind]
  refine (uvmfree_table h hf).mono fun _ u hu => ?_
  obtain ⟨L'', hfree, hL'', hagree'⟩ := hu
  rw [Does.pure]
  refine ⟨rfl, L'', hfree, hL''.trans htotal.symm, hagree.trans (hagree'.mono ?_)⟩
  rw [htotal]
  exact Multiset.subset_of_le (Multiset.le_add_left _ _)

theorem procPagetable_spec (h : FreeList K s L) (htf : IsPage K tf) :
    Does (procPagetable K tf) (fun r t => r = 0 ∧ Restored K L s t ∨
      r ≠ 0 ∧ ∃ L' Q, Made K L tf s r L' Q t) s := by
  unfold procPagetable
  rw [Does.bind]
  refine (uvmcreate_spec h).mono fun pt t hpt => ?_
  rcases hpt with ⟨rfl, rfl, rfl⟩ | ⟨L₁, rfl, hpage, howns, hagree⟩
  · rw [if_pos rfl, Does.pure]
    exact .inl ⟨rfl, [], h, rfl, AgreeOff.refl _⟩
  have hagree₁ : AgreeOff pgSize ↑(pt :: L₁) s.mem t.mem := hagree.mono (by simp)
  have htotal₁ : ((pt :: L₁ : List Nat) : Multiset Nat) = ↑L₁ + {pt} := by
    rw [← Multiset.cons_coe, ← Multiset.singleton_add, add_comm]
  have hdiv₁ : trampolineVa / pgSize = nUser + 1 := by decide
  rw [if_neg (Nat.pos_iff_ne_zero.mp hpage.pos), Does.bind]
  refine (mappages_page howns (by decide) (by decide) rfl (trampolinePte_lt K)).mono
    fun r u hr => ?_
  obtain ⟨L₂, Q₂, hmoved, hr⟩ := hr
  have htotal₂ : ((pt :: L₁ : List Nat) : Multiset Nat) = ↑L₂ + Q₂ := htotal₁.trans hmoved.total
  have hagree₂ : AgreeOff pgSize ↑(pt :: L₁) s.mem u.mem :=
    hagree₁.trans (htotal₁ ▸ hmoved.agree)
  rcases hr with ⟨rfl, -, howns₂⟩ | ⟨rfl, howns₂⟩
  · rw [if_pos (by decide)]
    exact (uvmfree_restores howns₂ (fun _ _ => rfl) htotal₂ hagree₂).mono fun r w hw => .inl hw
  rw [hdiv₁] at howns₂
  have hdiv₂ : trapframeVa / pgSize = nUser := rfl
  rw [if_neg (by decide), Does.bind]
  refine (mappages_page howns₂ (by decide) (by decide) ?_ (trapframePte_lt htf)).mono
    fun r w hr => ?_
  · rw [hdiv₂, upd_other (by omega)]
    rfl
  obtain ⟨L₃, Q₃, hmoved', hr⟩ := hr
  have htotal₃ : ((pt :: L₁ : List Nat) : Multiset Nat) = ↑L₃ + Q₃ := htotal₂.trans hmoved'.total
  have hagree₃ : AgreeOff pgSize ↑(pt :: L₁) s.mem w.mem :=
    hagree₂.trans (htotal₂ ▸ hmoved'.agree)
  rcases hr with ⟨rfl, -, howns₃⟩ | ⟨rfl, howns₃⟩
  · -- the trampoline is unmapped first
    rw [if_pos (by decide), Does.bind, trampolineVa_eq]
    refine (uvmunmap_keep howns₃.table (by decide) ?_).mono fun _ x hx => ?_
    · rw [upd_same]
      exact trampolinePte_leaf K
    · obtain ⟨hlist, htable, hagree₄⟩ := hx
      rw [upd_upd] at htable
      have howns₄ : Owns K x L₃ pt (upd (fun _ => 0) (nUser + 1) 0) Q₃ :=
        howns₃.entries hlist htable hagree₄
      refine (uvmfree_restores howns₄ (fun v _ => ?_) htotal₃
        (hagree₃.trans (hagree₄.mono ?_))).mono
        fun r y hy => .inl hy
      · simp [Invalid, upd]
      · rw [htotal₃]
        exact Multiset.subset_of_le (Multiset.le_add_left _ _)
  · rw [if_neg (by decide), Does.pure]
    refine .inr ⟨Nat.pos_iff_ne_zero.mp hpage.pos, L₃, Q₃, ⟨?_, by simp, upper_below K tf, ?_⟩,
      htotal₃, hagree₃⟩
    · rw [withUser_nil]
      rw [hdiv₂] at howns₃
      exact howns₃
    · have := howns₃.nodup
      simpa [pagesOf] using this

end Xv6.Vm
