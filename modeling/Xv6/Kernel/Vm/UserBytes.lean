import Xv6.Kernel.Vm.Copy
import Xv6.Kernel.Vm.Sbrk

/-! # User memory as an array

The pages of an address space are apart, so that a write to user addresses changes what the
user sees at these addresses and nowhere else.
-/

namespace Xv6.Vm

open Lib

variable {K : Image} {s t : Phys} {L : List Nat} {pt va vb n len : Nat} {us : List UserPage}
  {g : Nat → Nat} {Q : Multiset Nat} {src : Bytes}

/-- What the user sees after `n` bytes of `src` were put at `va`. -/
def Overlaid (us : List UserPage) (m m' : Bytes) (va n : Nat) (src : Bytes) : Prop :=
  ∀ a, userByte us m' a = if va ≤ a ∧ a < va + n then some (src (a - va)) else userByte us m a

theorem Space.userByte_eq (h : Space K s L pt us g Q) (hva : va / pgSize < us.length) (m : Bytes) :
    userByte us m va = some (m (physOf (withUser us g) va)) := by
  unfold userByte physOf
  rw [List.getElem?_eq_getElem hva, Option.map_some, withUser_of_lt hva,
    (h.users _ (List.getElem_mem hva)).pte2pa]

theorem Space.physOf_inj (h : Space K s L pt us g Q) (hva : va / pgSize < us.length)
    (hvb : vb / pgSize < us.length)
    (heq : physOf (withUser us g) va = physOf (withUser us g) vb) : va = vb := by
  have hpa : ∀ {v}, (hv : v < us.length) → pte2pa (withUser us g v) = us[v].pa := by
    intro v hv
    rw [withUser_of_lt hv, (h.users _ (List.getElem_mem hv)).pte2pa]
  unfold physOf at heq
  rw [hpa hva, hpa hvb] at heq
  have hala := (h.users _ (List.getElem_mem hva)).page.aligned
  have halb := (h.users _ (List.getElem_mem hvb)).page.aligned
  have hpage : us[va / pgSize].pa = us[vb / pgSize].pa := by
    obtain ⟨x, hx⟩ := hala
    obtain ⟨y, hy⟩ := halb
    rw [hx, hy] at heq ⊢
    simp only [pgSize] at *
    omega
  have hnd : (us.map UserPage.pa).Nodup :=
    Multiset.coe_nodup.mp (Multiset.nodup_add.mp h.nodup).2.1
  have hdiv : va / pgSize = vb / pgSize := by
    refine (List.getElem?_inj (by rwa [List.length_map]) hnd).mp ?_
    rw [List.getElem?_map, List.getElem?_map, List.getElem?_eq_getElem hva,
      List.getElem?_eq_getElem hvb, Option.map_some, Option.map_some, hpage]
  rw [hpage] at heq
  simp only [pgSize] at *
  omega

/-- Bytes that are stored at the addresses of a range of user memory. -/
theorem Space.overlaid (h : Space K s L pt us g Q) (hg : Kernel g)
    (hr : Reachable (withUser us g) va n) (m src : Bytes) :
    Overlaid us m (scatter (fun j => physOf (withUser us g) (va + j)) src n m) va n src := by
  have hin : ∀ j < n, (va + j) / pgSize < us.length := fun j hj => (hr j hj).lt hg
  intro a
  by_cases ha : va ≤ a ∧ a < va + n
  · obtain ⟨j, rfl⟩ := Nat.exists_eq_add_of_le ha.1
    have hj : j < n := by omega
    rw [if_pos ha, h.userByte_eq (hin j hj), Nat.add_sub_cancel_left,
      scatter_at (fun i hi k hk heq => ?_) hj]
    have := h.physOf_inj (hin i hi) (hin k hk) heq
    omega
  · rw [if_neg ha]
    by_cases hlt : a / pgSize < us.length
    · rw [h.userByte_eq hlt, h.userByte_eq hlt, scatter_other fun j hj heq => ha ?_]
      have := h.physOf_inj hlt (hin j hj) heq
      omega
    · unfold userByte
      rw [List.getElem?_eq_none (by omega)]
      rfl

theorem Space.overlaid_page {u : UserPage} {v : Nat} (h : Space K s L pt us g Q) (hg : Kernel g)
    (hu : us[v]? = some u) (hU : u.flags &&& pteU ≠ 0) (hn : n ≤ pgSize) (m src : Bytes) :
    Overlaid us m (splice m u.pa n src) (v * pgSize) n src := by
  obtain ⟨hv, rfl⟩ := List.getElem?_eq_some_iff.mp hu
  have hok := h.users _ (List.getElem_mem hv)
  have hdiv : v * pgSize / pgSize = v := Nat.mul_div_cancel _ (by decide)
  have hmod : v * pgSize % pgSize = 0 := Nat.mul_mod_left _ _
  have hin : inPage (v * pgSize) n = n := by
    rw [inPage, hmod, Nat.sub_zero, Nat.min_eq_right hn]
  have hmapped : UserMapped (withUser us g) v := by
    rw [UserMapped, withUser_of_lt hv]
    refine ⟨hv.trans (h.length_lt.trans (by decide)), hok.isLeaf.valid, ?_⟩
    rwa [and_flags (by decide), hok.pteFlags]
  have hreach : Reachable (withUser us g) (v * pgSize) n :=
    Reachable.inPage (by rwa [hdiv]) hin.ge
  have hsplice : splice m us[v].pa n src =
      scatter (fun j => physOf (withUser us g) (v * pgSize + j)) src n m := by
    refine (scatter_eq_splice fun j hj => ?_).symm
    rw [(physOf_inPage (hj.trans_eq hin.symm)).2, hdiv, hmod, withUser_of_lt hv, hok.pte2pa]
    rfl
  rw [hsplice]
  exact h.overlaid hg hreach m src

/-- `copyout` as a write to the user's array. -/
theorem Space.copyout_bytes (h : Space K s L pt us g Q) (hg : Kernel g) :
    Does (copyout pt va src len) (fun r t => Space K t L pt us g Q ∧
      AgreeOff pgSize (pagesOf us) s.mem t.mem ∧ ∃ n, Stops (withUser us g) va len r n ∧
        Overlaid us s.mem t.mem va n src) s := by
  have hexact : Does (copyout pt va src len) _ s :=
    copyoutFrom_exact h.owns.table (h.userPages hg) (Nat.le_refl len)
  refine ((copyout_spec h hg).and hexact).mono fun r t hr => ?_
  obtain ⟨⟨-, hspace, hagree⟩, -, n, hstop, rfl⟩ := hr
  have hreach : Reachable (withUser us g) va n := by
    cases hstop with
    | done hr => exact hr
    | refused _ _ hr _ => exact hr
  exact ⟨hspace, hagree, n, hstop, h.overlaid hg hreach s.mem src⟩

end Xv6.Vm
