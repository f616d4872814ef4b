import Mathlib.Algebra.BigOperators.Group.Finset.Basic
import Xv6.Lib.Map

/-! # Shares of a whole

Numbered places have a share each. A change of one place changes one share of the sum.
-/

namespace Lib

open Finset

variable {M : Type*} [AddCommMonoid M] {n i : Nat} {g : Nat → M}

def otherShares (n : Nat) (g : Nat → M) (i : Nat) : M := ∑ j ∈ (range n).erase i, g j

theorem sum_upd (hi : i < n) (x : M) :
    ∑ j ∈ range n, upd g i x j = x + otherShares n g i := by
  rw [← add_sum_erase _ _ (mem_range.mpr hi), upd_same, otherShares]
  congr 1
  exact sum_congr rfl fun j hj => upd_other (ne_of_mem_erase hj)

theorem sum_share (hi : i < n) : ∑ j ∈ range n, g j = g i + otherShares n g i := by
  rw [← sum_upd hi, upd_self]

theorem mem_otherShares {α : Type*} {g : Nat → Multiset α} {a : α} {j : Nat} (hj : j < n)
    (hne : j ≠ i) (ha : a ∈ g j) : a ∈ otherShares n g i :=
  Multiset.mem_sum.mpr ⟨j, mem_erase.mpr ⟨hne, mem_range.mpr hj⟩, ha⟩

end Lib
