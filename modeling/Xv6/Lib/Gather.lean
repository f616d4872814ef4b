import Mathlib.Data.List.Nodup
import Xv6.Lib.Map

/-! # Gathered references

Where a place has any number of references, they are gathered in a list, and a change of one
place changes a part of the list.
-/

namespace Lib

variable {α : Type*}

/-- The references of the places below `n`. -/
def gather (n : Nat) (g : Nat → List α) : List α := (List.range n).flatMap g

/-- The references of one place are a part of the whole, and can be exchanged. -/
theorem gather_upd {n i : Nat} (g : Nat → List α) (hi : i < n) :
    ∃ rest, ∀ x, (gather n (upd g i x)).Perm (x ++ rest) := by
  obtain ⟨l, r, hsplit⟩ := List.append_of_mem (List.mem_range.mpr hi)
  have hnodup : (l ++ i :: r).Nodup := hsplit ▸ List.nodup_range
  have hl : i ∉ l := fun hm =>
    (List.disjoint_of_nodup_append hnodup) hm List.mem_cons_self
  have hr : i ∉ r := (List.nodup_cons.mp hnodup.of_append_right).1
  have hsame : ∀ (k : List Nat) x, i ∉ k → k.flatMap (upd g i x) = k.flatMap g := by
    intro k x hk
    rw [List.flatMap_def, List.flatMap_def]
    congr 1
    exact List.map_congr_left fun j hj => upd_other fun heq => hk (heq ▸ hj)
  refine ⟨l.flatMap g ++ r.flatMap g, fun x => ?_⟩
  rw [gather, hsplit, List.flatMap_append, List.flatMap_cons, hsame l x hl, hsame r x hr, upd_same]
  exact List.perm_append_comm_assoc _ _ _

end Lib
