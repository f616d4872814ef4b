import Xv6.Lib.Bytes
import Xv6.Lib.Map

/-! # Scattered writes

Bytes that are stored one after the other at given addresses. Where the addresses follow each
other the writes are a range, and where they differ every byte can be read back.
-/

namespace Lib

def scatter (a : Nat → Nat) (src : Bytes) : Nat → Bytes → Bytes
  | 0, m => m
  | n + 1, m => upd (scatter a src n m) (a n) (src n)

variable {a : Nat → Nat} {src m : Bytes} {n k x : Nat}

theorem scatter_add (a : Nat → Nat) (src m : Bytes) (n k : Nat) :
    scatter a src (n + k) m =
      scatter (fun j => a (n + j)) (fun j => src (n + j)) k (scatter a src n m) := by
  induction k with
  | zero => rfl
  | succ k ih => rw [← Nat.add_assoc, scatter, scatter, ih]

theorem scatter_congr {b : Nat → Nat} (h : ∀ j < n, a j = b j) :
    scatter a src n m = scatter b src n m := by
  induction n with
  | zero => rfl
  | succ n ih =>
    rw [scatter, scatter, ih fun j hj => h j (Nat.lt_succ_of_lt hj), h n (Nat.lt_succ_self n)]

theorem scatter_other (h : ∀ j < n, x ≠ a j) : scatter a src n m x = m x := by
  induction n with
  | zero => rfl
  | succ n ih =>
    rw [scatter, upd_other (h n (Nat.lt_succ_self n))]
    exact ih fun j hj => h j (Nat.lt_succ_of_lt hj)

/-- Addresses one after the other are a range. -/
theorem scatter_eq_splice {p : Nat} (h : ∀ j < n, a j = p + j) :
    scatter a src n m = splice m p n src := by
  induction n with
  | zero => rw [scatter, splice_zero]
  | succ n ih =>
    rw [scatter, ih fun j hj => h j (Nat.lt_succ_of_lt hj), h n (Nat.lt_succ_self n)]
    funext y
    by_cases hy : y = p + n
    · rw [hy, upd_same, splice_inside (by omega) (by omega), Nat.add_sub_cancel_left]
    · rw [upd_other hy]
      by_cases hin : p ≤ y ∧ y < p + n
      · rw [splice_inside hin.1 hin.2, splice_inside hin.1 (by omega)]
      · rw [splice_outside (by omega), splice_outside (by omega)]

theorem splice_congr {src' : Bytes} {p : Nat} (h : ∀ j < n, src j = src' j) :
    splice m p n src = splice m p n src' := by
  funext y
  by_cases hin : p ≤ y ∧ y < p + n
  · rw [splice_inside hin.1 hin.2, splice_inside hin.1 hin.2]
    exact h _ (by omega)
  · rw [splice_outside (by omega), splice_outside (by omega)]

theorem upd_eq_splice (m src : Bytes) (p : Nat) : upd m p (src 0) = splice m p 1 src := by
  funext y
  by_cases hy : y = p
  · rw [hy, upd_same, splice_inside (Nat.le_refl p) (Nat.lt_succ_self p), Nat.sub_self]
  · rw [upd_other hy, splice_outside (by omega)]

theorem splice_upd (m src : Bytes) (p n : Nat) :
    splice (upd m p (src 0)) (p + 1) n (fun j => src (1 + j)) = splice m p (n + 1) src := by
  rw [upd_eq_splice, splice_splice, Nat.add_comm]

theorem scatter_at (hinj : ∀ i < n, ∀ j < n, a i = a j → i = j) {j : Nat} (hj : j < n) :
    scatter a src n m (a j) = src j := by
  induction n with
  | zero => omega
  | succ n ih =>
    rw [scatter]
    by_cases heq : j = n
    · rw [heq, upd_same]
    · have hlt : j < n := by omega
      have hne : a j ≠ a n := fun hc => heq (hinj j hj n (Nat.lt_succ_self n) hc)
      rw [upd_other hne]
      exact ih (fun i hi k hk => hinj i (by omega) k (by omega)) hlt

end Lib
