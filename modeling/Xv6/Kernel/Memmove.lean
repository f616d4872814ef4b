import Xv6.Lib.Map
import Mathlib.Data.BitVec

/-! # Moving bytes

`memmove` of `kernel/string.c` and the one of `user/ulib.c`. They pick the direction of
the copy by different tests; either keeps a byte of the source from being overwritten
before it is read. Pointers are 64-bit words, so `dst += n` may reach the end of the
address space.
-/

namespace Xv6

open Lib

abbrev ByteMem := BitVec 64 → UInt8

def copyUp (m : ByteMem) (d s : BitVec 64) : Nat → ByteMem
  | 0 => m
  | n + 1 => copyUp (upd m d (m s)) (d + 1) (s + 1) n

def copyDown (m : ByteMem) (d s : BitVec 64) : Nat → ByteMem
  | 0 => m
  | n + 1 => copyDown (upd m (d - 1) (m (s - 1))) (d - 1) (s - 1) n

/-- `memmove` of the kernel; `n` is a `uint`. -/
def Kernel.memmove (m : ByteMem) (dst src : BitVec 64) (n : BitVec 32) : ByteMem :=
  if n = 0 then m
  else if src < dst ∧ src + n.setWidth 64 > dst then
    copyDown m (dst + n.setWidth 64) (src + n.setWidth 64) n.toNat
  else copyUp m dst src n.toNat

/-- `memmove` of the user library; `n` is an `int`. -/
def User.memmove (m : ByteMem) (dst src : BitVec 64) (n : BitVec 32) : ByteMem :=
  if src > dst then copyUp m dst src n.toInt.toNat
  else copyDown m (dst + n.signExtend 64) (src + n.signExtend 64) n.toInt.toNat

def moved (m : ByteMem) (d s : BitVec 64) (n : Nat) : ByteMem :=
  fun a => if (a - d).toNat < n then m (s + (a - d)) else m a

/-- Going up is right unless the destination starts inside the source. -/
theorem copyUp_eq_moved {m : ByteMem} {d s : BitVec 64} {n : Nat} (hn : n < 2 ^ 64)
    (h : d = s ∨ n ≤ (d - s).toNat) : copyUp m d s n = moved m d s n := by
  induction n generalizing m d s with
  | zero => rfl
  | succ n ih =>
    have hnext : d + 1 = s + 1 ∨ n ≤ (d + 1 - (s + 1)).toNat := by
      rcases h with rfl | h
      · exact .inl rfl
      · exact .inr (by bv_omega)
    rw [copyUp, ih (by omega) hnext]
    funext a
    by_cases had : a = d
    · subst had
      have hout : ¬ (a - (a + 1)).toNat < n := by bv_omega
      rw [moved, if_neg hout, upd_same, moved, BitVec.sub_self, if_pos (by simp), BitVec.add_zero]
    · have hin : (a - (d + 1)).toNat < n ↔ (a - d).toNat < n + 1 := by bv_omega
      have hsrc : s + 1 + (a - (d + 1)) = s + (a - d) := by bv_omega
      simp only [moved, hin, hsrc]
      by_cases hlt : (a - d).toNat < n + 1
      · rw [if_pos hlt, if_pos hlt]
        -- the byte just written is no byte that is still to be read
        by_cases hread : s + (a - d) = d
        · rcases h with rfl | h
          · rw [hread, upd_same]
          · bv_omega
        · rw [upd_other hread]
      · rw [if_neg hlt, if_neg hlt, upd_other had]

theorem add_succ_sub_one (d : BitVec 64) (n : Nat) :
    d + BitVec.ofNat 64 (n + 1) - 1 = d + BitVec.ofNat 64 n := by
  rw [BitVec.ofNat_add, ← BitVec.add_assoc]
  exact BitVec.add_sub_cancel _ _

/-- Going down is right unless the source starts inside the destination. -/
theorem copyDown_eq_moved {m : ByteMem} {d s : BitVec 64} {n : Nat} (hn : n < 2 ^ 64)
    (h : d = s ∨ n ≤ (s - d).toNat) :
    copyDown m (d + BitVec.ofNat 64 n) (s + BitVec.ofNat 64 n) n = moved m d s n := by
  induction n generalizing m with
  | zero => rfl
  | succ n ih =>
    rw [copyDown, add_succ_sub_one, add_succ_sub_one,
      ih (by omega) (h.imp_right fun h => by omega)]
    have hoff : (BitVec.ofNat 64 n).toNat = n := by
      rw [BitVec.toNat_ofNat, Nat.mod_eq_of_lt (by omega)]
    funext a
    simp only [moved]
    by_cases hlt : (a - d).toNat < n
    · rw [if_pos hlt, if_pos (by omega)]
      by_cases hread : s + (a - d) = d + BitVec.ofNat 64 n
      · rcases h with rfl | h
        · rw [hread, upd_same]
        · bv_omega
      · rw [upd_other hread]
    · rw [if_neg hlt]
      by_cases hlast : a = d + BitVec.ofNat 64 n
      · have hdiff : a - d = BitVec.ofNat 64 n := by
          rw [hlast, BitVec.add_comm, BitVec.add_sub_cancel]
        rw [hdiff, hlast, upd_same, if_pos (by omega)]
      · rw [upd_other hlast, if_neg (fun hlt' => hlast (by bv_omega))]

section

variable {m : ByteMem} {dst src : BitVec 64} {n : BitVec 32}

theorem Kernel.memmove_eq_moved (hsrc : src.toNat + n.toNat ≤ 2 ^ 64)
    (hdst : dst.toNat + n.toNat ≤ 2 ^ 64) :
    Kernel.memmove m dst src n = moved m dst src n.toNat := by
  have hlt : n.toNat < 2 ^ 64 := by omega
  have hwide : n.setWidth 64 = BitVec.ofNat 64 n.toNat := by bv_omega
  unfold Kernel.memmove
  split
  · rename_i hn
    subst hn
    rfl
  · split
    · rename_i hd
      rw [hwide]
      exact copyDown_eq_moved hlt (.inr (by bv_omega))
    · rename_i hne hu
      apply copyUp_eq_moved hlt
      by_cases heq : dst = src
      · exact .inl heq
      · right
        by_cases hsd : src < dst
        · have hend : ¬ src + n.setWidth 64 > dst := fun h => hu ⟨hsd, h⟩
          bv_omega
        · bv_omega

theorem User.memmove_eq_moved (hn : n.toNat < 2 ^ 31) (hsrc : src.toNat + n.toNat ≤ 2 ^ 64)
    (hdst : dst.toNat + n.toNat ≤ 2 ^ 64) :
    User.memmove m dst src n = moved m dst src n.toNat := by
  have hint : n.toInt.toNat = n.toNat := by
    rw [BitVec.toInt_eq_toNat_of_lt (by omega), Int.toNat_natCast]
  have hwide : n.signExtend 64 = BitVec.ofNat 64 n.toNat := by
    rw [BitVec.signExtend_eq_setWidth_of_msb_false]
    · bv_omega
    · rw [BitVec.msb_eq_false_iff_two_mul_lt]
      omega
  unfold User.memmove
  rw [hint, hwide]
  split
  · exact copyUp_eq_moved (by omega) (.inr (by bv_omega))
  · apply copyDown_eq_moved (by omega)
    by_cases heq : dst = src
    · exact .inl heq
    · exact .inr (by bv_omega)

end

def Moves (m m' : ByteMem) (dst src : BitVec 64) (n : Nat) : Prop :=
  (∀ i < n, m' (dst + BitVec.ofNat 64 i) = m (src + BitVec.ofNat 64 i)) ∧
    ∀ a, (∀ i < n, a ≠ dst + BitVec.ofNat 64 i) → m' a = m a

theorem moved_moves {m : ByteMem} {dst src : BitVec 64} {n : Nat} (hn : n < 2 ^ 64) :
    Moves m (moved m dst src n) dst src n := by
  constructor
  · intro i hi
    have hoff : dst + BitVec.ofNat 64 i - dst = BitVec.ofNat 64 i := by bv_omega
    rw [moved, hoff, if_pos (by bv_omega)]
  · intro a ha
    have hout : ¬ (a - dst).toNat < n := fun hlt => ha _ hlt (by bv_omega)
    rw [moved, if_neg hout]

/-- Both functions move any number of bytes below 2^31 between ranges that may overlap in
either direction, and touch nothing else. -/
theorem memmove_exact (m : ByteMem) (dst src : BitVec 64) (n : BitVec 32)
    (hn : n.toNat < 2 ^ 31) (hsrc : src.toNat + n.toNat ≤ 2 ^ 64)
    (hdst : dst.toNat + n.toNat ≤ 2 ^ 64) :
    Moves m (Kernel.memmove m dst src n) dst src n.toNat ∧
      Moves m (User.memmove m dst src n) dst src n.toNat ∧
      Kernel.memmove m dst src n = User.memmove m dst src n := by
  rw [Kernel.memmove_eq_moved hsrc hdst, User.memmove_eq_moved hn hsrc hdst]
  have hmoves : Moves m (moved m dst src n.toNat) dst src n.toNat := moved_moves (by omega)
  exact ⟨hmoves, hmoves, rfl⟩

/-- Two bytes up to the end of the address space move down by one. -/
theorem memmove_exact_top :
    Moves (fun a => UInt8.ofNat a.toNat)
      (Kernel.memmove (fun a => UInt8.ofNat a.toNat) (-3) (-2) 2) (-3) (-2) 2 :=
  (memmove_exact _ (-3) (-2) 2 (by decide) (by decide) (by decide)).1

end Xv6
