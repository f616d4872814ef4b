import Mathlib.Tactic.Common
import Mathlib.Algebra.Order.Group.Nat
import Mathlib.Tactic.Ring

/-! # Byte memories

A memory is a byte for every address. Little-endian words of any width are read
and written in it, and whole ranges are overwritten from a source memory; each
operation comes with its value inside the range and its frame outside.
-/

namespace Lib

abbrev Bytes := Nat → UInt8

/-! ## Ranges -/

/-- The `n` bytes from address `a` on are taken from `src`, which is indexed from `0`. -/
def splice (m : Bytes) (a n : Nat) (src : Bytes) : Bytes := fun i =>
  if a ≤ i ∧ i < a + n then src (i - a) else m i

theorem splice_inside {m src : Bytes} {a n i : Nat} (h : a ≤ i) (h' : i < a + n) :
    splice m a n src i = src (i - a) := by
  simp [splice, h, h']

theorem splice_outside {m src : Bytes} {a n i : Nat} (h : i < a ∨ a + n ≤ i) :
    splice m a n src i = m i := by
  unfold splice
  rw [if_neg (by omega)]

@[simp] theorem splice_zero (m src : Bytes) (a : Nat) : splice m a 0 src = m := by
  funext i
  exact splice_outside (by omega)

/-- Two ranges one after the other are one range. -/
theorem splice_splice (m src : Bytes) (a n k : Nat) :
    splice (splice m a n src) (a + n) k (fun j => src (n + j)) = splice m a (n + k) src := by
  funext i
  by_cases hlow : i < a + n
  · rw [splice_outside (.inl hlow)]
    by_cases ha : a ≤ i
    · rw [splice_inside ha hlow, splice_inside ha (by omega)]
    · rw [splice_outside (by omega), splice_outside (by omega)]
  · by_cases hhigh : i < a + n + k
    · rw [splice_inside (by omega) hhigh, splice_inside (by omega) (by omega)]
      congr 1
      omega
    · rw [splice_outside (by omega), splice_outside (by omega), splice_outside (by omega)]

/-! ## Little-endian words -/

def getLE (m : Bytes) (a : Nat) : Nat → Nat
  | 0 => 0
  | k + 1 => (m a).toNat + 256 * getLE m (a + 1) k

/-- Store the low `k` bytes of `v` at address `a`. -/
def putLE (m : Bytes) (a k v : Nat) : Bytes :=
  splice m a k fun j => UInt8.ofNat (v / 256 ^ j)

theorem getLE_lt (m : Bytes) (a k : Nat) : getLE m a k < 256 ^ k := by
  induction k generalizing a with
  | zero => simp [getLE]
  | succ k ih =>
      have hb := (m a).toNat_lt
      have hr := ih (a + 1)
      rw [getLE, pow_succ]
      omega

theorem getLE_congr {m m' : Bytes} {a k : Nat} (h : ∀ i, a ≤ i → i < a + k → m i = m' i) :
    getLE m a k = getLE m' a k := by
  induction k generalizing a with
  | zero => rfl
  | succ k ih =>
      simp only [getLE]
      rw [h a (Nat.le_refl a) (by omega), ih fun i hi hlt => h i (by omega) (by omega)]

theorem putLE_outside {m : Bytes} {a k v i : Nat} (h : i < a ∨ a + k ≤ i) :
    putLE m a k v i = m i :=
  splice_outside h

theorem getLE_putLE_of_disjoint {m : Bytes} {a k v b j : Nat} (h : b + j ≤ a ∨ a + k ≤ b) :
    getLE (putLE m a k v) b j = getLE m b j :=
  getLE_congr fun _ _ _ => putLE_outside (by omega)

theorem getLE_putLE (m : Bytes) (a k v : Nat) : getLE (putLE m a k v) a k = v % 256 ^ k := by
  induction k generalizing m a v with
  | zero => simp [getLE, Nat.mod_one]
  | succ k ih =>
      have hhead : (putLE m a (k + 1) v a).toNat = v % 256 := by
        rw [putLE, splice_inside (Nat.le_refl a) (by omega)]
        simp
      have htail : getLE (putLE m a (k + 1) v) (a + 1) k =
          getLE (putLE m (a + 1) k (v / 256)) (a + 1) k := by
        apply getLE_congr
        intro i hi hlt
        rw [putLE, putLE, splice_inside (by omega) (by omega), splice_inside hi hlt]
        have hidx : i - a = (i - (a + 1)) + 1 := by omega
        rw [hidx, pow_succ, Nat.mul_comm, ← Nat.div_div_eq_div_mul]
      rw [getLE, hhead, htail, ih, pow_succ, Nat.mul_comm (256 ^ k) 256, Nat.mod_mul]

theorem getLE_putLE_of_lt {m : Bytes} {a k v : Nat} (h : v < 256 ^ k) :
    getLE (putLE m a k v) a k = v := by
  rw [getLE_putLE, Nat.mod_eq_of_lt h]

theorem getLE_eq_zero {m : Bytes} {a k : Nat} (h : ∀ i, a ≤ i → i < a + k → m i = 0) :
    getLE m a k = 0 := by
  induction k generalizing a with
  | zero => rfl
  | succ k ih =>
      simp only [getLE]
      rw [h a (Nat.le_refl a) (by omega), ih fun i hi hlt => h i (by omega) (by omega)]
      rfl

end Lib
