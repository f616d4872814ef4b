import Xv6.Lib.Bytes
import Mathlib.Data.Multiset.AddSub

/-! # Blocks of memory

A memory is cut into blocks of one size that start at multiples of it. A computation
that writes to some blocks only leaves every other block, and every word in one, as
it was.
-/

namespace Lib

def InBlock (n p a : Nat) : Prop := p ≤ a ∧ a < p + n

/-- The memories differ at most in the blocks of `F`. -/
def AgreeOff (n : Nat) (F : Multiset Nat) (m m' : Bytes) : Prop :=
  ∀ a, (∀ p ∈ F, ¬ InBlock n p a) → m' a = m a

namespace AgreeOff

variable {n : Nat} {F G : Multiset Nat} {m m' m'' : Bytes}

theorem refl (m : Bytes) : AgreeOff n F m m := fun _ _ => rfl

theorem mono (h : AgreeOff n F m m') (hFG : F ⊆ G) : AgreeOff n G m m' :=
  fun a ha => h a fun p hp => ha p (hFG hp)

theorem trans (h : AgreeOff n F m m') (h' : AgreeOff n F m' m'') : AgreeOff n F m m'' :=
  fun a ha => (h' a ha).trans (h a ha)

theorem splice {p a k : Nat} {src : Bytes} (hp : p ∈ F) (ha : p ≤ a) (hk : a + k ≤ p + n) :
    AgreeOff n F m (splice m a k src) := by
  intro b hb
  apply splice_outside
  have hout : ¬ (p ≤ b ∧ b < p + n) := hb p hp
  omega

theorem putLE {p a k v : Nat} (hp : p ∈ F) (ha : p ≤ a) (hk : a + k ≤ p + n) :
    AgreeOff n F m (putLE m a k v) :=
  AgreeOff.splice hp ha hk

end AgreeOff

/-- Two blocks at multiples of their size are the same or apart. -/
theorem InBlock.unique {n p q a : Nat} (hp : n ∣ p) (hq : n ∣ q) (hap : InBlock n p a)
    (haq : InBlock n q a) : p = q := by
  obtain ⟨i, rfl⟩ := hp
  obtain ⟨j, rfl⟩ := hq
  obtain ⟨hpa, hap⟩ := hap
  obtain ⟨hqa, haq⟩ := haq
  have hij : n * i < n * (j + 1) := by
    rw [Nat.mul_succ]
    omega
  have hji : n * j < n * (i + 1) := by
    rw [Nat.mul_succ]
    omega
  have := Nat.lt_of_mul_lt_mul_left hij
  have := Nat.lt_of_mul_lt_mul_left hji
  congr
  omega

namespace AgreeOff

variable {n : Nat} {F : Multiset Nat} {m m' : Bytes}

theorem block (h : AgreeOff n F m m') (hF : ∀ q ∈ F, n ∣ q) {p : Nat} (hp : n ∣ p) (hpF : p ∉ F)
    {a : Nat} (ha : InBlock n p a) : m' a = m a := by
  apply h
  intro q hq haq
  exact hpF (ha.unique hp (hF q hq) haq ▸ hq)

theorem getLE (h : AgreeOff n F m m') (hF : ∀ q ∈ F, n ∣ q) {p : Nat} (hp : n ∣ p) (hpF : p ∉ F)
    {a k : Nat} (ha : p ≤ a) (hk : a + k ≤ p + n) : getLE m' a k = getLE m a k := by
  apply getLE_congr
  intro i hi hlt
  exact h.block hF hp hpF ⟨by omega, by omega⟩

end AgreeOff

end Lib
