import Mathlib.Data.BitVec
import Xv6.Lib.Map

/-! # Rings with free-running counters

A ring of `N` cells with a read and a write counter that run freely in `w` bits and
are reduced modulo `N` only to index a cell. If `N` divides `2 ^ w` and is smaller,
the counters wrap without the ring noticing: full and empty are told apart by the
counters alone, however many elements have gone through.
-/

namespace Lib

variable {α : Type*} {N w : Nat}

/-- The ring has taken in `inp` and given out the first `out` elements of it. -/
structure Tracks (N : Nat) (data : Nat → α) (rd wr : BitVec w) (inp : List α) (out : Nat) :
    Prop where
  rd_eq : rd = BitVec.ofNat w out
  wr_eq : wr = BitVec.ofNat w inp.length
  out_le : out ≤ inp.length
  room : inp.length ≤ out + N
  cell : ∀ j x, out ≤ j → inp[j]? = some x → data (j % N) = x

namespace Tracks

variable {data : Nat → α} {rd wr : BitVec w} {inp : List α} {out : Nat}

theorem start (data : Nat → α) : Tracks N data (0 : BitVec w) 0 [] 0 where
  rd_eq := rfl
  wr_eq := rfl
  out_le := le_rfl
  room := Nat.zero_le _
  cell _ _ _ h := by simp at h

theorem ofNat_inj_of_near {a b : Nat} (h : BitVec.ofNat w a = BitVec.ofNat w b) (hle : b ≤ a)
    (hlt : a < b + 2 ^ w) : a = b := by
  have hmod : a % 2 ^ w = b % 2 ^ w := by
    simpa [BitVec.toNat_ofNat] using congrArg BitVec.toNat h
  have hsub : (a - b) % 2 ^ w = 0 := by
    rw [← Nat.sub_mod_eq_zero_of_mod_eq hmod]
  rw [Nat.mod_eq_of_lt (by omega)] at hsub
  omega

theorem index (hd : N ∣ 2 ^ w) (j : Nat) : (BitVec.ofNat w j).toNat % N = j % N := by
  rw [BitVec.toNat_ofNat, Nat.mod_mod_of_dvd _ hd]

theorem empty_iff (h : Tracks N data rd wr inp out) (hN : N < 2 ^ w) :
    rd = wr ↔ inp.length = out := by
  rw [h.rd_eq, h.wr_eq]
  constructor
  · intro heq
    exact ofNat_inj_of_near heq.symm h.out_le (by have := h.room; omega)
  · intro heq
    rw [heq]

theorem full_iff (h : Tracks N data rd wr inp out) (hN : N < 2 ^ w) :
    wr = rd + BitVec.ofNat w N ↔ inp.length = out + N := by
  rw [h.rd_eq, h.wr_eq, ← BitVec.ofNat_add]
  constructor
  · intro heq
    have := h.out_le
    exact (ofNat_inj_of_near heq.symm h.room (by omega)).symm
  · intro heq
    rw [heq]

/-- The difference of the counters is the number of elements in the ring. -/
theorem count (h : Tracks N data rd wr inp out) (hN : N < 2 ^ w) :
    (wr - rd).toNat = inp.length - out := by
  have hwr : wr = rd + BitVec.ofNat w (inp.length - out) := by
    rw [h.rd_eq, h.wr_eq, ← BitVec.ofNat_add, Nat.add_sub_cancel' h.out_le]
  have hroom := h.room
  rw [hwr, add_sub_cancel_left, BitVec.toNat_ofNat, Nat.mod_eq_of_lt (by omega)]

theorem rd_index (h : Tracks N data rd wr inp out) (hd : N ∣ 2 ^ w) (j : Nat) :
    (rd + BitVec.ofNat w j).toNat % N = (out + j) % N := by
  rw [h.rd_eq, ← BitVec.ofNat_add, index hd]

theorem element (h : Tracks N data rd wr inp out) (hN : N < 2 ^ w) (hd : N ∣ 2 ^ w) {j : Nat}
    (hj : j < (wr - rd).toNat) :
    inp[out + j]? = some (data ((rd + BitVec.ofNat w j).toNat % N)) := by
  rw [h.count hN] at hj
  rw [h.rd_index hd]
  have hlt : out + j < inp.length := by omega
  rw [h.cell (out + j) inp[out + j] (by omega) (List.getElem?_eq_getElem hlt)]
  exact List.getElem?_eq_getElem hlt

/-- The cell that the next element goes to holds none of those in the ring. -/
theorem write_index (h : Tracks N data rd wr inp out) (hN : N < 2 ^ w) (hd : N ∣ 2 ^ w)
    (hfull : wr ≠ rd + BitVec.ofNat w N) {j : Nat} (hj : j < (wr - rd).toNat) :
    (rd + BitVec.ofNat w j).toNat % N ≠ wr.toNat % N := by
  have hroom := h.room
  rw [Ne, h.full_iff hN] at hfull
  rw [h.count hN] at hj
  rw [h.rd_index hd, h.wr_eq, index hd]
  intro heq
  have hsub : (inp.length - (out + j)) % N = 0 := Nat.sub_mod_eq_zero_of_mod_eq heq.symm
  rw [Nat.mod_eq_of_lt (by omega)] at hsub
  omega

theorem push (h : Tracks N data rd wr inp out) (hN : N < 2 ^ w)
    (hd : N ∣ 2 ^ w) (hfull : wr ≠ rd + BitVec.ofNat w N) (x : α) :
    Tracks N (upd data (wr.toNat % N) x) rd (wr + 1) (inp ++ [x]) out where
  rd_eq := h.rd_eq
  wr_eq := by
    rw [h.wr_eq, List.length_append, List.length_singleton, BitVec.ofNat_add]
    rfl
  out_le := by
    have := h.out_le
    rw [List.length_append, List.length_singleton]
    omega
  room := by
    have := h.room
    rw [Ne, h.full_iff hN] at hfull
    rw [List.length_append, List.length_singleton]
    omega
  cell j y hj hy := by
    by_cases hlt : j < inp.length
    · rw [List.getElem?_append_left hlt] at hy
      have hcell : j % N ≠ wr.toNat % N := by
        have hne := h.write_index hN hd hfull (j := j - out) (by rw [h.count hN]; omega)
        rwa [h.rd_index hd, Nat.add_sub_cancel' hj] at hne
      rw [upd_other hcell]
      exact h.cell j y hj hy
    · rw [List.getElem?_append_right (by omega)] at hy
      have hj' : j = inp.length := by
        by_contra hne
        rw [List.getElem?_eq_none (by simp; omega)] at hy
        cases hy
      subst hj'
      simp only [Nat.sub_self, List.getElem?_cons_zero, Option.some.injEq] at hy
      rw [h.wr_eq, index hd, upd_same, hy]

theorem pop (h : Tracks N data rd wr inp out) (hN : N < 2 ^ w) (hne : rd ≠ wr) :
    Tracks N data (rd + 1) wr inp (out + 1) where
  rd_eq := by
    rw [h.rd_eq, BitVec.ofNat_add]
    rfl
  wr_eq := h.wr_eq
  out_le := by
    have := h.out_le
    rw [Ne, h.empty_iff hN] at hne
    omega
  room := by
    have := h.room
    omega
  cell j x hj hx := h.cell j x (by omega) hx

theorem front (h : Tracks N data rd wr inp out) (hN : N < 2 ^ w) (hd : N ∣ 2 ^ w)
    (hne : rd ≠ wr) : inp[out]? = some (data (rd.toNat % N)) := by
  have hlt : 0 < (wr - rd).toNat := by
    have := h.out_le
    rw [Ne, h.empty_iff hN] at hne
    rw [h.count hN]
    omega
  simpa using h.element hN hd hlt

end Tracks

/-! ## Windows

The part of a ring from a counter on, as a list. It may be cut at both ends and extended
at the far one.
-/

/-- The cells from the counter `rd` on hold `xs`. -/
structure Window (N : Nat) (data : Nat → α) (rd : BitVec w) (xs : List α) : Prop where
  room : xs.length ≤ N
  cell : ∀ j x, xs[j]? = some x → data ((rd + BitVec.ofNat w j).toNat % N) = x

namespace Window

variable {data : Nat → α} {rd : BitVec w} {xs ys : List α} {x : α}

theorem nil (data : Nat → α) (rd : BitVec w) : Window N data rd [] :=
  ⟨Nat.zero_le _, fun j x h => by simp at h⟩

theorem index (hd : N ∣ 2 ^ w) (j : Nat) :
    (rd + BitVec.ofNat w j).toNat % N = (rd.toNat + j) % N := by
  rw [BitVec.toNat_add, BitVec.toNat_ofNat, Nat.mod_mod_of_dvd _ hd, Nat.add_mod,
    Nat.mod_mod_of_dvd _ hd, ← Nat.add_mod]

theorem left (h : Window N data rd (xs ++ ys)) : Window N data rd xs where
  room := by
    have := h.room
    rw [List.length_append] at this
    omega
  cell j x hx := by
    have hlt := (List.getElem?_eq_some_iff.mp hx).1
    apply h.cell
    rw [List.getElem?_append_left hlt, hx]

theorem front (h : Window N data rd (x :: xs)) : data (rd.toNat % N) = x := by
  simpa using h.cell 0 x rfl

theorem pop (h : Window N data rd (x :: xs)) : Window N data (rd + 1) xs where
  room := by
    have := h.room
    rw [List.length_cons] at this
    omega
  cell j y hy := by
    have hcell := h.cell (j + 1) y (by simpa using hy)
    rw [Nat.add_comm, BitVec.ofNat_add, ← BitVec.add_assoc] at hcell
    exact hcell

theorem last (h : Window N data rd (xs ++ [x])) :
    data ((rd + BitVec.ofNat w xs.length).toNat % N) = x :=
  h.cell xs.length x (by simp)

theorem push (h : Window N data rd xs) (hd : N ∣ 2 ^ w) (hlt : xs.length < N) (x : α) :
    Window N (upd data ((rd + BitVec.ofNat w xs.length).toNat % N) x) rd (xs ++ [x]) where
  room := by
    rw [List.length_append, List.length_singleton]
    omega
  cell j y hy := by
    by_cases hj : j < xs.length
    · rw [List.getElem?_append_left hj] at hy
      rw [upd_other, h.cell j y hy]
      rw [index hd, index hd]
      intro heq
      have hsub := Nat.sub_mod_eq_zero_of_mod_eq heq.symm
      rw [show rd.toNat + xs.length - (rd.toNat + j) = xs.length - j by omega,
        Nat.mod_eq_of_lt (by omega)] at hsub
      omega
    · have hlen := (List.getElem?_eq_some_iff.mp hy).1
      rw [List.length_append, List.length_singleton] at hlen
      obtain rfl : j = xs.length := by omega
      rw [List.getElem?_concat_length, Option.some.injEq] at hy
      rw [upd_same, hy]

end Window

end Lib
