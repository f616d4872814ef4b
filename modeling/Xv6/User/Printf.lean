import Mathlib.Data.Nat.Digits.Lemmas
import Mathlib.Data.BitVec

/-! # Formatted output

`printint`, `printptr` and `vprintf` of `user/printf.c`, and `atoi` of `user/ulib.c`. One
digit loop on a 32-bit number serves `%d`, `%x` and `%l`; it writes to a buffer of 16
bytes, and a write past its end is a failure of the model. `%l` takes a 64-bit
argument and hands it to that loop, which sees its low half only.
-/

namespace Xv6.Printf

def digits : List UInt8 := [48, 49, 50, 51, 52, 53, 54, 55, 56, 57, 65, 66, 67, 68, 69, 70]

def digit (d : Nat) : UInt8 := digits.getD d 0

def bufSize : Nat := 16

/-- The loop of `printint` with `room` bytes of `buf` left: what it stores, in order. -/
def digitLoop (base x : BitVec 32) : Nat → Option (List UInt8)
  | 0 => none
  | room + 1 =>
      if x / base = 0 then some [digit (x % base).toNat]
      else (digitLoop base (x / base) room).map (digit (x % base).toNat :: ·)

/-- What `printint(fd, xx, base, sgn)` writes. -/
def printint (xx base : BitVec 32) (sgn : Bool) : Option (List UInt8) :=
  if sgn ∧ xx.toInt < 0 then
    (digitLoop base (-xx) bufSize).bind fun buf =>
      if buf.length < bufSize then some (buf ++ [45]).reverse else none
  else (digitLoop base xx bufSize).map List.reverse

def ptrLoop (x : BitVec 64) : Nat → List UInt8
  | 0 => []
  | n + 1 => digit (x >>> 60).toNat :: ptrLoop (x <<< 4) n

def printptr (x : BitVec 64) : List UInt8 := 48 :: 120 :: ptrLoop x 16

/-- The string that `%s` prints for the pointer `p`. -/
def stringAt (str : BitVec 64 → List UInt8) (p : BitVec 64) : List UInt8 :=
  if p = 0 then [40, 110, 117, 108, 108, 41] else str p

/-- What the conversion `c` writes and the arguments it leaves. `str` are the strings in memory. -/
def convert (str : BitVec 64 → List UInt8) (c : UInt8) (ap : List (BitVec 64)) :
    Option (List UInt8 × List (BitVec 64)) :=
  let take (f : BitVec 64 → Option (List UInt8)) : Option (List UInt8 × List (BitVec 64)) :=
    match ap with
    | [] => none
    | v :: ap => (f v).map fun out => (out, ap)
  if c = 100 then take fun v => printint (v.setWidth 32) 10 true
  else if c = 108 then take fun v => printint (v.setWidth 32) 10 false
  else if c = 120 then take fun v => printint (v.setWidth 32) 16 false
  else if c = 112 then take fun v => some (printptr v)
  else if c = 115 then take fun v => some (stringAt str v)
  else if c = 99 then take fun v => some [UInt8.ofBitVec (v.setWidth 8)]
  else if c = 37 then some ([c], ap)
  else some ([37, c], ap)

/-- The loop of `vprintf` from the rest `fmt` of the format on; `percent` is `state == '%'`. -/
def vprintfFrom (str : BitVec 64 → List UInt8) (percent : Bool) :
    List UInt8 → List (BitVec 64) → Option (List UInt8)
  | [], _ => some []
  | c :: fmt, ap =>
      if c = 0 then some []
      else if percent then
        (convert str c ap).bind fun (out, ap) => (vprintfFrom str false fmt ap).map (out ++ ·)
      else if c = 37 then vprintfFrom str true fmt ap
      else (vprintfFrom str false fmt ap).map (c :: ·)

/-- What `vprintf(fd, fmt, ap)` writes. -/
def vprintf (str : BitVec 64 → List UInt8) (fmt : List UInt8) (ap : List (BitVec 64)) :
    Option (List UInt8) :=
  vprintfFrom str false fmt ap

def atoiFrom (n : BitVec 32) : List UInt8 → BitVec 32
  | [] => n
  | c :: s =>
      if 48 ≤ c ∧ c ≤ 57 then atoiFrom (n * 10 + BitVec.ofNat 32 c.toNat - 48) s else n

def atoi (s : List UInt8) : BitVec 32 := atoiFrom 0 s

/-! ## Numerals -/

/-- The digits of `n`, the lowest first, at least one. -/
def natDigits (b n : Nat) : List Nat := if n = 0 then [0] else Nat.digits b n

def numeral (b n : Nat) : List UInt8 := ((natDigits b n).map digit).reverse

def decimal (z : Int) : List UInt8 :=
  if z < 0 then 45 :: numeral 10 z.natAbs else numeral 10 z.natAbs

def hex16 (n : Nat) : List UInt8 := (List.range 16).reverse.map fun i => digit (n / 16 ^ i % 16)

theorem natDigits_step {b n : Nat} (hb : 1 < b) (hn : b ≤ n) :
    natDigits b n = n % b :: natDigits b (n / b) := by
  have hdiv : n / b ≠ 0 := (Nat.div_pos hn (by omega)).ne'
  rw [natDigits, natDigits, if_neg (by omega), if_neg hdiv, Nat.digits_def' hb (by omega)]

theorem natDigits_of_lt {b n : Nat} (hn : n < b) : natDigits b n = [n] := by
  unfold natDigits
  split
  · rename_i h
    rw [h]
  · rename_i h
    exact Nat.digits_of_lt b n h hn

theorem ofDigits_natDigits (b n : Nat) : Nat.ofDigits b (natDigits b n) = n := by
  unfold natDigits
  split
  · rename_i h
    simp [h]
  · exact Nat.ofDigits_digits b n

theorem natDigits_lt {b n d : Nat} (hb : 1 < b) (hd : d ∈ natDigits b n) : d < b := by
  unfold natDigits at hd
  split at hd
  · rw [List.mem_singleton.mp hd]
    omega
  · exact Nat.digits_lt_base hb hd

theorem natDigits_length_le {b n k : Nat} (hb : 1 < b) (hk : 0 < k) (hn : n < b ^ k) :
    (natDigits b n).length ≤ k := by
  unfold natDigits
  split
  · exact hk
  · exact (Nat.digits_length_le_iff hb n).mpr hn

theorem idxOf_digit {d : Nat} (h : d < 16) : digits.idxOf (digit d) = d := by
  have hall : ∀ d < 16, digits.idxOf (digit d) = d := by decide
  exact hall d h

/-- A number can be read off its decimal numeral. -/
theorem numeral_inj {n m : Nat} (h : numeral 10 n = numeral 10 m) : n = m := by
  have hread : ∀ n, (numeral 10 n).reverse.map digits.idxOf = natDigits 10 n := fun n => by
    rw [numeral, List.reverse_reverse, List.map_map]
    refine (List.map_congr_left fun d hd => ?_).trans (List.map_id _)
    exact idxOf_digit (Nat.lt_trans (natDigits_lt (by decide) hd) (by decide))
  rw [← ofDigits_natDigits 10 n, ← ofDigits_natDigits 10 m, ← hread n, h, hread m]

/-! ## The loops -/

theorem digitLoop_eq {base x : BitVec 32} {room : Nat} (hb : 1 < base.toNat)
    (hx : x.toNat < base.toNat ^ (room + 1)) :
    digitLoop base x (room + 1) = some ((natDigits base.toNat x.toNat).map digit) := by
  induction room generalizing x with
  | zero =>
    rw [Nat.zero_add, Nat.pow_one] at hx
    have hzero : x / base = 0 := by
      apply BitVec.eq_of_toNat_eq
      rw [BitVec.toNat_udiv, Nat.div_eq_of_lt hx]
      rfl
    rw [digitLoop, if_pos hzero, BitVec.toNat_umod, Nat.mod_eq_of_lt hx, natDigits_of_lt hx]
    rfl
  | succ room ih =>
    have hdiv : (x / base).toNat = x.toNat / base.toNat := BitVec.toNat_udiv
    by_cases hlt : x.toNat < base.toNat
    · have hzero : x / base = 0 := BitVec.eq_of_toNat_eq (by rw [hdiv, Nat.div_eq_of_lt hlt]; rfl)
      rw [digitLoop, if_pos hzero, BitVec.toNat_umod, Nat.mod_eq_of_lt hlt, natDigits_of_lt hlt]
      rfl
    · have hge : base.toNat ≤ x.toNat := Nat.le_of_not_lt hlt
      have hne : x / base ≠ 0 := fun h => by
        have hpos := Nat.div_pos hge (by omega)
        rw [← hdiv, h] at hpos
        exact absurd hpos (by decide)
      have hnext : (x / base).toNat < base.toNat ^ (room + 1) := by
        rw [hdiv]
        exact Nat.div_lt_of_lt_mul (by rwa [Nat.mul_comm, ← Nat.pow_succ])
      rw [digitLoop, if_neg hne, ih hnext, hdiv, natDigits_step hb hge, BitVec.toNat_umod]
      rfl

theorem printint_unsigned {xx base : BitVec 32} (hb : 1 < base.toNat)
    (hx : xx.toNat < base.toNat ^ 16) :
    printint xx base false = some (numeral base.toNat xx.toNat) := by
  rw [printint, if_neg (by simp), bufSize, digitLoop_eq hb hx]
  rfl

theorem printint_signed (xx : BitVec 32) : printint xx 10 true = some (decimal xx.toInt) := by
  have hten : (10 : BitVec 32).toNat = 10 := rfl
  by_cases hneg : xx.toInt < 0
  · have habs : (-xx).toNat = xx.toInt.natAbs := by
      rw [BitVec.toInt_eq_toNat_cond] at hneg ⊢
      split at hneg
      · omega
      · rw [if_neg ‹_›, BitVec.toNat_neg]
        omega
    have hlt := (-xx).isLt
    have hshort : ((natDigits 10 xx.toInt.natAbs).map digit).length < 16 := by
      rw [List.length_map]
      have := natDigits_length_le (b := 10) (n := xx.toInt.natAbs) (k := 10) (by decide)
        (by decide) (by omega)
      exact Nat.lt_of_le_of_lt this (by decide)
    rw [printint, if_pos ⟨rfl, hneg⟩, bufSize, digitLoop_eq (by decide) (by rw [hten]; omega),
      hten, habs, Option.bind_some, if_pos hshort, decimal, if_pos hneg, List.reverse_append]
    rfl
  · have hnat : xx.toNat = xx.toInt.natAbs := by
      rw [BitVec.toInt_eq_toNat_cond] at hneg ⊢
      split at hneg
      · rw [if_pos ‹_›, Int.natAbs_natCast]
      · omega
    have hlt := xx.isLt
    rw [printint, if_neg (fun h => hneg h.2), bufSize,
      digitLoop_eq (by decide) (by rw [hten]; omega), hten, hnat, decimal, if_neg hneg]
    rfl

/-- Before its last `n` rounds the loop of `printptr` has `n` digits on top. -/
theorem ptrLoop_eq (x : BitVec 64) {n k : Nat} (h : n + k = 16) :
    ptrLoop (x <<< (4 * k)) n =
      (List.range n).reverse.map fun i => digit (x.toNat / 16 ^ i % 16) := by
  induction n generalizing k with
  | zero => rfl
  | succ n ih =>
    have htop : ((x <<< (4 * k)) >>> 60).toNat = x.toNat / 16 ^ n % 16 := by
      rw [BitVec.toNat_ushiftRight, BitVec.toNat_shiftLeft, Nat.shiftLeft_eq,
        Nat.shiftRight_eq_div_pow]
      obtain rfl : n = 15 - k := by omega
      have hk : k < 16 := by omega
      have hx := x.isLt
      interval_cases k <;> omega
    rw [ptrLoop, htop, ← BitVec.shiftLeft_add, ← Nat.mul_succ, ih (by omega), List.range_succ]
    simp

theorem printptr_eq (x : BitVec 64) : printptr x = 48 :: 120 :: hex16 x.toNat := by
  have h := ptrLoop_eq x (n := 16) (k := 0) rfl
  rw [Nat.mul_zero, BitVec.shiftLeft_zero] at h
  rw [printptr, h, hex16]

/-! ## Reading a number back -/

theorem atoiFrom_digits {ds : List Nat} {n : Nat} (hds : ∀ d ∈ ds, d < 10) :
    atoiFrom (BitVec.ofNat 32 n) (ds.map digit) =
      BitVec.ofNat 32 (ds.foldl (fun n d => d + 10 * n) n) := by
  induction ds generalizing n with
  | nil => rfl
  | cons d ds ih =>
    have hall : ∀ d < 10, 48 ≤ digit d ∧ digit d ≤ 57 ∧ (digit d).toNat = 48 + d := by decide
    obtain ⟨hlo, hhi, hval⟩ := hall d (hds d List.mem_cons_self)
    have hnext : BitVec.ofNat 32 n * 10 + BitVec.ofNat 32 (48 + d) - 48 =
        BitVec.ofNat 32 (d + 10 * n) := by
      rw [BitVec.ofNat_add, BitVec.ofNat_add, BitVec.ofNat_mul, BitVec.mul_comm]
      bv_omega
    rw [List.map_cons, atoiFrom, if_pos ⟨hlo, hhi⟩, hval, hnext,
      ih fun d hd => hds d (List.mem_cons_of_mem _ hd), List.foldl_cons]

theorem atoi_numeral (n : Nat) : atoi (numeral 10 n) = BitVec.ofNat 32 n := by
  rw [atoi, numeral, ← List.map_reverse]
  refine (atoiFrom_digits (n := 0) fun d hd => ?_).trans ?_
  · exact natDigits_lt (by decide) (List.mem_reverse.mp hd)
  · rw [List.foldl_reverse]
    have hread := ofDigits_natDigits 10 n
    rw [Nat.ofDigits_eq_foldr] at hread
    exact congrArg _ hread

/-! ## The conversions -/

section

variable {str : BitVec 64 → List UInt8} {fmt out : List UInt8} {ap : List (BitVec 64)}

theorem vprintf_conversion {c : UInt8} {p : Option (List UInt8)} {s : List UInt8} {v : BitVec 64}
    (hc : c ≠ 0) (hconv : convert str c (v :: ap) = p.map fun s => (s, ap)) (hp : p = some s)
    (hout : vprintf str fmt ap = some out) :
    vprintf str (37 :: c :: fmt) (v :: ap) = some (s ++ out) := by
  rw [vprintf] at hout
  rw [hp] at hconv
  simp [vprintf, vprintfFrom, hc, hconv, hout]

theorem vprintf_l (hout : vprintf str fmt ap = some out) (v : BitVec 64) :
    vprintf str (37 :: 108 :: fmt) (v :: ap) =
      some (numeral 10 (v.toNat % 2 ^ 32) ++ out) := by
  have hlt := (v.setWidth 32).isLt
  rw [← BitVec.toNat_setWidth 32 v]
  exact vprintf_conversion (by decide) rfl
    (printint_unsigned (by decide) (Nat.lt_trans hlt (by decide))) hout

/-- Each conversion writes the numeral of its argument, `%l` exactly of one below 2^32, without
running over the digit buffer; and `atoi` reads a decimal numeral back. -/
theorem vprintf_numerals (hout : vprintf str fmt ap = some out) (v : BitVec 64) :
    vprintf str (37 :: 100 :: fmt) (v :: ap) = some (decimal (v.setWidth 32).toInt ++ out) ∧
    vprintf str (37 :: 120 :: fmt) (v :: ap) = some (numeral 16 (v.setWidth 32).toNat ++ out) ∧
    vprintf str (37 :: 112 :: fmt) (v :: ap) = some (48 :: 120 :: hex16 v.toNat ++ out) ∧
    (vprintf str (37 :: 108 :: fmt) (v :: ap) = some (numeral 10 v.toNat ++ out) ↔
      v.toNat < 2 ^ 32) ∧
    ∀ x : BitVec 32, 0 ≤ x.toInt → atoi (decimal x.toInt) = x := by
  refine ⟨?_, ?_, ?_, ?_, fun x hx => ?_⟩
  · exact vprintf_conversion (by decide) rfl (printint_signed _) hout
  · have hlt := (v.setWidth 32).isLt
    exact vprintf_conversion (by decide) rfl
      (printint_unsigned (by decide) (Nat.lt_trans hlt (by decide))) hout
  · exact vprintf_conversion (by decide) rfl (congrArg some (printptr_eq v)) hout
  · rw [vprintf_l hout]
    constructor
    · intro h
      have hmod := numeral_inj (List.append_cancel_right (Option.some.inj h))
      omega
    · intro h
      rw [Nat.mod_eq_of_lt h]
  · rw [decimal, if_neg (by omega), atoi_numeral]
    apply BitVec.eq_of_toInt_eq
    rw [BitVec.toInt_ofNat', Int.natAbs_of_nonneg hx]
    exact BitVec.toInt_bmod_cancel x

end

/-- The largest 32-bit argument. -/
theorem vprintf_numerals_max :
    vprintf (fun _ => []) [37, 108] [0xffffffff] = some (numeral 10 4294967295 ++ []) := by
  have hout : vprintf (fun _ => []) [] [] = some [] := rfl
  exact (vprintf_numerals hout 0xffffffff).2.2.2.1.mpr (by decide)

/-- `printf("%l", 1UL << 32)` prints 0. -/
theorem vprintf_l_truncates :
    vprintf (fun _ => []) [37, 108] [0x100000000] = some [48] ∧ numeral 10 (2 ^ 32) ≠ [48] := by
  constructor
  · rfl
  · intro h
    exact absurd (numeral_inj (m := 0) h) (by decide)

end Xv6.Printf
