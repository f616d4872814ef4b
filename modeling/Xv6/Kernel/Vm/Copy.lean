import Xv6.Kernel.Exec.Atomic
import Xv6.Kernel.Vm.PartialMap
import Xv6.Lib.Scatter

/-! # Copies from and to user memory

`copyout`, `copyin` and `copyinstr` cut a range of user addresses at page boundaries. They
reach exactly the bytes of the range through the pages that the table maps for the user, and
stop at the first page that is not mapped. Addresses at or above `MAXVA` are never mapped, so a
range that wraps around is refused before it does.
-/

namespace Xv6.Vm

open Lib Exec

/-- The loop of `copyin` into the buffer `dst`, of which `i` bytes are filled. Each turn copies a
byte at least, so `fuel = len` is enough. -/
def copyinFrom (pagetable : Nat) : Nat → Bytes → Nat → Nat → Nat → Code (Int × Bytes)
  | 0, dst, _, _, _ => return (0, dst)
  | fuel + 1, dst, i, srcva, len => do
      if len > 0 then
        let va0 := pgRoundDown srcva
        let pa0 ← walkaddr pagetable va0
        if pa0 = 0 then return (-1, dst)
        else
          let n := min (pgSize - (srcva - va0)) len
          let s ← Comp.get
          copyinFrom pagetable fuel
            (splice dst i n fun j => s.mem (pa0 + (srcva - va0) + j)) (i + n)
            ((va0 + pgSize) % 2 ^ 64) (len - n)
      else return (0, dst)

def copyin (pagetable : Nat) (dst : Bytes) (srcva len : Nat) : Code (Int × Bytes) :=
  copyinFrom pagetable len dst 0 srcva len

/-- The inner loop of `copyinstr`: `n` bytes from `p` on are copied to `dst` from `i` on, up to
a NUL. -/
def copyStr (m : Bytes) : Nat → Nat → Bytes → Nat → Bool × Bytes
  | 0, _, dst, _ => (false, dst)
  | n + 1, p, dst, i =>
      if m p = 0 then (true, upd dst i 0) else copyStr m n (p + 1) (upd dst i (m p)) (i + 1)

def copyinstrFrom (pagetable : Nat) : Nat → Bytes → Nat → Nat → Nat → Code (Int × Bytes)
  | 0, dst, _, _, _ => return (-1, dst)
  | fuel + 1, dst, i, srcva, max => do
      if max > 0 then
        let va0 := pgRoundDown srcva
        let pa0 ← walkaddr pagetable va0
        if pa0 = 0 then return (-1, dst)
        else
          let n := min (pgSize - (srcva - va0)) max
          let s ← Comp.get
          let (gotNull, dst') := copyStr s.mem n (pa0 + (srcva - va0)) dst i
          if gotNull then return (0, dst')
          else copyinstrFrom pagetable fuel dst' (i + n) ((va0 + pgSize) % 2 ^ 64) (max - n)
      else return (-1, dst)

def copyinstr (pagetable : Nat) (dst : Bytes) (srcva max : Nat) : Code (Int × Bytes) :=
  copyinstrFrom pagetable max dst 0 srcva max

/-! ## What a table gives the user -/

/-- Page `v` is below `MAXVA` and mapped with `PTE_V` and `PTE_U`. -/
def UserMapped (f : Nat → Nat) (v : Nat) : Prop :=
  v < vpnEnd ∧ f v &&& pteV ≠ 0 ∧ f v &&& pteU ≠ 0

/-- The physical address of a user address. -/
def physOf (f : Nat → Nat) (va : Nat) : Nat := pte2pa (f (va / pgSize)) + va % pgSize

/-- All pages that the `len` bytes at `va` overlap are mapped for the user. -/
def Reachable (f : Nat → Nat) (va len : Nat) : Prop := ∀ j < len, UserMapped f ((va + j) / pgSize)

/-- The pages that a table maps for the user are memory, and not pages of the table. -/
def UserPages (f : Nat → Nat) (Q : Multiset Nat) : Prop :=
  ∀ v, UserMapped f v → pte2pa (f v) ≠ 0 ∧ pte2pa (f v) ∉ Q

def inPage (va len : Nat) : Nat := min (pgSize - va % pgSize) len

/-- How far a copy of `len` bytes gets: to the end, or to the first page that is not mapped. -/
inductive Stops (f : Nat → Nat) (va len : Nat) : Int → Nat → Prop where
  | done : Reachable f va len → Stops f va len 0 len
  | refused {k : Nat} : k < len → (k = 0 ∨ (va + k) % pgSize = 0) → Reachable f va k →
      ¬ UserMapped f ((va + k) / pgSize) → Stops f va len (-1) k

section

variable {K : Image} {s t : Phys} {pt va len n k : Nat} {f : Nat → Nat} {Q : Multiset Nat}
  {src dst : Bytes} {r : Int}

theorem walkaddr_user (h : Table K s.mem pt f Q) (hu : UserPages f Q) :
    Does (walkaddr pt (pgRoundDown va)) (fun r t => t = s ∧
      (r = 0 ∧ ¬ UserMapped f (va / pgSize) ∨
        r ≠ 0 ∧ UserMapped f (va / pgSize) ∧ r = pte2pa (f (va / pgSize)))) s := by
  refine (walkaddr_spec h).mono fun r t hr => ?_
  obtain ⟨rfl, rfl⟩ := hr
  have hdiv : pgRoundDown va / pgSize = va / pgSize := vpn_mul _
  have hlt : pgRoundDown va < maxVa ↔ va / pgSize < vpnEnd := by
    simp only [pgRoundDown, vpnEnd, maxVa, pgSize]
    omega
  refine ⟨rfl, ?_⟩
  rw [hdiv]
  by_cases hm : UserMapped f (va / pgSize)
  · rw [if_pos ⟨hlt.mpr hm.1, hm.2⟩]
    exact .inr ⟨(hu _ hm).1, hm, rfl⟩
  · rw [if_neg fun hc => hm ⟨hlt.mp hc.1, hc.2⟩]
    exact .inl ⟨rfl, hm⟩

theorem sub_pgRoundDown (va : Nat) : va - pgRoundDown va = va % pgSize := by
  simp only [pgRoundDown, pgSize]
  omega

/-- The bytes in the first page have addresses one after the other. -/
theorem physOf_inPage {j : Nat} (hj : j < inPage va len) :
    (va + j) / pgSize = va / pgSize ∧
      physOf f (va + j) = pte2pa (f (va / pgSize)) + va % pgSize + j := by
  have hdiv : (va + j) / pgSize = va / pgSize := by
    simp only [inPage, pgSize] at *
    omega
  refine ⟨hdiv, ?_⟩
  unfold physOf
  rw [hdiv, Nat.add_assoc]
  congr 1
  simp only [inPage, pgSize] at *
  omega

theorem inPage_le : inPage va len ≤ len := Nat.min_le_right _ _

theorem inPage_pos (hlen : 0 < len) : 0 < inPage va len := by
  simp only [inPage, pgSize]
  omega

theorem next_addr (len : Nat) (hm : UserMapped f (va / pgSize)) {j : Nat}
    (hj : j < len - inPage va len) :
    (pgRoundDown va + pgSize) % 2 ^ 64 + j = va + (inPage va len + j) := by
  have hlt := hm.1
  simp only [inPage, pgRoundDown, vpnEnd, maxVa, pgSize] at *
  omega

theorem Reachable.inPage (hm : UserMapped f (va / pgSize)) (hk : k ≤ inPage va len) :
    Reachable f va k := by
  intro j hj
  rw [(physOf_inPage (f := f) (by omega : j < Vm.inPage va len)).1]
  exact hm

theorem Reachable.join (hm : UserMapped f (va / pgSize)) (hk : k ≤ len - Vm.inPage va len)
    (h : Reachable f ((pgRoundDown va + pgSize) % 2 ^ 64) k) :
    Reachable f va (Vm.inPage va len + k) := by
  intro j hj
  by_cases hfirst : j < Vm.inPage va len
  · exact Reachable.inPage hm (Nat.le_refl _) j hfirst
  · have hj' := h (j - Vm.inPage va len) (by omega)
    rw [next_addr len hm (by omega), Nat.add_sub_cancel' (by omega)] at hj'
    exact hj'

theorem Stops.le (h : Stops f va len r k) : k ≤ len := by
  cases h with
  | done => exact Nat.le_refl _
  | refused hlt => omega

/-- The first page was mapped, and the copy went on behind it. -/
theorem Stops.page (hm : UserMapped f (va / pgSize))
    (h : Stops f ((pgRoundDown va + pgSize) % 2 ^ 64) (len - inPage va len) r k) :
    Stops f va len r (inPage va len + k) := by
  have hle : inPage va len ≤ len := inPage_le
  cases h with
  | done hr =>
    have hall := Reachable.join hm (Nat.le_refl _) hr
    rw [Nat.add_sub_cancel' hle] at hall ⊢
    exact .done hall
  | refused hlt hbound hr hno =>
    have haddr := next_addr len hm hlt
    rw [haddr] at hno hbound
    refine .refused (by omega) (.inr ?_) (hr.join hm (by omega)) hno
    rcases hbound with rfl | hbound
    · have hend := hm.1
      rw [← haddr]
      simp only [pgRoundDown, vpnEnd, maxVa, pgSize] at *
      omega
    · exact hbound

/-! ## The three functions -/

theorem pte2pa_aligned (w : Nat) : pgSize ∣ pte2pa w := by
  unfold pte2pa pgSize
  omega

theorem Table.userWrite {m : Bytes} (h : Table K m pt f Q) (hu : UserPages f Q)
    (hm : UserMapped f (va / pgSize)) :
    Table K (splice m (pte2pa (f (va / pgSize)) + va % pgSize) (inPage va len) src) pt f Q := by
  have hagree : AgreeOff pgSize {pte2pa (f (va / pgSize))} m
      (splice m (pte2pa (f (va / pgSize)) + va % pgSize) (inPage va len) src) := by
    refine AgreeOff.splice (Multiset.mem_singleton_self _) (Nat.le_add_right _ _) ?_
    simp only [inPage, pgSize]
    omega
  refine h.frame hagree (fun p hp => ?_) fun p hp hpc => ?_
  · rw [Multiset.mem_singleton.mp hp]
    exact pte2pa_aligned _
  · exact (hu _ hm).2 (Multiset.mem_singleton.mp hpc ▸ hp)

theorem copyoutFrom_exact {fuel : Nat} (h : Table K s.mem pt f Q) (hu : UserPages f Q)
    (hfuel : len ≤ fuel) :
    Does (copyoutFrom pt fuel va src len) (fun r t => Table K t.mem pt f Q ∧ ∃ k,
      Stops f va len r k ∧
        t = { s with mem := scatter (fun j => physOf f (va + j)) src k s.mem }) s := by
  induction fuel generalizing s va src len with
  | zero =>
    obtain rfl : len = 0 := by omega
    rw [copyoutFrom, Does.pure]
    exact ⟨h, 0, .done fun j hj => by omega, rfl⟩
  | succ fuel ih =>
    rw [copyoutFrom]
    refine Does.ite (fun hlen => ?_) fun hlen => ?_
    · rw [Does.bind]
      refine (walkaddr_user h hu).mono fun pa t hpa => ?_
      obtain ⟨rfl, ⟨rfl, hno⟩ | ⟨hpos, hm, rfl⟩⟩ := hpa
      · rw [if_pos rfl, Does.pure]
        exact ⟨h, 0, .refused hlen (.inl rfl) (fun j hj => by omega) hno, rfl⟩
      · rw [if_neg hpos, Does.bind, Does.assign, sub_pgRoundDown,
          show min (pgSize - va % pgSize) len = inPage va len from rfl]
        have hpos : 0 < inPage va len := inPage_pos hlen
        refine (ih (h.userWrite hu hm) (by omega)).mono fun r w hr => ?_
        obtain ⟨htable, k, hstop, rfl⟩ := hr
        have hk := hstop.le
        have haddr : ∀ j < k, (pgRoundDown va + pgSize) % 2 ^ 64 + j = va + (inPage va len + j) :=
          fun j hj => next_addr len hm (by omega)
        refine ⟨htable, _, hstop.page hm, ?_⟩
        rw [scatter_add, scatter_eq_splice fun j hj => (physOf_inPage hj).2,
          scatter_congr fun j hj => congrArg (physOf f) (haddr j hj)]
    · obtain rfl : len = 0 := by omega
      rw [Does.pure]
      exact ⟨h, 0, .done fun j hj => by omega, rfl⟩

theorem copyinFrom_exact {fuel i : Nat} (h : Table K s.mem pt f Q) (hu : UserPages f Q)
    (hfuel : len ≤ fuel) :
    Does (copyinFrom pt fuel dst i va len) (fun r t => t = s ∧ ∃ k, Stops f va len r.1 k ∧
      r.2 = splice dst i k fun j => s.mem (physOf f (va + j))) s := by
  induction fuel generalizing dst i va len with
  | zero =>
    obtain rfl : len = 0 := by omega
    rw [copyinFrom, Does.pure]
    exact ⟨rfl, 0, .done fun j hj => by omega, (splice_zero _ _ _).symm⟩
  | succ fuel ih =>
    rw [copyinFrom]
    refine Does.ite (fun hlen => ?_) fun hlen => ?_
    · rw [Does.bind]
      refine (walkaddr_user h hu).mono fun pa t hpa => ?_
      obtain ⟨rfl, ⟨rfl, hno⟩ | ⟨hpos, hm, rfl⟩⟩ := hpa
      · rw [if_pos rfl, Does.pure]
        exact ⟨rfl, 0, .refused hlen (.inl rfl) (fun j hj => by omega) hno,
          (splice_zero _ _ _).symm⟩
      · rw [if_neg hpos, Does.bind, Does.get, sub_pgRoundDown,
          show min (pgSize - va % pgSize) len = inPage va len from rfl]
        have hpos : 0 < inPage va len := inPage_pos hlen
        refine (ih (by omega)).mono fun r w hr => ?_
        obtain ⟨rfl, k, hstop, hbuf⟩ := hr
        have hk := hstop.le
        have haddr : ∀ j < k, (pgRoundDown va + pgSize) % 2 ^ 64 + j = va + (inPage va len + j) :=
          fun j hj => next_addr len hm (by omega)
        refine ⟨rfl, _, hstop.page hm, ?_⟩
        rw [hbuf, ← splice_splice,
          splice_congr fun j hj => congrArg w.mem (physOf_inPage (f := f) hj).2.symm,
          splice_congr fun j hj => by rw [haddr j hj]]
    · obtain rfl : len = 0 := by omega
      rw [Does.pure]
      exact ⟨rfl, 0, .done fun j hj => by omega, (splice_zero _ _ _).symm⟩

/-- A string of `k` bytes and its NUL is at `va`, on pages that are mapped for the user. -/
structure StringAt (f : Nat → Nat) (m : Bytes) (va k : Nat) : Prop where
  reachable : Reachable f va (k + 1)
  nul : m (physOf f (va + k)) = 0
  text : ∀ j < k, m (physOf f (va + j)) ≠ 0

/-- The inner loop copies up to the first NUL, or everything. -/
theorem copyStr_cases (m : Bytes) (n p : Nat) (dst : Bytes) (i : Nat) :
    (∃ k < n, m (p + k) = 0 ∧ (∀ j < k, m (p + j) ≠ 0) ∧
      copyStr m n p dst i = (true, splice dst i (k + 1) fun j => m (p + j))) ∨
    (∀ j < n, m (p + j) ≠ 0) ∧ copyStr m n p dst i =
      (false, splice dst i n fun j => m (p + j)) := by
  induction n generalizing p dst i with
  | zero => exact .inr ⟨fun j hj => by omega, by rw [copyStr, splice_zero]⟩
  | succ n ih =>
    rw [copyStr]
    by_cases hz : m p = 0
    · rw [if_pos hz]
      refine .inl ⟨0, Nat.succ_pos n, hz, fun j hj => by omega, ?_⟩
      rw [← upd_eq_splice, Nat.add_zero, hz]
    · rw [if_neg hz]
      have hjoin : ∀ k, splice (upd dst i (m p)) (i + 1) k (fun j => m (p + 1 + j)) =
          splice dst i (k + 1) fun j => m (p + j) := by
        intro k
        rw [← splice_upd dst (fun j => m (p + j)) i k]
        simp only [Nat.add_zero, Nat.add_assoc]
      have htext : ∀ k, (∀ j < k, m (p + 1 + j) ≠ 0) → ∀ j < k + 1, m (p + j) ≠ 0 := by
        intro k hk j hj
        cases j with
        | zero => exact hz
        | succ j =>
          rw [Nat.add_comm j 1, ← Nat.add_assoc]
          exact hk j (by omega)
      rcases ih (p + 1) (upd dst i (m p)) (i + 1) with ⟨k, hk, hnul, hbefore, heq⟩ | ⟨hall, heq⟩
      · refine .inl ⟨k + 1, by omega, ?_, htext k hbefore, heq.trans (by rw [hjoin])⟩
        rw [Nat.add_comm k 1, ← Nat.add_assoc]
        exact hnul
      · exact .inr ⟨htext n hall, heq.trans (by rw [hjoin])⟩

/-- What `copyinstr` leaves: the string with its NUL, or what comes before the end of the range
or of the pages. -/
inductive StrStops (f : Nat → Nat) (m : Bytes) (va max : Nat) : Int → Nat → Prop where
  | found {k : Nat} : k < max → StringAt f m va k → StrStops f m va max 0 (k + 1)
  | missing {k : Nat} : k ≤ max → Reachable f va k → (∀ j < k, m (physOf f (va + j)) ≠ 0) →
      (k = max ∨ ¬ UserMapped f ((va + k) / pgSize)) → StrStops f m va max (-1) k

theorem StrStops.le {max : Nat} {m : Bytes} (h : StrStops f m va max r k) : k ≤ max := by
  cases h with
  | found hlt => exact hlt
  | missing hle => exact hle

/-- There was no NUL on the first page, and the search went on behind it. -/
theorem StrStops.page {max : Nat} {m : Bytes} (hm : UserMapped f (va / pgSize))
    (htext : ∀ j < inPage va max, m (physOf f (va + j)) ≠ 0)
    (h : StrStops f m ((pgRoundDown va + pgSize) % 2 ^ 64) (max - inPage va max) r k) :
    StrStops f m va max r (inPage va max + k) := by
  have hle : inPage va max ≤ max := inPage_le
  have hjoin : ∀ {n}, n ≤ max - inPage va max →
      (∀ j < n, m (physOf f ((pgRoundDown va + pgSize) % 2 ^ 64 + j)) ≠ 0) →
      ∀ j < inPage va max + n, m (physOf f (va + j)) ≠ 0 := by
    intro n hn hrest j hj
    by_cases hfirst : j < inPage va max
    · exact htext j hfirst
    · have hj' := hrest (j - inPage va max) (by omega)
      rw [next_addr max hm (by omega), Nat.add_sub_cancel' (by omega)] at hj'
      exact hj'
  cases h with
  | @found n hlt hs =>
    show StrStops f m va max 0 (inPage va max + n + 1)
    refine .found (by omega) ⟨hs.reachable.join hm (by omega), ?_, hjoin (by omega) hs.text⟩
    rw [← next_addr max hm hlt]
    exact hs.nul
  | missing hk hr hno hend =>
    refine .missing (by omega) (hr.join hm hk) (hjoin hk hno) ?_
    rcases Nat.lt_or_ge k (max - inPage va max) with hlt | hge
    · rcases hend with heq | hend
      · omega
      · rw [next_addr max hm hlt] at hend
        exact .inr hend
    · exact .inl (by omega)

theorem copyinstrFrom_exact {fuel i max : Nat} (h : Table K s.mem pt f Q) (hu : UserPages f Q)
    (hfuel : max ≤ fuel) :
    Does (copyinstrFrom pt fuel dst i va max) (fun r t => t = s ∧ ∃ k,
      StrStops f s.mem va max r.1 k ∧
        r.2 = splice dst i k fun j => s.mem (physOf f (va + j))) s := by
  induction fuel generalizing dst i va max with
  | zero =>
    obtain rfl : max = 0 := by omega
    rw [copyinstrFrom, Does.pure]
    exact ⟨rfl, 0, .missing (Nat.le_refl 0) (fun j hj => by omega)
      (fun j hj => by omega) (.inl rfl),
      (splice_zero _ _ _).symm⟩
  | succ fuel ih =>
    rw [copyinstrFrom]
    refine Does.ite (fun hmax => ?_) fun hmax => ?_
    · rw [Does.bind]
      refine (walkaddr_user h hu).mono fun pa t hpa => ?_
      obtain ⟨rfl, ⟨rfl, hno⟩ | ⟨hpos, hm, rfl⟩⟩ := hpa
      · rw [if_pos rfl, Does.pure]
        exact ⟨rfl, 0, .missing (Nat.zero_le _) (fun j hj => by omega) (fun j hj => by omega)
          (.inr hno), (splice_zero _ _ _).symm⟩
      · rw [if_neg hpos, Does.bind, Does.get, sub_pgRoundDown,
          show min (pgSize - va % pgSize) max = inPage va max from rfl]
        have hpos : 0 < inPage va max := inPage_pos hmax
        have hle : inPage va max ≤ max := inPage_le
        have hin : ∀ j < inPage va max, t.mem (pte2pa (f (va / pgSize)) + va % pgSize + j) =
            t.mem (physOf f (va + j)) := fun j hj => congrArg t.mem (physOf_inPage hj).2.symm
        rcases copyStr_cases t.mem (inPage va max)
          (pte2pa (f (va / pgSize)) + va % pgSize) dst i with
          ⟨k, hk, hnul, htext, heq⟩ | ⟨htext, heq⟩
        · simp only [heq, if_true, Does.pure]
          refine ⟨trivial, k + 1, .found (by omega) ⟨.inPage hm hk, ?_, fun j hj => ?_⟩,
            splice_congr fun j hj => hin j (by omega)⟩
          · rw [← hin k hk]
            exact hnul
          · rw [← hin j (by omega)]
            exact htext j hj
        · simp only [heq, Bool.false_eq_true, if_false]
          refine (ih (by omega)).mono fun r w hr => ?_
          obtain ⟨rfl, k, hstop, hbuf⟩ := hr
          have hk := hstop.le
          have haddr : ∀ j < k, (pgRoundDown va + pgSize) % 2 ^ 64 + j = va + (inPage va max + j) :=
            fun j hj => next_addr max hm (by omega)
          refine ⟨rfl, inPage va max + k, hstop.page hm fun j hj => ?_, ?_⟩
          · rw [← hin j hj]
            exact htext j hj
          · rw [hbuf, ← splice_splice, splice_congr hin,
              splice_congr fun j hj => by rw [haddr j hj]]
    · obtain rfl : max = 0 := by omega
      rw [Does.pure]
      exact ⟨rfl, 0, .missing (Nat.le_refl 0) (fun j hj => by omega) (fun j hj => by omega)
        (.inl rfl), (splice_zero _ _ _).symm⟩

/-! ## Results -/

/-- A result of 0 or -1 and how far it got, for `copyin` and `copyout`. -/
structure CopyEnds (f : Nat → Nat) (va len : Nat) (r : Int) (k : Nat) : Prop where
  result : r = 0 ∨ r = -1
  zero_iff : r = 0 ↔ Reachable f va len
  whole : r = 0 → k = len
  cut : r = -1 → k < len ∧ (k = 0 ∨ (va + k) % pgSize = 0)

theorem Stops.ends (h : Stops f va len r k) : CopyEnds f va len r k := by
  cases h with
  | done hr =>
    exact ⟨.inl rfl, ⟨fun _ => hr, fun _ => rfl⟩, fun _ => rfl, fun hc => absurd hc (by decide)⟩
  | refused hlt hbound _ hno =>
    exact ⟨.inr rfl, ⟨fun hc => absurd hc (by decide), fun hr => absurd (hr k hlt) hno⟩,
      fun hc => absurd hc (by decide), fun _ => ⟨hlt, hbound⟩⟩

/-- What `copyinstr` returns and leaves in the buffer. -/
structure StrEnds (f : Nat → Nat) (m : Bytes) (va max : Nat) (dst : Bytes) (r : Int × Bytes) :
    Prop where
  result : r.1 = 0 ∨ r.1 = -1
  zero_iff : r.1 = 0 ↔ ∃ k < max, Reachable f va (k + 1) ∧ m (physOf f (va + k)) = 0
  text : ∀ k < max, StringAt f m va k → r.2 = splice dst 0 (k + 1) fun j => m (physOf f (va + j))
  within : ∀ j, max ≤ j → r.2 j = dst j

theorem StringAt.unique {m : Bytes} {k' : Nat} (h : StringAt f m va k) (h' : StringAt f m va k') :
    k = k' := by
  rcases Nat.lt_trichotomy k k' with hlt | heq | hgt
  · exact absurd h.nul (h'.text k hlt)
  · exact heq
  · exact absurd h'.nul (h.text k' hgt)

theorem StrStops.ends {m : Bytes} {max : Nat} (h : StrStops f m va max r k) :
    StrEnds f m va max dst (r, splice dst 0 k fun j => m (physOf f (va + j))) := by
  have hle := h.le
  have hwithin : ∀ j, max ≤ j → splice dst 0 k (fun j => m (physOf f (va + j))) j = dst j :=
    fun j hj => splice_outside (by omega)
  cases h with
  | @found n hlt hs =>
    refine ⟨.inl rfl, ⟨fun _ => ⟨n, hlt, hs.reachable, hs.nul⟩, fun _ => rfl⟩, fun k' _ hs' => ?_,
      hwithin⟩
    rw [hs.unique hs']
  | missing hk hr htext hend =>
    have hnone : ∀ k' < max, Reachable f va (k' + 1) → m (physOf f (va + k')) ≠ 0 := by
      intro k' hk' hr' hz
      have hge : k ≤ k' := Nat.le_of_not_lt fun hlt => htext k' hlt hz
      rcases hend with rfl | hno
      · omega
      · exact hno (hr' k (by omega))
    refine ⟨.inr rfl, ⟨fun hc => absurd hc (by decide : ¬ (-1 : Int) = 0), fun hex => ?_⟩,
      fun k' hk' hs' => ?_, hwithin⟩
    · obtain ⟨k', hk', hr', hz⟩ := hex
      exact absurd hz (hnone k' hk' hr')
    · exact absurd hs'.nul (hnone k' hk' hs'.reachable)

/-- User addresses on pages of their own have physical addresses of their own. -/
theorem physOf_inj (hdist : ∀ v w, UserMapped f v → UserMapped f w → pte2pa (f v) = pte2pa (f w) →
    v = w) (hr : Reachable f va len) :
    ∀ i < len, ∀ j < len, physOf f (va + i) = physOf f (va + j) → i = j := by
  intro i hi j hj heq
  unfold physOf at heq
  have hpage : pte2pa (f ((va + i) / pgSize)) = pte2pa (f ((va + j) / pgSize)) := by
    obtain ⟨x, hx⟩ := pte2pa_aligned (f ((va + i) / pgSize))
    obtain ⟨y, hy⟩ := pte2pa_aligned (f ((va + j) / pgSize))
    rw [hx, hy] at heq ⊢
    simp only [pgSize] at *
    omega
  have hsame := hdist _ _ (hr i hi) (hr j hj) hpage
  rw [hpage] at heq
  simp only [pgSize] at *
  omega

theorem UserMapped.lt {us : List UserPage} {g : Nat → Nat} {v : Nat} (hg : Kernel g)
    (h : UserMapped (withUser us g) v) : v < us.length := by
  by_contra hge
  have hU := h.2.2
  rw [withUser_of_ge (by omega)] at hU
  exact hU (hg v)

theorem Space.userPages {L : List Nat} {us : List UserPage} {g : Nat → Nat}
    (h : Space K s L pt us g Q) (hg : Kernel g) : UserPages (withUser us g) Q := by
  intro v hv
  have hlt := hv.lt hg
  have hmem := List.getElem_mem hlt
  have hok := h.users _ hmem
  rw [withUser_of_lt hlt, hok.pte2pa]
  refine ⟨Nat.pos_iff_ne_zero.mp hok.page.pos, fun hQ => ?_⟩
  refine Multiset.disjoint_left.mp (Multiset.nodup_add.mp h.nodup).2.2
    (Multiset.mem_add.mpr (.inr hQ)) (mem_pagesOf.mpr ⟨_, hmem, rfl⟩)

/-- `copyout`, `copyin` and `copyinstr` are exact for every table whose user pages are memory
that is not the table's own, and what `copyout` wrote `copyin` reads back. -/
theorem copies_exact (h : Table K s.mem pt f Q) (hu : UserPages f Q) :
    (∀ va src len, Does (copyout pt va src len) (fun r t => ∃ k, CopyEnds f va len r k ∧
      t = { s with mem := scatter (fun j => physOf f (va + j)) src k s.mem }) s) ∧
    (∀ dst va len, Does (copyin pt dst va len) (fun r t => t = s ∧ ∃ k, CopyEnds f va len r.1 k ∧
      r.2 = splice dst 0 k fun j => s.mem (physOf f (va + j))) s) ∧
    (∀ dst va max, Does (copyinstr pt dst va max)
      (fun r t => t = s ∧ StrEnds f s.mem va max dst r) s) ∧
    ((∀ v w, UserMapped f v → UserMapped f w → pte2pa (f v) = pte2pa (f w) → v = w) →
      ∀ va src dst len, Reachable f va len →
        Does (do let _ ← copyout pt va src len; copyin pt dst va len)
          (fun r _ => r.1 = 0 ∧ ∀ j < len, r.2 j = src j) s) := by
  have hout : ∀ va src len, Does (copyout pt va src len) _ s := fun va src len =>
    copyoutFrom_exact h hu (Nat.le_refl len)
  refine ⟨fun va src len => ?_, fun dst va len => ?_, fun dst va max => ?_, ?_⟩
  · exact (hout va src len).mono fun r t ⟨_, k, hstop, ht⟩ => ⟨k, hstop.ends, ht⟩
  · exact (copyinFrom_exact h hu (Nat.le_refl len)).mono
      fun r t ⟨ht, k, hstop, hbuf⟩ => ⟨ht, k, hstop.ends, hbuf⟩
  · refine (copyinstrFrom_exact h hu (Nat.le_refl max)).mono fun r t hr => ?_
    obtain ⟨ht, k, hstop, hbuf⟩ := hr
    have hends : StrEnds f s.mem va max dst (r.1, r.2) := hbuf ▸ hstop.ends
    exact ⟨ht, hends⟩
  · intro hdist va src dst len hr
    rw [Does.bind]
    refine (hout va src len).mono fun r t ht => ?_
    obtain ⟨htable, k, hstop, rfl⟩ := ht
    obtain rfl : k = len := hstop.ends.whole (hstop.ends.zero_iff.mpr hr)
    refine (copyinFrom_exact htable hu (Nat.le_refl k)).mono fun r' u hu' => ?_
    obtain ⟨-, k', hstop', hbuf⟩ := hu'
    have hzero := hstop'.ends.zero_iff.mpr hr
    obtain rfl : k' = k := hstop'.ends.whole hzero
    refine ⟨hzero, fun j hj => ?_⟩
    rw [hbuf, splice_inside (Nat.zero_le j) (by omega), Nat.sub_zero]
    exact scatter_at (physOf_inj hdist hr) hj

end

theorem copies_exact_first : ∃ f Q, Table sixteenPages firstKern.phys.mem
    (physTop - 2 * pgSize) f Q ∧
    ∀ dst va max, Does (copyinstr (physTop - 2 * pgSize) dst va max)
      (fun r t => t = firstKern.phys ∧ StrEnds f firstKern.phys.mem va max dst r)
      firstKern.phys := by
  obtain ⟨L, us, Q, ha⟩ := firstKern_space
  exact ⟨_, Q, ha.space.owns.table, (copies_exact ha.space.owns.table
    (ha.space.userPages (upper_kernel _ _))).2.2.1⟩

/-- A table that maps physical page 0 for the user: `walkaddr` returns 0 for it, and `copyout` of
one byte fails. A table that maps its own last level for the user: `copyout` of zeros removes the
second page before it gets there. -/
theorem copies_of_odd_tables :
    (leafPte (physTop - pgSize) (mapOne 0 0 pteU newTable) 0 = (pteU ||| pteV) ∧
      (copyout (physTop - pgSize) 0 (fun _ => 0) 1 (mapOne 0 0 pteU newTable)).result.toOption =
        some (-1)) ∧
    (leafPte (physTop - pgSize) (mapOne 1 kernBase pteU
        (mapOne 0 (physTop - 3 * pgSize) pteU newTable)) 0 =
      pa2pte (physTop - 3 * pgSize) ||| pteU ||| pteV ∧
      leafPte (physTop - pgSize) (mapOne 1 kernBase pteU
        (mapOne 0 (physTop - 3 * pgSize) pteU newTable)) 1 = pa2pte kernBase ||| pteU ||| pteV ∧
      (copyout (physTop - pgSize) 0 (fun _ => 0) (2 * pgSize) (mapOne 1 kernBase pteU
        (mapOne 0 (physTop - 3 * pgSize) pteU newTable))).result.toOption = some (-1)) := by
  refine ⟨⟨?_, ?_⟩, ?_, ?_, ?_⟩ <;> decide +kernel

end Xv6.Vm
