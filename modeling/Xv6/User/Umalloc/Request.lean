import Mathlib.Dynamics.PeriodicPts.Defs
import Xv6.User.Umalloc.Code

/-! # The size arithmetic of `malloc`

A request in bytes becomes a count of units, then bytes again, and last the signed argument of
`sbrk`. The conversions lose nothing below 2 ^ 31 bytes. From there on the argument is
negative, zero or a few bytes, `sbrk` reports success, and the block that `morecore` makes has
the size of the request all the same.
-/

namespace Xv6.Umalloc

open Lib

/-- The units fit into the memory that `sbrk` was asked for and has provided. -/
def Growth.Sound (g : Growth) : Prop :=
  g.amount = headerSize * g.units ∧ ∀ bytes ∈ g.provided, headerSize * g.units ≤ bytes

/-- The block at `p` is `base`, which is empty, or its header and its units lie in the memory
from `start` on that the process has obtained from `sbrk`. -/
def Heap.Block (base start : Nat) (h : Heap) (p : Nat) : Prop :=
  p = base ∧ h.size p = 0 ∨ start ≤ p ∧ plus p 1 ≤ h.brk ∧ plus p (h.size p) ≤ h.brk

/-- The free blocks are on a circular list from `freep`. -/
structure Heap.Listed (base start : Nat) (h : Heap) : Prop where
  brk : start ≤ h.brk
  circular : ∃ n, 0 < n ∧ Function.IsPeriodicPt h.ptr n h.freep
  block : ∀ i, h.Block base start (h.ptr^[i] h.freep)

/-- A free block has `n` units. -/
def Heap.Fits (n : Nat) (h : Heap) : Prop := ∃ i, n ≤ h.size (h.ptr^[i] h.freep)

/-- What `malloc` returns is null, or points to `nbytes` bytes that were obtained from `sbrk`. -/
def MallocSound (base start : Nat) (granted : Nat → Bool) (h : Heap) (nbytes : Nat) : Prop :=
  ∃ turns, ∀ fuel ≥ turns, ∃ r h', malloc base fuel granted h nbytes = some (r, h') ∧
    (r = 0 ∨ start ≤ r ∧ r + nbytes ≤ h'.brk) ∧ ∀ g ∈ h'.grown, g.Sound

variable {base start nunits nbytes fuel : Nat} {h h' : Heap} {granted : Nat → Bool}

/-! ## The amounts -/

theorem units_eq (hn : nbytes < 2 ^ 32) : units nbytes = (nbytes + 15) / 16 + 1 := by
  unfold units headerSize
  omega

theorem sbrkArg_eq_iff (nu : Nat) : sbrkArg nu = headerSize * nu ↔ headerSize * nu < 2 ^ 31 := by
  have hlt : sbrkArg nu < 2 ^ 31 := BitVec.toInt_lt
  constructor
  · intro heq
    rw [heq] at hlt
    exact_mod_cast hlt
  · intro hsmall
    unfold sbrkArg
    rw [Nat.mul_comm nu, BitVec.toInt_eq_toNat_of_lt, BitVec.toNat_ofNat,
      Nat.mod_eq_of_lt (by omega)]
    · push_cast
      rfl
    · rw [BitVec.toNat_ofNat]
      omega

theorem moreUnits_small (hn : nunits < 2 ^ 27) : headerSize * moreUnits nunits < 2 ^ 31 := by
  unfold moreUnits headerSize
  split <;> omega

theorem le_moreUnits (nunits : Nat) : nunits ≤ moreUnits nunits := by
  unfold moreUnits
  split <;> omega

/-! ## The search

The search goes round the list from `freep` until a block fits or it is back at `freep`.
-/

theorem mallocLoop_walk {j : Nat} (k p : Nat)
    (hgo : ∀ i < j, ¬ (nunits ≤ h.size (h.ptr^[i + 1] p) ∨ h.ptr^[i + 1] p = h.freep)) :
    mallocLoop granted nunits (fuel + j) k p (h.ptr p) h =
      mallocLoop granted nunits fuel k (h.ptr^[j] p) (h.ptr^[j + 1] p) h := by
  induction j generalizing p with
  | zero => rfl
  | succ j ih =>
    have hsmall : ¬ nunits ≤ h.size (h.ptr p) := fun hfit => hgo 0 j.succ_pos (.inl hfit)
    have hnext : ¬ h.ptr p = h.freep := fun hback => hgo 0 j.succ_pos (.inr hback)
    rw [← Nat.add_assoc, mallocLoop, if_neg hsmall, if_neg hnext]
    exact ih (h.ptr p) fun i hi => hgo (i + 1) (by omega)

/-- Either a block fits and `malloc` takes it, or none does and it calls `morecore`. -/
theorem mallocLoop_search (hcirc : ∃ n, 0 < n ∧ Function.IsPeriodicPt h.ptr n h.freep)
    (granted : Nat → Bool) (nunits : Nat) : ∃ j,
    (nunits ≤ h.size (h.ptr^[j + 1] h.freep) ∧ ∀ fuel k,
      mallocLoop granted nunits (fuel + 1 + j) k h.freep (h.ptr h.freep) h =
        some (take h nunits (h.ptr^[j] h.freep) (h.ptr^[j + 1] h.freep))) ∨
    (¬ h.Fits nunits ∧ ∀ fuel k,
      mallocLoop granted nunits (fuel + 1 + j) k h.freep (h.ptr h.freep) h =
        match morecore fuel (granted k) h nunits with
        | none => none
        | some (p, h) =>
          if p = 0 then some (0, h)
          else mallocLoop granted nunits fuel (k + 1) p (h.ptr p) h) := by
  have hstop : ∃ j, nunits ≤ h.size (h.ptr^[j + 1] h.freep) ∨
      h.ptr^[j + 1] h.freep = h.freep := by
    obtain ⟨n, hn, hper⟩ := hcirc
    refine ⟨n - 1, .inr ?_⟩
    rw [Nat.sub_add_cancel hn]
    exact hper
  classical
  have hgo := fun i hi => Nat.find_min hstop (m := i) hi
  have hfound := Nat.find_spec hstop
  refine ⟨Nat.find hstop, ?_⟩
  generalize Nat.find hstop = j at hgo hfound
  by_cases hfit : nunits ≤ h.size (h.ptr^[j + 1] h.freep)
  · refine .inl ⟨hfit, fun fuel k => ?_⟩
    rw [mallocLoop_walk k h.freep hgo, mallocLoop, if_pos hfit]
  · have hback := hfound.resolve_left hfit
    refine .inr ⟨?_, fun fuel k => ?_⟩
    · -- `j + 1` is a period, so every block of the list was looked at
      rintro ⟨i, hi⟩
      have hper : Function.IsPeriodicPt h.ptr (j + 1) h.freep := hback
      rw [← hper.iterate_mod_apply i] at hi
      have hlt : i % (j + 1) < j + 1 := Nat.mod_lt i j.succ_pos
      cases hmod : i % (j + 1) with
      | zero =>
        rw [hmod] at hi
        rw [hback] at hfit
        exact hfit hi
      | succ i' =>
        rw [hmod] at hi
        exact hgo i' (by omega) (.inl hi)
    · exact (mallocLoop_walk k h.freep hgo).trans ((if_neg hfit).trans (if_pos hback))

/-! ## What `malloc` asks for -/

theorem take_grown (h : Heap) (nunits prevp p : Nat) :
    (take h nunits prevp p).2.grown = h.grown := by
  unfold take
  split <;> rfl

theorem free_grown {ap : Nat} (hf : free fuel h ap = some h') : h'.grown = h.grown := by
  simp only [free, Option.map_eq_some_iff] at hf
  obtain ⟨p, -, rfl⟩ := hf
  unfold joinBelow joinAbove
  split <;> split <;> rfl

/-- Every call of `morecore` leaves its call of `sbrk` in the record. -/
theorem morecore_grown {g : Bool} {p : Nat} (hm : morecore fuel g h nunits = some (p, h')) :
    ∃ provided, h'.grown =
      h.grown ++ [⟨moreUnits nunits, sbrkArg (moreUnits nunits), provided⟩] := by
  simp only [morecore] at hm
  split at hm
  · cases hm
    exact ⟨none, rfl⟩
  · obtain ⟨h₁, hf, heq⟩ := Option.map_eq_some_iff.mp hm
    cases heq
    exact ⟨_, free_grown hf⟩

theorem mallocLoop_grown {k prevp p r : Nat}
    (hl : mallocLoop granted nunits fuel k prevp p h = some (r, h')) : h.grown ⊆ h'.grown := by
  induction fuel generalizing k prevp p h with
  | zero => cases hl
  | succ fuel ih =>
    unfold mallocLoop at hl
    split at hl
    · have htake := take_grown h nunits prevp p
      rw [Option.some.inj hl] at htake
      rw [htake]
      exact fun _ hg => hg
    · split at hl
      · split at hl
        · cases hl
        · rename_i p₁ h₁ hm
          obtain ⟨provided, hgrown⟩ := morecore_grown hm
          have hsub : h.grown ⊆ h₁.grown := by
            rw [hgrown]
            exact List.subset_append_left _ _
          split at hl
          · cases hl
            exact hsub
          · exact fun _ hg => ih hl (hsub hg)
      · exact ih hl

/-! ## A larger heap -/

theorem freeLoop_walk {bp j : Nat} (p : Nat) (hbelow : ∀ i, h.ptr^[i] p < bp)
    (hup : ∀ i < j, h.ptr^[i] p < h.ptr^[i + 1] p) (htop : h.ptr^[j + 1] p ≤ h.ptr^[j] p) :
    freeLoop h bp (fuel + 1 + j) p = some (h.ptr^[j] p) := by
  induction j generalizing p with
  | zero =>
    have hp := hbelow 0
    have hnext := hbelow 1
    have hle : h.ptr p ≤ p := htop
    simp only [Function.iterate_zero, id_eq, Function.iterate_one] at hp hnext
    have hnot : ¬ (bp > p ∧ bp < h.ptr p) := by omega
    rw [Nat.add_zero, freeLoop, if_pos hnot, if_pos ⟨hle, .inl hp⟩]
    rfl
  | succ j ih =>
    have hlt : p < h.ptr p := hup 0 j.succ_pos
    have hnext : h.ptr p < bp := hbelow 1
    have hnot : ¬ (bp > p ∧ bp < h.ptr p) := by omega
    have hnot' : ¬ (p ≥ h.ptr p ∧ (bp > p ∨ bp < h.ptr p)) := by omega
    rw [← Nat.add_assoc, freeLoop, if_pos hnot, if_neg hnot']
    exact ih (h.ptr p) (fun i => hbelow (i + 1)) (fun i hi => hup (i + 1) (by omega)) htop

/-- A circular list has a link that does not go up. -/
theorem exists_top (hcirc : ∃ n, 0 < n ∧ Function.IsPeriodicPt h.ptr n h.freep) :
    ∃ j, h.ptr^[j + 1] h.freep ≤ h.ptr^[j] h.freep := by
  by_contra hnone
  have hup : ∀ i, h.ptr^[i] h.freep < h.ptr^[i + 1] h.freep := fun i =>
    not_le.mp fun hle => hnone ⟨i, hle⟩
  obtain ⟨n, hn, hper⟩ := hcirc
  have hlt := strictMono_nat_of_lt_succ (f := fun i => h.ptr^[i] h.freep) hup hn
  simp only [Function.iterate_zero, id_eq, hper.eq] at hlt
  exact lt_irrefl _ hlt

theorem iterate_congr {f g : Nat → Nat} {x : Nat} (hfg : ∀ i, g (f^[i] x) = f (f^[i] x))
    (i : Nat) : g^[i] x = f^[i] x := by
  induction i with
  | zero => rfl
  | succ i ih => rw [Function.iterate_succ_apply', ih, hfg, Function.iterate_succ_apply']

/-- `free` of a block above the whole list links it behind the top of the list, or joins it to
the block there. -/
theorem free_above {bp : Nat} (hcirc : ∃ n, 0 < n ∧ Function.IsPeriodicPt h.ptr n h.freep)
    (hbelow : ∀ i, h.ptr^[i] h.freep < bp) : ∃ j, ∀ fuel,
    free (fuel + 1 + j) h (plus bp 1) =
      let p := h.ptr^[j] h.freep
      some { h with
        ptr := upd (upd h.ptr bp (h.ptr p)) p (if plus p (h.size p) = bp then h.ptr p else bp)
        size := if plus p (h.size p) = bp then upd h.size p ((h.size p + h.size bp) % 2 ^ 32)
          else h.size
        freep := p } := by
  have htop := exists_top hcirc
  classical
  refine ⟨Nat.find htop, fun fuel => ?_⟩
  have hup : ∀ i < Nat.find htop, h.ptr^[i] h.freep < h.ptr^[i + 1] h.freep := fun i hi =>
    not_le.mp (Nat.find_min htop hi)
  have hend := Nat.find_spec htop
  generalize Nat.find htop = j at hup hend
  have hnext := hbelow (j + 1)
  rw [Function.iterate_succ_apply'] at hnext
  have habove : plus bp (h.size bp) ≠ h.ptr (h.ptr^[j] h.freep) := by
    unfold plus
    omega
  have hbp : plus bp 1 - headerSize = bp := Nat.add_sub_cancel ..
  simp only [free, hbp, freeLoop_walk h.freep hbelow hup hend, Option.map_some, joinAbove,
    if_neg habove, joinBelow, upd_same]
  split <;> rfl

theorem Heap.Listed.below (hL : h.Listed base start) (hbase : base < start) (i : Nat) :
    h.ptr^[i] h.freep < h.brk := by
  have := hL.brk
  rcases hL.block i with ⟨hp, -⟩ | ⟨-, hp, -⟩
  · omega
  · unfold plus headerSize at hp
    omega

/-- A block that fits has room for the bytes of the request behind its header. -/
theorem take_sound {p q : Nat} (hblock : h.Block base start q) (hn : nbytes < 2 ^ 32)
    (hfit : units nbytes ≤ h.size q) : ∃ r h', take h (units nbytes) p q = (r, h') ∧
      start ≤ r ∧ r + nbytes ≤ h'.brk ∧ h'.grown = h.grown := by
  have hunits := units_eq hn
  rcases hblock with ⟨-, hzero⟩ | ⟨hstart, -, hend⟩
  · omega
  unfold take
  split
  · refine ⟨_, _, rfl, ?_⟩
    simp only [plus, headerSize, and_true] at hend ⊢
    omega
  · refine ⟨_, _, rfl, ?_⟩
    simp only [plus, headerSize, upd_same, and_true] at hend ⊢
    omega

theorem Heap.Listed.search (hL : h.Listed base start) (hn : nbytes < 2 ^ 32)
    (hfits : h.Fits (units nbytes)) (granted : Nat → Bool) : ∃ j, ∀ fuel k, ∃ r h',
    mallocLoop granted (units nbytes) (fuel + 1 + j) k h.freep (h.ptr h.freep) h = some (r, h') ∧
      start ≤ r ∧ r + nbytes ≤ h'.brk ∧ h'.grown = h.grown := by
  obtain ⟨j, ⟨hfit, hrun⟩ | ⟨hnone, -⟩⟩ := mallocLoop_search hL.circular granted (units nbytes)
  · refine ⟨j, fun fuel k => ?_⟩
    obtain ⟨r, h', htake, hsound⟩ := take_sound (hL.block (j + 1)) hn hfit
    exact ⟨r, h', by rw [hrun, htake], hsound⟩
  · exact absurd hfits hnone

theorem sbrk_moreUnits (hn : nunits < 2 ^ 27) (g : Bool) (brk : Nat) :
    sbrk g brk (sbrkArg (moreUnits nunits)) =
      if g then some (plus brk (moreUnits nunits)) else none := by
  have hpos : (headerSize : Int) * moreUnits nunits > 0 := by
    unfold headerSize moreUnits
    split <;> omega
  rw [(sbrkArg_eq_iff _).mpr (moreUnits_small hn), sbrk, if_pos hpos]
  rfl

/-- The heap after a `morecore` that got its memory, with the new block behind `p`. -/
def Heap.grow (h : Heap) (nu p : Nat) : Heap where
  ptr := upd (upd h.ptr h.brk (h.ptr p)) p
    (if plus p (h.size p) = h.brk then h.ptr p else h.brk)
  size := if plus p (h.size p) = h.brk then
      upd (upd h.size h.brk nu) p ((h.size p + nu) % 2 ^ 32)
    else upd h.size h.brk nu
  freep := p
  brk := plus h.brk nu
  grown := h.grown ++ [⟨nu, headerSize * nu, some (headerSize * nu)⟩]

theorem Heap.Listed.morecore (hL : h.Listed base start) (hbase : base < start)
    (hn : nunits < 2 ^ 27) : ∃ j, ∀ fuel,
      morecore (fuel + 1 + j) true h nunits =
        some (h.ptr^[j] h.freep, h.grow (moreUnits nunits) (h.ptr^[j] h.freep)) := by
  have harg := (sbrkArg_eq_iff _).mpr (moreUnits_small hn)
  obtain ⟨j, hfree⟩ := free_above (h := { h with
    brk := plus h.brk (moreUnits nunits)
    size := upd h.size h.brk (moreUnits nunits)
    grown := h.grown ++ [⟨moreUnits nunits, sbrkArg (moreUnits nunits),
      some (plus h.brk (moreUnits nunits) - h.brk)⟩] }) hL.circular (hL.below hbase)
  have hne : h.ptr^[j] h.freep ≠ h.brk := (hL.below hbase j).ne
  have hprov : plus h.brk (moreUnits nunits) - h.brk = headerSize * moreUnits nunits :=
    Nat.add_sub_cancel_left ..
  refine ⟨j, fun fuel => ?_⟩
  simp only [Umalloc.morecore, sbrk_moreUnits hn, if_true, hfree, Option.map_some]
  simp only [upd_same, upd_other hne, harg, hprov, Heap.grow]

/-- Nothing is lost when the new block is joined to one that was too small. -/
theorem Heap.Listed.joined (hL : h.Listed base start) (hbase : base < start)
    (hsmall : nunits < 2 ^ 27) (hnone : ¬ h.Fits nunits) {j : Nat}
    (hjoin : plus (h.ptr^[j] h.freep) (h.size (h.ptr^[j] h.freep)) = h.brk) :
    let g := h.grow (moreUnits nunits) (h.ptr^[j] h.freep)
    g.Listed base start ∧ g.Fits nunits := by
  intro g
  have hbelow := hL.below hbase
  have hstart := hL.brk
  have hptr : ∀ i, g.ptr^[i] g.freep = h.ptr^[i + j] h.freep := by
    intro i
    rw [Function.iterate_add_apply]
    refine iterate_congr (x := h.ptr^[j] h.freep) (fun i => ?_) i
    rw [← Function.iterate_add_apply]
    simp only [g, Heap.grow, if_pos hjoin]
    by_cases heq : h.ptr^[i + j] h.freep = h.ptr^[j] h.freep
    · rw [heq, upd_same]
    · rw [upd_other heq, upd_other (hbelow _).ne]
  have hsize : g.size (h.ptr^[j] h.freep) =
      h.size (h.ptr^[j] h.freep) + moreUnits nunits := by
    have hlt : h.size (h.ptr^[j] h.freep) < nunits := not_le.mp fun hfit => hnone ⟨j, hfit⟩
    have hmore := moreUnits_small hsmall
    unfold headerSize at hmore
    simp only [g, Heap.grow, if_pos hjoin, upd_same]
    omega
  have hbrk : g.brk = plus h.brk (moreUnits nunits) := rfl
  refine ⟨⟨?_, ?_, ?_⟩, ⟨0, ?_⟩⟩
  · rw [hbrk, plus]
    omega
  · obtain ⟨n, hn, hper⟩ := hL.circular
    refine ⟨n, hn, ?_⟩
    rw [Function.IsPeriodicPt, Function.IsFixedPt, hptr, Function.iterate_add_apply]
    exact hper.apply_iterate j
  · intro i
    rw [hptr, Heap.Block, hbrk]
    have hblock := hL.block (i + j)
    by_cases heq : h.ptr^[i + j] h.freep = h.ptr^[j] h.freep
    · rw [heq] at hblock ⊢
      rw [hsize]
      unfold Heap.Block at hblock
      unfold plus headerSize at hblock hjoin ⊢
      omega
    · have hsame : g.size (h.ptr^[i + j] h.freep) = h.size (h.ptr^[i + j] h.freep) := by
        simp only [g, Heap.grow, if_pos hjoin, upd_other heq, upd_other (hbelow _).ne]
      rw [hsame]
      unfold Heap.Block at hblock
      unfold plus headerSize at hblock ⊢
      omega
  · show nunits ≤ g.size (h.ptr^[j] h.freep)
    have := le_moreUnits nunits
    omega

theorem Heap.Listed.grow (hL : h.Listed base start) (hbase : base < start) (hn : nbytes < 2 ^ 32)
    (hsmall : units nbytes < 2 ^ 27) (hnone : ¬ h.Fits (units nbytes)) (j k : Nat)
    (granted : Nat → Bool) :
    let g := h.grow (moreUnits (units nbytes)) (h.ptr^[j] h.freep)
    ∃ j', ∀ fuel, ∃ r h',
      mallocLoop granted (units nbytes) (fuel + 1 + j') k g.freep (g.ptr g.freep) g =
        some (r, h') ∧ start ≤ r ∧ r + nbytes ≤ h'.brk ∧ h'.grown = g.grown := by
  intro g
  by_cases hjoin : plus (h.ptr^[j] h.freep) (h.size (h.ptr^[j] h.freep)) = h.brk
  · obtain ⟨hL', hfits⟩ := hL.joined hbase hsmall hnone hjoin
    obtain ⟨j', hrun⟩ := hL'.search hn hfits granted
    exact ⟨j', fun fuel => hrun fuel k⟩
  · refine ⟨0, fun fuel => ?_⟩
    have hptr : g.ptr g.freep = h.brk := by
      simp only [g, Heap.grow, if_neg hjoin, upd_same]
    have hsize : g.size h.brk = moreUnits (units nbytes) := by
      simp only [g, Heap.grow, if_neg hjoin, upd_same]
    have hfit : units nbytes ≤ g.size h.brk := by
      rw [hsize]
      exact le_moreUnits _
    have hblock : g.Block base start h.brk := by
      refine .inr ⟨hL.brk, Nat.add_le_add_left (Nat.mul_le_mul_left _ ?_) _, ?_⟩
      · have hunits := units_eq hn
        have := le_moreUnits (units nbytes)
        omega
      · rw [hsize]
        exact le_rfl
    obtain ⟨r, h', htake, hsound⟩ := take_sound hblock hn hfit
    exact ⟨r, h', by rw [Nat.add_zero, mallocLoop, hptr, if_pos hfit, htake], hsound⟩

/-! ## Requests -/

theorem Heap.Listed.ne_zero (hL : h.Listed base start) (hzero : 0 < base) (hbase : base < start)
    (i : Nat) : h.ptr^[i] h.freep ≠ 0 := by
  rcases hL.block i with ⟨hp, -⟩ | ⟨hp, -⟩
  · omega
  · omega

theorem Heap.Listed.request (hL : h.Listed base start) (hzero : 0 < base) (hbase : base < start)
    (hn : nbytes < 2 ^ 31 - 31) (hnone : ¬ h.Fits (units nbytes)) (granted : Nat → Bool) :
    ∃ turns, ∀ fuel ≥ turns, ∃ r h',
      mallocLoop granted (units nbytes) fuel 0 h.freep (h.ptr h.freep) h = some (r, h') ∧
        (r = 0 ∨ start ≤ r ∧ r + nbytes ≤ h'.brk) ∧
        ∃ g, g.Sound ∧ h'.grown = h.grown ++ [g] := by
  have hsmall : units nbytes < 2 ^ 27 := by
    rw [units_eq (by omega)]
    omega
  have harg := (sbrkArg_eq_iff _).mpr (moreUnits_small hsmall)
  obtain ⟨j, ⟨hfit, -⟩ | ⟨-, hrun⟩⟩ := mallocLoop_search hL.circular granted (units nbytes)
  · exact absurd ⟨j + 1, hfit⟩ hnone
  cases hg : granted 0 with
  | false =>
    refine ⟨j + 1, fun fuel hfuel => ?_⟩
    obtain ⟨d, rfl⟩ : ∃ d, fuel = d + 1 + j := ⟨fuel - (j + 1), by omega⟩
    rw [hrun, hg, Umalloc.morecore]
    simp only [sbrk_moreUnits hsmall]
    refine ⟨0, _, rfl, .inl rfl, _, ⟨harg, ?_⟩, rfl⟩
    simp
  | true =>
    obtain ⟨jm, hmore⟩ := hL.morecore hbase hsmall
    obtain ⟨j', hafter⟩ := hL.grow hbase (by omega) hsmall hnone jm 1 granted
    refine ⟨j + 1 + (jm + 1) + (j' + 1), fun fuel hfuel => ?_⟩
    obtain ⟨d, rfl⟩ : ∃ d, fuel = d + 1 + j := ⟨fuel - (j + 1), by omega⟩
    obtain ⟨e, rfl⟩ : ∃ e, d = e + 1 + jm := ⟨d - (jm + 1), by omega⟩
    obtain ⟨e', he'⟩ : ∃ e', e + 1 + jm = e' + 1 + j' := ⟨e + jm - j', by omega⟩
    obtain ⟨r, h', hres, hstart, hend, hgrown⟩ := hafter e'
    refine ⟨r, h', ?_, .inr ⟨hstart, hend⟩, _, ⟨rfl, ?_⟩, hgrown⟩
    · rw [hrun, hg, hmore]
      simp only [if_neg (hL.ne_zero hzero hbase jm)]
      rw [he']
      exact hres
    · simp

/-- Before the first call there is no list; `malloc` makes it. -/
theorem initFree_listed (hfreep : h.freep = 0) (hbrk : start ≤ h.brk) :
    (initFree base h).Listed base start := by
  have hinit : initFree base h =
      { h with ptr := upd h.ptr base base, freep := base, size := upd h.size base 0 } :=
    if_pos hfreep
  rw [hinit]
  have hfix : Function.IsFixedPt (upd h.ptr base base) base := upd_same ..
  refine ⟨hbrk, ⟨1, one_pos, hfix⟩, fun i => .inl ?_⟩
  simp only [(hfix.iterate i).eq, upd_same, and_self]

/-- `malloc` is sound, whatever `sbrk` answers, exactly if a free block has room for the
request or the request is less than 2 ^ 31 - 31 bytes. -/
theorem malloc_sound_iff (hzero : 0 < base) (hbase : base < start) (hn : nbytes < 2 ^ 32)
    (hL : (initFree base h).Listed base start) (granted : Nat → Bool) :
    MallocSound base start granted h nbytes ↔
      nbytes < 2 ^ 31 - 31 ∨ (initFree base h).Fits (units nbytes) := by
  have hL' : Heap.Listed base start { initFree base h with grown := [] } :=
    ⟨hL.brk, hL.circular, hL.block⟩
  constructor
  · rintro ⟨turns, hsound⟩
    by_contra hbad
    obtain ⟨hlarge, hnone⟩ := not_or.mp hbad
    obtain ⟨j, ⟨hfit, -⟩ | ⟨-, hrun⟩⟩ := mallocLoop_search hL'.circular granted (units nbytes)
    · exact hnone ⟨j + 1, hfit⟩
    obtain ⟨r, h', hres, -, hgrown⟩ := hsound (turns + 1 + j) (by omega)
    have hloop := (hrun turns 0).symm.trans hres
    -- the search has come to `morecore`, and its call of `sbrk` stays in the record
    split at hloop
    · cases hloop
    · rename_i p h₁ hm
      obtain ⟨provided, hcall⟩ := morecore_grown hm
      have hsub : h₁.grown ⊆ h'.grown := by
        split at hloop
        · cases hloop
          exact List.Subset.refl _
        · exact mallocLoop_grown hloop
      have hmem : ⟨moreUnits (units nbytes), sbrkArg (moreUnits (units nbytes)), provided⟩ ∈
          h₁.grown := by
        rw [hcall]
        exact List.mem_append_right _ List.mem_cons_self
      have hamount := (sbrkArg_eq_iff _).mp (hgrown _ (hsub hmem)).1
      have hmore := le_moreUnits (units nbytes)
      rw [units_eq hn] at hmore hamount
      unfold headerSize at hamount
      omega
  · intro hok
    by_cases hfits : (initFree base h).Fits (units nbytes)
    · obtain ⟨j, hrun⟩ := hL'.search hn hfits granted
      refine ⟨j + 1, fun fuel hfuel => ?_⟩
      obtain ⟨d, rfl⟩ : ∃ d, fuel = d + 1 + j := ⟨fuel - (j + 1), by omega⟩
      obtain ⟨r, h', hres, hstart, hend, hgrown⟩ := hrun d 0
      refine ⟨r, h', hres, .inr ⟨hstart, hend⟩, ?_⟩
      rw [hgrown]
      simp
    · obtain ⟨turns, hrun⟩ := hL'.request hzero hbase (hok.resolve_right hfits) hfits granted
      refine ⟨turns, fun fuel hfuel => ?_⟩
      obtain ⟨r, h', hres, hr, g, hg, hgrown⟩ := hrun fuel hfuel
      refine ⟨r, h', hres, hr, ?_⟩
      rw [hgrown]
      simpa using hg

def fresh : Heap := ⟨fun _ => 0, fun _ => 0, 0, 8192, []⟩

theorem malloc_sound_iff_fresh : MallocSound 4080 8192 (fun _ => true) fresh 100 :=
  (malloc_sound_iff (by decide) (by decide) (by decide) (initFree_listed rfl le_rfl) _).mpr
    (.inl (by decide))

/-- The largest request: `sbrk` is asked for 16 bytes and provides them, the block has 2 ^ 28 + 1
units, and `malloc` returns the end of the memory. -/
theorem malloc_all_ones :
    (∀ fuel, (malloc 4080 (fuel + 2) (fun _ => true) fresh (2 ^ 32 - 1)).map
      (fun r => (r.1, r.2.brk, r.2.grown)) =
        some (8208, 8208, [⟨2 ^ 28 + 1, 16, some 16⟩])) ∧
    ¬ MallocSound 4080 8192 (fun _ => true) fresh (2 ^ 32 - 1) := by
  have hrun : ∀ fuel, (malloc 4080 (fuel + 2) (fun _ => true) fresh (2 ^ 32 - 1)).map
      (fun r => (r.1, r.2.brk, r.2.grown)) =
        some (8208, 8208, [⟨2 ^ 28 + 1, 16, some 16⟩]) := fun _ => rfl
  refine ⟨hrun, ?_⟩
  rintro ⟨turns, hsound⟩
  obtain ⟨r, h', hres, hr, -⟩ := hsound (turns + 2) (by omega)
  have hval := hrun turns
  rw [hres] at hval
  simp only [Option.map_some, Option.some.injEq, Prod.mk.injEq] at hval
  omega

end Xv6.Umalloc
