import Xv6.Kernel.Param
import Xv6.Lib.Comp
import Xv6.Lib.Region

/-! # The page allocator

Physical memory is a byte for every address. The free pages form a list that is
linked through their first words; `kalloc` fills the page it takes off the list with
5s and `kfree` the one it puts on with 1s.
-/

namespace Xv6.Vm

open Lib

def kernBase : Nat := 0x80000000

def physTop : Nat := kernBase + 128 * 1024 * 1024

/-- The symbols of the linker script that the code refers to. -/
structure Image where
  -- `end`, the first address after the kernel.
  kend : Nat
  trampoline : Nat
  trampoline_aligned : pgSize ∣ trampoline
  trampoline_pos : kernBase ≤ trampoline
  trampoline_below : trampoline + pgSize ≤ kend
  kend_le : kend ≤ physTop

theorem kernBase_aligned : pgSize ∣ kernBase := by decide

structure Phys where
  mem : Bytes
  -- `kmem.freelist`
  freelist : Nat

/-- Code that reads and writes physical memory and may panic. -/
abbrev Code := Comp Phys String

def panic {α : Type} (msg : String) : Code α := Comp.stop msg

def load (a : Nat) : Code Nat := do
  return getLE (← Comp.get).mem a 8

def store (a v : Nat) : Code Unit :=
  Comp.assign fun s => { s with mem := putLE s.mem a 8 v }

def memset (dst : Nat) (c : UInt8) (n : Nat) : Code Unit :=
  Comp.assign fun s => { s with mem := splice s.mem dst n fun _ => c }

def pgRoundUp (sz : Nat) : Nat := (sz + pgSize - 1) % 2 ^ 64 / pgSize * pgSize

def pgRoundDown (a : Nat) : Nat := a / pgSize * pgSize

def kalloc : Code Nat := do
  let r := (← Comp.get).freelist
  if r ≠ 0 then
    let next ← load r
    Comp.assign fun s => { s with freelist := next }
    memset r 5 pgSize
  return r

variable (K : Image)

def kfree (pa : Nat) : Code Unit := do
  if pa % pgSize ≠ 0 ∨ pa < K.kend ∨ pa ≥ physTop then
    panic "kfree"
  memset pa 1 pgSize
  store pa (← Comp.get).freelist
  Comp.assign fun s => { s with freelist := pa }

def freerange (paStart paEnd : Nat) : Code Unit :=
  let p := pgRoundUp paStart
  Comp.loop (fun i => kfree K (p + i * pgSize)) 0 ((paEnd - p) / pgSize)

def kinit : Code Unit := freerange K K.kend physTop

/-! ## The free list -/

/-- A page that `kfree` takes. -/
structure IsPage (pa : Nat) : Prop where
  aligned : pgSize ∣ pa
  low : K.kend ≤ pa
  high : pa < physTop

/-- The list that is linked from `head`. -/
def Chain (m : Bytes) : Nat → List Nat → Prop
  | head, [] => head = 0
  | head, p :: ps => head = p ∧ Chain m (getLE m p 8) ps

structure FreeList (s : Phys) (L : List Nat) : Prop where
  chain : Chain s.mem s.freelist L
  pages : ∀ p ∈ L, IsPage K p
  nodup : L.Nodup

variable {K} {s t : Phys} {L : List Nat} {p : Nat}

theorem IsPage.pos (h : IsPage K p) : 0 < p := by
  have := K.trampoline_pos
  have := K.trampoline_below
  have := h.low
  have : 0 < kernBase := by decide
  omega

theorem Chain.congr {m m' : Bytes} {head : Nat} (h : Chain m head L)
    (heq : ∀ p ∈ L, getLE m' p 8 = getLE m p 8) : Chain m' head L := by
  induction L generalizing head with
  | nil => exact h
  | cons p ps ih =>
    obtain ⟨hp, hps⟩ := h
    refine ⟨hp, ?_⟩
    rw [heq p List.mem_cons_self]
    exact ih hps fun q hq => heq q (List.mem_cons_of_mem _ hq)

theorem AgreeOff.word {F : Multiset Nat} {m m' : Bytes} (h : AgreeOff pgSize F m m')
    (hF : ∀ q ∈ F, pgSize ∣ q) (hp : pgSize ∣ p) (hpF : p ∉ F) : getLE m' p 8 = getLE m p 8 :=
  h.getLE hF hp hpF (Nat.le_refl p) (by unfold pgSize; omega)

theorem FreeList.congr (h : FreeList K s L) (hlist : t.freelist = s.freelist) {F : Multiset Nat}
    (hm : AgreeOff pgSize F s.mem t.mem) (hF : ∀ q ∈ F, pgSize ∣ q) (hL : ∀ p ∈ L, p ∉ F) :
    FreeList K t L where
  chain := by
    rw [hlist]
    exact h.chain.congr fun p hp => AgreeOff.word hm hF (h.pages p hp).aligned (hL p hp)
  pages := h.pages
  nodup := h.nodup

theorem FreeList.of_nil (h : FreeList K s []) : s.freelist = 0 := h.chain

theorem FreeList.of_cons (h : FreeList K s (p :: L)) :
    s.freelist = p ∧ Chain s.mem (getLE s.mem p 8) L := h.chain

theorem FreeList.head_lt (h : FreeList K s L) : s.freelist < 256 ^ 8 := by
  cases L with
  | nil =>
    rw [h.of_nil]
    decide
  | cons p L =>
    rw [h.of_cons.1]
    have := (h.pages p List.mem_cons_self).high
    have : physTop < 256 ^ 8 := by decide
    omega

/-! ## What the functions do -/

@[simp] theorem does_load {a : Nat} {Q : Nat → Phys → Prop} :
    Does (load a) Q s ↔ Q (getLE s.mem a 8) s := by
  simp [load]

@[simp] theorem does_store {a v : Nat} {Q : Unit → Phys → Prop} :
    Does (store a v) Q s ↔ Q () { s with mem := putLE s.mem a 8 v } := by
  simp [store]

@[simp] theorem does_memset {dst n : Nat} {c : UInt8} {Q : Unit → Phys → Prop} :
    Does (memset dst c n) Q s ↔ Q () { s with mem := splice s.mem dst n fun _ => c } := by
  simp [memset]

/-- What is left after `kalloc` has returned `p`. -/
structure Took (K : Image) (p : Nat) (L : List Nat) (s t : Phys) : Prop where
  page : IsPage K p
  free : FreeList K t L
  fresh : p ∉ L
  agree : AgreeOff pgSize {p} s.mem t.mem

theorem kalloc_spec (h : FreeList K s L) :
    Does kalloc (fun r t => L = [] ∧ r = 0 ∧ t = s ∨
      ∃ L', L = r :: L' ∧ Took K r L' s t) s := by
  unfold kalloc
  cases L with
  | nil => simp [h.of_nil]
  | cons p L =>
    obtain ⟨hp, hc⟩ := h.of_cons
    have hpage := h.pages p List.mem_cons_self
    have hnd := List.nodup_cons.mp h.nodup
    have hpos := hpage.pos
    have hagree : AgreeOff pgSize {p} s.mem (splice s.mem p pgSize fun _ => 5) :=
      AgreeOff.splice (Multiset.mem_singleton_self p) (Nat.le_refl p) (Nat.le_refl _)
    simp only [hp, ne_eq, Nat.pos_iff_ne_zero.mp hpos, not_false_eq_true, if_true, Does.bind,
      Does.get, does_load, Does.assign, does_memset, Does.pure]
    right
    refine ⟨L, rfl, hpage, ⟨hc.congr fun q hq => ?_, fun q hq => h.pages q (.tail p hq),
      hnd.2⟩, hnd.1,
      hagree⟩
    apply AgreeOff.word hagree
    · simpa using hpage.aligned
    · exact (h.pages q (.tail p hq)).aligned
    · intro hqp
      exact hnd.1 (Multiset.mem_singleton.mp hqp ▸ hq)

theorem kfree_spec (h : FreeList K s L) (hp : IsPage K p) (hn : p ∉ L) :
    Does (kfree K p) (fun _ t => FreeList K t (p :: L) ∧ AgreeOff pgSize {p} s.mem t.mem) s := by
  have hok : ¬ (p % pgSize ≠ 0 ∨ p < K.kend ∨ p ≥ physTop) := by
    have := Nat.mod_eq_zero_of_dvd hp.aligned
    have := hp.low
    have := hp.high
    omega
  have hself : p ∈ ({p} : Multiset Nat) := Multiset.mem_singleton_self p
  have hfill : AgreeOff pgSize {p} s.mem (splice s.mem p pgSize fun _ => 1) :=
    AgreeOff.splice hself (Nat.le_refl p) (Nat.le_refl _)
  have hagree := hfill.trans (AgreeOff.putLE (v := s.freelist) (k := 8) hself (Nat.le_refl p)
    (by unfold pgSize; omega))
  have hother : ∀ q ∈ L, q ∉ ({p} : Multiset Nat) := by
    intro q hq hqp
    exact hn (Multiset.mem_singleton.mp hqp ▸ hq)
  simp only [kfree, hok, if_false, Does.bind, does_memset, Does.get, does_store, Does.assign]
  refine ⟨⟨⟨rfl, ?_⟩, ?_, List.nodup_cons.mpr ⟨hn, h.nodup⟩⟩, hagree⟩
  · rw [getLE_putLE_of_lt h.head_lt]
    apply h.chain.congr
    intro q hq
    exact AgreeOff.word hagree (by simpa using hp.aligned) (h.pages q hq).aligned (hother q hq)
  · intro q hq
    rcases List.mem_cons.mp hq with rfl | hq
    · exact hp
    · exact h.pages q hq

/-! ## All pages -/

def firstPage (K : Image) : Nat := pgRoundUp K.kend

def nPages (K : Image) : Nat := (physTop - firstPage K) / pgSize

/-- The pages that `kinit` frees. -/
def allPages (K : Image) : List Nat :=
  (List.range (nPages K)).map fun i => firstPage K + i * pgSize

theorem firstPage_eq (K : Image) : firstPage K = (K.kend + pgSize - 1) / pgSize * pgSize := by
  have := K.kend_le
  have : physTop + pgSize < 2 ^ 64 := by decide
  rw [firstPage, pgRoundUp, Nat.mod_eq_of_lt (by omega)]

theorem firstPage_dvd (K : Image) : pgSize ∣ firstPage K := by
  rw [firstPage_eq]
  exact Dvd.intro_left _ rfl

theorem mem_allPages : p ∈ allPages K ↔ IsPage K p := by
  have hfirst := firstPage_eq K
  have hdvd := firstPage_dvd K
  have htop : physTop = 2281701376 := by decide
  simp only [allPages, List.mem_map, List.mem_range, nPages]
  constructor
  · rintro ⟨i, hi, rfl⟩
    refine ⟨Nat.dvd_add hdvd (Dvd.intro_left i rfl), ?_, ?_⟩ <;>
      (simp only [pgSize] at *; omega)
  · intro h
    obtain ⟨i, rfl⟩ := h.aligned
    have := h.low
    have := h.high
    refine ⟨i - firstPage K / pgSize, ?_, ?_⟩ <;> (simp only [pgSize] at *; omega)

theorem allPages_nodup (K : Image) : (allPages K).Nodup := by
  apply List.Nodup.map _ List.nodup_range
  intro i j hij
  simp only [pgSize] at hij
  omega

theorem FreeList.length_le (h : FreeList K s L) : L.length ≤ nPages K := by
  have hsub : L ⊆ allPages K := fun p hp => mem_allPages.mpr (h.pages p hp)
  simpa [allPages] using (h.nodup.subperm hsub).length_le

theorem nPages_lt (K : Image) : pgSize * nPages K < 2 ^ 31 := by
  have hfirst := firstPage_eq K
  have htop : physTop = 2281701376 := by decide
  have := K.trampoline_pos
  have := K.trampoline_below
  simp only [nPages, kernBase, pgSize] at *
  omega

/-- After `kinit` all pages are free. -/
theorem kinit_spec (h : s.freelist = 0) :
    Does (kinit K) (fun _ t => FreeList K t (allPages K).reverse) s := by
  have hpages : ∀ k ≤ nPages K, ∀ p ∈ (List.range k).map fun i => firstPage K + i * pgSize,
      IsPage K p := by
    intro k hk p hp
    rw [List.mem_map] at hp
    obtain ⟨i, hi, rfl⟩ := hp
    rw [← mem_allPages]
    exact List.mem_map.mpr ⟨i, List.mem_range.mpr (by rw [List.mem_range] at hi; omega), rfl⟩
  -- the pages done so far are on the list
  have hloop : Does (kinit K) _ s := Does.loop
    (fun k t => FreeList K t ((List.range k).map fun i => firstPage K + i * pgSize).reverse)
    (fun j _ hj t hJ => ?_) ⟨h, by simp, by simp⟩
  · rw [Nat.zero_add] at hloop
    exact hloop
  · have hnew := hpages (j + 1) (by rw [Nat.zero_add] at hj; exact hj)
      (firstPage K + j * pgSize) (List.mem_map.mpr ⟨j, by simp, rfl⟩)
    refine (kfree_spec hJ hnew ?_).mono ?_
    · simp only [List.mem_reverse, List.mem_map, List.mem_range, not_exists, not_and]
      intro i hi heq
      simp only [pgSize] at heq
      omega
    · intro _ u hu
      simpa [List.range_succ] using hu.1

end Xv6.Vm
