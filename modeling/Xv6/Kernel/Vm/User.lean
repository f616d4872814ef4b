import Xv6.Kernel.Vm.Process

/-! # Access to user memory

`walkaddr` finds the page of a user address; `copyout` writes to user pages only, and
`uvmclear` changes the flags of one.
-/

namespace Xv6.Vm

open Lib Radix

variable {K : Image} {s t : Phys} {L : List Nat} {pt va v : Nat} {us : List UserPage}
  {g : Nat → Nat} {Q : Multiset Nat}

/-- The address space of a process: user memory of `sz` bytes and the trapframe at `tf`. -/
structure AddrSpace (K : Image) (s : Phys) (L : List Nat) (pt sz tf : Nat) (us : List UserPage)
    (Q : Multiset Nat) : Prop where
  space : Space K s L pt us (upper K tf) Q
  size : us.length = npages sz
  frame : IsPage K tf
  apart : tf ∉ ↑L + Q + pagesOf us

def Kernel (g : Nat → Nat) : Prop := ∀ v, g v &&& pteU = 0

theorem upper_kernel (K : Image) (tf : Nat) : Kernel (upper K tf) := by
  have hflags : ∀ pa perm, perm ||| pteV < 2 ^ 10 → (perm ||| pteV) &&& pteU = 0 →
      (pa2pte pa ||| perm ||| pteV) &&& pteU = 0 := by
    intro pa perm hlt hU
    rw [and_flags (by decide), Nat.or_assoc, pteFlags_or hlt]
    exact hU
  intro v
  unfold upper
  by_cases hv : v = nUser
  · rw [hv, upd_same]
    exact hflags tf _ (by decide) (by decide)
  · rw [upd_other hv]
    by_cases hv' : v = nUser + 1
    · rw [hv', upd_same]
      exact hflags K.trampoline _ (by decide) (by decide)
    · rw [upd_other hv']
      rfl

theorem lt_maxVa (hv : va / pgSize < nUser) : va < maxVa := by
  simp only [nUser, trapframeVa, trampolineVa, maxVa, pgSize] at *
  omega

/-- `walkaddr` returns the page of a user address that the user may access, and 0 else. -/
theorem Space.walkaddr (h : Space K s L pt us g Q) (hg : Kernel g) :
    Does (walkaddr pt va) (fun r t => t = s ∧
      (r = 0 ∧ (∀ u, us[va / pgSize]? = some u → u.flags &&& pteU = 0) ∨
        ∃ u, us[va / pgSize]? = some u ∧ u.flags &&& pteU ≠ 0 ∧ r = u.pa)) s := by
  refine (walkaddr_spec h.owns.table).mono fun r t hr => ?_
  obtain ⟨rfl, rfl⟩ := hr
  refine ⟨rfl, ?_⟩
  by_cases hv : va / pgSize < us.length
  · have hu := h.users _ (List.getElem_mem hv)
    have hva : va < maxVa := lt_maxVa (hv.trans h.length_lt)
    have hU : us[va / pgSize].pte &&& pteU = us[va / pgSize].flags &&& pteU := by
      rw [and_flags (by decide), hu.pteFlags]
    rw [withUser_of_lt hv, List.getElem?_eq_getElem hv, hU, hu.pte2pa]
    by_cases hf : us[va / pgSize].flags &&& pteU = 0
    · left
      simp [hf]
    · right
      exact ⟨_, rfl, hf, if_pos ⟨hva, hu.isLeaf.valid, hf⟩⟩
  · left
    rw [withUser_of_ge (by omega), if_neg (fun hc => hc.2.2 (hg _))]
    refine ⟨rfl, fun u hu => ?_⟩
    rw [List.getElem?_eq_none (by omega)] at hu
    cases hu

/-- A change of memory and of the free list that leaves the table alone. -/
theorem Space.relist {L' : List Nat} {F : Multiset Nat} (h : Space K s L pt us g Q)
    (hfree : FreeList K t L') (hm : AgreeOff pgSize F s.mem t.mem) (hF : ∀ p ∈ F, pgSize ∣ p)
    (hQ : Disjoint Q F) (hnd : (↑L' + Q + pagesOf us).Nodup) : Space K t L' pt us g Q where
  owns := ⟨hfree, h.owns.table.frame hm hF fun _ hp => Multiset.disjoint_left.mp hQ hp,
    (Multiset.nodup_add.mp hnd).1⟩
  users := h.users
  above := h.above
  nodup := hnd

theorem Space.frame {F : Multiset Nat} (h : Space K s L pt us g Q)
    (hlist : t.freelist = s.freelist) (hm : AgreeOff pgSize F s.mem t.mem)
    (hF : ∀ p ∈ F, pgSize ∣ p) (hdis : Disjoint (↑L + Q) F) : Space K t L pt us g Q := by
  rw [Multiset.disjoint_add_left] at hdis
  apply h.relist _ hm hF hdis.2 h.nodup
  exact h.owns.free.congr hlist hm hF fun p hp => Multiset.disjoint_left.mp hdis.1 hp

theorem Space.aligned (h : Space K s L pt us g Q) {p : Nat} (hp : p ∈ ↑L + Q + pagesOf us) :
    pgSize ∣ p := (h.isPage hp).aligned

theorem Space.write (h : Space K s L pt us g Q) (hlist : t.freelist = s.freelist)
    (hm : AgreeOff pgSize (pagesOf us) s.mem t.mem) : Space K t L pt us g Q := by
  apply h.frame hlist hm
  · exact fun p hp => h.aligned (Multiset.mem_add.mpr (.inr hp))
  · exact (Multiset.nodup_add.mp h.nodup).2.2

/-! ## `copyout` -/

/-- A copy of `len` bytes to `va` has a byte in page `v`. -/
def Touches (va len v : Nat) : Prop := 0 < len ∧ va / pgSize ≤ v ∧ v * pgSize < va + len

/-- Page `v` is mapped with `PTE_V` and `PTE_U`. -/
def UserOpen (us : List UserPage) (v : Nat) : Prop := ∃ u, us[v]? = some u ∧ u.flags &&& pteU ≠ 0

/-- The copy gets as far as page `v`. -/
def Reaches (us : List UserPage) (va len v : Nat) : Prop :=
  Touches va len v ∧ ∀ w, va / pgSize ≤ w → w ≤ v → UserOpen us w

def firstByte (va v : Nat) : Nat := if v = va / pgSize then va % pgSize else 0

section

variable {len : Nat} {src : Bytes} {u : UserPage}

/-- The bytes of a copy of `len` bytes to `va` that are in its first page. -/
def inFirst (va len : Nat) : Nat := min (pgSize - (va - pgRoundDown va)) len

theorem touches_iff (hlen : 0 < len) :
    Touches va len v ↔
      v = va / pgSize ∨ Touches (pgRoundDown va + pgSize) (len - inFirst va len) v := by
  simp only [Touches, inFirst, pgRoundDown, pgSize]
  omega

theorem reaches_iff (hlen : 0 < len) (hopen : UserOpen us (va / pgSize)) :
    Reaches us va len v ↔
      v = va / pgSize ∨ Reaches us (pgRoundDown va + pgSize) (len - inFirst va len) v := by
  have hnext : (pgRoundDown va + pgSize) / pgSize = va / pgSize + 1 := by
    simp only [pgRoundDown, pgSize]
    omega
  constructor
  · rintro ⟨htouch, hall⟩
    rcases (touches_iff hlen).mp htouch with heq | hrest
    · exact .inl heq
    · refine .inr ⟨hrest, fun w hw => hall w ?_⟩
      omega
  · intro hcase
    rcases hcase with rfl | ⟨hrest, hall⟩
    · refine ⟨(touches_iff hlen).mpr (.inl rfl), fun w hle hge => ?_⟩
      rwa [show w = va / pgSize by omega]
    · refine ⟨(touches_iff hlen).mpr (.inr hrest), fun w hle hge => ?_⟩
      by_cases hw : w = va / pgSize
      · rwa [hw]
      · exact hall w (by omega) hge

/-- What a copy of `len` bytes of `src` to `va` does to memory, and what it returns. -/
structure Copied (us : List UserPage) (va len : Nat) (src : Bytes) (s : Phys) (r : Int)
    (t : Phys) : Prop where
  code : r = 0 ∨ r = -1
  fault : r = -1 ↔ ∃ v, Touches va len v ∧ ¬ UserOpen us v
  kept : ∀ u ∈ us, (∀ v, Reaches us va len v → us[v]? ≠ some u) →
    ∀ a, InBlock pgSize u.pa a → t.mem a = s.mem a
  constant : ∀ c, (∀ j, src j = c) → ∀ a, s.mem a = c → t.mem a = c
  wrote : ∀ c, (∀ j, src j = c) → ∀ v u, Reaches us va len v → us[v]? = some u →
    t.mem (u.pa + firstByte va v) = c

theorem Copied.nothing : Copied us va 0 src s 0 s where
  code := .inl rfl
  fault := by simp [Touches]
  kept := fun _ _ _ _ _ => rfl
  constant := fun _ _ _ ha => ha
  wrote := fun _ _ _ _ hr => absurd hr.1.1 (Nat.lt_irrefl 0)

theorem Copied.refused (hlen : 0 < len) (hclosed : ¬ UserOpen us (va / pgSize)) :
    Copied us va len src s (-1) s where
  code := .inr rfl
  fault := by
    refine iff_of_true rfl ⟨va / pgSize, ?_, hclosed⟩
    exact (touches_iff hlen).mpr (.inl rfl)
  kept := fun _ _ _ _ _ => rfl
  constant := fun _ _ _ ha => ha
  wrote := fun _ _ v _ hr => absurd (hr.2 (va / pgSize) (Nat.le_refl _) hr.1.2.1) hclosed

theorem Copied.page {r : Int} {t' : Phys} (hlen : 0 < len) (hu : us[va / pgSize]? = some u)
    (hU : u.flags &&& pteU ≠ 0) (hinj : ∀ x ∈ us, x ≠ u → ∀ a, InBlock pgSize x.pa a →
      ¬ InBlock pgSize u.pa a)
    (ht : t.mem = splice s.mem (u.pa + (va - pgRoundDown va)) (inFirst va len) src)
    (h : Copied us (pgRoundDown va + pgSize) (len - inFirst va len)
      (fun j => src (inFirst va len + j)) t r t') : Copied us va len src s r t' := by
  have hopen : UserOpen us (va / pgSize) := ⟨u, hu, hU⟩
  have hnext : (pgRoundDown va + pgSize) / pgSize = va / pgSize + 1 ∧
      (pgRoundDown va + pgSize) % pgSize = 0 ∧ va - pgRoundDown va = va % pgSize ∧
      va % pgSize < pgSize := by
    simp only [pgRoundDown, pgSize]
    omega
  have hbound : 0 < inFirst va len ∧ va - pgRoundDown va + inFirst va len ≤ pgSize := by
    simp only [inFirst, pgRoundDown, pgSize]
    omega
  refine ⟨h.code, ?_, ?_, ?_, ?_⟩
  · rw [h.fault]
    constructor
    · rintro ⟨v, hv, hclosed⟩
      exact ⟨v, (touches_iff hlen).mpr (.inr hv), hclosed⟩
    · rintro ⟨v, hv, hclosed⟩
      rcases (touches_iff hlen).mp hv with rfl | hv
      · exact absurd hopen hclosed
      · exact ⟨v, hv, hclosed⟩
  · intro x hx hnot a ha
    have hne : x ≠ u := fun heq => hnot _ ((reaches_iff hlen hopen).mpr (.inl rfl)) (heq ▸ hu)
    rw [h.kept x hx (fun v hv => hnot v ((reaches_iff hlen hopen).mpr (.inr hv))) a ha, ht]
    apply splice_outside
    have hout : ¬ (u.pa ≤ a ∧ a < u.pa + pgSize) := hinj x hx hne a ha
    omega
  · intro c hc a ha
    refine h.constant c (fun j => hc _) a ?_
    rw [ht, splice]
    split
    · exact hc _
    · exact ha
  · intro c hc v x hv hx
    rcases (reaches_iff hlen hopen).mp hv with rfl | hv
    · rw [hu, Option.some.injEq] at hx
      subst hx
      refine h.constant c (fun j => hc _) _ ?_
      rw [ht, splice_inside]
      · exact hc _
      · rw [firstByte, if_pos rfl]
        omega
      · rw [firstByte, if_pos rfl]
        omega
    · have hle := hv.1.2.1
      have hw := h.wrote c (fun j => hc _) v x hv hx
      have hsame : firstByte (pgRoundDown va + pgSize) v = firstByte va v := by
        unfold firstByte
        rw [if_neg (show v ≠ va / pgSize by omega), hnext.2.1, ite_self]
      rwa [hsame] at hw

theorem user_pages_apart (h : Space K s L pt us g Q) {x : UserPage} (hx : x ∈ us) (hu : u ∈ us)
    (hne : x ≠ u) {a : Nat} (ha : InBlock pgSize x.pa a) : ¬ InBlock pgSize u.pa a := by
  intro ha'
  have hpa := ha.unique (h.users x hx).page.aligned (h.users u hu).page.aligned ha'
  have hnd : (us.map UserPage.pa).Nodup :=
    Multiset.coe_nodup.mp (Multiset.nodup_add.mp h.nodup).2.1
  exact hne (List.inj_on_of_nodup_map hnd hx hu hpa)

theorem copyoutFrom_copied {fuel : Nat} (h : Space K s L pt us g Q) (hg : Kernel g)
    (hfuel : len ≤ fuel) :
    Does (copyoutFrom pt fuel va src len)
      (fun r t => Space K t L pt us g Q ∧ AgreeOff pgSize (pagesOf us) s.mem t.mem ∧
        Copied us va len src s r t) s := by
  induction fuel generalizing s va src len with
  | zero =>
    rw [copyoutFrom, Does.pure, Nat.le_zero.mp hfuel]
    exact ⟨h, AgreeOff.refl _, Copied.nothing⟩
  | succ fuel ih =>
    rw [copyoutFrom]
    refine Does.ite (fun hlen => ?_) fun hlen => ?_
    · rw [Does.bind]
      have hdown : pgRoundDown va / pgSize = va / pgSize := by
        simp only [pgRoundDown, pgSize]
        omega
      refine (h.walkaddr hg).mono fun pa t hpa => ?_
      rw [hdown] at hpa
      obtain ⟨rfl, ⟨rfl, hnone⟩ | ⟨u, hu, hU, rfl⟩⟩ := hpa
      · rw [if_pos rfl, Does.pure]
        refine ⟨h, AgreeOff.refl _, Copied.refused hlen ?_⟩
        rintro ⟨u, hu, hU⟩
        exact hU (hnone u hu)
      · have hmem := List.mem_of_getElem? hu
        have hpos := (h.users u hmem).page.pos
        rw [if_neg (by omega), Does.bind, Does.assign]
        have hoff : va - pgRoundDown va < pgSize := by
          simp only [pgRoundDown, pgSize]
          omega
        have hagree : AgreeOff pgSize (pagesOf us) t.mem
            (splice t.mem (u.pa + (va - pgRoundDown va)) (inFirst va len) src) :=
          AgreeOff.splice (mem_pagesOf.mpr ⟨u, hmem, rfl⟩) (Nat.le_add_right _ _)
            (by unfold inFirst; omega)
        have hlow : va / pgSize < nUser :=
          (List.getElem?_eq_some_iff.mp hu).1.trans h.length_lt
        have hwrap : (pgRoundDown va + pgSize) % 2 ^ 64 = pgRoundDown va + pgSize := by
          have := lt_maxVa hlow
          apply Nat.mod_eq_of_lt
          simp only [pgRoundDown, pgSize, maxVa] at *
          omega
        have hfirst : 0 < inFirst va len := by
          unfold inFirst
          omega
        have hspace : Space K { t with
            mem := splice t.mem (u.pa + (va - pgRoundDown va)) (inFirst va len) src }
            L pt us g Q := h.write rfl hagree
        rw [hwrap]
        refine (ih hspace (show len - inFirst va len ≤ fuel by omega)).mono
          fun r w hr => ⟨hr.1, hagree.trans hr.2.1, ?_⟩
        exact hr.2.2.page hlen hu hU (fun x hx hne a => user_pages_apart h hx hmem hne) rfl
    · rw [Does.pure, show len = 0 by omega]
      exact ⟨h, AgreeOff.refl _, Copied.nothing⟩

theorem copyout_spec (h : Space K s L pt us g Q) (hg : Kernel g) :
    Does (copyout pt va src len) (fun r t => (r = 0 ∨ r = -1) ∧
      Space K t L pt us g Q ∧ AgreeOff pgSize (pagesOf us) s.mem t.mem) s :=
  (copyoutFrom_copied h hg (Nat.le_refl _)).mono fun _ _ hr => ⟨hr.2.2.code, hr.1, hr.2.1⟩

end

/-! ## `uvmclear` -/

/-- The flags without `PTE_U`. -/
def noUser (flags : Nat) : Nat := flags &&& (2 ^ 64 - 1 - pteU)

theorem mask_testBit : ∀ i < 64, Nat.testBit (2 ^ 64 - 1 - pteU) i = decide (i ≠ 4) := by decide

theorem noUser_testBit {x : Nat} (hx : x < 2 ^ 64) (i : Nat) :
    (noUser x).testBit i = (x.testBit i && decide (i ≠ 4)) := by
  rw [noUser, Nat.testBit_and]
  by_cases hi : i < 64
  · rw [mask_testBit i hi]
  · rw [Nat.testBit_lt_two_pow (Nat.lt_of_lt_of_le hx
      (Nat.pow_le_pow_right (by decide) (by omega)))]
    rfl

/-- Bits below the address bits, and the address bits, of an entry are cleared apart. -/
theorem noUser_pte {pa flags : Nat} (hpa : pa2pte pa < 2 ^ 64) :
    (pa2pte pa ||| flags) &&& (2 ^ 64 - 1 - pteU) = pa2pte pa ||| noUser flags := by
  rw [Nat.and_or_distrib_right]
  congr 1
  apply Nat.eq_of_testBit_eq
  intro i
  rw [← noUser, noUser_testBit hpa]
  by_cases hi : i = 4
  · subst hi
    have : (pa2pte pa).testBit 4 = false := by
      rw [Nat.testBit_eq_decide_div_mod_eq, pa2pte, decide_eq_false_iff_not]
      omega
    rw [this]
    rfl
  · simp [hi]

/-- The page with the user's access taken away. -/
def UserPage.guard (u : UserPage) : UserPage := { u with flags := noUser u.flags }

variable {u : UserPage}

theorem UserPage.Ok.guard (h : u.Ok K) : u.guard.Ok K where
  page := h.page
  flags_lt := Nat.lt_of_le_of_lt Nat.and_le_left h.flags_lt
  valid := by
    have : noUser u.flags &&& pteV = u.flags &&& pteV := Nat.and_assoc _ _ _
    exact this ▸ h.valid
  readable := by
    have : noUser u.flags &&& pteR = u.flags &&& pteR := Nat.and_assoc _ _ _
    exact this ▸ h.readable

theorem withUser_set {x : UserPage} (hv : v < us.length) :
    withUser (us.set v x) g = upd (withUser us g) v x.pte := by
  funext w
  by_cases hw : w = v
  · subst hw
    simp [withUser, hv]
  · rw [upd_other hw]
    unfold withUser
    rw [List.getElem?_set_ne (Ne.symm hw)]

theorem pagesOf_set_guard (hu : us[v]? = some u) : pagesOf (us.set v u.guard) = pagesOf us := by
  obtain ⟨hv, rfl⟩ := List.getElem?_eq_some_iff.mp hu
  have hpa : (us.map UserPage.pa).set v us[v].pa = us.map UserPage.pa := by
    rw [← List.map_set, List.set_getElem_self]
  rw [pagesOf, List.map_set, show us[v].guard.pa = us[v].pa from rfl, hpa]
  rfl

theorem uvmclear_spec (h : Space K s L pt us g Q) (hu : us[va / pgSize]? = some u) :
    Does (uvmclear pt va) (fun _ t => Space K t L pt (us.set (va / pgSize) u.guard) g Q ∧
      AgreeOff pgSize Q s.mem t.mem) s := by
  obtain ⟨hv, hu'⟩ := List.getElem?_eq_some_iff.mp hu
  have hva : va < maxVa := lt_maxVa (hv.trans h.length_lt)
  have hok := h.users u (List.mem_of_getElem? hu)
  have hf : withUser us g (va / pgSize) = u.pte := by rw [withUser_of_lt hv, hu']
  rw [uvmclear, Does.bind]
  refine (walk_lookup h.owns.table hva).mono fun r t hr => ?_
  obtain ⟨rfl, ⟨rfl, hzero⟩ | he⟩ := hr
  · exact absurd (by rw [← hf, hzero]; rfl) hok.isLeaf.valid
  · have hpte : u.pte &&& (2 ^ 64 - 1 - pteU) = u.guard.pte :=
      noUser_pte (Nat.lt_of_le_of_lt Nat.left_le_or hok.pte_lt)
    rw [if_neg he.pos, Does.bind, does_load, he.load (vpn_lt hva), hf, hpte, does_store]
    have hst := he.store (vpn_lt hva) hok.guard.pte_lt
    rw [← withUser_set hv] at hst
    refine ⟨⟨h.owns.entries rfl hst.table he.agree, ?_, h.above, ?_⟩, he.agree⟩
    · intro x hx
      rcases List.mem_or_eq_of_mem_set hx with hx | rfl
      · exact h.users x hx
      · exact hok.guard
    · rw [pagesOf_set_guard hu]
      exact h.nodup

/-! ## Two address spaces -/

theorem AddrSpace.beside {L' : List Nat} {sz tf : Nat} {us' : List UserPage}
    {Q' : Multiset Nat} {g : Nat → Nat} {pt' : Nat}
    (h : AddrSpace K s L pt sz tf us Q) (h' : Space K t L' pt' us' g Q')
    (htotal : (L : Multiset Nat) = ↑L' + Q' + pagesOf us')
    (hagree : AgreeOff pgSize ↑L s.mem t.mem) : Space K t L' pt us (upper K tf) Q := by
  have hle : (L' : Multiset Nat) ≤ ↑L := by
    rw [htotal, add_assoc]
    exact Multiset.le_add_right _ _
  have hnd := h.space.nodup
  apply h.space.relist h'.owns.free hagree
  · exact fun p hp => h.space.aligned (by simp [Multiset.mem_coe.mp hp])
  · exact ((Multiset.nodup_add.mp (Multiset.nodup_add.mp hnd).1).2.2).symm
  · exact Multiset.nodup_of_le (add_le_add_left (add_le_add_left hle _) _) hnd

/-- The trapframe is written, and the old address space is freed. -/
theorem AddrSpace.swap {L' : List Nat} {x : Phys} {sz tf pt' sz' : Nat} {us' : List UserPage}
    {Q' : Multiset Nat} (h : AddrSpace K s L pt sz tf us Q)
    (h' : Space K t L' pt' us' (upper K tf) Q') (hsize : us'.length = npages sz')
    (htotal : (L : Multiset Nat) = ↑L' + Q' + pagesOf us')
    (hagree : AgreeOff pgSize ↑L s.mem t.mem) (hlist : x.freelist = t.freelist)
    (hframe : AgreeOff pgSize {tf} t.mem x.mem) :
    Does (procFreepagetable K pt sz) (fun _ y => ∃ L'', AddrSpace K y L'' pt' sz' tf us' Q' ∧
      ↑L + Q + pagesOf us = ↑L'' + Q' + pagesOf us' ∧
      AgreeOff pgSize (tf ::ₘ (↑L + Q + pagesOf us)) s.mem y.mem ∧
      AgreeOff pgSize (Q + pagesOf us) x.mem y.mem) x := by
  have hapart := h.apart
  have htf : ∀ p ∈ ({tf} : Multiset Nat), pgSize ∣ p := by simpa using h.frame.aligned
  have hdis : ∀ {P : Multiset Nat}, P ≤ ↑L + Q + pagesOf us → Disjoint P {tf} := by
    intro P hP
    rw [Multiset.disjoint_left]
    intro p hp hpt
    exact hapart (Multiset.mem_of_le hP (Multiset.mem_singleton.mp hpt ▸ hp))
  have hnd := h.space.nodup
  have hall : ↑L + Q + pagesOf us = ↑L' + (Q + pagesOf us) + Q' + pagesOf us' := by
    rw [htotal]
    abel
  have hold : Space K x L' pt us (upper K tf) Q := by
    apply (h.beside h' htotal hagree).frame hlist hframe htf (hdis _)
    rw [hall]
    exact Multiset.le_iff_exists_add.mpr ⟨pagesOf us + Q' + pagesOf us', by abel⟩
  have hnew : Space K x L' pt' us' (upper K tf) Q' := by
    apply h'.frame hlist hframe htf (hdis _)
    rw [hall]
    exact Multiset.le_iff_exists_add.mpr ⟨Q + pagesOf us + pagesOf us', by abel⟩
  refine (procFreepagetable_spec hold h.size).mono fun _ y hy => ?_
  obtain ⟨L'', hfree, hL'', hfreed⟩ := hy
  have htot : ↑L + Q + pagesOf us = ↑L'' + Q' + pagesOf us' := by rw [hL'', hall]
  refine ⟨L'', ⟨?_, hsize, h.frame, htot ▸ hapart⟩, htot, ?_, hfreed⟩
  · apply hnew.relist hfree hfreed
    · intro p hp
      exact h.space.aligned (by rw [add_assoc]; exact Multiset.mem_add.mpr (.inr hp))
    · rw [hall, add_assoc, add_assoc, Multiset.nodup_add] at hnd
      have hdis' := (Multiset.nodup_add.mp hnd.2.1).2.2
      rw [Multiset.disjoint_add_right] at hdis'
      exact hdis'.1.symm
    · exact htot ▸ hnd
  · have h₁ := hagree.mono (G := tf ::ₘ (↑L + Q + pagesOf us)) (by
      intro p hp
      simp [Multiset.mem_coe.mp hp])
    have h₂ := hframe.mono (G := tf ::ₘ (↑L + Q + pagesOf us)) (by simp)
    have h₃ := hfreed.mono (G := tf ::ₘ (↑L + Q + pagesOf us)) (by
      intro p hp
      rw [Multiset.mem_cons, add_assoc, Multiset.mem_add]
      exact .inr (.inr hp))
    exact (h₁.trans h₂).trans h₃

theorem AddrSpace.not_free {sz tf p : Nat} (h : AddrSpace K s L pt sz tf us Q)
    (hp : p ∈ tf ::ₘ (Q + pagesOf us)) : pgSize ∣ p ∧ p ∉ L := by
  rcases Multiset.mem_cons.mp hp with rfl | hp
  · exact ⟨h.frame.aligned, fun hL => h.apart (by simp [hL])⟩
  · have hnd := h.space.nodup
    rw [add_assoc] at hnd
    constructor
    · exact h.space.aligned (by rw [add_assoc]; exact Multiset.mem_add.mpr (.inr hp))
    · exact fun hL => Multiset.disjoint_left.mp (Multiset.nodup_add.mp hnd).2.2 hL hp

/-! ## Changes of size -/

theorem AddrSpace.uvmalloc {sz tf newsz xperm : Nat} (h : AddrSpace K s L pt sz tf us Q)
    (hx : xperm < 2 ^ 10) :
    Does (uvmalloc K pt sz newsz xperm) (fun r t => ∃ new L' Q',
      AddrSpace K t L' pt (if r = 0 then sz else r) tf (us ++ new) Q' ∧
      ↑L + Q = ↑L' + Q' + pagesOf new ∧ AgreeOff pgSize (↑L + Q) s.mem t.mem) s := by
  refine (uvmalloc_spec h.space h.size hx).mono fun r t hr => ?_
  obtain ⟨-, new, L', Q', hext⟩ := hr.extended h.space h.size
  refine ⟨new, L', Q', ⟨hext.space, hext.size, h.frame, ?_⟩, hext.total, hext.agree⟩
  have hall : ↑L + Q + pagesOf us = ↑L' + Q' + pagesOf (us ++ new) := by
    rw [hext.total, pagesOf_append]
    abel
  exact hall ▸ h.apart

end Xv6.Vm
