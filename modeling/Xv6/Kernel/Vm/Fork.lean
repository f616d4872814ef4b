import Xv6.Kernel.Vm.Sbrk

/-! # `fork`

`uvmcopy` copies the pages of a parent to fresh pages of its child, or unmaps what it has
copied. The parent's pages are never written, so all that may change is the pages that were
free and those of the child's table.
-/

namespace Xv6.Vm

open Lib Exec

/-- `freeproc`: what it does to memory. -/
def freeproc (K : Image) (trapframe pagetable sz : Nat) : Code Unit := do
  if trapframe ≠ 0 then kfree K trapframe
  if pagetable ≠ 0 then procFreepagetable K pagetable sz

/-- `allocproc`: the trapframe and the page table of a new process, whose size is 0. -/
def allocproc (K : Image) : Code (Option (Nat × Nat)) := do
  let trapframe ← kalloc
  if trapframe = 0 then
    freeproc K 0 0 0
    return none
  else
    let pagetable ← procPagetable K trapframe
    if pagetable = 0 then
      freeproc K trapframe 0 0
      return none
    else return some (trapframe, pagetable)

/-- `fork` until the child has its memory; `none` where it returns -1. -/
def fork (K : Image) (pagetable sz : Nat) : Code (Option (Nat × Nat)) := do
  match ← allocproc K with
  | none => return none
  | some (tf, new) => do
      let r ← uvmcopy K pagetable new sz
      if r < 0 then
        freeproc K tf new 0
        return none
      else return some (tf, new)

/-- The page `u` of a child is a copy of the page `v` of its parent. -/
structure IsCopy (m : Bytes) (v u : UserPage) : Prop where
  flags : u.flags = v.flags
  bytes : ∀ j < pgSize, m (u.pa + j) = m (v.pa + j)

/-- The pages `us'` of a child are copies of the first ones of its parent. The pages came off
the free list; `L₀` and `Q₀` are the free pages and the child's table at the start. -/
structure Copying (K : Image) (L₀ : List Nat) (Q₀ : Multiset Nat) (pt : Nat) (g : Nat → Nat)
    (us us' : List UserPage) (s : Phys) (L : List Nat) (Q : Multiset Nat) (t : Phys) : Prop where
  space : Space K t L pt us' g Q
  copies : ∀ (i : Nat) u, us'[i]? = some u → ∃ v, us[i]? = some v ∧ IsCopy t.mem v u
  total : ↑L₀ + Q₀ = ↑L + Q + pagesOf us'
  agree : AgreeOff pgSize (↑L₀ + Q₀) s.mem t.mem

/-- The child has no user memory, and every page is free or in its table again. -/
structure NotCopied (K : Image) (L₀ : List Nat) (Q₀ : Multiset Nat) (pt : Nat) (g : Nat → Nat)
    (s : Phys) (L : List Nat) (Q : Multiset Nat) (t : Phys) : Prop where
  space : Space K t L pt [] g Q
  total : ↑L₀ + Q₀ = ↑L + Q
  agree : AgreeOff pgSize (↑L₀ + Q₀) s.mem t.mem

section

variable {K : Image} {s t : Phys} {L L₀ : List Nat} {pt old : Nat} {us us' : List UserPage}
  {g g₀ : Nat → Nat} {Q Q₀ P : Multiset Nat}

theorem Copying.undo (h : Copying K L₀ Q₀ pt g us us' s L Q t) :
    Does (do uvmunmap K pt 0 us'.length true; return (-1 : Int)) (fun r u => r = -1 ∧
      ∃ L' Q', NotCopied K L₀ Q₀ pt g s L' Q' u) t := by
  have hunmap := h.space.unmap (n := 0) (Nat.zero_le _)
  rw [Nat.zero_mul, Nat.sub_zero] at hunmap
  rw [Does.bind]
  refine hunmap.mono fun _ u hu => ?_
  obtain ⟨L', hspace, hL', hagree⟩ := hu
  rw [Does.pure]
  rw [List.drop_zero] at hL' hagree
  have htotal : ↑L₀ + Q₀ = ↑L' + Q := by
    rw [h.total, hL', add_right_comm]
  refine ⟨rfl, L', Q, hspace, htotal, h.agree.trans (hagree.mono ?_)⟩
  rw [h.total, add_assoc]
  exact Multiset.subset_of_le (Multiset.le_add_left _ _)

theorem does_memmove {dst src n : Nat} {R : Unit → Phys → Prop} :
    Does (memmove dst src n) R s ↔
      R () { s with mem := splice s.mem dst n fun j => s.mem (src + j) } :=
  Does.assign _

theorem Copying.aligned (h : Copying K L₀ Q₀ pt g us us' s L Q t) : ∀ p ∈ ↑L₀ + Q₀, pgSize ∣ p := by
  intro p hp
  rw [h.total] at hp
  exact h.space.aligned hp

theorem or_valid {flags : Nat} (h : flags &&& pteV ≠ 0) : flags ||| pteV = flags := by
  rw [show pteV = 1 from rfl, Nat.and_one_is_mod] at h
  refine Nat.eq_of_testBit_eq fun i => ?_
  rw [Nat.testBit_or]
  cases i with
  | zero => simp [show flags % 2 = 1 by omega]
  | succ i => simp [pteV, Nat.testBit_succ]

def CopyResult (K : Image) (L₀ : List Nat) (Q₀ : Multiset Nat) (pt : Nat) (g : Nat → Nat)
    (us : List UserPage) (s : Phys) (r : Int) (t : Phys) : Prop :=
  r = 0 ∧ (∃ us' L Q, us'.length = us.length ∧ Copying K L₀ Q₀ pt g us us' s L Q t) ∨
    r = -1 ∧ ∃ L Q, NotCopied K L₀ Q₀ pt g s L Q t

/-- A fresh page `c` holds the bytes of page `v` of the parent. -/
structure Filled (K : Image) (L₀ : List Nat) (Q₀ : Multiset Nat) (pt : Nat) (g : Nat → Nat)
    (us us' : List UserPage) (s : Phys) (c : Nat) (v : UserPage) (L : List Nat) (Q : Multiset Nat)
    (t : Phys) : Prop where
  loose : Loose K t L pt us' g Q c
  copies : ∀ (i : Nat) u, us'[i]? = some u → ∃ v, us[i]? = some v ∧ IsCopy t.mem v u
  bytes : ∀ j < pgSize, t.mem (c + j) = t.mem (v.pa + j)
  total : ↑L₀ + Q₀ = c ::ₘ (↑L + Q + pagesOf us')
  agree : AgreeOff pgSize (↑L₀ + Q₀) s.mem t.mem

/-- Copies stay copies when neither they nor what they copy is written to. -/
theorem copies_agree {F : Multiset Nat}
    (h : ∀ (i : Nat) u, us'[i]? = some u → ∃ v, us[i]? = some v ∧ IsCopy s.mem v u)
    (hagree : AgreeOff pgSize F s.mem t.mem) (hF : ∀ p ∈ F, pgSize ∣ p)
    (hus : ∀ u ∈ us, pgSize ∣ u.pa ∧ u.pa ∉ F) (hus' : ∀ u ∈ us', pgSize ∣ u.pa ∧ u.pa ∉ F)
    (i : Nat) (u : UserPage) (hu : us'[i]? = some u) : ∃ v, us[i]? = some v ∧ IsCopy t.mem v u := by
  obtain ⟨v, hv, hcopy⟩ := h i u hu
  refine ⟨v, hv, hcopy.flags, fun j hj => ?_⟩
  obtain ⟨hal, hnot⟩ := hus' u (List.mem_of_getElem? hu)
  obtain ⟨hal', hnot'⟩ := hus v (List.mem_of_getElem? hv)
  rw [hagree.block hF hal hnot ⟨Nat.le_add_right _ _, by omega⟩,
    hagree.block hF hal' hnot' ⟨Nat.le_add_right _ _, by omega⟩]
  exact hcopy.bytes j hj

/-- `kalloc` and `memmove`: a page comes off the free list and gets the bytes of `v`. -/
theorem Copying.fill {c : Nat} {v : UserPage} {L₁ : List Nat} {u : Phys}
    (h : Copying K L₀ Q₀ pt g us us' s (c :: L₁) Q t)
    (hus : ∀ u ∈ us, pgSize ∣ u.pa ∧ u.pa ∉ ↑L₀ + Q₀) (hv : v ∈ us)
    (hloose : Loose K u L₁ pt us' g Q c) (hagree : AgreeOff pgSize {c} t.mem u.mem) :
    Filled K L₀ Q₀ pt g us us' s c v L₁ Q
      { u with mem := splice u.mem c pgSize fun j => u.mem (v.pa + j) } := by
  have hself : c ∈ ({c} : Multiset Nat) := Multiset.mem_singleton_self c
  have hcons : (↑(c :: L₁) + Q + pagesOf us' : Multiset Nat) = c ::ₘ (↑L₁ + Q + pagesOf us') := by
    rw [← Multiset.cons_coe, Multiset.cons_add, Multiset.cons_add]
  have htotal : ↑L₀ + Q₀ = c ::ₘ (↑L₁ + Q + pagesOf us') := h.total.trans hcons
  have hc : c ∈ ↑L₀ + Q₀ := by
    rw [htotal]
    exact Multiset.mem_cons_self _ _
  have hmove : AgreeOff pgSize {c} u.mem (splice u.mem c pgSize fun j => u.mem (v.pa + j)) :=
    AgreeOff.splice hself (Nat.le_refl c) (Nat.le_refl _)
  have hboth := hagree.trans hmove
  have hal : ∀ p ∈ ({c} : Multiset Nat), pgSize ∣ p := by simpa using hloose.page.aligned
  have hold : ∀ x ∈ us, pgSize ∣ x.pa ∧ x.pa ∉ ({c} : Multiset Nat) := by
    intro x hx
    refine ⟨(hus x hx).1, fun hxc => (hus x hx).2 ?_⟩
    rw [Multiset.mem_singleton.mp hxc]
    exact hc
  have hnew : ∀ x ∈ us', pgSize ∣ x.pa ∧ x.pa ∉ ({c} : Multiset Nat) := by
    intro x hx
    have hmem : x.pa ∈ ↑L₁ + Q + pagesOf us' :=
      Multiset.mem_add.mpr (.inr (mem_pagesOf.mpr ⟨x, hx, rfl⟩))
    refine ⟨hloose.space.aligned hmem, fun hxc => hloose.fresh ?_⟩
    rw [← Multiset.mem_singleton.mp hxc]
    exact hmem
  refine ⟨hloose.write rfl hmove, copies_agree h.copies hboth hal hold hnew, fun j hj => ?_, htotal,
    h.agree.trans (hboth.mono (by simpa using hc))⟩
  obtain ⟨hvp, hvc⟩ := hold v hv
  dsimp only
  rw [splice_inside (Nat.le_add_right _ _) (by omega), Nat.add_sub_cancel_left,
    hmove.block hal hvp hvc ⟨Nat.le_add_right _ _, by omega⟩]

theorem Loose.user_not_free {c : Nat} (h : Loose K t L pt us' g Q c) {x : UserPage} (hx : x ∈ us') :
    pgSize ∣ x.pa ∧ x.pa ∉ ↑L + Q := by
  have hmem : x.pa ∈ pagesOf us' := mem_pagesOf.mpr ⟨x, hx, rfl⟩
  refine ⟨h.space.aligned (Multiset.mem_add.mpr (.inr hmem)), fun hc => ?_⟩
  exact Multiset.disjoint_left.mp (Multiset.nodup_add.mp h.space.nodup).2.2 hc hmem

theorem Filled.map {c : Nat} {v : UserPage} (h : Filled K L₀ Q₀ pt g us us' s c v L Q t)
    (hus : ∀ u ∈ us, pgSize ∣ u.pa ∧ u.pa ∉ ↑L₀ + Q₀) (hv : us[us'.length]? = some v)
    (hok : v.Ok K) :
    Does (mappages pt (us'.length * pgSize) pgSize c v.flags) (fun r u => ∃ L' Q',
      r = 0 ∧ Copying K L₀ Q₀ pt g us (us' ++ [⟨c, v.flags⟩]) s L' Q' u ∨
        r = -1 ∧ Filled K L₀ Q₀ pt g us us' s c v L' Q' u) t := by
  refine (h.loose.map hok.flags_lt hok.readable).mono fun r u hr => ?_
  obtain ⟨L', Q', hmoved, hr⟩ := hr
  have hsub : ↑L + Q ⊆ ↑L₀ + Q₀ := by
    rw [h.total]
    intro p hp
    exact Multiset.mem_cons_of_mem (Multiset.mem_add.mpr (.inl hp))
  have hold : ∀ x ∈ us, pgSize ∣ x.pa ∧ x.pa ∉ ↑L + Q :=
    fun x hx => ⟨(hus x hx).1, fun hc => (hus x hx).2 (hsub hc)⟩
  have hcopies := copies_agree h.copies hmoved.agree h.loose.owns.aligned hold
    fun x hx => h.loose.user_not_free hx
  have hagree := h.agree.trans (hmoved.agree.mono hsub)
  have hbytes : ∀ j < pgSize, u.mem (c + j) = u.mem (v.pa + j) := by
    intro j hj
    obtain ⟨hvp, hvn⟩ := hold v (List.mem_of_getElem? hv)
    have hcn : c ∉ ↑L + Q := fun hc => h.loose.fresh (Multiset.mem_add.mpr (.inl hc))
    rw [hmoved.agree.block h.loose.owns.aligned h.loose.page.aligned hcn
        ⟨Nat.le_add_right _ _, by omega⟩,
      hmoved.agree.block h.loose.owns.aligned hvp hvn ⟨Nat.le_add_right _ _, by omega⟩]
    exact h.bytes j hj
  refine ⟨L', Q', ?_⟩
  rcases hr with ⟨rfl, hspace⟩ | ⟨rfl, hloose⟩
  · rw [or_valid hok.valid] at hspace
    refine .inl ⟨rfl, hspace, fun i x hx => ?_, ?_, hagree⟩
    · by_cases hi : i < us'.length
      · rw [List.getElem?_append_left hi] at hx
        exact hcopies i x hx
      · rw [List.getElem?_append_right (by omega)] at hx
        obtain ⟨hz, rfl⟩ := List.getElem?_eq_some_iff.mp hx
        rw [List.length_singleton] at hz
        obtain rfl : i = us'.length := by omega
        refine ⟨v, hv, ?_⟩
        simp only [Nat.sub_self, List.getElem_cons_zero]
        exact ⟨rfl, hbytes⟩
    · rw [h.total, hmoved.total, pagesOf_append,
        show pagesOf [(⟨c, v.flags⟩ : UserPage)] = {c} from rfl, ← add_assoc,
        ← Multiset.singleton_add, add_comm]
  · refine .inr ⟨rfl, hloose, hcopies, hbytes, ?_, hagree⟩
    rw [h.total, hmoved.total]

theorem Filled.free {c : Nat} {v : UserPage} (h : Filled K L₀ Q₀ pt g us us' s c v L Q t)
    (hus : ∀ u ∈ us, pgSize ∣ u.pa ∧ u.pa ∉ ↑L₀ + Q₀) :
    Does (kfree K c) (fun _ u => Copying K L₀ Q₀ pt g us us' s (c :: L) Q u) t := by
  refine h.loose.free.mono fun _ u hu => ?_
  obtain ⟨hspace, hagree⟩ := hu
  have hc : c ∈ ↑L₀ + Q₀ := by
    rw [h.total]
    exact Multiset.mem_cons_self _ _
  have hal : ∀ p ∈ ({c} : Multiset Nat), pgSize ∣ p := by simpa using h.loose.page.aligned
  refine ⟨hspace, copies_agree h.copies hagree hal (fun x hx => ?_) fun x hx => ?_, ?_,
    h.agree.trans (hagree.mono (by simpa using hc))⟩
  · refine ⟨(hus x hx).1, fun hxc => (hus x hx).2 ?_⟩
    rw [Multiset.mem_singleton.mp hxc]
    exact hc
  · have hmem : x.pa ∈ ↑L + Q + pagesOf us' :=
      Multiset.mem_add.mpr (.inr (mem_pagesOf.mpr ⟨x, hx, rfl⟩))
    refine ⟨h.loose.space.aligned hmem, fun hxc => h.loose.fresh ?_⟩
    rw [← Multiset.mem_singleton.mp hxc]
    exact hmem
  · rw [h.total, ← Multiset.cons_coe, Multiset.cons_add, Multiset.cons_add]

/-- The loop of `uvmcopy` from page `us'.length` on. -/
theorem uvmcopyFrom_spec (hold : Table K s.mem old (withUser us g₀) P) (hlen : us.length < nUser)
    (hok : ∀ u ∈ us, u.Ok K) (hP : Disjoint P (↑L₀ + Q₀))
    (hus : ∀ u ∈ us, pgSize ∣ u.pa ∧ u.pa ∉ ↑L₀ + Q₀) (k : Nat) (us' : List UserPage) (L : List Nat)
    (Q : Multiset Nat) (t : Phys) (h : Copying K L₀ Q₀ pt g us us' s L Q t)
    (hk : us'.length + k = us.length) :
    Does (uvmcopyFrom K old pt (us'.length * pgSize) k) (CopyResult K L₀ Q₀ pt g us s) t := by
  induction k generalizing us' L Q t with
  | zero =>
    rw [uvmcopyFrom, Does.pure]
    exact .inl ⟨rfl, us', L, Q, hk, h⟩
  | succ k ih =>
    have hi : us'.length < us.length := by omega
    have hv := List.getElem?_eq_getElem hi
    have hokv := hok _ (List.getElem_mem hi)
    have hva : us'.length * pgSize < maxVa :=
      Nat.lt_of_le_of_lt (Nat.mul_le_mul_right _ (by omega)) nUser_lt
    have htable : Table K t.mem old (withUser us g₀) P :=
      hold.frame h.agree h.aligned fun _ hp => Multiset.disjoint_left.mp hP hp
    have hundo : ∀ {L' : List Nat} {Q' : Multiset Nat} {u : Phys},
        Copying K L₀ Q₀ pt g us us' s L' Q' u →
        Does (do uvmunmap K pt 0 (us'.length * pgSize / pgSize) true; return (-1 : Int))
          (CopyResult K L₀ Q₀ pt g us s) u := by
      intro L' Q' u hu
      rw [vpn_mul]
      exact hu.undo.mono fun _ _ hr => .inr hr
    rw [uvmcopyFrom, Does.bind]
    refine (walk_lookup htable hva).mono fun r t' hr => ?_
    rw [vpn_mul, withUser_of_lt hi] at hr
    obtain ⟨rfl, ⟨-, hzero⟩ | he⟩ := hr
    · exact absurd (by rw [hzero]; rfl) hokv.isLeaf.valid
    · have hvalid := hokv.isLeaf.valid
      rw [if_neg he.pos, Does.bind, does_load, he.load (hi.trans (hlen.trans (by decide))),
        withUser_of_lt hi, if_neg hvalid, hokv.pte2pa, hokv.pteFlags, Does.bind]
      refine h.space.kalloc.mono fun c u hc => ?_
      rcases hc with ⟨rfl, rfl, rfl⟩ | ⟨L₁, rfl, hloose, hagree⟩
      · rw [if_pos rfl]
        exact hundo h
      · have hfilled := h.fill hus (List.getElem_mem hi) hloose hagree
        rw [if_neg (Nat.pos_iff_ne_zero.mp hloose.page.pos), Does.bind, does_memmove, Does.bind]
        refine (hfilled.map hus hv hokv).mono fun r w hr => ?_
        obtain ⟨L', Q', ⟨rfl, hnext⟩ | ⟨rfl, hback⟩⟩ := hr
        · rw [if_neg (by decide)]
          have hgo := ih _ _ _ _ hnext (by rw [List.length_append, List.length_singleton]; omega)
          rw [List.length_append, List.length_singleton, Nat.add_mul, Nat.one_mul] at hgo
          exact hgo
        · rw [if_pos (by decide), Does.bind]
          exact (hback.free hus).mono fun _ x hx => hundo hx

theorem uvmcopy_spec {sz tf : Nat} (h : AddrSpace K s L₀ old sz tf us P)
    (hc : Space K s L₀ pt [] g Q₀) (hapart : Disjoint (P + pagesOf us) Q₀) :
    Does (uvmcopy K old pt sz) (CopyResult K L₀ Q₀ pt g us s) s := by
  have hnd := h.space.nodup
  rw [add_assoc, Multiset.nodup_add] at hnd
  have hdis : Disjoint (P + pagesOf us) (↑L₀ + Q₀) := by
    rw [Multiset.disjoint_add_right]
    exact ⟨hnd.2.2.symm, hapart⟩
  have hstart : Copying K L₀ Q₀ pt g us [] s L₀ Q₀ s := by
    refine ⟨hc, fun i u hu => ?_, by simp [pagesOf], AgreeOff.refl _⟩
    rw [List.getElem?_nil] at hu
    cases hu
  have hus : ∀ u ∈ us, pgSize ∣ u.pa ∧ u.pa ∉ ↑L₀ + Q₀ := by
    intro u hu
    have hmem : u.pa ∈ pagesOf us := mem_pagesOf.mpr ⟨u, hu, rfl⟩
    exact ⟨h.space.aligned (Multiset.mem_add.mpr (.inr hmem)),
      fun hin => Multiset.disjoint_left.mp hdis (Multiset.mem_add.mpr (.inr hmem)) hin⟩
  have hP : Disjoint P (↑L₀ + Q₀) := (Multiset.disjoint_add_left.mp hdis).1
  have hrun := uvmcopyFrom_spec h.space.owns.table h.space.length_lt h.space.users hP hus us.length
    [] L₀ Q₀ s hstart (Nat.zero_add _)
  rw [List.length_nil, Nat.zero_mul, h.size] at hrun
  exact hrun

/-! ## The parent -/

/-- What is not free is not written: the parent is as it was. -/
theorem AddrSpace.untouched {sz tf : Nat} (h : AddrSpace K s L₀ old sz tf us P)
    (hfree : FreeList K t L) (hle : (L : Multiset Nat) ≤ ↑L₀ + Q₀)
    (hagree : AgreeOff pgSize (↑L₀ + Q₀) s.mem t.mem)
    (hapart : Disjoint (tf ::ₘ (P + pagesOf us)) Q₀) (hal : ∀ p ∈ Q₀, pgSize ∣ p) :
    AddrSpace K t L old sz tf us P ∧ ∀ va, userByte us t.mem va = userByte us s.mem va := by
  have hall : ∀ p ∈ ↑L₀ + Q₀, pgSize ∣ p := by
    intro p hp
    rcases Multiset.mem_add.mp hp with hp | hp
    · exact (h.space.owns.free.pages p (Multiset.mem_coe.mp hp)).aligned
    · exact hal p hp
  have hnot : ∀ p ∈ tf ::ₘ (P + pagesOf us), p ∉ ↑L₀ + Q₀ := by
    intro p hp hin
    rcases Multiset.mem_add.mp hin with hin | hin
    · exact (h.not_free hp).2 (Multiset.mem_coe.mp hin)
    · exact Multiset.disjoint_left.mp hapart hp hin
  have hPus : Disjoint (P + pagesOf us) (↑L₀ + Q₀) := by
    rw [Multiset.disjoint_left]
    exact fun {p} hp hin => hnot p (Multiset.mem_cons_of_mem hp) hin
  have hnd : (↑L + P + pagesOf us).Nodup := by
    rw [add_assoc, Multiset.nodup_add]
    have hnd := h.space.nodup
    rw [add_assoc, Multiset.nodup_add] at hnd
    refine ⟨Multiset.coe_nodup.mpr hfree.nodup, hnd.2.1, ?_⟩
    rw [Multiset.disjoint_left]
    exact fun {p} hp hin => Multiset.disjoint_left.mp hPus hin (Multiset.mem_of_le hle hp)
  refine ⟨⟨?_, h.size, h.frame, fun hin => ?_⟩, fun va => ?_⟩
  · exact h.space.relist hfree hagree hall (Multiset.disjoint_add_left.mp hPus).1 hnd
  · rw [add_assoc] at hin
    rcases Multiset.mem_add.mp hin with hin | hin
    · exact hnot tf (Multiset.mem_cons_self _ _) (Multiset.mem_of_le hle hin)
    · refine h.apart ?_
      rw [add_assoc]
      exact Multiset.mem_add.mpr (.inr hin)
  · refine userByte_agree hagree hall (fun u hu => ?_) va
    have hmem : u.pa ∈ pagesOf us := mem_pagesOf.mpr ⟨u, hu, rfl⟩
    exact ⟨h.space.aligned (Multiset.mem_add.mpr (.inr hmem)),
      hnot _ (Multiset.mem_cons_of_mem (Multiset.mem_add.mpr (.inr hmem)))⟩

/-! ## The process -/

/-- A process without user memory, made of pages that were free. -/
structure Born (K : Image) (L : List Nat) (s : Phys) (tf pt : Nat) (L' : List Nat)
    (Q : Multiset Nat) (t : Phys) : Prop where
  space : Space K t L' pt [] (upper K tf) Q
  frame : IsPage K tf
  total : (L : Multiset Nat) = tf ::ₘ (↑L' + Q)
  agree : AgreeOff pgSize ↑L s.mem t.mem

theorem freeproc_spec {sz tf : Nat} (h : Space K s L pt us (upper K tf) Q)
    (hlen : us.length = npages sz) (htf : IsPage K tf) (hnot : tf ∉ ↑L + Q + pagesOf us) :
    Does (freeproc K tf pt sz) (Frees K L (tf ::ₘ (Q + pagesOf us)) s) s := by
  have hpt : pt ≠ 0 := Nat.pos_iff_ne_zero.mp (h.owns.table.pages pt h.owns.table.root_mem).pos
  have hnotL : tf ∉ L := fun hin => hnot (by simp [hin])
  have hal : ∀ p ∈ ({tf} : Multiset Nat), pgSize ∣ p := by simpa using htf.aligned
  unfold freeproc
  simp only [Nat.pos_iff_ne_zero.mp htf.pos, hpt, ne_eq, not_false_eq_true, if_true, Does.bind]
  refine (kfree_spec h.owns.free htf hnotL).mono fun _ t ht => ?_
  obtain ⟨hfree, hagree⟩ := ht
  have hspace : Space K t (tf :: L) pt us (upper K tf) Q := by
    refine h.relist hfree hagree hal ?_ ?_
    · rw [Multiset.disjoint_left]
      intro p hp hpt
      exact hnot (by simp [← Multiset.mem_singleton.mp hpt, hp])
    · rw [← Multiset.cons_coe, Multiset.cons_add, Multiset.cons_add, Multiset.nodup_cons]
      exact ⟨hnot, h.nodup⟩
  refine (procFreepagetable_spec hspace hlen).mono fun _ u hu => ?_
  obtain ⟨L', hfree', hL', hagree'⟩ := hu
  refine ⟨L', hfree', ?_, (hagree.mono (by simp)).trans (hagree'.mono ?_)⟩
  · rw [hL', ← Multiset.cons_coe, Multiset.cons_add, Multiset.add_cons]
  · exact Multiset.subset_cons _ _

theorem allocproc_spec (h : FreeList K s L) :
    Does (allocproc K) (fun r t => r = none ∧ Restored K L s t ∨
      ∃ tf pt L' Q, r = some (tf, pt) ∧ Born K L s tf pt L' Q t) s := by
  unfold allocproc
  rw [Does.bind]
  refine (kalloc_spec h).mono fun tf t ht => ?_
  rcases ht with ⟨rfl, rfl, rfl⟩ | ⟨L₁, rfl, htook⟩
  · simp only [if_true, freeproc, ne_eq, not_true_eq_false, if_false, Does.bind, Does.pure]
    exact .inl ⟨trivial, [], h, rfl, AgreeOff.refl _⟩
  · have htf := Nat.pos_iff_ne_zero.mp htook.page.pos
    have htotal : ((tf :: L₁ : List Nat) : Multiset Nat) = tf ::ₘ ↑L₁ :=
      (Multiset.cons_coe _ _).symm
    have hfirst : AgreeOff pgSize ↑(tf :: L₁) s.mem t.mem := htook.agree.mono (by simp)
    rw [if_neg htf, Does.bind]
    refine (procPagetable_spec htook.free htook.page).mono fun pt u hu => ?_
    rcases hu with ⟨rfl, L₂, hfree, hL₂, hagree⟩ | ⟨hpt, L₂, Q, hmade⟩
    · simp only [if_true, freeproc, htf, ne_eq, not_true_eq_false, not_false_eq_true, if_false,
        Does.bind, Does.pure]
      have hnot : tf ∉ L₂ := by
        intro hin
        refine htook.fresh (Multiset.mem_coe.mp ?_)
        rw [← hL₂]
        exact Multiset.mem_coe.mpr hin
      refine (kfree_spec hfree htook.page hnot).mono fun _ w hw => ?_
      obtain ⟨hfree', hagree'⟩ := hw
      refine .inl ⟨trivial, tf :: L₂, hfree', ?_, ?_⟩
      · rw [htotal, ← Multiset.cons_coe, hL₂]
      · refine (hfirst.trans (hagree.mono ?_)).trans (hagree'.mono (by simp))
        rw [htotal]
        exact Multiset.subset_cons _ _
    · rw [if_neg hpt, Does.pure]
      refine .inr ⟨tf, pt, L₂, Q, rfl, hmade.space, htook.page, ?_,
        hfirst.trans (hmade.agree.mono ?_)⟩
      · rw [htotal, hmade.total]
      · rw [htotal]
        exact Multiset.subset_cons _ _

/-- The child at `new` has pages of its own for all of the parent's, with the same flags and the
same bytes. -/
structure Duplicate (K : Image) (sz : Nat) (us : List UserPage) (new tf : Nat)
    (us' : List UserPage) (t : Phys) : Prop where
  space : ∃ L Q, AddrSpace K t L new sz tf us' Q
  copies : ∀ v < npages sz, ∃ u u', us[v]? = some u ∧ us'[v]? = some u' ∧ IsCopy t.mem u u'
  fresh : Disjoint (pagesOf us) (pagesOf us')
  distinct : (pagesOf us').Nodup

/-- The process has the size, the pages and the bytes that it had. -/
structure Intact (K : Image) (pt sz tf : Nat) (us : List UserPage) (P : Multiset Nat)
    (s t : Phys) : Prop where
  space : ∃ L, AddrSpace K t L pt sz tf us P
  bytes : ∀ va, userByte us t.mem va = userByte us s.mem va

theorem Copying.duplicate {sz tf : Nat} (h : Copying K L₀ Q₀ pt (upper K tf) us us' s L Q t)
    (hsize : us.length = npages sz) (hlen : us'.length = us.length) (htf : IsPage K tf)
    (hnot : tf ∉ ↑L₀ + Q₀) (hus : Disjoint (pagesOf us) (↑L₀ + Q₀)) :
    Duplicate K sz us pt tf us' t := by
  refine ⟨⟨L, Q, h.space, hlen.trans hsize, htf, h.total ▸ hnot⟩, fun v hv => ?_, ?_, ?_⟩
  · have hv' : v < us'.length := by omega
    have hu' := List.getElem?_eq_getElem hv'
    obtain ⟨u, hu, hcopy⟩ := h.copies v _ hu'
    exact ⟨u, _, hu, hu', hcopy⟩
  · rw [h.total, Multiset.disjoint_add_right] at hus
    exact hus.2
  · exact (Multiset.nodup_add.mp h.space.nodup).2.1

theorem uvmcopy_duplicates {sz tf tf' : Nat} (h : AddrSpace K s L₀ old sz tf us P)
    (hc : AddrSpace K s L₀ pt 0 tf' [] Q₀) (hapart : Disjoint (tf ::ₘ (P + pagesOf us)) Q₀) :
    Does (uvmcopy K old pt sz) (fun r t => Intact K old sz tf us P s t ∧
      (r = 0 ∧ (∃ us', Duplicate K sz us pt tf' us' t) ∨
        r = -1 ∧ ∃ L Q, NotCopied K L₀ Q₀ pt (upper K tf') s L Q t)) s := by
  have hPus : Disjoint (P + pagesOf us) Q₀ := by
    rw [Multiset.disjoint_left] at hapart ⊢
    exact fun {p} hp => hapart (Multiset.mem_cons_of_mem hp)
  have hus : Disjoint (pagesOf us) (↑L₀ + Q₀) := by
    have hnd := h.space.nodup
    rw [add_assoc, Multiset.nodup_add, Multiset.disjoint_add_right] at hnd
    rw [Multiset.disjoint_add_right]
    exact ⟨hnd.2.2.2.symm, (Multiset.disjoint_add_left.mp hPus).2⟩
  have hnot : tf' ∉ ↑L₀ + Q₀ := by
    have hfree := hc.apart
    simpa [pagesOf] using hfree
  have hal : ∀ p ∈ Q₀, pgSize ∣ p := fun p hp =>
    hc.space.owns.aligned p (Multiset.mem_add.mpr (.inr hp))
  refine (uvmcopy_spec h hc.space hPus).mono fun r t hr => ?_
  rcases hr with ⟨rfl, us', L, Q, hlen, hcopy⟩ | ⟨rfl, L, Q, hback⟩
  · have hle : (L : Multiset Nat) ≤ ↑L₀ + Q₀ := by
      rw [hcopy.total, add_assoc]
      exact Multiset.le_add_right _ _
    obtain ⟨hspace, hbytes⟩ := h.untouched hcopy.space.owns.free hle hcopy.agree hapart hal
    exact ⟨⟨⟨L, hspace⟩, hbytes⟩,
      .inl ⟨rfl, us', hcopy.duplicate h.size hlen hc.frame hnot hus⟩⟩
  · have hle : (L : Multiset Nat) ≤ ↑L₀ + Q₀ := by
      rw [hback.total]
      exact Multiset.le_add_right _ _
    obtain ⟨hspace, hbytes⟩ := h.untouched hback.space.owns.free hle hback.agree hapart hal
    exact ⟨⟨⟨L, hspace⟩, hbytes⟩, .inr ⟨rfl, L, Q, hback⟩⟩

theorem AddrSpace.unwritten {sz tf : Nat} (h : AddrSpace K s L₀ old sz tf us P)
    (hfree : FreeList K t L) (hle : (L : Multiset Nat) ≤ ↑L₀)
    (hagree : AgreeOff pgSize ↑L₀ s.mem t.mem) :
    AddrSpace K t L old sz tf us P ∧ ∀ va, userByte us t.mem va = userByte us s.mem va := by
  rw [← add_zero (L₀ : Multiset Nat)] at hle hagree
  refine h.untouched hfree hle hagree ?_ fun p hp => absurd hp (Multiset.notMem_zero p)
  rw [Multiset.disjoint_left]
  exact fun {p} _ hp => Multiset.notMem_zero p hp

theorem AddrSpace.intact {sz tf : Nat} (h : AddrSpace K s L old sz tf us P)
    (hr : Restored K L s t) : Intact K old sz tf us P s t := by
  obtain ⟨L', hfree, hL', hagree⟩ := hr
  obtain ⟨hspace, hbytes⟩ := h.unwritten hfree hL'.le hagree
  exact ⟨⟨L', hspace⟩, hbytes⟩

/-- A child whose pages are copies of its parent's, on pages that were free. -/
structure Forked (K : Image) (L : List Nat) (us : List UserPage) (s : Phys) (tf pt : Nat)
    (us' : List UserPage) (L' : List Nat) (Q : Multiset Nat) (t : Phys) : Prop where
  space : Space K t L' pt us' (upper K tf) Q
  length : us'.length = us.length
  frame : IsPage K tf
  copies : ∀ (i : Nat) u, us'[i]? = some u → ∃ v, us[i]? = some v ∧ IsCopy t.mem v u
  total : (L : Multiset Nat) = tf ::ₘ (↑L' + Q + pagesOf us')
  agree : AgreeOff pgSize ↑L s.mem t.mem

theorem fork_pages {sz tf : Nat} (h : AddrSpace K s L old sz tf us P) :
    Does (fork K old sz) (fun r t => r = none ∧ Restored K L s t ∨
      ∃ tf' new us' L' Q, r = some (tf', new) ∧ Forked K L us s tf' new us' L' Q t) s := by
  unfold fork
  rw [Does.bind]
  refine (allocproc_spec h.space.owns.free).mono fun r t ht => ?_
  rcases ht with ⟨rfl, hrest⟩ | ⟨tf', new, L', Q, rfl, hborn⟩
  · rw [Does.pure]
    exact .inl ⟨rfl, hrest⟩
  · have hnd : (tf' ::ₘ (↑L' + Q)).Nodup := by
      rw [← hborn.total]
      exact Multiset.coe_nodup.mpr h.space.owns.free.nodup
    have hsub : ↑L' + Q ⊆ ↑L := by
      rw [hborn.total]
      exact Multiset.subset_cons _ _
    have hle : (L' : Multiset Nat) ≤ ↑L := by
      rw [hborn.total]
      exact (Multiset.le_add_right _ _).trans (Multiset.le_cons_self _ _)
    have hapart : Disjoint (P + pagesOf us) Q := by
      rw [Multiset.disjoint_left]
      exact fun {p} hp hq => (h.not_free (Multiset.mem_cons_of_mem hp)).2
        (Multiset.mem_coe.mp (hsub (Multiset.mem_add.mpr (.inr hq))))
    dsimp only
    rw [Does.bind]
    refine (uvmcopy_spec (h.unwritten hborn.space.owns.free hle hborn.agree).1 hborn.space
      hapart).mono fun r u hu => ?_
    rcases hu with ⟨rfl, us', L₂, Q₂, hlen, hcopy⟩ | ⟨rfl, L₂, Q₂, hback⟩
    · rw [if_neg (by decide), Does.pure]
      refine .inr ⟨tf', new, us', L₂, Q₂, rfl, hcopy.space, hlen, hborn.frame, hcopy.copies, ?_,
        hborn.agree.trans (hcopy.agree.mono hsub)⟩
      rw [hborn.total, hcopy.total]
    · rw [if_pos (by decide), Does.bind]
      have hnot : tf' ∉ ↑L₂ + Q₂ + pagesOf [] := by
        rw [← hback.total]
        simpa [pagesOf] using (Multiset.nodup_cons.mp hnd).1
      refine (freeproc_spec hback.space (by decide) hborn.frame hnot).mono fun _ w hw => ?_
      obtain ⟨L₃, hfree, hL₃, hagree⟩ := hw
      rw [show pagesOf [] = 0 from rfl, add_zero] at hL₃ hagree
      rw [Does.pure]
      have hmoved : tf' ::ₘ Q₂ ⊆ (L : Multiset Nat) := by
        rw [hborn.total, hback.total]
        exact Multiset.cons_subset_cons (Multiset.subset_of_le (Multiset.le_add_left _ _))
      refine .inl ⟨rfl, L₃, hfree, ?_,
        (hborn.agree.trans (hback.agree.mono hsub)).trans (hagree.mono hmoved)⟩
      rw [hL₃, hborn.total, hback.total, Multiset.add_cons]

theorem fork_spec {sz tf : Nat} (h : AddrSpace K s L old sz tf us P) :
    Does (fork K old sz) (fun r t => Intact K old sz tf us P s t ∧
      (r = none ∧ Restored K L s t ∨
        ∃ tf' new us', r = some (tf', new) ∧ Duplicate K sz us new tf' us' t)) s := by
  refine (fork_pages h).mono fun r t hr => ?_
  rcases hr with ⟨rfl, hrest⟩ | ⟨tf', new, us', L', Q, rfl, hf⟩
  · exact ⟨h.intact hrest, .inl ⟨rfl, hrest⟩⟩
  · have hle : (L' : Multiset Nat) ≤ ↑L := by
      rw [hf.total, add_assoc]
      exact (Multiset.le_add_right _ _).trans (Multiset.le_cons_self _ _)
    have hnd : (tf' ::ₘ (↑L' + Q + pagesOf us')).Nodup := by
      rw [← hf.total]
      exact Multiset.coe_nodup.mpr h.space.owns.free.nodup
    obtain ⟨hspace, hbytes⟩ := h.unwritten hf.space.owns.free hle hf.agree
    refine ⟨⟨⟨L', hspace⟩, hbytes⟩, .inr ⟨tf', new, us', rfl, ⟨L', Q, hf.space,
      hf.length.trans h.size, hf.frame, (Multiset.nodup_cons.mp hnd).1⟩, fun v hv => ?_, ?_,
      (Multiset.nodup_add.mp hf.space.nodup).2.1⟩⟩
    · have hv' : v < us'.length := by
        rw [hf.length, h.size]
        exact hv
      have hu' := List.getElem?_eq_getElem hv'
      obtain ⟨u, hu, hcopy⟩ := hf.copies v _ hu'
      exact ⟨u, _, hu, hu', hcopy⟩
    · rw [Multiset.disjoint_left]
      intro p hp hp'
      refine (h.not_free (Multiset.mem_cons_of_mem (Multiset.mem_add.mpr (.inr hp)))).2 ?_
      rw [← Multiset.mem_coe, hf.total]
      exact Multiset.mem_cons_of_mem (Multiset.mem_add.mpr (.inr hp'))

/-- `fork` copies the address space or nothing, whatever the allocator answers: `uvmcopy` gives
the child fresh copies of all pages or unmaps what it has copied, and when `fork` fails the free
pages are those of before and no other page has changed. -/
theorem fork_copies_or_nothing {sz tf : Nat} (h : AddrSpace K s L old sz tf us P) :
    (∀ new tf' Q, AddrSpace K s L new 0 tf' [] Q → Disjoint (tf ::ₘ (P + pagesOf us)) Q →
      Does (uvmcopy K old new sz) (fun r t => Intact K old sz tf us P s t ∧
        (r = 0 ∧ (∃ us', Duplicate K sz us new tf' us' t) ∨
          r = -1 ∧ ∃ L' Q', AddrSpace K t L' new 0 tf' [] Q')) s) ∧
    Does (fork K old sz) (fun r t => Intact K old sz tf us P s t ∧
      (r = none ∧ (∃ L', FreeList K t L' ∧ L'.Perm L) ∧ AgreeOff pgSize ↑L s.mem t.mem ∨
        ∃ tf' new us', r = some (tf', new) ∧ Duplicate K sz us new tf' us' t)) s := by
  constructor
  · intro new tf' Q hc hapart
    refine (uvmcopy_duplicates h hc hapart).mono fun r t hr => ?_
    obtain ⟨hintact, hok | ⟨rfl, L', Q', hback⟩⟩ := hr
    · exact ⟨hintact, .inl hok⟩
    · refine ⟨hintact, .inr ⟨rfl, L', Q', hback.space, by decide, hc.frame, ?_⟩⟩
      rw [← hback.total]
      exact hc.apart
  · refine (fork_spec h).mono fun r t hr => ?_
    obtain ⟨hintact, ⟨rfl, L', hfree, hL', hagree⟩ | hok⟩ := hr
    · exact ⟨hintact, .inl ⟨rfl, ⟨L', hfree, Multiset.coe_eq_coe.mp hL'⟩, hagree⟩⟩
    · exact ⟨hintact, .inr hok⟩

end

theorem fork_copies_or_nothing_first : ∃ us P,
    Does (fork sixteenPages (physTop - 2 * pgSize) pgSize)
    (fun r t => Intact sixteenPages (physTop - 2 * pgSize) pgSize (physTop - pgSize) us P
        firstKern.phys t ∧
      (r = none ∨ ∃ tf new us', r = some (tf, new) ∧ Duplicate sixteenPages pgSize us new tf us' t))
    firstKern.phys := by
  obtain ⟨L, us, P, ha⟩ := firstKern_space
  exact ⟨us, P, (fork_copies_or_nothing ha).2.mono fun r t hr => ⟨hr.1, hr.2.imp_left And.left⟩⟩

end Xv6.Vm
