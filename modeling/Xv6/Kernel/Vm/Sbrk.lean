import Xv6.Kernel.Exec.Atomic
import Xv6.Kernel.Vm.PartialMap

/-! # `sbrk`

`growproc` adds a signed increment to the size of a process and maps or frees the pages in
between. It does what it reports exactly if the new size is not below zero: the sum is taken
modulo 2^64, and `uvmdealloc` keeps the old size when the new one is larger.
-/

namespace Xv6.Vm

open Lib Exec

/-- The sum of a `uint64` and an `int`. -/
def addInt (sz : Nat) (n : Int) : Nat := ((sz + n) % 2 ^ 64).toNat

/-- `growproc` of a process with table `pagetable` and size `sz`: what it returns, and the new
`p->sz`. -/
def growproc (K : Image) (pagetable sz : Nat) (n : Int) : Code (Int × Nat) := do
  if 0 < n then
    let r ← uvmalloc K pagetable sz (addInt sz n) pteW
    if r = 0 then return (-1, sz) else return (0, r)
  else if n < 0 then
    let r ← uvmdealloc K pagetable sz (addInt sz n)
    return (0, r)
  else return (0, sz)

def userByte (us : List UserPage) (m : Bytes) (va : Nat) : Option UInt8 :=
  us[va / pgSize]?.map fun u => m (u.pa + va % pgSize)

/-- Memory was grown or shrunk from `sz` to `sz'`: exactly the pages for `sz'` are mapped, what
is below both sizes is as it was, and pages that were not there are zero. -/
structure Resized (K : Image) (pt sz tf : Nat) (us : List UserPage) (s : Phys) (sz' : Nat)
    (us' : List UserPage) (t : Phys) : Prop where
  space : ∃ L Q, AddrSpace K t L pt sz' tf us' Q
  mapped : ∀ v < nUser, leafPte pt t v &&& pteV ≠ 0 ↔ v * pgSize < pgRoundUp sz'
  kept : ∀ va < min sz sz', userByte us' t.mem va = userByte us s.mem va
  zero : ∀ va, us.length ≤ va / pgSize → va / pgSize < us'.length →
    userByte us' t.mem va = some 0

/-- What `growproc` of `n` is to do: it succeeds and the size has changed by `n`, or it fails
and nothing has changed. -/
def GrowsBy (K : Image) (pt sz tf : Nat) (us : List UserPage) (s : Phys) (n : Int)
    (r : Int × Nat) (t : Phys) : Prop :=
  r.1 = 0 ∧ (r.2 : Int) = sz + n ∧ (∃ us', Resized K pt sz tf us s r.2 us' t) ∨
    r.1 = -1 ∧ r.2 = sz ∧ (∃ L Q, AddrSpace K t L pt sz tf us Q) ∧
      ∀ va, userByte us t.mem va = userByte us s.mem va

section

variable {K : Image} {s t : Phys} {L : List Nat} {pt sz tf : Nat} {us : List UserPage}
  {Q : Multiset Nat} {n : Int}

/-- The pages of an address space are the ones that its table maps. -/
theorem AddrSpace.mapped (h : AddrSpace K s L pt sz tf us Q) {v : Nat} (hv : v < nUser) :
    leafPte pt s v &&& pteV ≠ 0 ↔ v * pgSize < pgRoundUp sz := by
  have hsmall := h.space.small h.size
  have hend : v < vpnEnd := hv.trans (by decide)
  rw [h.space.owns.table.leafPte hend, pgRoundUp_eq (by simp only [pgSize]; omega), ← h.size,
    Nat.mul_lt_mul_right (by decide)]
  constructor
  · intro hne
    by_contra hge
    rw [withUser_of_ge (by omega), upper_below K tf v hv] at hne
    exact hne rfl
  · intro hlt
    rw [withUser_of_lt hlt]
    exact (h.space.users _ (List.getElem_mem hlt)).isLeaf.valid

theorem userByte_agree {F : Multiset Nat} (h : AgreeOff pgSize F s.mem t.mem)
    (hF : ∀ p ∈ F, pgSize ∣ p) (hus : ∀ u ∈ us, pgSize ∣ u.pa ∧ u.pa ∉ F) (va : Nat) :
    userByte us t.mem va = userByte us s.mem va := by
  unfold userByte
  cases hu : us[va / pgSize]? with
  | none => rfl
  | some u =>
    obtain ⟨hal, hnot⟩ := hus u (List.mem_of_getElem? hu)
    have hmod : va % pgSize < pgSize := Nat.mod_lt _ (by decide)
    rw [Option.map_some, Option.map_some, h.block hF hal hnot ⟨Nat.le_add_right _ _, by omega⟩]

theorem Space.disjoint {g : Nat → Nat} (h : Space K s L pt us g Q) {u : UserPage} (hu : u ∈ us) :
    pgSize ∣ u.pa ∧ u.pa ∉ ↑L + Q := by
  have hmem : u.pa ∈ pagesOf us := mem_pagesOf.mpr ⟨u, hu, rfl⟩
  refine ⟨h.aligned (Multiset.mem_add.mpr (.inr hmem)), fun hc => ?_⟩
  exact Multiset.disjoint_left.mp (Multiset.nodup_add.mp h.nodup).2.2 hc hmem

theorem div_lt_npages {va : Nat} (h : va < sz) : va / pgSize < npages sz := by
  simp only [npages, pgSize]
  omega

theorem Grown.old_byte {g : Nat → Nat} {L' : List Nat} {Q' : Multiset Nat} {xperm va : Nat}
    {new : List UserPage} (hg : Grown K L pt us g Q xperm new s L' Q' t)
    (h : Space K s L pt us g Q) (hva : va / pgSize < us.length) :
    userByte (us ++ new) t.mem va = userByte us s.mem va := by
  rw [← userByte_agree hg.agree h.owns.aligned (fun u hu => h.disjoint hu) va]
  unfold userByte
  rw [List.getElem?_append_left hva]

theorem Grown.new_byte {g : Nat → Nat} {L' : List Nat} {Q' : Multiset Nat} {xperm va : Nat}
    {new : List UserPage} (hg : Grown K L pt us g Q xperm new s L' Q' t)
    (hlo : us.length ≤ va / pgSize) (hhi : va / pgSize < (us ++ new).length) :
    userByte (us ++ new) t.mem va = some 0 := by
  have hnew : va / pgSize - us.length < new.length := by
    rw [List.length_append] at hhi
    omega
  have hmod : va % pgSize < pgSize := Nat.mod_lt _ (by decide)
  unfold userByte
  rw [List.getElem?_append_right hlo, List.getElem?_eq_getElem hnew, Option.map_some,
    hg.zero _ (List.getElem_mem hnew) _ ⟨Nat.le_add_right _ _, by omega⟩]

theorem AddrSpace.grown {L' : List Nat} {Q' : Multiset Nat} {xperm sz' : Nat}
    {new : List UserPage} (h : AddrSpace K s L pt sz tf us Q)
    (hg : Grown K L pt us (upper K tf) Q xperm new s L' Q' t)
    (hlen : us.length + new.length = npages sz') : Resized K pt sz tf us s sz' (us ++ new) t := by
  have hspace : AddrSpace K t L' pt sz' tf (us ++ new) Q' := by
    refine ⟨hg.space, by rw [List.length_append, hlen], h.frame, ?_⟩
    have hall : ↑L + Q + pagesOf us = ↑L' + Q' + pagesOf (us ++ new) := by
      rw [hg.total, pagesOf_append]
      abel
    exact hall ▸ h.apart
  refine ⟨⟨L', Q', hspace⟩, fun v hv => hspace.mapped hv, fun va hva => ?_,
    fun va hlo hhi => hg.new_byte hlo hhi⟩
  apply hg.old_byte h.space
  rw [h.size]
  exact div_lt_npages (by omega)

/-- The pages at the end of user memory were freed. -/
theorem AddrSpace.shrunk {sz' : Nat} (h : AddrSpace K s L pt sz tf us Q) (hle : sz' ≤ sz)
    (hs : Shrunk K L pt us (upper K tf) Q (npages sz') s t) :
    Resized K pt sz tf us s sz' (us.take (npages sz')) t := by
  obtain ⟨L', hspace', hL', hagree⟩ := hs
  have hnp : npages sz' ≤ us.length := h.size ▸ npages_mono hle
  have hall : ↑L + Q + pagesOf us = ↑L' + Q + pagesOf (us.take (npages sz')) := by
    rw [hL', ← pagesOf_take_drop us (npages sz')]
    abel
  have hspace : AddrSpace K t L' pt sz' tf (us.take (npages sz')) Q := by
    refine ⟨hspace', by rw [List.length_take, Nat.min_eq_left hnp], h.frame, hall ▸ h.apart⟩
  refine ⟨⟨L', Q, hspace⟩, fun v hv => hspace.mapped hv, fun va hva => ?_, fun va hlo hhi => ?_⟩
  · have hin : va / pgSize < npages sz' := div_lt_npages (by omega)
    -- the freed pages are on the free list now
    have hsub : Q + pagesOf (us.drop (npages sz')) ⊆ ↑L' + Q := by
      rw [hL', add_comm Q]
      exact Multiset.subset_of_le (add_le_add_left (Multiset.le_add_left _ _) _)
    rw [userByte_agree (hagree.mono hsub) hspace.space.owns.aligned
      (fun u hu => hspace.space.disjoint hu) va]
    unfold userByte
    rw [List.getElem?_take_of_lt hin]
  · rw [List.length_take] at hhi
    omega

theorem addInt_eq (hsz : sz < 2 ^ 38) (hn : n < 2 ^ 31) (h : 0 ≤ sz + n) :
    (addInt sz n : Int) = sz + n := by
  unfold addInt
  omega

theorem growproc_spec (h : AddrSpace K s L pt sz tf us Q) (hn : n < 2 ^ 31)
    (hnew : 0 ≤ sz + n) : Does (growproc K pt sz n) (GrowsBy K pt sz tf us s n) s := by
  have hsmall := h.space.small h.size
  have hsum := addInt_eq hsmall hn hnew
  unfold growproc
  refine Does.ite (fun hpos => ?_) fun hnpos => Does.ite (fun hneg => ?_) fun hnneg => ?_
  · rw [Does.bind]
    refine (uvmalloc_spec h.space h.size (by decide)).mono fun r t hr => ?_
    cases hr with
    | less hlt => omega
    | grown hle hr hlen hg =>
      rw [if_neg (by omega), Does.pure]
      exact .inl ⟨rfl, hr ▸ hsum, _, h.grown hg (hr ▸ hlen)⟩
    | failed hle hr hu =>
      rw [if_pos hr, Does.pure]
      have htotal := hu.total
      have hagree := hu.agree
      simp only [pagesOf, List.map_nil, Multiset.coe_nil, add_zero] at htotal hagree
      refine .inr ⟨rfl, rfl, ⟨_, _, hu.space, h.size, h.frame, htotal ▸ h.apart⟩, fun va => ?_⟩
      exact userByte_agree hagree h.space.owns.aligned (fun u hu => h.space.disjoint hu) va
  · rw [Does.bind]
    refine (uvmdealloc_spec h.space h.size).mono fun r t hr => ?_
    obtain ⟨hr, hs⟩ := hr
    rw [Does.pure]
    have hmin : r = addInt sz n := by omega
    exact .inl ⟨rfl, hmin ▸ hsum, _, h.shrunk (by omega) hs⟩
  · obtain rfl : n = 0 := by omega
    rw [Does.pure]
    refine .inl ⟨rfl, by simp, us, ⟨L, Q, h⟩, fun v hv => h.mapped hv, fun _ _ => rfl, ?_⟩
    intro va hlo hhi
    omega

/-- Whatever the increment, the pages of the process and the free ones are those of before. -/
theorem growproc_pages (h : AddrSpace K s L pt sz tf us Q) :
    Does (growproc K pt sz n) (fun r t => ∃ L' us' Q', AddrSpace K t L' pt r.2 tf us' Q' ∧
      ↑L + Q + pagesOf us = ↑L' + Q' + pagesOf us' ∧
      AgreeOff pgSize (↑L + Q + pagesOf us) s.mem t.mem) s := by
  unfold growproc
  refine Does.ite (fun _ => ?_) fun _ => Does.ite (fun _ => ?_) fun _ => ?_
  · rw [Does.bind]
    refine (h.uvmalloc (by decide)).mono fun r t hr => ?_
    obtain ⟨new, L', Q', hspace, htotal, hagree⟩ := hr
    have hall : ↑L + Q + pagesOf us = ↑L' + Q' + pagesOf (us ++ new) := by
      rw [htotal, pagesOf_append]
      abel
    have hagree' := hagree.mono (Multiset.subset_of_le (Multiset.le_add_right _ (pagesOf us)))
    refine Does.ite (fun hr => ?_) fun hr => ?_
    · rw [Does.pure]
      rw [if_pos hr] at hspace
      exact ⟨L', us ++ new, Q', hspace, hall, hagree'⟩
    · rw [Does.pure]
      rw [if_neg hr] at hspace
      exact ⟨L', us ++ new, Q', hspace, hall, hagree'⟩
  · rw [Does.bind]
    refine (uvmdealloc_spec h.space h.size).mono fun r t hr => ?_
    obtain ⟨hr, L', hspace, hL', hagree⟩ := hr
    have hnp : npages r ≤ us.length := h.size ▸ npages_mono (hr ▸ Nat.min_le_left _ _)
    have hall : ↑L + Q + pagesOf us = ↑L' + Q + pagesOf (us.take (npages r)) := by
      rw [hL', ← pagesOf_take_drop us (npages r)]
      abel
    rw [Does.pure]
    refine ⟨L', us.take (npages r), Q, ⟨hspace, ?_, h.frame, hall ▸ h.apart⟩, hall, hagree.mono ?_⟩
    · rw [List.length_take, Nat.min_eq_left hnp]
    · rw [← pagesOf_take_drop us (npages r), add_assoc]
      exact Multiset.subset_of_le ((add_le_add_right (Multiset.le_add_left _ _) Q).trans
        (Multiset.le_add_left _ _))
  · rw [Does.pure]
    exact ⟨L, us, Q, h, rfl, AgreeOff.refl _⟩

/-- An increment that would make the size negative succeeds and does nothing. -/
theorem growproc_below (h : AddrSpace K s L pt sz tf us Q) (hlo : -2 ^ 31 ≤ n)
    (hnew : sz + n < 0) : Does (growproc K pt sz n) (fun r t => r = (0, sz) ∧ t = s) s := by
  have hsmall := h.space.small h.size
  have hwrap : sz ≤ addInt sz n := by
    unfold addInt
    omega
  unfold growproc
  rw [if_neg (by omega), if_pos (by omega), Does.bind, uvmdealloc, if_pos hwrap, Does.pure,
    Does.pure]
  exact ⟨rfl, rfl⟩

/-- `growproc` does what it reports, whatever the allocator answers, exactly if the new size is
not below zero. -/
theorem growproc_reports_iff (h : AddrSpace K s L pt sz tf us Q) (hlo : -2 ^ 31 ≤ n)
    (hhi : n < 2 ^ 31) : Does (growproc K pt sz n) (GrowsBy K pt sz tf us s n) s ↔ 0 ≤ sz + n := by
  refine ⟨fun hdoes => ?_, fun hnew => growproc_spec h hhi hnew⟩
  by_contra hneg
  obtain ⟨r, t, vs, heq, hr⟩ := hdoes.result
  obtain ⟨r', t', vs', heq', hr', -⟩ := (growproc_below h hlo (by omega)).result
  rw [heq] at heq'
  cases heq'
  rw [hr'] at hr
  rcases hr with ⟨-, hsum, -⟩ | ⟨hfail, -⟩
  · dsimp only at hsum
    omega
  · cases hfail

end

theorem growproc_reports_iff_page : ∃ us,
    Does (growproc sixteenPages (physTop - 2 * pgSize) pgSize 1)
      (GrowsBy sixteenPages (physTop - 2 * pgSize) pgSize (physTop - pgSize) us firstKern.phys 1)
      firstKern.phys := by
  obtain ⟨L, us, Q, ha⟩ := firstKern_space
  exact ⟨us, (growproc_reports_iff ha (by decide) (by decide)).mpr (by decide)⟩

/-- A process of one page gives back two: `growproc` returns 0, and the size is still a page. -/
theorem growproc_below_zero : ∃ L us Q,
    AddrSpace sixteenPages firstKern.phys L (physTop - 2 * pgSize) pgSize (physTop - pgSize) us Q ∧
    (growproc sixteenPages (physTop - 2 * pgSize) pgSize (-8192) firstKern.phys).result.toOption =
      some (0, pgSize) ∧ (pgSize : Int) ≠ pgSize + (-8192) := by
  obtain ⟨L, us, Q, ha⟩ := firstKern_space
  refine ⟨L, us, Q, ha, ?_, by decide⟩
  decide +kernel

end Xv6.Vm
