import Xv6.Kernel.Vm.Table

/-! # User memory

The user part of an address space is the list of its pages from address 0 on. The
entries above it, the trapframe and the trampoline, are left alone by the functions that
grow, shrink and copy user memory.
-/

namespace Xv6.Vm

open Lib Radix

structure UserPage where
  pa : Nat
  flags : Nat

def UserPage.pte (u : UserPage) : Nat := pa2pte u.pa ||| u.flags

structure UserPage.Ok (K : Image) (u : UserPage) : Prop where
  page : IsPage K u.pa
  flags_lt : u.flags < 2 ^ 10
  valid : u.flags &&& pteV ≠ 0
  readable : u.flags &&& pteR ≠ 0

/-- The first page number that is not for user memory. -/
def nUser : Nat := trapframeVa / pgSize

/-- The entries `g` with the user pages `us` from 0 on. -/
def withUser (us : List UserPage) (g : Nat → Nat) (v : Nat) : Nat :=
  match us[v]? with
  | some u => u.pte
  | none => g v

def pagesOf (us : List UserPage) : Multiset Nat := ↑(us.map UserPage.pa)

/-- The table at `pt` has the user pages `us` and the entries `g` above them. -/
structure Space (K : Image) (s : Phys) (L : List Nat) (pt : Nat) (us : List UserPage)
    (g : Nat → Nat) (Q : Multiset Nat) : Prop where
  owns : Owns K s L pt (withUser us g) Q
  users : ∀ u ∈ us, u.Ok K
  above : ∀ v < nUser, g v = 0
  nodup : (↑L + Q + pagesOf us).Nodup

def npages (sz : Nat) : Nat := (sz + pgSize - 1) / pgSize

variable {K : Image} {s t : Phys} {L : List Nat} {pt n : Nat} {us : List UserPage}
  {u : UserPage} {g : Nat → Nat} {Q : Multiset Nat}

theorem UserPage.Ok.pte2pa (h : u.Ok K) : pte2pa u.pte = u.pa :=
  pte2pa_or h.page.aligned h.page.lt h.flags_lt

theorem UserPage.Ok.pteFlags (h : u.Ok K) : pteFlags u.pte = u.flags := pteFlags_or h.flags_lt

theorem UserPage.Ok.pte_lt (h : u.Ok K) : u.pte < 256 ^ 8 := Vm.pte_lt h.page.lt h.flags_lt

theorem UserPage.Ok.isLeaf (h : u.Ok K) : IsLeaf u.pte where
  valid := by
    rw [and_flags (by decide), h.pteFlags]
    exact h.valid
  flags := by
    rw [h.pteFlags]
    intro heq
    exact h.readable (by rw [heq]; rfl)

/-! ## Lists of pages as entries -/

theorem withUser_nil (g : Nat → Nat) : withUser [] g = g := by
  funext v
  simp [withUser]

theorem withUser_of_lt {v : Nat} (hv : v < us.length) : withUser us g v = us[v].pte := by
  simp [withUser, hv]

theorem withUser_of_ge {v : Nat} (hv : us.length ≤ v) : withUser us g v = g v := by
  simp [withUser, hv]

theorem withUser_snoc (us : List UserPage) (u : UserPage) (g : Nat → Nat) :
    withUser (us ++ [u]) g = upd (withUser us g) us.length u.pte := by
  funext v
  by_cases hv : v = us.length
  · subst hv
    simp [withUser]
  · rw [upd_other hv]
    unfold withUser
    by_cases hlt : v < us.length
    · rw [List.getElem?_append_left hlt]
    · rw [List.getElem?_eq_none (by simp; omega), List.getElem?_eq_none (by omega)]

theorem withUser_take (hlen : us.length ≤ nUser) (hg : ∀ v < nUser, g v = 0) (hn : n ≤ us.length) :
    cleared (withUser us g) n (us.length - n) = withUser (us.take n) g := by
  funext v
  unfold cleared
  split
  · rw [withUser_of_ge (by simp; omega), hg v (by omega)]
  · by_cases hv : v < n
    · rw [withUser_of_lt (by omega), withUser_of_lt (by simp; omega)]
      simp
    · rw [withUser_of_ge (by omega), withUser_of_ge (by simp; omega)]

theorem frames_withUser (hus : ∀ u ∈ us, u.Ok K) (hn : n ≤ us.length) :
    frames (withUser us g) n (us.length - n) = (us.drop n).map UserPage.pa := by
  apply List.ext_getElem
  · simp [frames]
  · intro i hi hi'
    simp only [frames, List.length_map, List.length_range] at hi
    simp only [frames, List.getElem_map, List.getElem_range, List.getElem_drop]
    rw [withUser_of_lt (by omega)]
    exact (hus _ (List.getElem_mem _)).pte2pa

theorem pagesOf_append (us us' : List UserPage) :
    pagesOf (us ++ us') = pagesOf us + pagesOf us' := by
  simp [pagesOf]

theorem pagesOf_take_drop (us : List UserPage) (n : Nat) :
    pagesOf (us.take n) + pagesOf (us.drop n) = pagesOf us := by
  rw [← pagesOf_append, List.take_append_drop]

theorem mem_pagesOf {p : Nat} : p ∈ pagesOf us ↔ ∃ u ∈ us, u.pa = p := by
  simp [pagesOf]

theorem Space.isPage (h : Space K s L pt us g Q) {p : Nat} (hp : p ∈ ↑L + Q + pagesOf us) :
    IsPage K p := by
  rcases Multiset.mem_add.mp hp with hp | hp
  · exact h.owns.isPage hp
  · obtain ⟨u, hu, rfl⟩ := mem_pagesOf.mp hp
    exact (h.users u hu).page

/-- There are fewer pages than page numbers for user memory. -/
theorem Space.room (h : Space K s L pt us g Q) : us.length + L.length ≤ nPages K := by
  have hle : ↑L + pagesOf us ≤ (allPages K : Multiset Nat) := by
    have hnd := h.nodup
    rw [add_right_comm, Multiset.nodup_add] at hnd
    refine (Multiset.le_iff_subset hnd.1).mpr fun p hp => mem_allPages.mpr (h.isPage ?_)
    rw [add_right_comm]
    exact Multiset.mem_add.mpr (.inl hp)
  have hcard := Multiset.card_le_card hle
  simp only [Multiset.card_add, pagesOf, Multiset.coe_card, List.length_map, allPages,
    List.length_range] at hcard
  omega

theorem nPages_lt_nUser (K : Image) : nPages K < nUser := by
  have := nPages_lt K
  simp only [nUser, trapframeVa, trampolineVa, maxVa, pgSize] at *
  omega

theorem Space.length_lt (h : Space K s L pt us g Q) : us.length < nUser := by
  have := h.room
  have := nPages_lt_nUser K
  omega

theorem nUser_lt : nUser * pgSize < maxVa := by decide

/-! ## Shrinking -/

/-- What remains when the pages from `n` on have been freed. -/
def Shrunk (K : Image) (L : List Nat) (pt : Nat) (us : List UserPage) (g : Nat → Nat)
    (Q : Multiset Nat) (n : Nat) (s t : Phys) : Prop :=
  ∃ L', Space K t L' pt (us.take n) g Q ∧ (L' : Multiset Nat) = ↑L + pagesOf (us.drop n) ∧
    AgreeOff pgSize (Q + pagesOf (us.drop n)) s.mem t.mem

theorem Space.shrunk_all (h : Space K s L pt us g Q) : Shrunk K L pt us g Q us.length s s := by
  refine ⟨L, ?_, ?_, AgreeOff.refl _⟩
  · rwa [List.take_length]
  · simp [pagesOf]

theorem Space.unmap (h : Space K s L pt us g Q) (hn : n ≤ us.length) :
    Does (uvmunmap K pt (n * pgSize) (us.length - n) true)
      (fun _ => Shrunk K L pt us g Q n s) s := by
  have hlen := h.length_lt
  have hframes := frames_withUser (g := g) h.users hn
  have hsplit := pagesOf_take_drop us n
  have hdrop : ∀ p ∈ (us.drop n).map UserPage.pa, IsPage K p := by
    intro p hp
    obtain ⟨u, hu, rfl⟩ := List.mem_map.mp hp
    exact (h.users u (List.mem_of_mem_drop hu)).page
  have hrange : (n + (us.length - n)) * pgSize ≤ maxVa := by
    rw [Nat.add_sub_cancel' hn]
    exact Nat.le_of_lt
      (Nat.lt_of_le_of_lt (Nat.mul_le_mul_right _ (Nat.le_of_lt hlen)) nUser_lt)
  have hspec : Does (uvmunmap K pt (n * pgSize) (us.length - n) true) _ s := uvmunmap_free h.owns
    hrange
    (fun i hi => by
      rw [withUser_of_lt (by omega)]
      exact (h.users _ (List.getElem_mem _)).isLeaf)
    (by rwa [hframes])
    (by
      rw [hframes]
      refine Multiset.nodup_of_le ?_ h.nodup
      rw [← hsplit, add_comm (pagesOf (us.take n))]
      exact add_le_add_right (Multiset.le_add_right _ _) _)
  rw [hframes] at hspec
  refine hspec.mono fun _ t ht => ?_
  obtain ⟨L', howns, hL', hagree⟩ := ht
  rw [withUser_take (Nat.le_of_lt hlen) h.above hn] at howns
  refine ⟨L', ⟨howns, fun u hu => h.users u (List.mem_of_mem_take hu), h.above, ?_⟩, hL', hagree⟩
  have hnd := h.nodup
  have heq : ↑L + Q + (pagesOf (us.take n) + pagesOf (us.drop n)) =
      ↑L + pagesOf (us.drop n) + Q + pagesOf (us.take n) := by abel
  rw [← hsplit, heq] at hnd
  rwa [hL']

theorem pgRoundUp_eq {sz : Nat} (h : sz + pgSize ≤ 2 ^ 64) : pgRoundUp sz = npages sz * pgSize := by
  rw [pgRoundUp, npages, Nat.mod_eq_of_lt (by simp only [pgSize] at *; omega)]

theorem throughInt_eq {x : Nat} (h : x < 2 ^ 31) : throughInt x = x := by
  have hmsb : (BitVec.ofNat 32 x).msb = false := by
    rw [BitVec.msb_eq_decide]
    simp
    omega
  rw [throughInt, BitVec.signExtend_eq_setWidth_of_msb_false hmsb]
  simp
  omega

theorem Space.small (h : Space K s L pt us g Q) {sz : Nat} (hlen : us.length = npages sz) :
    sz < 2 ^ 38 := by
  have := h.length_lt
  simp only [npages, nUser, trapframeVa, trampolineVa, maxVa, pgSize] at *
  omega

theorem npages_mono {sz sz' : Nat} (h : sz ≤ sz') : npages sz ≤ npages sz' :=
  Nat.div_le_div_right (by omega)

theorem uvmdealloc_spec {oldsz newsz : Nat} (h : Space K s L pt us g Q)
    (hlen : us.length = npages oldsz) :
    Does (uvmdealloc K pt oldsz newsz) (fun r t =>
      r = min oldsz newsz ∧ Shrunk K L pt us g Q (npages r) s t) s := by
  have hsmall := h.small hlen
  unfold uvmdealloc
  refine Does.ite (fun hge => ?_) fun hlt => ?_
  · rw [Does.pure, Nat.min_eq_left hge, ← hlen]
    exact ⟨rfl, h.shrunk_all⟩
  · have hold : pgRoundUp oldsz = npages oldsz * pgSize :=
      pgRoundUp_eq (by simp only [pgSize]; omega)
    have hnew : pgRoundUp newsz = npages newsz * pgSize :=
      pgRoundUp_eq (by simp only [pgSize]; omega)
    have hle : npages newsz ≤ us.length := hlen ▸ npages_mono (by omega)
    have hmin : newsz = min oldsz newsz := (Nat.min_eq_right (by omega)).symm
    dsimp only
    refine Does.ite (fun hc => ?_) fun hc => ?_
    · have hcount : throughInt ((pgRoundUp oldsz - pgRoundUp newsz) / pgSize) =
          us.length - npages newsz := by
        rw [hold, hnew, ← Nat.sub_mul, Nat.mul_div_cancel _ (by decide), ← hlen, throughInt_eq]
        have := h.length_lt
        simp only [nUser, trapframeVa, trampolineVa, maxVa, pgSize] at *
        omega
      rw [hcount, hnew, Does.bind]
      refine (h.unmap hle).mono fun _ t ht => ?_
      rw [Does.pure]
      exact ⟨hmin, ht⟩
    · have heq : npages newsz = us.length := by
        rw [hold, hnew, ← hlen] at hc
        simp only [pgSize] at *
        omega
      rw [Does.pure, heq]
      exact ⟨hmin, h.shrunk_all⟩

/-! ## Growing by a page -/

/-- The space together with a page `c` that belongs to nobody yet. -/
structure Loose (K : Image) (s : Phys) (L : List Nat) (pt : Nat) (us : List UserPage)
    (g : Nat → Nat) (Q : Multiset Nat) (c : Nat) : Prop where
  owns : Owns K s L pt (withUser us g) Q
  users : ∀ u ∈ us, u.Ok K
  above : ∀ v < nUser, g v = 0
  page : IsPage K c
  nodup : (c ::ₘ (↑L + Q + pagesOf us)).Nodup

variable {c : Nat}

theorem Loose.space (h : Loose K s L pt us g Q c) : Space K s L pt us g Q :=
  ⟨h.owns, h.users, h.above, (Multiset.nodup_cons.mp h.nodup).2⟩

theorem Loose.fresh (h : Loose K s L pt us g Q c) : c ∉ ↑L + Q + pagesOf us :=
  (Multiset.nodup_cons.mp h.nodup).1

theorem Owns.write {f : Nat → Nat} (h : Owns K s L pt f Q) (hlist : t.freelist = s.freelist)
    (hm : AgreeOff pgSize {c} s.mem t.mem) (hc : pgSize ∣ c) (hcL : c ∉ ↑L + Q) :
    Owns K t L pt f Q := by
  rw [Multiset.mem_add, not_or, Multiset.mem_coe] at hcL
  have hal : ∀ p ∈ ({c} : Multiset Nat), pgSize ∣ p := by simpa using hc
  refine ⟨h.free.congr hlist hm hal ?_, h.table.frame hm hal ?_, h.nodup⟩
  · intro p hp hpc
    exact hcL.1 (Multiset.mem_singleton.mp hpc ▸ hp)
  · intro p hp hpc
    exact hcL.2 (Multiset.mem_singleton.mp hpc ▸ hp)

theorem Loose.write (h : Loose K s L pt us g Q c) (hlist : t.freelist = s.freelist)
    (hm : AgreeOff pgSize {c} s.mem t.mem) : Loose K t L pt us g Q c := by
  refine ⟨h.owns.write hlist hm h.page.aligned ?_, h.users, h.above, h.page, h.nodup⟩
  exact fun hc => h.fresh (Multiset.mem_add.mpr (.inl hc))

theorem Space.kalloc (h : Space K s L pt us g Q) :
    Does kalloc (fun r t => L = [] ∧ r = 0 ∧ t = s ∨
      ∃ L', L = r :: L' ∧ Loose K t L' pt us g Q r ∧ AgreeOff pgSize {r} s.mem t.mem) s := by
  refine (kalloc_spec h.owns.free).mono fun c t hc => hc.imp_right fun hc => ?_
  obtain ⟨L', rfl, htook⟩ := hc
  have hnd := h.nodup
  rw [← Multiset.cons_coe, Multiset.cons_add, Multiset.cons_add] at hnd
  have hfresh := (Multiset.nodup_cons.mp hnd).1
  have hcQ : c ∉ Q := fun hc => hfresh (by simp [hc])
  refine ⟨L', rfl, ⟨⟨htook.free, ?_, ?_⟩, h.users, h.above, htook.page, hnd⟩, htook.agree⟩
  · refine h.owns.table.frame htook.agree (by simpa using htook.page.aligned) fun p hp hpc => ?_
    exact hcQ (Multiset.mem_singleton.mp hpc ▸ hp)
  · exact (Multiset.nodup_add.mp (Multiset.nodup_cons.mp hnd).2).1

theorem Loose.map {perm : Nat} (h : Loose K s L pt us g Q c) (hlt : perm < 2 ^ 10)
    (hR : perm &&& pteR ≠ 0) :
    Does (mappages pt (us.length * pgSize) pgSize c perm) (fun r t => ∃ L' Q',
      Moved L Q s L' Q' t ∧ (r = 0 ∧ Space K t L' pt (us ++ [⟨c, perm ||| pteV⟩]) g Q' ∨
        r = -1 ∧ Loose K t L' pt us g Q' c)) s := by
  have hlen := h.space.length_lt
  have hdiv : us.length * pgSize / pgSize = us.length := Nat.mul_div_cancel _ (by decide)
  have hva : us.length * pgSize < maxVa :=
    Nat.lt_of_le_of_lt (Nat.mul_le_mul_right _ (Nat.le_of_lt hlen)) nUser_lt
  have hflags : perm ||| pteV < 2 ^ 10 := Nat.or_lt_two_pow hlt (by decide)
  have hu : UserPage.Ok K ⟨c, perm ||| pteV⟩ := by
    refine ⟨h.page, hflags, ?_, ?_⟩
    · intro heq
      have := congrArg (Nat.testBit · 0) heq
      simp [pteV] at this
    · intro heq
      apply hR
      apply Nat.eq_of_testBit_eq
      intro i
      have := congrArg (Nat.testBit · i) heq
      simp only [Nat.testBit_and, Nat.testBit_or, Nat.zero_testBit, Bool.and_eq_false_iff,
        Bool.or_eq_false_iff] at this ⊢
      tauto
  have hzero : withUser us g (us.length * pgSize / pgSize) = 0 := by
    rw [hdiv, withUser_of_ge (Nat.le_refl _)]
    exact h.above _ hlen
  have hpte := hu.pte_lt
  simp only [UserPage.pte, ← Nat.or_assoc] at hpte
  refine (mappages_page h.owns hva (Dvd.intro_left _ rfl) (by rw [hzero]; rfl) hpte).mono
    fun r t hr => ?_
  obtain ⟨L', Q', hmoved, hr⟩ := hr
  have hnd := h.nodup
  rw [hmoved.total] at hnd
  refine ⟨L', Q', hmoved, ?_⟩
  rcases hr with ⟨rfl, -, howns⟩ | ⟨rfl, howns⟩
  · exact .inr ⟨rfl, howns, h.users, h.above, h.page, hnd⟩
  · left
    rw [hdiv, Nat.or_assoc] at howns
    refine ⟨rfl, ?_, ?_, h.above, ?_⟩
    · rw [withUser_snoc]
      exact howns
    · intro u hmem
      rcases List.mem_append.mp hmem with hmem | hmem
      · exact h.users u hmem
      · rw [List.mem_singleton.mp hmem]
        exact hu
    · rw [pagesOf_append]
      rwa [show pagesOf [(⟨c, perm ||| pteV⟩ : UserPage)] = {c} from rfl, ← add_assoc, add_comm,
        Multiset.singleton_add]

theorem Loose.free (h : Loose K s L pt us g Q c) :
    Does (kfree K c) (fun _ t => Space K t (c :: L) pt us g Q ∧
      AgreeOff pgSize {c} s.mem t.mem) s := by
  have hfresh := h.fresh
  have hcL : c ∉ ↑L + Q := fun hc => hfresh (Multiset.mem_add.mpr (.inl hc))
  refine (kfree_spec h.owns.free h.page fun hc => hcL (Multiset.mem_add.mpr (.inl hc))).mono
    fun _ t ht => ?_
  obtain ⟨hfree, hagree⟩ := ht
  have hnd := h.nodup
  refine ⟨⟨⟨hfree, ?_, ?_⟩, h.users, h.above, ?_⟩, hagree⟩
  · refine h.owns.table.frame hagree (by simpa using h.page.aligned) fun p hp hpc => ?_
    exact hcL (Multiset.mem_add.mpr (.inr (Multiset.mem_singleton.mp hpc ▸ hp)))
  · rw [← Multiset.cons_coe, Multiset.cons_add, Multiset.nodup_cons]
    exact ⟨hcL, h.owns.nodup⟩
  · rwa [← Multiset.cons_coe, Multiset.cons_add, Multiset.cons_add]

/-! ## `uvmalloc` -/

theorem npages_mul (n : Nat) : npages (n * pgSize) = n := by
  simp only [npages, pgSize]
  omega

/-- The flags of a page that `uvmalloc` maps. -/
def allocFlags (xperm : Nat) : Nat := pteR ||| pteU ||| xperm ||| pteV

/-- User memory has grown by the cleared pages `new`. -/
structure Grown (K : Image) (L : List Nat) (pt : Nat) (us : List UserPage) (g : Nat → Nat)
    (Q : Multiset Nat) (xperm : Nat) (new : List UserPage) (s : Phys) (L' : List Nat)
    (Q' : Multiset Nat) (t : Phys) : Prop where
  space : Space K t L' pt (us ++ new) g Q'
  flags : ∀ u ∈ new, u.flags = allocFlags xperm
  zero : ∀ u ∈ new, ∀ a, InBlock pgSize u.pa a → t.mem a = 0
  total : ↑L + Q = ↑L' + Q' + pagesOf new
  agree : AgreeOff pgSize (↑L + Q) s.mem t.mem

/-- The pages `new` at the end of user memory are gone. -/
structure Undone (K : Image) (L : List Nat) (pt : Nat) (us new : List UserPage) (g : Nat → Nat)
    (Q : Multiset Nat) (s : Phys) (L' : List Nat) (Q' : Multiset Nat) (t : Phys) : Prop where
  space : Space K t L' pt us g Q'
  total : ↑L + Q + pagesOf new = ↑L' + Q'
  agree : AgreeOff pgSize (↑L + Q + pagesOf new) s.mem t.mem

theorem uvmdealloc_undo {new : List UserPage} (h : Space K s L pt (us ++ new) g Q) :
    Does (uvmdealloc K pt ((us ++ new).length * pgSize) (us.length * pgSize))
      (fun _ t => ∃ L', Undone K L pt us new g Q s L' Q t) s := by
  refine (uvmdealloc_spec h (npages_mul _).symm).mono fun r t hr => ?_
  obtain ⟨rfl, L', hspace, hL', hagree⟩ := hr
  have hmin : min ((us ++ new).length * pgSize) (us.length * pgSize) = us.length * pgSize :=
    Nat.min_eq_right (Nat.mul_le_mul_right _ (by simp))
  rw [hmin, npages_mul, List.drop_left] at hL' hagree
  rw [hmin, npages_mul, List.take_left] at hspace
  refine ⟨L', hspace, ?_, hagree.mono ?_⟩
  · rw [hL', add_right_comm]
  · rw [add_assoc]
    exact Multiset.subset_of_le (Multiset.le_add_left _ _)

theorem uvmallocFrom_spec {new : List UserPage} {newsz xperm k : Nat}
    (h : Space K s L pt (us ++ new) g Q) (hx : xperm < 2 ^ 10) :
    Does (uvmallocFrom K pt (us.length * pgSize) newsz xperm ((us ++ new).length * pgSize) k)
      (fun r t => r = newsz ∧ (∃ L' Q' new', new'.length = k ∧
          Grown K L pt (us ++ new) g Q xperm new' s L' Q' t) ∨
        r = 0 ∧ ∃ L' Q', Undone K L pt us new g Q s L' Q' t) s := by
  have hperm : pteR ||| pteU ||| xperm < 2 ^ 10 := Nat.or_lt_two_pow (by decide) hx
  have hR : (pteR ||| pteU ||| xperm) &&& pteR ≠ 0 := by
    have hbit : Nat.testBit ((pteR ||| pteU ||| xperm) &&& pteR) 1 = true := by
      rw [Nat.testBit_and, Nat.testBit_or, show Nat.testBit (pteR ||| pteU) 1 = true by decide]
      rfl
    intro heq
    simp [heq] at hbit
  induction k generalizing new s L Q with
  | zero =>
    rw [uvmallocFrom, Does.pure]
    refine .inl ⟨rfl, L, Q, [], rfl, ?_, by simp, by simp, by simp [pagesOf], AgreeOff.refl _⟩
    rwa [List.append_nil]
  | succ k ih =>
    rw [uvmallocFrom, Does.bind]
    refine h.kalloc.mono fun c t hc => ?_
    rcases hc with ⟨rfl, rfl, rfl⟩ | ⟨L₁, rfl, hloose, hagree⟩
    · rw [if_pos rfl, Does.bind]
      refine (uvmdealloc_undo h).mono fun _ u hu => ?_
      rw [Does.pure]
      exact .inr ⟨rfl, _, _, hu.choose_spec⟩
    · simp only [Nat.pos_iff_ne_zero.mp hloose.page.pos, if_false, Does.bind, does_memset]
      have hclear : AgreeOff pgSize {c} t.mem (splice t.mem c pgSize fun _ => 0) :=
        AgreeOff.splice (Multiset.mem_singleton_self c) (Nat.le_refl c) (Nat.le_refl _)
      have hloose₂ : Loose K { t with mem := splice t.mem c pgSize fun _ => 0 } L₁ pt (us ++ new)
          g Q c := hloose.write rfl hclear
      have hagree₂ : AgreeOff pgSize (↑(c :: L₁) + Q) s.mem (splice t.mem c pgSize fun _ => 0) :=
        (hagree.trans hclear).mono (by simp)
      have hcons : (↑(c :: L₁) + Q : Multiset Nat) = c ::ₘ (↑L₁ + Q) := by
        rw [← Multiset.cons_coe, Multiset.cons_add]
      refine (hloose₂.map hperm hR).mono fun r u hr => ?_
      obtain ⟨L₂, Q₂, hmoved, hr⟩ := hr
      have hagree₃ : AgreeOff pgSize (↑(c :: L₁) + Q) s.mem u.mem :=
        hagree₂.trans (hmoved.agree.mono (hcons ▸ Multiset.subset_cons _ _))
      rcases hr with ⟨rfl, hspace⟩ | ⟨rfl, hloose₃⟩
      · -- the page is mapped
        rw [if_neg (by decide)]
        have hnext : (us ++ new).length * pgSize + pgSize =
            (us ++ (new ++ [(⟨c, allocFlags xperm⟩ : UserPage)])).length * pgSize := by
          simp only [List.length_append, List.length_singleton]
          ring
        rw [hnext]
        change Space K u L₂ pt (us ++ new ++ [⟨c, allocFlags xperm⟩]) g Q₂ at hspace
        rw [List.append_assoc] at hspace
        refine (ih hspace).mono fun r w hr => ?_
        have hpages : pagesOf [(⟨c, allocFlags xperm⟩ : UserPage)] = {c} := rfl
        have hsub : ↑L₂ + Q₂ ⊆ ↑(c :: L₁) + Q := by
          rw [hcons, ← hmoved.total]
          exact Multiset.subset_cons _ _
        rcases hr with ⟨hr, L', Q', new', hlen, hgrown⟩ | ⟨hr, L', Q', hundone⟩
        · refine .inl ⟨hr, L', Q', ⟨c, allocFlags xperm⟩ :: new', by simp [hlen], ?_,
            ?_, ?_, ?_, ?_⟩
          · have := hgrown.space
            simpa using this
          · simpa using hgrown.flags
          · intro x hx a ha
            rcases List.mem_cons.mp hx with rfl | hx
            · have hc := hloose₂.fresh
              rw [Multiset.mem_add, not_or] at hc
              have hal : ∀ p ∈ ↑L₁ + Q, pgSize ∣ p := hloose₂.owns.aligned
              rw [hgrown.agree.block (hmoved.total ▸ hal) hloose.page.aligned
                (hmoved.total ▸ hc.1) ha, hmoved.agree.block hal hloose.page.aligned hc.1 ha]
              exact show splice t.mem c pgSize (fun _ => 0) a = 0 from splice_inside ha.1 ha.2
            · exact hgrown.zero x hx a ha
          · rw [hcons, hmoved.total, hgrown.total, ← List.singleton_append, pagesOf_append, hpages,
              ← Multiset.singleton_add]
            abel
          · exact hagree₃.trans (hgrown.agree.mono hsub)
        · have htotal : ↑L₂ + Q₂ + pagesOf (new ++ [⟨c, allocFlags xperm⟩]) =
              ↑(c :: L₁) + Q + pagesOf new := by
            rw [hcons, hmoved.total, pagesOf_append, hpages, ← Multiset.singleton_add]
            abel
          refine .inr ⟨hr, L', Q', hundone.space, htotal ▸ hundone.total, ?_⟩
          refine (hagree₃.mono ?_).trans (htotal ▸ hundone.agree)
          exact Multiset.subset_of_le (Multiset.le_add_right _ _)
      · -- no page for a table: the page goes back
        rw [if_pos (by decide), Does.bind]
        refine hloose₃.free.mono fun _ w hw => ?_
        obtain ⟨hspace, hagree₄⟩ := hw
        rw [Does.bind]
        refine (uvmdealloc_undo hspace).mono fun _ x hx => ?_
        rw [Does.pure]
        obtain ⟨L', hundone⟩ := hx
        have htotal : (↑(c :: L₁) + Q : Multiset Nat) = ↑(c :: L₂) + Q₂ := by
          rw [hcons, hmoved.total, ← Multiset.cons_coe, Multiset.cons_add]
        refine .inr ⟨rfl, L', Q₂, hundone.space, ?_, ?_⟩
        · rw [htotal]
          exact hundone.total
        · refine AgreeOff.trans ((hagree₃.trans (hagree₄.mono (by simp))).mono ?_) ?_
          · exact Multiset.subset_of_le (Multiset.le_add_right _ _)
          · rw [htotal]
            exact hundone.agree

/-- What `uvmalloc` does: nothing, or grow user memory to the pages of `newsz`, or nothing but
take pages for tables. -/
inductive Allocated (K : Image) (L : List Nat) (pt : Nat) (us : List UserPage) (g : Nat → Nat)
    (Q : Multiset Nat) (oldsz newsz xperm : Nat) (s : Phys) (r : Nat) (t : Phys) : Prop where
  | less : newsz < oldsz → r = oldsz → t = s → Allocated K L pt us g Q oldsz newsz xperm s r t
  | grown {L' Q' new} : oldsz ≤ newsz → r = newsz → us.length + new.length = npages newsz →
      Grown K L pt us g Q xperm new s L' Q' t → Allocated K L pt us g Q oldsz newsz xperm s r t
  | failed {L' Q'} : oldsz ≤ newsz → r = 0 → Undone K L pt us [] g Q s L' Q' t →
      Allocated K L pt us g Q oldsz newsz xperm s r t

theorem uvmalloc_spec {oldsz newsz xperm : Nat} (h : Space K s L pt us g Q)
    (hlen : us.length = npages oldsz) (hx : xperm < 2 ^ 10) :
    Does (uvmalloc K pt oldsz newsz xperm)
      (Allocated K L pt us g Q oldsz newsz xperm s) s := by
  have hsmall := h.small hlen
  unfold uvmalloc
  refine Does.ite (fun hlt => ?_) fun hge => ?_
  · rw [Does.pure]
    exact .less hlt rfl rfl
  · have hround : pgRoundUp oldsz = us.length * pgSize := by
      rw [hlen]
      exact pgRoundUp_eq (by simp only [pgSize]; omega)
    have hnil : Space K s L pt (us ++ []) g Q := by rwa [List.append_nil]
    have hspec : Does (uvmallocFrom K pt (us.length * pgSize) newsz xperm
        ((us ++ []).length * pgSize) ((newsz - us.length * pgSize + pgSize - 1) / pgSize)) _ s :=
      uvmallocFrom_spec hnil hx
    rw [List.append_nil] at hspec
    dsimp only
    rw [hround]
    refine hspec.mono fun r t hr => ?_
    rcases hr with ⟨rfl, L', Q', new, hk, hg⟩ | ⟨rfl, L', Q', hu⟩
    · refine .grown (by omega) rfl ?_ hg
      rw [hk, hlen]
      simp only [npages, pgSize] at *
      omega
    · exact .failed (by omega) rfl hu

/-- The space of size `sz` after a call of `uvmalloc`, with the pages `new` at its end. -/
structure Extended (K : Image) (L : List Nat) (pt : Nat) (us : List UserPage) (g : Nat → Nat)
    (Q : Multiset Nat) (xperm : Nat) (s : Phys) (sz : Nat) (new : List UserPage) (L' : List Nat)
    (Q' : Multiset Nat) (t : Phys) : Prop where
  space : Space K t L' pt (us ++ new) g Q'
  size : (us ++ new).length = npages sz
  flags : ∀ u ∈ new, u.flags = allocFlags xperm
  total : ↑L + Q = ↑L' + Q' + pagesOf new
  agree : AgreeOff pgSize (↑L + Q) s.mem t.mem

/-- A result of 0 leaves the size as it was; another is the new size. -/
theorem Allocated.extended {oldsz newsz xperm r : Nat} (h : Space K s L pt us g Q)
    (hlen : us.length = npages oldsz) (ha : Allocated K L pt us g Q oldsz newsz xperm s r t) :
    (r ≠ 0 → newsz ≤ r) ∧
      ∃ new L' Q', Extended K L pt us g Q xperm s (if r = 0 then oldsz else r) new L' Q' t := by
  cases ha with
  | less hlt hr ht =>
    subst hr ht
    refine ⟨fun _ => Nat.le_of_lt hlt, [], L, Q, ?_, ?_, by simp, by simp [pagesOf],
      AgreeOff.refl _⟩
    · rwa [List.append_nil]
    · rw [if_neg (by omega), List.append_nil]
      exact hlen
  | @grown L' Q' new hle hr hnew hg =>
    subst hr
    refine ⟨fun _ => Nat.le_refl _, new, L', Q', hg.space, ?_, hg.flags, hg.total, hg.agree⟩
    rw [List.length_append, hnew]
    split
    · congr 1
      omega
    · rfl
  | @failed L' Q' hle hr hu =>
    subst hr
    have htotal := hu.total
    have hagree := hu.agree
    simp only [pagesOf, List.map_nil, Multiset.coe_nil, add_zero] at htotal hagree
    refine ⟨fun hne => absurd rfl hne, [], L', Q', ?_, ?_, by simp, ?_, hagree⟩
    · rw [List.append_nil]
      exact hu.space
    · rw [if_pos rfl, List.append_nil]
      exact hlen
    · rw [htotal]
      simp [pagesOf]

end Xv6.Vm
