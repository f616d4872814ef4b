import Xv6.Kernel.Vm.Table

/-! # Page tables as partial maps

What a page table means is read off with `walk`: the entry it finds for a page number.
For every table that is made by `uvmcreate` and changed by `mappages` and `uvmunmap`
these two functions are an extension and a restriction of that map, and `walkaddr` is
its lookup.
-/

namespace Xv6.Vm

open Lib Radix

/-- The number of pages below `MAXVA`. -/
def vpnEnd : Nat := maxVa / pgSize

/-- The entry that `walk` finds for page number `v`, and 0 if there is no table for it. -/
def leafPte (pt : Nat) (s : Phys) (v : Nat) : Nat :=
  match (walk pt (v * pgSize) false s).result with
  | .ok r => if r = 0 then 0 else getLE s.mem r 8
  | .error _ => 0

def withMapped (f : Nat → Nat) (v₀ n pa perm : Nat) : Nat → Nat := fun v =>
  if v₀ ≤ v ∧ v < v₀ + n then pa2pte (pa + (v - v₀) * pgSize) ||| perm ||| pteV else f v

def rangePages (va size : Nat) : Nat := (va + size - 1) / pgSize - va / pgSize + 1

section

variable {K : Image} {s t : Phys} {L : List Nat} {pt va v v₀ n pa perm : Nat}
  {f : Nat → Nat} {Q : Multiset Nat}

theorem lt_maxVa_of_vpn (hv : v < vpnEnd) : v * pgSize < maxVa := by
  simp only [vpnEnd, maxVa, pgSize] at *
  omega

theorem vpnEnd_le : vpnEnd ≤ nVpn := by decide

/-- The map is the one the tables hold. -/
theorem Table.leafPte (h : Table K s.mem pt f Q) (hv : v < vpnEnd) : leafPte pt s v = f v := by
  have hdiv : v * pgSize / pgSize = v := Nat.mul_div_cancel _ (by decide)
  have hlook : Does (walk pt (v * pgSize) false) _ s := walk_lookup h (lt_maxVa_of_vpn hv)
  obtain ⟨r, t, vs, heq, rfl, hr⟩ := hlook.result
  rw [hdiv] at hr
  simp only [Vm.leafPte, heq]
  rcases hr with ⟨rfl, hf⟩ | he
  · rw [if_pos rfl, hf]
  · rw [if_neg he.pos]
    exact he.load (Nat.lt_of_lt_of_le hv vpnEnd_le)

theorem vpn_mul (v : Nat) : v * pgSize / pgSize = v := Nat.mul_div_cancel _ (by decide)

theorem entry_lt (hpa : pa < 2 ^ 64) (hperm : perm < 2 ^ 10) :
    pa2pte pa ||| perm ||| pteV < 256 ^ 8 := by
  rw [Nat.or_assoc]
  exact pte_lt hpa (Nat.or_lt_two_pow hperm (by decide))

/-! ## Mapping a range -/

theorem withMapped_zero : withMapped f v₀ 0 pa perm = f := by
  funext v
  rw [withMapped, if_neg (by omega)]

theorem withMapped_succ {k : Nat} :
    withMapped (upd f v₀ (pa2pte pa ||| perm ||| pteV)) (v₀ + 1) k (pa + pgSize) perm =
      withMapped f v₀ (k + 1) pa perm := by
  funext v
  simp only [withMapped]
  by_cases hv : v = v₀
  · subst hv
    rw [if_neg (by omega), upd_same, if_pos (by omega), Nat.sub_self, Nat.zero_mul, Nat.add_zero]
  · rw [upd_other hv]
    by_cases hin : v₀ + 1 ≤ v ∧ v < v₀ + 1 + k
    · have haddr : pa + pgSize + (v - (v₀ + 1)) * pgSize = pa + (v - v₀) * pgSize := by
        rw [show v - v₀ = v - (v₀ + 1) + 1 by omega, Nat.add_mul, Nat.one_mul]
        omega
      rw [if_pos hin, if_pos (by omega), haddr]
    · rw [if_neg hin, if_neg (by omega)]

/-- What the loop of `mappages` has done when it returns `r`: `k` of `n` pages are mapped. -/
structure MappedTo (K : Image) (L : List Nat) (pt : Nat) (f : Nat → Nat) (Q : Multiset Nat)
    (v₀ n pa perm : Nat) (s : Phys) (r : Int) (t : Phys) (k : Nat) (L' : List Nat)
    (Q' : Multiset Nat) : Prop where
  moved : Moved L Q s L' Q' t
  owns : Owns K t L' pt (withMapped f v₀ k pa perm) Q'
  code : r = 0 ∧ k = n ∨ r = -1 ∧ k < n ∧ L' = []

/-- The loop of `mappages` stops only if a page is mapped already. -/
theorem mapFrom_spec {fuel : Nat} (h : Owns K s L pt f Q) (hrange : v₀ + n < vpnEnd)
    (hfuel : n < fuel) (hpa : pa + n * pgSize < 2 ^ 64) (hperm : perm < 2 ^ 10) :
    Comp.wp (fun _ => True) (mapFrom pt ((v₀ + n) * pgSize) perm fuel (v₀ * pgSize) pa)
      (fun r t => ∃ k L' Q', MappedTo K L pt f Q v₀ (n + 1) pa perm s r t k L' Q')
      (fun _ _ => ∃ i ≤ n, f (v₀ + i) &&& pteV ≠ 0) s := by
  induction n generalizing v₀ f s L Q pa fuel with
  | zero =>
    obtain ⟨fuel, rfl⟩ := Nat.exists_eq_add_of_lt hfuel
    refine mapFrom_turn h (lt_maxVa_of_vpn (by omega))
      (entry_lt (Nat.lt_of_le_of_lt (Nat.le_add_right _ _) hpa) hperm)
      (fun L' Q' t hm hL' ho => ?_) (fun hV t => ?_) fun L' Q' t hm ho => ?_
    · exact ⟨0, L', Q', hm, by rwa [withMapped_zero], .inr ⟨rfl, by omega, hL'⟩⟩
    · exact ⟨0, Nat.le_refl 0, by rwa [vpn_mul] at hV⟩
    · rw [if_pos (by rw [Nat.add_zero]), Comp.wp_pure]
      rw [vpn_mul] at ho
      exact ⟨1, L', Q', hm, by rwa [← withMapped_succ, withMapped_zero], .inl ⟨rfl, rfl⟩⟩
  | succ n ih =>
    obtain ⟨fuel, rfl⟩ := Nat.exists_eq_add_of_lt hfuel
    have hlast : v₀ * pgSize ≠ (v₀ + (n + 1)) * pgSize := by
      simp only [pgSize]
      omega
    refine mapFrom_turn h (lt_maxVa_of_vpn (by omega))
      (entry_lt (Nat.lt_of_le_of_lt (Nat.le_add_right _ _) hpa) hperm)
      (fun L' Q' t hm hL' ho => ?_) (fun hV t => ?_) fun L' Q' t hm ho => ?_
    · exact ⟨0, L', Q', hm, by rwa [withMapped_zero], .inr ⟨rfl, by omega, hL'⟩⟩
    · exact ⟨0, Nat.zero_le _, by rwa [vpn_mul] at hV⟩
    · rw [vpn_mul] at ho
      rw [if_neg hlast, show (v₀ + (n + 1)) * pgSize = (v₀ + 1 + n) * pgSize by
        rw [Nat.add_assoc, Nat.add_comm 1], show v₀ * pgSize + pgSize = (v₀ + 1) * pgSize by
        rw [Nat.add_mul, Nat.one_mul]]
      refine Comp.wp_mono (ih ho (by omega) (by omega) ?_) (fun r u hu => ?_) fun _ _ he => ?_
      · simp only [pgSize] at *
        omega
      · obtain ⟨k, L'', Q'', hto⟩ := hu
        refine ⟨k + 1, L'', Q'', hm.trans hto.moved, withMapped_succ ▸ hto.owns, ?_⟩
        rcases hto.code with ⟨hr, hk⟩ | ⟨hr, hk, hL⟩
        · exact .inl ⟨hr, by omega⟩
        · exact .inr ⟨hr, by omega, hL⟩
      · obtain ⟨i, hi, hV⟩ := he
        rw [upd_other (by omega), Nat.add_assoc, Nat.add_comm 1] at hV
        exact ⟨i + 1, by omega, hV⟩

theorem rangePages_le {size : Nat} (hsize : 0 < size) (hrange : va + size ≤ maxVa) :
    va / pgSize + rangePages va size ≤ vpnEnd := by
  simp only [rangePages, vpnEnd, maxVa, pgSize] at *
  omega

theorem mappages_range {size : Nat} (h : Owns K s L pt f Q) (hsize : 0 < size)
    (hrange : va + size ≤ maxVa) (hpa : pa < 2 ^ 56) (hperm : perm < 2 ^ 10) :
    Comp.wp (fun _ => True) (mappages pt va size pa perm)
      (fun r t => ∃ k L' Q',
        MappedTo K L pt f Q (va / pgSize) (rangePages va size) pa perm s r t k L' Q')
      (fun _ _ => ∃ v, va / pgSize ≤ v ∧ v < va / pgSize + rangePages va size ∧
        f v &&& pteV ≠ 0) s := by
  have hle : va / pgSize ≤ (va + size - 1) / pgSize := Nat.div_le_div_right (by omega)
  have hend : (va + size - 1) / pgSize < vpnEnd := by
    simp only [vpnEnd, maxVa, pgSize] at *
    omega
  have hlast : pgRoundDown ((va + size - 1) % 2 ^ 64) =
      (va / pgSize + ((va + size - 1) / pgSize - va / pgSize)) * pgSize := by
    rw [Nat.mod_eq_of_lt (by simp only [maxVa] at hrange; omega), pgRoundDown]
    congr 1
    omega
  rw [mappages, if_neg (by omega), hlast]
  refine Comp.wp_mono (mapFrom_spec h (by omega) ?_ ?_ hperm) (fun r t hr => hr) fun _ _ he => ?_
  · exact Nat.lt_succ_of_lt (Nat.lt_of_le_of_lt (Nat.sub_le _ _) hend)
  · simp only [vpnEnd, maxVa, pgSize] at *
    omega
  · obtain ⟨i, hi, hV⟩ := he
    refine ⟨va / pgSize + i, by omega, ?_, hV⟩
    unfold rangePages
    omega

/-! ## Unmapping a range -/

/-- `uvmunmap` does not get past a page that is not a mapped leaf. -/
theorem unmapAt_stops {doFree : Bool} (h : Table K s.mem pt f Q) (hva : va < maxVa)
    (hf : ¬ IsLeaf (f (va / pgSize))) {R : Unit → Phys → Prop} :
    Comp.wp (fun _ => True) (unmapAt K pt doFree va) R (fun _ _ => True) s := by
  have hwalk : Does (walk pt va false) _ s := walk_lookup h hva
  unfold unmapAt
  refine Comp.wp_seq (Comp.wp_mono hwalk (fun _ _ hr => hr) fun _ _ he => he.elim) fun r t hr => ?_
  obtain ⟨rfl, ⟨rfl, hzero⟩ | he⟩ := hr
  · rw [if_pos rfl]
    exact (Comp.wp_stop _).mpr trivial
  · rw [if_neg he.pos]
    refine Comp.wp_seq (Q := fun w u => u = t ∧ w = f (va / pgSize)) ?_ fun w u hu => ?_
    · simp [load, he.load (vpn_lt hva)]
    · obtain ⟨rfl, rfl⟩ := hu
      refine Comp.wp_ite (fun _ => (Comp.wp_stop _).mpr trivial) fun hV => ?_
      refine Comp.wp_ite (fun _ => (Comp.wp_stop _).mpr trivial) fun hflags => ?_
      exact absurd ⟨hV, hflags⟩ hf

/-- The first `i` pages from `v₀` on are unmapped and left alone. -/
def ClearedTo (K : Image) (L : List Nat) (pt : Nat) (f : Nat → Nat) (Q : Multiset Nat) (v₀ : Nat)
    (i : Nat) (t : Phys) : Prop := Owns K t L pt (cleared f v₀ i) Q

theorem ClearedTo.next {i : Nat} (h : ClearedTo K L pt f Q v₀ i t)
    (hrange : (v₀ + i) * pgSize < maxVa) (hleaf : IsLeaf (f (v₀ + i))) :
    Does (unmapAt K pt false ((v₀ + i) * pgSize)) (fun _ => ClearedTo K L pt f Q v₀ (i + 1)) t := by
  have hsame : cleared f v₀ i (v₀ + i) = f (v₀ + i) := by
    rw [cleared, if_neg (by omega)]
  refine (unmapAt_keep h.table hrange (by rwa [vpn_mul, hsame])).mono fun _ u hu => ?_
  obtain ⟨hlist, htable, hagree⟩ := hu
  rw [vpn_mul, cleared_succ] at htable
  exact h.entries hlist htable hagree

/-- `uvmunmap` unmaps the pages one by one, and stops at the first that is not a mapped leaf. -/
theorem uvmunmap_wp {doFree : Bool} {J : Nat → Phys → Prop} (hrange : v₀ + n ≤ vpnEnd)
    (htable : ∀ i t, J i t → ∃ Q, Table K t.mem pt (cleared f v₀ i) Q)
    (hstep : ∀ i < n, ∀ t, J i t → IsLeaf (f (v₀ + i)) →
      Does (unmapAt K pt doFree ((v₀ + i) * pgSize)) (fun _ => J (i + 1)) t) (h : J 0 s) :
    Comp.wp (fun _ => True) (uvmunmap K pt (v₀ * pgSize) n doFree) (fun _ => J n)
      (fun _ _ => ∃ i < n, ¬ IsLeaf (f (v₀ + i))) s := by
  rw [uvmunmap_loop (hrange.trans vpnEnd_le)]
  suffices hloop : Comp.wp (fun _ => True)
      (Comp.loop (fun i => unmapAt K pt doFree ((v₀ + i) * pgSize)) 0 n) (fun _ => J (0 + n))
      (fun _ _ => ∃ i < n, ¬ IsLeaf (f (v₀ + i))) s by
    rwa [Nat.zero_add] at hloop
  apply Comp.wp_loop _ h
  · intro i _ hi t hJ
    rw [Nat.zero_add] at hi
    by_cases hleaf : IsLeaf (f (v₀ + i))
    · exact Comp.wp_mono (hstep i hi t hJ hleaf) (fun _ _ h => h) fun _ _ he => he.elim
    · obtain ⟨Q', htab⟩ := htable i t hJ
      have hva : (v₀ + i) * pgSize < maxVa := lt_maxVa_of_vpn (by omega)
      refine Comp.wp_mono (unmapAt_stops htab hva ?_) (fun _ _ h => h) fun _ _ _ => ⟨i, hi, hleaf⟩
      rw [vpn_mul, cleared, if_neg (by omega)]
      exact hleaf

/-! ## Tables that are built -/

/-- The table at `pt` was made by `uvmcreate` and then changed by calls of `mappages` and
`uvmunmap` that have returned. The pages `out` are those that `kalloc` has given to the callers
and that were not freed; a call of `uvmunmap` that frees the pages it unmaps is for such pages. -/
inductive Built (K : Image) (pt : Nat) : Phys → Multiset Nat → Prop where
  | create {s t : Phys} {L : List Nat} {out : Multiset Nat} {vs : List Phys} : FreeList K s L →
      (∀ p ∈ out, IsPage K p) → (↑L + out).Nodup → uvmcreate s = ⟨.ok pt, t, vs⟩ → pt ≠ 0 →
      Built K pt t out
  | kalloc {s t : Phys} {out : Multiset Nat} {p : Nat} {vs : List Phys} : Built K pt s out →
      kalloc s = ⟨.ok p, t, vs⟩ → Built K pt t (if p = 0 then out else p ::ₘ out)
  | mappages {s t : Phys} {out : Multiset Nat} {va size pa perm : Nat} {r : Int}
      {vs : List Phys} : Built K pt s out → 0 < size → va + size ≤ maxVa → pgSize ∣ pa →
      pa < 2 ^ 56 → perm < 2 ^ 10 → mappages pt va size pa perm s = ⟨.ok r, t, vs⟩ →
      Built K pt t out
  | unmapKeep {s t : Phys} {out : Multiset Nat} {v₀ n : Nat} {vs : List Phys} :
      Built K pt s out → v₀ + n ≤ vpnEnd →
      uvmunmap K pt (v₀ * pgSize) n false s = ⟨.ok (), t, vs⟩ → Built K pt t out
  | unmapFree {s t : Phys} {out : Multiset Nat} {v₀ n : Nat} {vs : List Phys} :
      Built K pt s out → v₀ + n ≤ vpnEnd → ↑(frames (leafPte pt s) v₀ n) ≤ out →
      uvmunmap K pt (v₀ * pgSize) n true s = ⟨.ok (), t, vs⟩ →
      Built K pt t (out - ↑(frames (leafPte pt s) v₀ n))

/-- The table, the free list and the pages of the callers are apart. -/
structure Stock (K : Image) (pt : Nat) (s : Phys) (out : Multiset Nat) (L : List Nat)
    (f : Nat → Nat) (Q : Multiset Nat) : Prop where
  owns : Owns K s L pt f Q
  pages : ∀ p ∈ out, IsPage K p
  nodup : (↑L + Q + out).Nodup

variable {out : Multiset Nat}

theorem Stock.moved {f' : Nat → Nat} {L' : List Nat} {Q' : Multiset Nat}
    (h : Stock K pt s out L f Q) (hm : Moved L Q s L' Q' t) (ho : Owns K t L' pt f' Q') :
    Stock K pt t out L' f' Q' :=
  ⟨ho, h.pages, hm.total ▸ h.nodup⟩

/-- The pages that entries from `v₀` on refer to, read off with `walk`. -/
theorem Stock.frames (h : Stock K pt s out L f Q) (hrange : v₀ + n ≤ vpnEnd) :
    frames (leafPte pt s) v₀ n = frames f v₀ n := by
  apply List.map_congr_left
  intro i hi
  rw [h.owns.table.leafPte (by have := List.mem_range.mp hi; omega)]

theorem Stock.kalloc (h : Stock K pt s out L f Q) :
    Does kalloc (fun p t => ∃ L', Stock K pt t (if p = 0 then out else p ::ₘ out) L' f Q) s := by
  refine (kalloc_spec h.owns.free).mono fun p t hp => ?_
  rcases hp with ⟨rfl, rfl, rfl⟩ | ⟨L', rfl, htook⟩
  · exact ⟨[], by rwa [if_pos rfl]⟩
  · rw [if_neg (Nat.pos_iff_ne_zero.mp htook.page.pos)]
    have hnd := h.nodup
    rw [← Multiset.cons_coe, Multiset.cons_add, Multiset.cons_add, Multiset.nodup_cons] at hnd
    have hpQ : ∀ q ∈ Q, q ∉ ({p} : Multiset Nat) := by
      intro q hq hqp
      rw [Multiset.mem_singleton.mp hqp] at hq
      exact hnd.1 (Multiset.mem_add.mpr (.inl (Multiset.mem_add.mpr (.inr hq))))
    refine ⟨L', ⟨htook.free, h.owns.table.frame htook.agree ?_ hpQ, ?_⟩, ?_, ?_⟩
    · simpa using htook.page.aligned
    · exact (Multiset.nodup_add.mp hnd.2).1
    · intro q hq
      rcases Multiset.mem_cons.mp hq with rfl | hq
      · exact htook.page
      · exact h.pages q hq
    · rw [Multiset.add_cons, Multiset.nodup_cons]
      exact hnd

theorem Stock.mappages {size : Nat} (h : Stock K pt s out L f Q) (hsize : 0 < size)
    (hrange : va + size ≤ maxVa) (hpa : pa < 2 ^ 56) (hperm : perm < 2 ^ 10) :
    Comp.wp (fun _ => True) (mappages pt va size pa perm)
      (fun r t => ∃ k L' Q', Stock K pt t out L' (withMapped f (va / pgSize) k pa perm) Q' ∧
        (r = 0 ∧ k = rangePages va size ∨ r = -1 ∧ k < rangePages va size ∧ L' = []))
      (fun _ _ => ∃ v, va / pgSize ≤ v ∧ v < va / pgSize + rangePages va size ∧
        f v &&& pteV ≠ 0) s := by
  refine Comp.wp_mono (mappages_range h.owns hsize hrange hpa hperm) (fun r t hr => ?_)
    fun _ _ he => he
  obtain ⟨k, L', Q', hto⟩ := hr
  exact ⟨k, L', Q', h.moved hto.moved hto.owns, hto.code⟩

theorem Stock.unmapKeep (h : Stock K pt s out L f Q) (hrange : v₀ + n ≤ vpnEnd) :
    Comp.wp (fun _ => True) (uvmunmap K pt (v₀ * pgSize) n false)
      (fun _ t => Stock K pt t out L (cleared f v₀ n) Q)
      (fun _ _ => ∃ i < n, ¬ IsLeaf (f (v₀ + i))) s := by
  refine Comp.wp_mono (uvmunmap_wp (J := ClearedTo K L pt f Q v₀) hrange
    (fun i t hJ => ⟨Q, hJ.table⟩) (fun i hi t hJ hleaf => ?_) ?_)
    (fun _ t ht => ⟨ht, h.pages, h.nodup⟩) fun _ _ he => he
  · exact hJ.next (lt_maxVa_of_vpn (by omega)) hleaf
  · rw [ClearedTo, cleared_zero]
    exact h.owns

theorem Stock.unmapFree (h : Stock K pt s out L f Q) (hrange : v₀ + n ≤ vpnEnd)
    (hout : ↑(Vm.frames f v₀ n) ≤ out) :
    Comp.wp (fun _ => True) (uvmunmap K pt (v₀ * pgSize) n true)
      (fun _ t => ∃ L', Stock K pt t (out - ↑(Vm.frames f v₀ n)) L' (cleared f v₀ n) Q)
      (fun _ _ => ∃ i < n, ¬ IsLeaf (f (v₀ + i))) s := by
  have hva : (v₀ + n) * pgSize ≤ maxVa := by
    simp only [vpnEnd, maxVa, pgSize] at *
    omega
  have hsplit : out - ↑(Vm.frames f v₀ n) + ↑(Vm.frames f v₀ n) = out :=
    Multiset.add_sub_cancel hout
  have hnd : (↑L + Q + ↑(Vm.frames f v₀ n)).Nodup :=
    Multiset.nodup_of_le (add_le_add_right hout _) h.nodup
  refine Comp.wp_mono (uvmunmap_wp (J := FreedTo K L pt f Q v₀ s) hrange
    (fun i t hJ => ?_) (fun i hi t hJ hleaf => ?_) (FreedTo.start h.owns))
    (fun _ t ht => ?_) fun _ _ he => he
  · obtain ⟨L', ho, -⟩ := hJ
    exact ⟨Q, ho.table⟩
  · refine hJ.next hva hi hleaf (fun p hp => h.pages p ?_) hnd
    exact Multiset.mem_of_le hout (Multiset.mem_coe.mpr hp)
  · obtain ⟨L', ho, hL', -⟩ := ht
    refine ⟨L', ho, fun p hp => h.pages p (Multiset.mem_of_le (Multiset.sub_le_self _ _) hp), ?_⟩
    have hsame : ↑L' + Q + (out - ↑(Vm.frames f v₀ n)) = ↑L + Q + out := by
      rw [hL', add_right_comm (L : Multiset Nat), add_assoc _ _ (out - _), add_comm _ (out - _),
        hsplit]
    rw [hsame]
    exact h.nodup

theorem wp_returned {α : Type} {m : Code α} {R : α → Phys → Prop} {E : String → Phys → Prop}
    {a : α} {vs : List Phys} (h : Comp.wp (fun _ => True) m R E s) (heq : m s = ⟨.ok a, t, vs⟩) :
    R a t := by
  have := h.2
  rwa [heq] at this

theorem Built.stock (h : Built K pt s out) : ∃ L f Q, Stock K pt s out L f Q := by
  induction h with
  | create hfree hpages hnd heq hne =>
    rcases wp_returned (uvmcreate_spec hfree) heq with ⟨rfl, -⟩ | ⟨L', rfl, hpage, ho, -⟩
    · exact absurd rfl hne
    · refine ⟨L', _, _, ho, hpages, ?_⟩
      rw [← Multiset.cons_coe, ← Multiset.singleton_add, add_comm ({pt} : Multiset Nat)] at hnd
      exact hnd
  | kalloc _ heq ih =>
    obtain ⟨L, f, Q, ih⟩ := ih
    obtain ⟨L', h⟩ := wp_returned ih.kalloc heq
    exact ⟨L', f, Q, h⟩
  | mappages _ hsize hrange hal hpa hperm heq ih =>
    obtain ⟨L, f, Q, ih⟩ := ih
    obtain ⟨k, L', Q', h, -⟩ := wp_returned (ih.mappages hsize hrange hpa hperm) heq
    exact ⟨L', _, Q', h⟩
  | unmapKeep _ hrange heq ih =>
    obtain ⟨L, f, Q, ih⟩ := ih
    exact ⟨L, _, Q, wp_returned (ih.unmapKeep hrange) heq⟩
  | unmapFree _ hrange hout heq ih =>
    obtain ⟨L, f, Q, ih⟩ := ih
    rw [ih.frames hrange] at hout ⊢
    obtain ⟨L', h⟩ := wp_returned (ih.unmapFree hrange hout) heq
    exact ⟨L', _, Q, h⟩

/-! ## The table as a map -/

theorem Stock.leafPte (h : Stock K pt s out L f Q) (hv : v < vpnEnd) : leafPte pt s v = f v :=
  h.owns.table.leafPte hv

/-- Two pages whose entries are at the same place are the same page. -/
theorem Entry.unique {v' r : Nat} (h : Entry K s.mem pt f Q v r) (h' : Entry K s.mem pt f Q v' r)
    (hv : v < vpnEnd) (hv' : v' < vpnEnd) : v = v' := by
  by_contra hne
  -- writing to the place would change both entries
  have hlt := Nat.lt_of_lt_of_le hv vpnEnd_le
  have hlt' := Nat.lt_of_lt_of_le hv' vpnEnd_le
  have hone : ∀ w < 256 ^ 8, f v' = w := by
    intro w hw
    have hs := (h.store hlt hw).table
    have hs' := (h'.store hlt' hw).table
    have heq := Table.leafPte (s := ⟨putLE s.mem r 8 w, 0⟩) hs hv'
    have heq' := Table.leafPte (s := ⟨putLE s.mem r 8 w, 0⟩) hs' hv'
    rw [heq, upd_other (Ne.symm hne), upd_same] at heq'
    exact heq'
  have h0 := hone 0 (by decide)
  have h1 := hone 1 (by decide)
  omega

theorem Stock.walk_unique {va' r : Nat} {vs vs' : List Phys} (h : Stock K pt s out L f Q)
    (hva : va < maxVa) (hva' : va' < maxVa) (hw : walk pt va false s = ⟨.ok r, s, vs⟩)
    (hw' : walk pt va' false s = ⟨.ok r, s, vs'⟩) (hr : r ≠ 0) : va / pgSize = va' / pgSize := by
  have hend : ∀ x < maxVa, x / pgSize < vpnEnd := by
    intro x hx
    simp only [vpnEnd, maxVa, pgSize] at *
    omega
  obtain ⟨-, ⟨rfl, -⟩ | he⟩ := wp_returned (walk_lookup h.owns.table hva) hw
  · exact absurd rfl hr
  · obtain ⟨-, ⟨rfl, -⟩ | he'⟩ := wp_returned (walk_lookup h.owns.table hva') hw'
    · exact absurd rfl hr
    · exact he.unique he' (hend va hva) (hend va' hva')

theorem Stock.walkaddr (h : Stock K pt s out L f Q) (hva : va < maxVa)
    (hf : Vm.leafPte pt s (va / pgSize) = pa2pte pa ||| perm ||| pteV) (hperm : perm < 2 ^ 10)
    (hU : perm &&& pteU ≠ 0) (hal : pgSize ∣ pa) (hpa : pa < 2 ^ 64) :
    ∃ vs, walkaddr pt va s = ⟨.ok pa, s, vs⟩ := by
  have hlt : perm ||| pteV < 2 ^ 10 := Nat.or_lt_two_pow hperm (by decide)
  have hflags : ∀ mask < 2 ^ 10, (pa2pte pa ||| (perm ||| pteV)) &&& mask =
      (perm ||| pteV) &&& mask := by
    intro mask hm
    rw [and_flags hm, pteFlags_or hlt]
  rw [h.leafPte (by simp only [vpnEnd, maxVa, pgSize] at *; omega), Nat.or_assoc] at hf
  have hspec : Does (Vm.walkaddr pt va) _ s := walkaddr_spec h.owns.table
  obtain ⟨r, t, vs, heq, rfl, rfl⟩ := hspec.result
  refine ⟨vs, heq.trans ?_⟩
  rw [hf, hflags _ (by decide), hflags _ (by decide), if_pos, pte2pa_or hal hpa hlt]
  refine ⟨hva, ?_, ?_⟩
  · rw [Nat.and_or_distrib_right]
    simp [pteV]
  · rw [Nat.and_or_distrib_right]
    simpa [pteV, pteU] using hU

/-- Tables made by `uvmcreate` and changed by `mappages` and `uvmunmap` are partial maps:
`mappages` adds the pages of its range, or as many of them as there is memory for, `uvmunmap`
removes its pages, each of which has a flag besides `PTE_V`, `walkaddr` looks user pages up, and
no two pages share an entry. -/
theorem page_table_is_partial_map (h : Built K pt s out) :
    (∀ va size pa perm, 0 < size → va + size ≤ maxVa → pgSize ∣ pa → pa < 2 ^ 56 →
      perm < 2 ^ 10 →
      (∀ v, va / pgSize ≤ v → v < va / pgSize + rangePages va size →
        leafPte pt s v &&& pteV = 0) →
      ∃ r t vs, mappages pt va size pa perm s = ⟨.ok r, t, vs⟩ ∧ Built K pt t out ∧
        ((r = 0 ∧ ∀ v < vpnEnd, leafPte pt t v =
            withMapped (leafPte pt s) (va / pgSize) (rangePages va size) pa perm v) ∨
          (r = -1 ∧ (kalloc t).result = .ok 0 ∧ t.freelist = 0 ∧
            ∃ k < rangePages va size, ∀ v < vpnEnd,
              leafPte pt t v = withMapped (leafPte pt s) (va / pgSize) k pa perm v))) ∧
    (∀ v₀ n doFree, v₀ + n ≤ vpnEnd → (∀ i < n, IsLeaf (leafPte pt s (v₀ + i))) →
      (doFree = true → ↑(frames (leafPte pt s) v₀ n) ≤ out) →
      ∃ t vs, uvmunmap K pt (v₀ * pgSize) n doFree s = ⟨.ok (), t, vs⟩ ∧
        ∀ v < vpnEnd, leafPte pt t v = cleared (leafPte pt s) v₀ n v) ∧
    (∀ va pa perm, va < maxVa → leafPte pt s (va / pgSize) = pa2pte pa ||| perm ||| pteV →
      perm < 2 ^ 10 → perm &&& pteU ≠ 0 → pgSize ∣ pa → pa < 2 ^ 64 →
      ∃ vs, walkaddr pt va s = ⟨.ok pa, s, vs⟩) ∧
    ∀ va va' r vs vs', va < maxVa → va' < maxVa → walk pt va false s = ⟨.ok r, s, vs⟩ →
      walk pt va' false s = ⟨.ok r, s, vs'⟩ → r ≠ 0 → va / pgSize = va' / pgSize := by
  obtain ⟨L, f, Q, hs⟩ := h.stock
  refine ⟨fun va size pa perm hsize hrange hal hpa hperm hno => ?_,
    fun v₀ n doFree hrange hleaf hout => ?_,
    fun va pa perm hva hf hperm hU hal hpa => hs.walkaddr hva hf hperm hU hal hpa,
    fun va va' r vs vs' hva hva' hw hw' hr => hs.walk_unique hva hva' hw hw' hr⟩
  · have hmap : Does (mappages pt va size pa perm) _ s :=
      Comp.wp_mono (hs.mappages hsize hrange hpa hperm) (fun _ _ hr => hr)
        fun _ _ ⟨v, hle, hlt, hV⟩ =>
        hV (by rw [← hs.leafPte (hlt.trans_le (rangePages_le hsize hrange))]; exact hno v hle hlt)
    obtain ⟨r, t, vs, heq, k, L', Q', ht, hcode⟩ := hmap.result
    have hsame : ∀ v < vpnEnd, leafPte pt t v =
        withMapped (leafPte pt s) (va / pgSize) k pa perm v := by
      intro v hv
      rw [ht.leafPte hv, withMapped, withMapped, hs.leafPte hv]
    refine ⟨r, t, vs, heq, .mappages h hsize hrange hal hpa hperm heq, ?_⟩
    rcases hcode with ⟨hr, rfl⟩ | ⟨hr, hk, rfl⟩
    · exact .inl ⟨hr, hsame⟩
    · have hnone : t.freelist = 0 := ht.owns.free.of_nil
      obtain ⟨p, t', vs', hkalloc, ⟨-, rfl, -⟩ | ⟨L', hcons, -⟩⟩ :=
        Does.result (kalloc_spec ht.owns.free)
      · exact .inr ⟨hr, by rw [hkalloc], hnone, k, hk, hsame⟩
      · cases hcons
  · have hall : ¬ ∃ i < n, ¬ IsLeaf (f (v₀ + i)) := by
      rintro ⟨i, hi, hno⟩
      rw [← hs.leafPte (by omega)] at hno
      exact hno (hleaf i hi)
    have hunmap : Does (uvmunmap K pt (v₀ * pgSize) n doFree)
        (fun _ t => ∃ out' L', Stock K pt t out' L' (cleared f v₀ n) Q) s := by
      cases doFree with
      | false =>
        exact Comp.wp_mono (hs.unmapKeep hrange) (fun _ t ht => ⟨out, L, ht⟩) fun _ _ he => hall he
      | true =>
        rw [hs.frames hrange] at hout
        exact Comp.wp_mono (hs.unmapFree hrange (hout rfl)) (fun _ t ht => ⟨_, ht⟩)
          fun _ _ he => hall he
    obtain ⟨r, t, vs, heq, out', L', ht⟩ := hunmap.result
    refine ⟨t, vs, heq, fun v hv => ?_⟩
    rw [ht.leafPte hv, cleared, cleared, hs.leafPte hv]

end

/-- A kernel that leaves eight pages to the allocator. -/
def eightPages : Image where
  kend := physTop - 8 * pgSize
  trampoline := kernBase
  trampoline_aligned := kernBase_aligned
  trampoline_pos := Nat.le_refl _
  trampoline_below := by decide
  kend_le := by decide

def newTable : Phys := (uvmcreate (kinit eightPages ⟨fun _ => 0, 0⟩).final).final

theorem newTable_built : Built eightPages (physTop - pgSize) newTable 0 := by
  have hinit : Does (kinit eightPages) _ ⟨fun _ => 0, 0⟩ := kinit_spec rfl
  obtain ⟨r, s, vs, heq, hfree⟩ := hinit.result
  have hs : (kinit eightPages ⟨fun _ => 0, 0⟩).final = s := by rw [heq]
  have hcreate : Does uvmcreate _ s := uvmcreate_spec hfree
  obtain ⟨pt, t, vs', heq', -⟩ := hcreate.result
  have hpt : (uvmcreate (kinit eightPages ⟨fun _ => 0, 0⟩).final).result.toOption =
      some (physTop - pgSize) := by decide +kernel
  rw [hs, heq'] at hpt
  obtain rfl : pt = physTop - pgSize := Option.some.inj hpt
  have ht : newTable = t := by rw [newTable, hs, heq']
  rw [ht]
  exact .create hfree (by simp) (by simpa using hfree.nodup) heq' (by decide)

theorem page_table_is_partial_map_new :
    Built eightPages (physTop - pgSize) newTable 0 ∧
      ∃ r t vs, mappages (physTop - pgSize) 0 pgSize kernBase pteR newTable = ⟨.ok r, t, vs⟩ := by
  refine ⟨newTable_built, ?_⟩
  obtain ⟨r, t, vs, heq, -⟩ := (page_table_is_partial_map newTable_built).1 0 pgSize kernBase pteR
    (by decide) (by decide) (by decide) (by decide) (by decide) (fun v _ hv => by
      rw [show v = 0 by simp only [rangePages, pgSize] at hv; omega]
      decide +kernel)
  exact ⟨r, t, vs, heq⟩

/-! ## Calls outside of the contract -/

def mapOne (v pa perm : Nat) (s : Phys) : Phys :=
  (mappages (physTop - pgSize) (v * pgSize) pgSize pa perm s).final

/-- Unmapping the table's own page with `do_free` takes other pages away, a page that is mapped
with no flags cannot be unmapped, and flags above the flag bits change the address. -/
theorem page_table_misused :
    (leafPte (physTop - pgSize) (mapOne 1 kernBase pteR (mapOne 0 (physTop - pgSize) pteR newTable))
        1 = pa2pte kernBase ||| pteR ||| pteV ∧
      (uvmunmap eightPages (physTop - pgSize) 0 1 true
        (mapOne 1 kernBase pteR (mapOne 0 (physTop - pgSize) pteR newTable))).result = .ok () ∧
      leafPte (physTop - pgSize) (uvmunmap eightPages (physTop - pgSize) 0 1 true
        (mapOne 1 kernBase pteR (mapOne 0 (physTop - pgSize) pteR newTable))).final 1 = 0) ∧
    (leafPte (physTop - pgSize) (mapOne 0 kernBase 0 newTable) 0 = pa2pte kernBase ||| pteV ∧
      (uvmunmap eightPages (physTop - pgSize) 0 1 false (mapOne 0 kernBase 0 newTable)).result =
        .error "uvmunmap: not a leaf") ∧
    (walkaddr (physTop - pgSize) 0 (mapOne 0 kernBase (pteU ||| 2 ^ 10) newTable)).result =
      .ok (kernBase + pgSize) := by
  refine ⟨⟨?_, ?_, ?_⟩, ⟨?_, ?_⟩, ?_⟩ <;> decide +kernel

end Xv6.Vm
