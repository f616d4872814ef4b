import Xv6.Kernel.Vm.Tree

/-! # Page tables as maps

From here on a page table is a map from page numbers to entries, on a set of pages of
its own. Only the functions that go through its levels look into the tree.
-/

namespace Xv6.Vm

open Lib Radix

/-- Page numbers that a table has entries for. -/
def nVpn : Nat := 512 ^ 3

/-- The tree at `pt` has the entries `f` and the pages `Q`. -/
structure TableOf (K : Image) (m : Bytes) (pt : Nat) (f : Nat → Nat) (Q : Multiset Nat)
    (T : Tree 2) : Prop where
  rep : Rep m 2 pt T
  tables : tables 2 pt T = Q
  leaf : ∀ v < nVpn, leaf 2 T v = f v
  pages : ∀ p ∈ Q, IsPage K p
  nodup : Q.Nodup

/-- The page table at `pt` has the entries `f` and is kept on the pages `Q`. -/
def Table (K : Image) (m : Bytes) (pt : Nat) (f : Nat → Nat) (Q : Multiset Nat) : Prop :=
  ∃ T, TableOf K m pt f Q T

/-- Besides, `r` is the address of the entry of page number `v`. -/
def Entry (K : Image) (m : Bytes) (pt : Nat) (f : Nat → Nat) (Q : Multiset Nat) (v r : Nat) :
    Prop :=
  ∃ T, TableOf K m pt f Q T ∧ ∃ c, node 512 2 pt T v = some c ∧ r = c + 8 * digit 512 0 v

variable {K : Image} {s t : Phys} {L : List Nat} {m m' : Bytes} {pt v r w va : Nat}
  {f : Nat → Nat} {Q F : Multiset Nat}

theorem TableOf.frame {T : Tree 2} (h : TableOf K m pt f Q T) (hm : AgreeOff pgSize F m m')
    (hF : ∀ p ∈ F, pgSize ∣ p) (hQ : ∀ p ∈ Q, p ∉ F) : TableOf K m' pt f Q T where
  rep := by
    refine h.rep.frame hm hF fun p hp => ?_
    rw [h.tables] at hp
    exact ⟨(h.pages p hp).aligned, hQ p hp⟩
  tables := h.tables
  leaf := h.leaf
  pages := h.pages
  nodup := h.nodup

theorem Table.frame (h : Table K m pt f Q) (hm : AgreeOff pgSize F m m')
    (hF : ∀ p ∈ F, pgSize ∣ p) (hQ : ∀ p ∈ Q, p ∉ F) : Table K m' pt f Q := by
  obtain ⟨T, h⟩ := h
  exact ⟨T, h.frame hm hF hQ⟩

theorem Table.pages (h : Table K m pt f Q) : ∀ p ∈ Q, IsPage K p := by
  obtain ⟨T, h⟩ := h
  exact h.pages

theorem Table.root_mem (h : Table K m pt f Q) : pt ∈ Q := by
  obtain ⟨T, h⟩ := h
  rw [← h.tables]
  exact root_mem_tables _ _ T

theorem Entry.table (h : Entry K m pt f Q v r) : Table K m pt f Q := by
  obtain ⟨T, h, -⟩ := h
  exact ⟨T, h⟩

theorem Entry.frame (h : Entry K m pt f Q v r) (hm : AgreeOff pgSize F m m')
    (hF : ∀ p ∈ F, pgSize ∣ p) (hQ : ∀ p ∈ Q, p ∉ F) : Entry K m' pt f Q v r := by
  obtain ⟨T, h, hc⟩ := h
  exact ⟨T, h.frame hm hF hQ, hc⟩

theorem Entry.within (h : Entry K m pt f Q v r) : ∃ c ∈ Q, c ≤ r ∧ r + 8 ≤ c + pgSize := by
  obtain ⟨T, h, c, hc, rfl⟩ := h
  refine ⟨c, h.tables ▸ node_mem (by decide) hc, Nat.le_add_right _ _, ?_⟩
  have : digit 512 0 v < 512 := Nat.mod_lt _ (by decide)
  unfold pgSize
  omega

theorem Entry.pos (h : Entry K m pt f Q v r) : r ≠ 0 := by
  obtain ⟨c, hc, hle, -⟩ := h.within
  have := (h.table.pages c hc).pos
  omega

theorem Entry.load (h : Entry K m pt f Q v r) (hv : v < nVpn) : getLE m r 8 = f v := by
  obtain ⟨T, h, c, hc, rfl⟩ := h
  rw [h.rep.load hc]
  exact h.leaf v hv

theorem Entry.store (h : Entry K m pt f Q v r) (hv : v < nVpn) (hw : w < 256 ^ 8) :
    Entry K (putLE m r 8 w) pt (upd f v w) Q v r := by
  obtain ⟨T, h, c, hc, rfl⟩ := h
  refine ⟨Radix.set 512 2 T v w, ⟨?_, ?_, fun v' hv' => ?_, h.pages, h.nodup⟩, c, ?_, rfl⟩
  · refine h.rep.store (h.tables ▸ h.nodup) (fun p hp => ?_) hc hw
    exact (h.pages p (h.tables ▸ hp)).aligned
  · rw [tables, nodes_set (by decide)]
    exact h.tables
  · rw [Vm.leaf, get_set (by decide) hc, Nat.mod_eq_of_lt (show v' < 512 ^ (2 + 1) from hv'),
      Nat.mod_eq_of_lt (show v < 512 ^ (2 + 1) from hv)]
    unfold upd
    split
    · rfl
    · exact h.leaf v' hv'
  · rw [node_set]
    exact hc

theorem Entry.agree (h : Entry K m pt f Q v r) : AgreeOff pgSize Q m (putLE m r 8 w) := by
  obtain ⟨c, hc, hle, hend⟩ := h.within
  exact AgreeOff.putLE hc hle hend

/-! ## The table and the free list -/

/-- The table at `pt` and the free list, on different pages. -/
structure Owns (K : Image) (s : Phys) (L : List Nat) (pt : Nat) (f : Nat → Nat)
    (Q : Multiset Nat) : Prop where
  free : FreeList K s L
  table : Table K s.mem pt f Q
  nodup : (↑L + Q).Nodup

theorem Owns.isPage (h : Owns K s L pt f Q) {p : Nat} (hp : p ∈ ↑L + Q) : IsPage K p := by
  rcases Multiset.mem_add.mp hp with hp | hp
  · exact h.free.pages p hp
  · exact h.table.pages p hp

theorem Owns.aligned (h : Owns K s L pt f Q) : ∀ p ∈ ↑L + Q, pgSize ∣ p :=
  fun _ hp => (h.isPage hp).aligned

theorem Owns.apart (h : Owns K s L pt f Q) {p : Nat} (hL : p ∈ L) : p ∉ Q :=
  Multiset.disjoint_left.mp (Multiset.nodup_add.mp h.nodup).2.2 hL

/-- The entries of the table change, and nothing else. -/
theorem Owns.entries {f' : Nat → Nat} (h : Owns K s L pt f Q) (hlist : t.freelist = s.freelist)
    (htable : Table K t.mem pt f' Q) (hm : AgreeOff pgSize Q s.mem t.mem) :
    Owns K t L pt f' Q where
  free := h.free.congr hlist hm (fun p hp => (h.table.pages p hp).aligned) fun _ => h.apart
  table := htable
  nodup := h.nodup

theorem vpn_lt (h : va < maxVa) : va / pgSize < nVpn := by
  unfold maxVa at h
  unfold nVpn pgSize
  omega

theorem walk_alloc (h : Owns K s L pt f Q) (hva : va < maxVa) :
    Does (walk pt va true) (fun r t => ∃ L' Q', FreeList K t L' ∧ ↑L + Q = ↑L' + Q' ∧
      AgreeOff pgSize (↑L + Q) s.mem t.mem ∧
      (r = 0 ∧ L' = [] ∧ Table K t.mem pt f Q' ∨ Entry K t.mem pt f Q' (va / pgSize) r)) s := by
  obtain ⟨T, hT⟩ := h.table
  have hb : Backed K s L 2 pt T := ⟨hT.rep, h.free, hT.tables ▸ hT.pages, hT.tables ▸ h.nodup⟩
  rw [walk, if_neg (by omega)]
  refine (walkFrom_alloc hb).mono fun r t hr => ?_
  obtain ⟨L', T', hg, hr⟩ := hr
  have htotal := hg.total
  rw [hT.tables] at htotal
  have hT' : TableOf K t.mem pt f (tables 2 pt T') T' :=
    ⟨hg.backed.rep, rfl, fun v hv => (hg.leaf v).trans (hT.leaf v hv), hg.backed.pages,
      (Multiset.nodup_add.mp hg.backed.nodup).2.1⟩
  refine ⟨L', _, hg.backed.free, htotal, hT.tables ▸ hg.agree, hr.imp (fun hr => ?_) fun hr => ?_⟩
  · exact ⟨hr.1, hr.2, T', hT'⟩
  · obtain ⟨c, hc, rfl⟩ := Option.map_eq_some_iff.mp hr
    exact ⟨T', hT', c, hc, by rw [px_eq]⟩

theorem walk_lookup (h : Table K s.mem pt f Q) (hva : va < maxVa) :
    Does (walk pt va false) (fun r t => t = s ∧
      (r = 0 ∧ f (va / pgSize) = 0 ∨ Entry K s.mem pt f Q (va / pgSize) r)) s := by
  obtain ⟨T, hT⟩ := h
  rw [walk, if_neg (by omega)]
  refine (walkFrom_lookup hT.rep (hT.tables ▸ hT.pages)).mono fun r t hr => ?_
  obtain ⟨rfl, rfl⟩ := hr
  refine ⟨rfl, ?_⟩
  cases hc : node 512 2 pt T (va / pgSize) with
  | none =>
    left
    refine ⟨by simp [cell, hc], ?_⟩
    rw [← hT.leaf _ (vpn_lt hva)]
    exact get_of_node hc
  | some c =>
    right
    exact ⟨T, hT, c, hc, by simp [cell, hc, px_eq]⟩

theorem walkaddr_spec (h : Table K s.mem pt f Q) :
    Does (walkaddr pt va) (fun r t => t = s ∧ r = if va < maxVa ∧ f (va / pgSize) &&& pteV ≠ 0 ∧
      f (va / pgSize) &&& pteU ≠ 0 then pte2pa (f (va / pgSize)) else 0) s := by
  unfold walkaddr
  by_cases hva : va ≥ maxVa
  · simp only [hva, if_true, Does.pure]
    rw [if_neg (by omega)]
    exact ⟨trivial, rfl⟩
  · simp only [hva, if_false, Does.bind]
    refine (walk_lookup h (by omega)).mono fun r t hr => ?_
    obtain ⟨rfl, ⟨rfl, hf⟩ | he⟩ := hr
    · simp [hf]
    · simp only [he.pos, if_false, Does.bind, does_load, he.load (vpn_lt (by omega))]
      refine Does.ite (fun hV => ?_) fun hV => Does.ite (fun hU => ?_) fun hU => ?_
      · simp [hV]
      · simp [hU]
      · simp [hV, hU]
        omega

/-! ## Mapping and unmapping a page -/

/-- Pages move between the free list and the table; nothing else is written. -/
structure Moved (L : List Nat) (Q : Multiset Nat) (s : Phys) (L' : List Nat) (Q' : Multiset Nat)
    (t : Phys) : Prop where
  total : ↑L + Q = ↑L' + Q'
  agree : AgreeOff pgSize (↑L + Q) s.mem t.mem

theorem Moved.trans {u : Phys} {L' L'' : List Nat} {Q' Q'' : Multiset Nat}
    (h : Moved L Q s L' Q' t) (h' : Moved L' Q' t L'' Q'' u) : Moved L Q s L'' Q'' u :=
  ⟨h.total.trans h'.total, h.agree.trans (h.total ▸ h'.agree)⟩

theorem mapFrom_turn {pa perm last fuel : Nat} {R : Int → Phys → Prop} {E : String → Phys → Prop}
    (h : Owns K s L pt f Q) (hva : va < maxVa) (hw : pa2pte pa ||| perm ||| pteV < 256 ^ 8)
    (hfull : ∀ L' Q' t, Moved L Q s L' Q' t → L' = [] → Owns K t L' pt f Q' → R (-1) t)
    (hremap : f (va / pgSize) &&& pteV ≠ 0 → ∀ t, E "mappages: remap" t)
    (hnext : ∀ L' Q' t, Moved L Q s L' Q' t →
      Owns K t L' pt (upd f (va / pgSize) (pa2pte pa ||| perm ||| pteV)) Q' →
      Comp.wp (fun _ => True) (if va = last then return 0
        else mapFrom pt last perm fuel (va + pgSize) (pa + pgSize)) R E t) :
    Comp.wp (fun _ => True) (mapFrom pt last perm (fuel + 1) va pa) R E s := by
  have hwalk : Does (walk pt va true) _ s := walk_alloc h hva
  rw [mapFrom]
  refine Comp.wp_seq (Comp.wp_mono hwalk (fun _ _ hr => hr) fun _ _ he => he.elim) fun r t hr => ?_
  obtain ⟨L', Q', hfree, htotal, hagree, hr⟩ := hr
  have hnd : (↑L' + Q').Nodup := htotal ▸ h.nodup
  rcases hr with ⟨rfl, hL', htab⟩ | he
  · rw [if_pos rfl, Comp.wp_pure]
    exact hfull L' Q' t ⟨htotal, hagree⟩ hL' ⟨hfree, htab, hnd⟩
  · rw [if_neg he.pos]
    refine Comp.wp_seq (Q := fun w u => u = t ∧ w = f (va / pgSize)) ?_ fun w u hu => ?_
    · simp [load, he.load (vpn_lt hva)]
    · obtain ⟨rfl, rfl⟩ := hu
      refine Comp.wp_ite (fun hV => (Comp.wp_stop _).mpr (hremap hV _)) fun hV => ?_
      rw [Comp.wp_bind, store, Comp.wp_assign]
      have howns : Owns K u L' pt f Q' := ⟨hfree, he.table, hnd⟩
      refine hnext L' Q' _ ⟨htotal, hagree.trans ((he.agree).mono ?_)⟩ ?_
      · rw [htotal]
        exact fun p hp => Multiset.mem_add.mpr (.inr hp)
      · exact howns.entries rfl (he.store (vpn_lt hva) hw).table he.agree

theorem mappages_page {pa perm : Nat} (h : Owns K s L pt f Q) (hva : va < maxVa)
    (hal : pgSize ∣ va) (hf : f (va / pgSize) &&& pteV = 0)
    (hw : pa2pte pa ||| perm ||| pteV < 256 ^ 8) :
    Does (mappages pt va pgSize pa perm) (fun r t => ∃ L' Q', Moved L Q s L' Q' t ∧
      (r = -1 ∧ L' = [] ∧ Owns K t L' pt f Q' ∨
        r = 0 ∧ Owns K t L' pt (upd f (va / pgSize) (pa2pte pa ||| perm ||| pteV)) Q')) s := by
  have hlast : pgRoundDown ((va + pgSize - 1) % 2 ^ 64) = pgRoundDown va := by
    obtain ⟨i, rfl⟩ := hal
    simp only [pgRoundDown, pgSize, maxVa] at *
    omega
  have hdown : pgRoundDown va = va := Nat.div_mul_cancel hal
  rw [mappages, if_neg (by decide), hlast, hdown]
  refine mapFrom_turn h hva hw (fun L' Q' t hm hL' ho => ⟨L', Q', hm, .inl ⟨rfl, hL', ho⟩⟩)
    (fun hV => absurd hf hV) fun L' Q' t hm ho => ?_
  rw [if_pos rfl, Comp.wp_pure]
  exact ⟨L', Q', hm, .inr ⟨rfl, ho⟩⟩

structure IsLeaf (w : Nat) : Prop where
  valid : w &&& pteV ≠ 0
  flags : pteFlags w ≠ pteV

theorem unmapAt_keep (h : Table K s.mem pt f Q) (hva : va < maxVa)
    (hf : IsLeaf (f (va / pgSize))) :
    Does (unmapAt K pt false va) (fun _ t => t.freelist = s.freelist ∧
      Table K t.mem pt (upd f (va / pgSize) 0) Q ∧ AgreeOff pgSize Q s.mem t.mem) s := by
  unfold unmapAt
  rw [Does.bind]
  refine (walk_lookup h hva).mono fun r t hr => ?_
  obtain ⟨rfl, ⟨rfl, hzero⟩ | he⟩ := hr
  · exact absurd (by rw [hzero]; rfl) hf.valid
  · simp only [he.pos, if_false, Does.bind, does_load, he.load (vpn_lt hva), hf.valid, hf.flags,
      Bool.false_eq_true, does_store]
    exact ⟨trivial, (he.store (vpn_lt hva) (by decide)).table, he.agree⟩

theorem unmapAt_free (h : Owns K s L pt f Q) (hva : va < maxVa) (hf : IsLeaf (f (va / pgSize)))
    (hpage : IsPage K (pte2pa (f (va / pgSize)))) (hpL : pte2pa (f (va / pgSize)) ∉ ↑L + Q) :
    Does (unmapAt K pt true va) (fun _ t =>
      Owns K t (pte2pa (f (va / pgSize)) :: L) pt (upd f (va / pgSize) 0) Q ∧
      AgreeOff pgSize (pte2pa (f (va / pgSize)) ::ₘ Q) s.mem t.mem) s := by
  rw [Multiset.mem_add, not_or, Multiset.mem_coe] at hpL
  unfold unmapAt
  rw [Does.bind]
  refine (walk_lookup h.table hva).mono fun r t hr => ?_
  obtain ⟨rfl, ⟨rfl, hzero⟩ | he⟩ := hr
  · exact absurd (by rw [hzero]; rfl) hf.valid
  · simp only [he.pos, if_false, Does.bind, does_load, he.load (vpn_lt hva), hf.valid, hf.flags,
      if_true]
    refine (kfree_spec h.free hpage hpL.1).mono fun _ u hu => ?_
    obtain ⟨hfree, hagree⟩ := hu
    have he' := he.frame hagree (by simpa using hpage.aligned) fun p hp heq =>
      hpL.2 (Multiset.mem_singleton.mp heq ▸ hp)
    rw [does_store]
    refine ⟨⟨?_, (he'.store (vpn_lt hva) (by decide)).table, ?_⟩, ?_⟩
    · refine hfree.congr rfl he'.agree (fun p hp => (h.table.pages p hp).aligned) fun p hp hpQ => ?_
      rcases List.mem_cons.mp hp with rfl | hp
      · exact hpL.2 hpQ
      · exact h.apart hp hpQ
    · rw [← Multiset.cons_coe, Multiset.cons_add, Multiset.nodup_cons]
      refine ⟨?_, h.nodup⟩
      rw [Multiset.mem_add, not_or]
      exact hpL
    · refine (hagree.mono ?_).trans (he'.agree.mono (Multiset.subset_cons _ _))
      simp

/-! ## A range of pages -/

def cleared (f : Nat → Nat) (v₀ n : Nat) : Nat → Nat :=
  fun v => if v₀ ≤ v ∧ v < v₀ + n then 0 else f v

theorem cleared_zero (f : Nat → Nat) (v₀ : Nat) : cleared f v₀ 0 = f := by
  funext v
  unfold cleared
  rw [if_neg (by omega)]

theorem cleared_succ (f : Nat → Nat) (v₀ n : Nat) :
    upd (cleared f v₀ n) (v₀ + n) 0 = cleared f v₀ (n + 1) := by
  funext v
  simp only [cleared, upd]
  by_cases hv : v = v₀ + n
  · rw [if_pos hv, if_pos (by omega)]
  · rw [if_neg hv]
    by_cases hin : v₀ ≤ v ∧ v < v₀ + n
    · rw [if_pos hin, if_pos (by omega)]
    · rw [if_neg hin, if_neg (by omega)]

/-- The pages that the entries from `v₀` on refer to. -/
def frames (f : Nat → Nat) (v₀ n : Nat) : List Nat :=
  (List.range n).map fun i => pte2pa (f (v₀ + i))

theorem uvmunmap_loop {v₀ n : Nat} {doFree : Bool} (hrange : v₀ + n ≤ nVpn) :
    uvmunmap K pt (v₀ * pgSize) n doFree =
      Comp.loop (fun i => unmapAt K pt doFree ((v₀ + i) * pgSize)) 0 n := by
  have hlt : v₀ * pgSize + n * pgSize < 2 ^ 64 := by
    simp only [pgSize, nVpn] at *
    omega
  rw [uvmunmap, if_neg (by simp), Nat.mod_eq_of_lt hlt, Nat.add_sub_cancel_left,
    Nat.mul_div_cancel _ (by decide)]
  simp only [Nat.add_mul]

theorem frames_succ (f : Nat → Nat) (v₀ n : Nat) :
    frames f v₀ (n + 1) = frames f v₀ n ++ [pte2pa (f (v₀ + n))] := by
  simp [frames, List.range_succ]

theorem frames_le (f : Nat → Nat) (v₀ : Nat) {i n : Nat} (h : i ≤ n) :
    (frames f v₀ i : Multiset Nat) ≤ ↑(frames f v₀ n) :=
  Multiset.coe_le.mpr ((List.range_sublist.mpr h).map _).subperm

theorem mem_frames {v₀ n i : Nat} (hi : i < n) : pte2pa (f (v₀ + i)) ∈ frames f v₀ n :=
  List.mem_map.mpr ⟨i, List.mem_range.mpr hi, rfl⟩

/-- The first `i` pages from `v₀` on are unmapped and freed. -/
def FreedTo (K : Image) (L : List Nat) (pt : Nat) (f : Nat → Nat) (Q : Multiset Nat) (v₀ : Nat)
    (s : Phys) (i : Nat) (t : Phys) : Prop :=
  ∃ L', Owns K t L' pt (cleared f v₀ i) Q ∧ (L' : Multiset Nat) = ↑L + ↑(frames f v₀ i) ∧
    AgreeOff pgSize (Q + ↑(frames f v₀ i)) s.mem t.mem

theorem FreedTo.start {v₀ : Nat} (h : Owns K s L pt f Q) : FreedTo K L pt f Q v₀ s 0 s :=
  ⟨L, by rwa [cleared_zero], by simp [frames], AgreeOff.refl _⟩

theorem FreedTo.next {v₀ n i : Nat} (h : FreedTo K L pt f Q v₀ s i t)
    (hrange : (v₀ + n) * pgSize ≤ maxVa) (hi : i < n) (hleaf : IsLeaf (f (v₀ + i)))
    (hpage : ∀ p ∈ frames f v₀ n, IsPage K p) (hnd : (↑L + Q + ↑(frames f v₀ n)).Nodup) :
    Does (unmapAt K pt true ((v₀ + i) * pgSize)) (fun _ => FreedTo K L pt f Q v₀ s (i + 1)) t := by
  obtain ⟨L', howns, hL', hagree⟩ := h
  have hdiv : (v₀ + i) * pgSize / pgSize = v₀ + i := Nat.mul_div_cancel _ (by decide)
  have hsame : cleared f v₀ i (v₀ + i) = f (v₀ + i) := by
    rw [cleared, if_neg (by omega)]
  have hva : (v₀ + i) * pgSize < maxVa := by
    simp only [pgSize, maxVa] at *
    omega
  have hnew : pte2pa (f (v₀ + i)) ∉ ↑L' + Q := by
    have hle := Multiset.nodup_of_le (add_le_add_right (frames_le f v₀ (show i + 1 ≤ n from hi))
      (↑L + Q)) hnd
    rw [frames_succ, ← Multiset.coe_add, Multiset.coe_singleton, ← add_assoc] at hle
    have hdis := Multiset.disjoint_singleton.mp (Multiset.nodup_add.mp hle).2.2
    rwa [hL', add_right_comm]
  refine (unmapAt_free howns hva (by rwa [hdiv, hsame])
    (by rw [hdiv, hsame]; exact hpage _ (mem_frames hi)) (by rwa [hdiv, hsame])).mono
    fun _ u hu => ?_
  obtain ⟨howns', hagree'⟩ := hu
  rw [hdiv, hsame] at howns' hagree'
  rw [cleared_succ] at howns'
  refine ⟨_, howns', ?_, ?_⟩
  · rw [frames_succ, ← Multiset.cons_coe, hL', ← Multiset.coe_add, Multiset.coe_singleton,
      ← Multiset.singleton_add]
    abel
  · refine (hagree.mono ?_).trans (hagree'.mono ?_)
    · exact Multiset.subset_of_le (add_le_add_right (frames_le f v₀ (by omega)) Q)
    · intro p hp
      rw [frames_succ, ← Multiset.coe_add, Multiset.coe_singleton]
      rcases Multiset.mem_cons.mp hp with rfl | hp
      · simp
      · exact Multiset.mem_add.mpr (.inl hp)

theorem uvmunmap_free {v₀ n : Nat} (h : Owns K s L pt f Q) (hrange : (v₀ + n) * pgSize ≤ maxVa)
    (hleaf : ∀ i < n, IsLeaf (f (v₀ + i))) (hpage : ∀ p ∈ frames f v₀ n, IsPage K p)
    (hnd : (↑L + Q + ↑(frames f v₀ n)).Nodup) :
    Does (uvmunmap K pt (v₀ * pgSize) n true) (fun _ t => ∃ L', Owns K t L' pt (cleared f v₀ n) Q ∧
      (L' : Multiset Nat) = ↑L + ↑(frames f v₀ n) ∧
      AgreeOff pgSize (Q + ↑(frames f v₀ n)) s.mem t.mem) s := by
  have hvpn : v₀ + n ≤ nVpn := by
    simp only [pgSize, maxVa, nVpn] at *
    omega
  rw [uvmunmap_loop hvpn]
  have hloop := Does.loop (s := s) (k := n) (i := 0) (FreedTo K L pt f Q v₀ s)
    (fun i _ hi t hJ => show Does (unmapAt K pt true ((v₀ + i) * pgSize)) _ t from ?_)
    (FreedTo.start h)
  · rwa [Nat.zero_add] at hloop
  · rw [Nat.zero_add] at hi
    exact hJ.next hrange hi (hleaf i hi) hpage hnd

theorem uvmunmap_keep (h : Table K s.mem pt f Q) (hva : (v + 1) * pgSize ≤ maxVa)
    (hf : IsLeaf (f v)) :
    Does (uvmunmap K pt (v * pgSize) 1 false) (fun _ t => t.freelist = s.freelist ∧
      Table K t.mem pt (upd f v 0) Q ∧ AgreeOff pgSize Q s.mem t.mem) s := by
  have hvpn : v + 1 ≤ nVpn := by
    simp only [pgSize, maxVa, nVpn] at *
    omega
  have hdiv : v * pgSize / pgSize = v := Nat.mul_div_cancel _ (by decide)
  rw [uvmunmap_loop hvpn, Comp.loop, Comp.loop, Does.bind]
  have hat : Does (unmapAt K pt false ((v + 0) * pgSize)) _ s := unmapAt_keep h
    (by simp only [pgSize, maxVa] at *; omega) (by rwa [Nat.add_zero, hdiv])
  rw [Nat.add_zero, hdiv] at hat
  exact hat.mono fun _ t ht => (Does.pure ()).mpr ht

/-! ## New and empty tables -/

theorem uvmcreate_spec (h : FreeList K s L) :
    Does uvmcreate (fun r t => r = 0 ∧ L = [] ∧ t = s ∨
      ∃ L', L = r :: L' ∧ IsPage K r ∧ Owns K t L' r (fun _ => 0) {r} ∧
        AgreeOff pgSize {r} s.mem t.mem) s := by
  unfold uvmcreate
  rw [Does.bind]
  refine (kalloc_spec h).mono fun c t hc => ?_
  rcases hc with ⟨rfl, rfl, rfl⟩ | ⟨L', rfl, htook⟩
  · simp
  · simp only [Nat.pos_iff_ne_zero.mp htook.page.pos, if_false, Does.bind, does_memset, Does.pure]
    right
    have hclear : AgreeOff pgSize {c} t.mem (splice t.mem c pgSize fun _ => 0) :=
      AgreeOff.splice (Multiset.mem_singleton_self c) (Nat.le_refl c) (Nat.le_refl _)
    have hfresh : ∀ p ∈ L', p ∉ ({c} : Multiset Nat) := fun p hp hpc =>
      htook.fresh (Multiset.mem_singleton.mp hpc ▸ hp)
    refine ⟨L', rfl, htook.page, ⟨?_, ?_, ?_⟩, htook.agree.trans hclear⟩
    · exact htook.free.congr rfl hclear (by simpa using htook.page.aligned) hfresh
    · have hrep : Rep (splice t.mem c pgSize fun _ => 0) 2 c (Radix.empty 0 2) :=
        rep_empty fun a ha => splice_inside ha.1 ha.2
      refine ⟨Radix.empty 0 2, hrep, nodes_empty c, fun v _ => get_empty v, ?_,
        Multiset.nodup_singleton c⟩
      simpa using htook.page
    · rw [Multiset.nodup_add]
      exact ⟨htook.free.nodup, Multiset.nodup_singleton c,
        Multiset.disjoint_left.mpr fun {p} hp => hfresh p hp⟩

/-- `freewalk` of a table without leaves. -/
theorem freewalk_table (h : Owns K s L pt f Q) (hno : ∀ v < nVpn, Invalid (f v)) :
    Does (freewalk K 3 pt) (Frees K L Q s) s := by
  obtain ⟨T, hT⟩ := h.table
  have hb : Backed K s L 2 pt T := ⟨hT.rep, h.free, hT.tables ▸ hT.pages, hT.tables ▸ h.nodup⟩
  have hall : All 512 Invalid 2 T := by
    apply all_of_get (d := 0)
    intro v hv
    have := hno v hv
    rwa [← hT.leaf v hv] at this
  have hspec := freewalk_spec hb hall
  rwa [hT.tables] at hspec

end Xv6.Vm
