import Xv6.Kernel.Vm.Code
import Xv6.Lib.Radix
import Mathlib.Tactic.Abel

/-! # The tree behind a page table

A page table is a radix tree in physical memory: its nodes are pages, an inner entry is
empty or points to the page below, and the entries of the last level are the values.
`walk` follows the digits of the page number, and adds the nodes it misses.
-/

namespace Xv6.Vm

open Lib Radix

/-! ## Entries -/

theorem or_flags {x f : Nat} (hf : f < 2 ^ 10) : x * 2 ^ 10 ||| f = x * 2 ^ 10 + f := by
  rw [Nat.mul_comm]
  exact (Nat.two_pow_add_eq_or_of_lt hf x).symm

theorem and_flags {w mask : Nat} (hm : mask < 2 ^ 10) : w &&& mask = pteFlags w &&& mask := by
  have hlt : w &&& mask < 2 ^ 10 := Nat.and_lt_two_pow w hm
  rw [← Nat.mod_eq_of_lt hlt, Nat.and_mod_two_pow, Nat.mod_eq_of_lt hm, pteFlags]

section

variable {pa f : Nat}

theorem pte2pa_or (hpa : pgSize ∣ pa) (hlt : pa < 2 ^ 64) (hf : f < 2 ^ 10) :
    pte2pa (pa2pte pa ||| f) = pa := by
  obtain ⟨i, rfl⟩ := hpa
  simp only [pa2pte, pte2pa, or_flags hf, pgSize] at *
  omega

theorem pteFlags_or (hf : f < 2 ^ 10) : pteFlags (pa2pte pa ||| f) = f := by
  simp only [pa2pte, pteFlags, or_flags hf]
  omega

theorem pte_lt (hlt : pa < 2 ^ 64) (hf : f < 2 ^ 10) : pa2pte pa ||| f < 256 ^ 8 := by
  simp only [pa2pte, or_flags hf]
  omega

end

def pointer (c : Nat) : Nat := pa2pte c ||| pteV

variable {K : Image} {s t : Phys} {L : List Nat} {l q c v va : Nat}

theorem IsPage.lt (h : IsPage K c) : c < 2 ^ 64 := by
  have := h.high
  have : physTop < 2 ^ 64 := by decide
  omega

theorem pte2pa_pointer (h : IsPage K c) : pte2pa (pointer c) = c :=
  pte2pa_or h.aligned h.lt (by decide)

theorem pointer_valid (c : Nat) : pointer c &&& pteV ≠ 0 := by
  rw [and_flags (by decide), pointer, pteFlags_or (by decide)]
  decide

theorem pointer_inner (c : Nat) : pointer c &&& (pteR ||| pteW ||| pteX) = 0 := by
  rw [and_flags (by decide), pointer, pteFlags_or (by decide)]
  decide

theorem px_eq (level va : Nat) : px level va = digit 512 level (va / pgSize) := by
  rw [px, digit, pgSize, Nat.div_div_eq_div_mul, Nat.pow_add, Nat.pow_mul]

/-! ## Trees in memory -/

/-- A tree of depth `l` whose nodes are pages and whose values are entries. -/
abbrev Tree := Radix Nat Nat

abbrev tables (l q : Nat) (T : Tree l) : Multiset Nat := nodes 512 l q T

/-- The entry of page number `v`. -/
abbrev leaf (l : Nat) (T : Tree l) (v : Nat) : Nat := get 512 0 l T v

/-- The memory holds the tree at page `q`. -/
def Rep (m : Bytes) : (l : Nat) → Nat → Tree l → Prop
  | 0, q, T => ∀ i < 512, getLE m (q + 8 * i) 8 = T i
  | l + 1, q, T => ∀ i < 512,
    match T i with
    | none => getLE m (q + 8 * i) 8 = 0
    | some (c, T') => getLE m (q + 8 * i) 8 = pointer c ∧ Rep m l c T'

theorem Rep.vacant {m : Bytes} {T : Tree (l + 1)} {i : Nat} (h : Rep m (l + 1) q T) (hi : i < 512)
    (hT : T i = none) : getLE m (q + 8 * i) 8 = 0 := by
  simpa [hT] using h i hi

theorem Rep.child {m : Bytes} {T : Tree (l + 1)} {T' : Tree l} {i : Nat} (h : Rep m (l + 1) q T)
    (hi : i < 512) (hT : T i = some (c, T')) :
    getLE m (q + 8 * i) 8 = pointer c ∧ Rep m l c T' := by
  simpa [hT] using h i hi

theorem AgreeOff.entry {F : Multiset Nat} {m m' : Bytes} (h : AgreeOff pgSize F m m')
    (hF : ∀ p ∈ F, pgSize ∣ p) (hq : pgSize ∣ q) (hqF : q ∉ F) {i : Nat} (hi : i < 512) :
    getLE m' (q + 8 * i) 8 = getLE m (q + 8 * i) 8 :=
  h.getLE hF hq hqF (Nat.le_add_right _ _) (by unfold pgSize; omega)

theorem root_mem_tables (l q : Nat) (T : Tree l) : q ∈ tables l q T := root_mem_nodes q T

theorem tables_child {T : Tree (l + 1)} {T' : Tree l} {i : Nat} (hi : i < 512)
    (hT : T i = some (c, T')) : tables l c T' ⊆ tables (l + 1) q T := by
  intro p hp
  rw [tables, nodes_eq q T hi, below_some hT]
  simp [hp]

theorem others_mem {T : Tree (l + 1)} {i p : Nat} (hi : i < 512) (hp : p ∈ others 512 T i) :
    p ∈ tables (l + 1) q T := by
  rw [tables, nodes_eq q T hi]
  simp [hp]

theorem Rep.frame {m m' : Bytes} {T : Tree l} {F : Multiset Nat} (h : Rep m l q T)
    (hm : AgreeOff pgSize F m m') (hF : ∀ p ∈ F, pgSize ∣ p)
    (hT : ∀ p ∈ tables l q T, pgSize ∣ p ∧ p ∉ F) : Rep m' l q T := by
  induction l generalizing q with
  | zero =>
    intro i hi
    have hroot := root_mem_tables 0 q T
    obtain ⟨hq, hqF⟩ := hT q hroot
    rw [AgreeOff.entry hm hF hq hqF hi]
    exact h i hi
  | succ l ih =>
    intro i hi
    have hroot := root_mem_tables (l + 1) q T
    obtain ⟨hq, hqF⟩ := hT q hroot
    rw [AgreeOff.entry hm hF hq hqF hi]
    cases hTi : T i with
    | none => exact h.vacant hi hTi
    | some c =>
      obtain ⟨hw, hc⟩ := h.child hi hTi
      exact ⟨hw, ih hc fun p hp => hT p (tables_child hi hTi hp)⟩

/-! ## Trees and the free list -/

/-- The tree at `q` and the free list are in memory, on different pages. -/
structure Backed (K : Image) (s : Phys) (L : List Nat) (l q : Nat) (T : Tree l) : Prop where
  rep : Rep s.mem l q T
  free : FreeList K s L
  pages : ∀ p ∈ tables l q T, IsPage K p
  nodup : (↑L + tables l q T).Nodup

/-- The tree may have got nodes from the free list, but no values. -/
structure Grew (K : Image) (l q : Nat) (s : Phys) (L : List Nat) (T : Tree l) (t : Phys)
    (L' : List Nat) (T' : Tree l) : Prop where
  backed : Backed K t L' l q T'
  total : ↑L + tables l q T = ↑L' + tables l q T'
  leaf : ∀ v, leaf l T' v = leaf l T v
  agree : AgreeOff pgSize (↑L + tables l q T) s.mem t.mem

theorem Backed.refl {T : Tree l} (h : Backed K s L l q T) : Grew K l q s L T s L T :=
  ⟨h, rfl, fun _ => rfl, AgreeOff.refl _⟩

theorem Grew.trans {u : Phys} {L' L'' : List Nat} {T T' T'' : Tree l}
    (h : Grew K l q s L T t L' T') (h' : Grew K l q t L' T' u L'' T'') :
    Grew K l q s L T u L'' T'' where
  backed := h'.backed
  total := h.total.trans h'.total
  leaf v := (h'.leaf v).trans (h.leaf v)
  agree := h.agree.trans (h.total ▸ h'.agree)

theorem Backed.isPage {T : Tree l} (h : Backed K s L l q T) {p : Nat}
    (hp : p ∈ ↑L + tables l q T) : IsPage K p := by
  rcases Multiset.mem_add.mp hp with hp | hp
  · exact h.free.pages p hp
  · exact h.pages p hp

/-- The pages at entry `i` of a table, apart from each other. -/
structure Split (L : List Nat) (q : Nat) (B O : Multiset Nat) : Prop where
  root : q ∉ L ∧ q ∉ B ∧ q ∉ O
  free : L.Nodup ∧ Disjoint (L : Multiset Nat) B ∧ Disjoint (L : Multiset Nat) O
  below : B.Nodup ∧ Disjoint B O
  others : O.Nodup

theorem split_iff {B O : Multiset Nat} :
    (↑L + ({q} + (B + O))).Nodup ↔ Split L q B O := by
  simp only [Multiset.nodup_add, Multiset.disjoint_add_right, Multiset.disjoint_singleton,
    Multiset.singleton_disjoint, Multiset.nodup_singleton, Multiset.coe_nodup, Multiset.mem_coe,
    true_and]
  constructor
  · rintro ⟨hL, ⟨⟨hB, hO, hBO⟩, hqB, hqO⟩, hqL, hLB, hLO⟩
    exact ⟨⟨hqL, hqB, hqO⟩, ⟨hL, hLB, hLO⟩, ⟨hB, hBO⟩, hO⟩
  · intro h
    exact ⟨h.free.1, ⟨⟨h.below.1, h.others, h.below.2⟩, h.root.2.1, h.root.2.2⟩, h.root.1,
      h.free.2.1, h.free.2.2⟩

theorem Backed.split {T : Tree (l + 1)} {i : Nat} (h : Backed K s L (l + 1) q T)
    (hi : i < 512) : Split L q (below 512 T i) (others 512 T i) := by
  rw [← split_iff, ← nodes_eq q T hi]
  exact h.nodup

theorem Backed.child {T : Tree (l + 1)} {T' : Tree l} {i : Nat} (h : Backed K s L (l + 1) q T)
    (hi : i < 512) (hT : T i = some (c, T')) : Backed K s L l c T' where
  rep := (h.rep.child hi hT).2
  free := h.free
  pages p hp := h.pages p (tables_child hi hT hp)
  nodup := by
    have hsp := h.split hi
    rw [below_some hT] at hsp
    exact Multiset.nodup_add.mpr ⟨hsp.free.1, hsp.below.1, hsp.free.2.1⟩

/-- A table whose entry `i` has changed, and nothing else that belongs to it. -/
theorem Rep.put {m m' : Bytes} {T : Tree (l + 1)} {T' : Tree l} {i : Nat} {F : Multiset Nat}
    (h : Rep m (l + 1) q T) (hm : ∀ j < 512, j ≠ i → getLE m' (q + 8 * j) 8 = getLE m (q + 8 * j) 8)
    (hagree : AgreeOff pgSize F m m') (hF : ∀ p ∈ F, pgSize ∣ p)
    (hO : ∀ p ∈ others 512 T i, pgSize ∣ p ∧ p ∉ F) (hw : getLE m' (q + 8 * i) 8 = pointer c)
    (hc : Rep m' l c T') : Rep m' (l + 1) q (put T i c T') := by
  intro j hj
  by_cases hji : j = i
  · subst hji
    simpa [Radix.put] using ⟨hw, hc⟩
  · simp only [Radix.put, upd_other hji]
    rw [hm j hj hji]
    cases hTj : T j with
    | none => exact h.vacant hj hTj
    | some c =>
      obtain ⟨hw, hrep⟩ := h.child hj hTj
      refine ⟨hw, hrep.frame hagree hF fun p hp => hO p ?_⟩
      exact Multiset.mem_of_le (nodes_le_others hj hji hTj) hp

theorem Grew.lift {T : Tree (l + 1)} {T₀ T' : Tree l} {L' : List Nat} {i : Nat}
    (h : Backed K s L (l + 1) q T) (hi : i < 512) (hT : T i = some (c, T₀))
    (hg : Grew K l c s L T₀ t L' T') : Grew K (l + 1) q s L T t L' (put T i c T') := by
  have hsp := h.split hi
  rw [below_some hT] at hsp
  have hF : ∀ p ∈ ↑L + tables l c T₀, pgSize ∣ p := fun p hp => ((h.child hi hT).isPage hp).aligned
  have hqF : q ∉ ↑L + tables l c T₀ := by
    simpa [Multiset.mem_add] using ⟨hsp.root.1, hsp.root.2.1⟩
  have hq := (h.pages q (root_mem_tables _ q T)).aligned
  have htotal : ↑L + tables (l + 1) q T = ↑L' + tables (l + 1) q (put T i c T') := by
    rw [tables, tables, nodes_eq q T hi, below_some hT, nodes_put q c T T' hi, add_left_comm,
      ← add_assoc (L : Multiset Nat), hg.total, add_left_comm (L' : Multiset Nat), add_assoc]
  refine ⟨⟨?_, hg.backed.free, fun p hp => ?_, htotal ▸ h.nodup⟩, htotal, ?_, ?_⟩
  · refine h.rep.put (fun j hj _ => AgreeOff.entry hg.agree hF hq hqF hj) hg.agree hF
      (fun p hp => ⟨(h.pages p (others_mem hi hp)).aligned, ?_⟩) ?_ hg.backed.rep
    · intro hpF
      rcases Multiset.mem_add.mp hpF with hpL | hpB
      · exact Multiset.disjoint_left.mp hsp.free.2.2 hpL hp
      · exact Multiset.disjoint_left.mp hsp.below.2 hpB hp
    · rw [AgreeOff.entry hg.agree hF hq hqF hi]
      exact (h.rep.child hi hT).1
  · apply h.isPage
    rw [htotal]
    exact Multiset.mem_add.mpr (.inr hp)
  · apply get_put
    intro v hv
    refine (hg.leaf v).trans ?_
    simp [Radix.get, hv, hT]
  · refine hg.agree.mono fun p hp => ?_
    rcases Multiset.mem_add.mp hp with hp | hp
    · exact Multiset.mem_add.mpr (.inl hp)
    · exact Multiset.mem_add.mpr (.inr (tables_child hi hT hp))

/-- A cleared page is a table without entries. -/
theorem rep_empty {m : Bytes} (h : ∀ a, InBlock pgSize q a → m a = 0) :
    Rep m l q (Radix.empty 0 l) := by
  have hword : ∀ i < 512, getLE m (q + 8 * i) 8 = 0 := by
    intro i hi
    apply getLE_eq_zero
    intro a ha hlt
    exact h a ⟨by omega, by unfold pgSize; omega⟩
  cases l <;> exact hword

/-- A page from the free list, cleared, becomes the branch at an empty entry. -/
theorem Grew.attach {T : Tree (l + 1)} {L' : List Nat} {i : Nat}
    (h : Backed K s (c :: L') (l + 1) q T) (hi : i < 512) (hT : T i = none)
    (htook : Took K c L' s t) :
    Grew K (l + 1) q s (c :: L') T
      { t with mem := putLE (splice t.mem c pgSize fun _ => 0) (q + 8 * i) 8 (pointer c) } L'
      (put T i c (Radix.empty 0 l)) := by
  have hsp := h.split hi
  have hq := (h.pages q (root_mem_tables _ q T)).aligned
  have hqc : q ≠ c := fun heq => hsp.root.1 (heq ▸ List.mem_cons_self)
  have hin : q + 8 * i + 8 ≤ q + pgSize := by
    unfold pgSize
    omega
  have hclear : AgreeOff pgSize {c} s.mem (splice t.mem c pgSize fun _ => 0) :=
    htook.agree.trans (AgreeOff.splice (Multiset.mem_singleton_self c) (Nat.le_refl c)
      (Nat.le_refl _))
  have hput : AgreeOff pgSize {q} (splice t.mem c pgSize fun _ => 0)
      (putLE (splice t.mem c pgSize fun _ => 0) (q + 8 * i) 8 (pointer c)) :=
    AgreeOff.putLE (Multiset.mem_singleton_self q) (Nat.le_add_right _ _) hin
  have hagree : AgreeOff pgSize {c, q} s.mem
      (putLE (splice t.mem c pgSize fun _ => 0) (q + 8 * i) 8 (pointer c)) :=
    (hclear.mono (by simp)).trans (hput.mono (by simp))
  have hcq : ∀ p ∈ ({c, q} : Multiset Nat), pgSize ∣ p := by
    simpa using ⟨htook.page.aligned, hq⟩
  have htotal : ↑(c :: L') + tables (l + 1) q T =
      ↑L' + tables (l + 1) q (put T i c (Radix.empty 0 l)) := by
    rw [tables, tables, nodes_eq q T hi, below_none hT, nodes_put q c T _ hi, nodes_empty,
      ← Multiset.cons_coe, ← Multiset.singleton_add]
    abel
  refine ⟨⟨?_, ?_, fun p hp => ?_, htotal ▸ h.nodup⟩, htotal, ?_, ?_⟩
  · refine h.rep.put (fun j hj hji => ?_) hagree hcq (fun p hp => ?_) ?_ (rep_empty fun a ha => ?_)
    · rw [getLE_putLE_of_disjoint (by omega)]
      exact AgreeOff.entry hclear (by simpa using htook.page.aligned) hq (by simpa using hqc) hj
    · refine ⟨(h.pages p (others_mem hi hp)).aligned, ?_⟩
      simp only [Multiset.insert_eq_cons, Multiset.mem_cons, Multiset.mem_singleton, not_or]
      exact ⟨fun heq => Multiset.disjoint_left.mp hsp.free.2.2 (heq ▸ List.mem_cons_self) hp,
        fun heq => hsp.root.2.2 (heq ▸ hp)⟩
    · exact getLE_putLE_of_lt (pte_lt htook.page.lt (by decide))
    · have hzero := hput.block (by simpa using hq) htook.page.aligned (by simpa using hqc.symm) ha
      exact hzero.trans (splice_inside ha.1 ha.2)
  · have hrest : AgreeOff pgSize {c, q} t.mem
        (putLE (splice t.mem c pgSize fun _ => 0) (q + 8 * i) 8 (pointer c)) :=
      AgreeOff.trans (AgreeOff.splice (by simp) (Nat.le_refl c) (Nat.le_refl _))
        (hput.mono (by simp))
    refine htook.free.congr rfl hrest hcq fun p hp => ?_
    simp only [Multiset.insert_eq_cons, Multiset.mem_cons, Multiset.mem_singleton, not_or]
    exact ⟨fun heq => htook.fresh (heq ▸ hp), fun heq => hsp.root.1 (heq ▸ .tail c hp)⟩
  · apply h.isPage
    rw [htotal]
    exact Multiset.mem_add.mpr (.inr hp)
  · apply get_put
    intro v hv
    simp [Radix.get, hv, hT]
  · refine hagree.mono fun p hp => ?_
    simp only [Multiset.insert_eq_cons, Multiset.mem_cons, Multiset.mem_singleton] at hp
    rcases hp with rfl | rfl
    · exact Multiset.mem_add.mpr (.inl List.mem_cons_self)
    · exact Multiset.mem_add.mpr (.inr (root_mem_tables _ _ T))

theorem node_put {T : Tree (l + 1)} {T' : Tree l} {i : Nat} (hv : digit 512 (l + 1) v = i) :
    node 512 (l + 1) q (put T i c T') v = node 512 l c T' v := by
  simp [node, put, hv]

theorem px_lt (level va : Nat) : px level va < 512 := Nat.mod_lt _ (by decide)

def cell (l q : Nat) (T : Tree l) (va : Nat) : Option Nat :=
  (node 512 l q T (va / pgSize)).map fun c => c + 8 * px 0 va

/-- `walk` that allocates: it returns the entry, or 0 when there are no free pages. -/
theorem walkFrom_alloc {T : Tree l} (h : Backed K s L l q T) :
    Does (walkFrom va true l q) (fun r t => ∃ L' T', Grew K l q s L T t L' T' ∧
      (r = 0 ∧ L' = [] ∨ cell l q T' va = some r)) s := by
  induction l generalizing q s L with
  | zero =>
    simp only [walkFrom, Does.pure]
    exact ⟨L, T, h.refl, .inr rfl⟩
  | succ l ih =>
    have hi := px_lt (l + 1) va
    simp only [walkFrom, Does.bind, does_load]
    cases hT : T (px (l + 1) va) with
    | some cT =>
      obtain ⟨c, T₀⟩ := cT
      obtain ⟨hw, -⟩ := h.rep.child hi hT
      have hpage := h.pages c (tables_child hi hT (root_mem_tables _ c T₀))
      rw [hw, if_pos (pointer_valid c), pte2pa_pointer hpage]
      refine (ih (h.child hi hT)).mono fun r t hr => ?_
      obtain ⟨L', T', hg, hr⟩ := hr
      refine ⟨L', _, hg.lift h hi hT, hr.imp_right fun hr => ?_⟩
      rwa [cell, node_put (px_eq _ _).symm]
    | none =>
      rw [h.rep.vacant hi hT]
      simp only [Nat.zero_and, ne_eq, not_true_eq_false, if_false, Bool.not_true,
        Bool.false_eq_true, Does.bind]
      refine (kalloc_spec h.free).mono fun c t hc => ?_
      rcases hc with ⟨rfl, rfl, rfl⟩ | ⟨L', rfl, htook⟩
      · simp only [if_true, Does.pure]
        exact ⟨[], T, h.refl, .inl (by simp)⟩
      · simp only [Nat.pos_iff_ne_zero.mp htook.page.pos, if_false, Does.bind, does_memset,
          does_store]
        have hg := Grew.attach h hi hT htook
        refine (ih (hg.backed.child hi (upd_same ..))).mono fun r t hr => ?_
        obtain ⟨L'', T', hg', hr⟩ := hr
        refine ⟨L'', _, hg.trans (hg'.lift hg.backed hi (upd_same ..)), hr.imp_right fun hr => ?_⟩
        rwa [cell, node_put (px_eq _ _).symm]

theorem walkFrom_lookup {T : Tree l} (h : Rep s.mem l q T) (hp : ∀ p ∈ tables l q T, IsPage K p) :
    Does (walkFrom va false l q) (fun r t => t = s ∧ r = (cell l q T va).getD 0) s := by
  induction l generalizing q with
  | zero =>
    rw [walkFrom, Does.pure]
    exact ⟨rfl, rfl⟩
  | succ l ih =>
    have hi := px_lt (l + 1) va
    simp only [walkFrom, Does.bind, does_load]
    cases hT : T (px (l + 1) va) with
    | some cT =>
      obtain ⟨c, T₀⟩ := cT
      obtain ⟨hw, hrep⟩ := h.child hi hT
      have hpage := hp c (tables_child hi hT (root_mem_tables _ c T₀))
      rw [hw, if_pos (pointer_valid c), pte2pa_pointer hpage]
      refine (ih hrep fun p hpc => hp p (tables_child hi hT hpc)).mono fun r t hr => ?_
      rw [px_eq] at hT
      simpa [cell, node, hT] using hr
    | none =>
      rw [h.vacant hi hT]
      rw [px_eq] at hT
      simp [cell, node, hT]

/-! ## Writing an entry -/

/-- A word of one of its tables is written. -/
theorem Rep.store {m : Bytes} {T : Tree l} {w : Nat} (h : Rep m l q T) (hnd : (tables l q T).Nodup)
    (hT : ∀ p ∈ tables l q T, pgSize ∣ p) (hc : node 512 l q T v = some c) (hw : w < 256 ^ 8) :
    Rep (putLE m (c + 8 * digit 512 0 v) 8 w) l q (Radix.set 512 l T v w) := by
  induction l generalizing q with
  | zero =>
    cases hc
    intro i hi
    by_cases hiv : i = digit 512 0 v
    · subst hiv
      simpa [Radix.set] using getLE_putLE_of_lt hw
    · simp only [Radix.set, upd_other hiv]
      rw [getLE_putLE_of_disjoint (by omega)]
      exact h i hi
  | succ l ih =>
    have hi : digit 512 (l + 1) v < 512 := Nat.mod_lt _ (by decide)
    cases hTi : T (digit 512 (l + 1) v) with
    | none => simp [node, hTi] at hc
    | some cT =>
      obtain ⟨c', T'⟩ := cT
      rw [set_some hTi]
      have hc' : node 512 l c' T' v = some c := by simpa [node, hTi] using hc
      have hmem := node_mem (by decide) hc'
      have hsp : Split [] q (nodes 512 l c' T') (others 512 T (digit 512 (l + 1) v)) := by
        rw [← split_iff, ← below_some hTi, ← nodes_eq q T hi]
        simpa using hnd
      have hagree : AgreeOff pgSize {c} m (putLE m (c + 8 * digit 512 0 v) 8 w) := by
        refine AgreeOff.putLE (Multiset.mem_singleton_self c) (Nat.le_add_right _ _) ?_
        have : digit 512 0 v < 512 := Nat.mod_lt _ (by decide)
        unfold pgSize
        omega
      have hcF : ∀ p ∈ ({c} : Multiset Nat), pgSize ∣ p := by
        simpa using hT c (tables_child hi hTi hmem)
      have hq := hT q (root_mem_tables _ q T)
      have hqc : q ∉ ({c} : Multiset Nat) := by
        simpa using fun heq : q = c => hsp.root.2.1 (heq ▸ hmem)
      refine h.put (fun j hj _ => AgreeOff.entry hagree hcF hq hqc hj) hagree hcF
        (fun p hp => ⟨hT p (others_mem hi hp), ?_⟩) ?_ ?_
      · simpa using fun heq : p = c => Multiset.disjoint_left.mp hsp.below.2 (heq ▸ hmem) hp
      · rw [AgreeOff.entry hagree hcF hq hqc hi]
        exact (h.child hi hTi).1
      · exact ih (h.child hi hTi).2 hsp.below.1 (fun p hp => hT p (tables_child hi hTi hp)) hc'

theorem Rep.load {m : Bytes} {T : Tree l} (h : Rep m l q T) (hc : node 512 l q T v = some c) :
    getLE m (c + 8 * digit 512 0 v) 8 = leaf l T v := by
  induction l generalizing q with
  | zero =>
    cases hc
    exact h _ (Nat.mod_lt _ (by decide))
  | succ l ih =>
    have hi : digit 512 (l + 1) v < 512 := Nat.mod_lt _ (by decide)
    cases hTi : T (digit 512 (l + 1) v) with
    | none => simp [node, hTi] at hc
    | some cT =>
      have hchild := ih (h.child hi hTi).2 (by simpa [node, hTi] using hc)
      simpa [leaf, Radix.get, hTi] using hchild

/-! ## Freeing a tree -/

def Invalid (w : Nat) : Prop := w &&& pteV = 0

/-- What `freewalk` has done after `i` entries of the table `q`. -/
structure Freed (K : Image) (s : Phys) (L : List Nat) (q : Nat) (T : Tree (l + 1)) (i : Nat)
    (t : Phys) : Prop where
  free : ∃ L', FreeList K t L' ∧ (L' : Multiset Nat) = ↑L + firsts 512 T i
  agree : AgreeOff pgSize ({q} + firsts 512 T i) s.mem t.mem
  words : ∀ j < 512, i ≤ j → getLE t.mem (q + 8 * j) 8 = getLE s.mem (q + 8 * j) 8

theorem Backed.split_firsts {T : Tree (l + 1)} {i : Nat} (h : Backed K s L (l + 1) q T)
    (hi : i < 512) : Split L q (firsts 512 T i) (below 512 T i) := by
  rw [← split_iff, ← firsts_succ]
  refine Multiset.nodup_of_le ?_ h.nodup
  rw [tables, nodes_firsts]
  exact add_le_add_right (add_le_add_right (firsts_le T hi) _) _

theorem Freed.skip {T : Tree (l + 1)} {i : Nat} (h : Freed K s L q T i t) (hT : T i = none) :
    Freed K s L q T (i + 1) t := by
  obtain ⟨hfree, hagree, hwords⟩ := h
  have hsum : firsts 512 T (i + 1) = firsts 512 T i := by
    rw [firsts_succ, below_none hT, add_zero]
  refine ⟨?_, ?_, fun j hj hij => hwords j hj (by omega)⟩
  · rwa [hsum]
  · rwa [hsum]

theorem freeEntry_invalid {free : Nat → Code Unit} {i : Nat}
    (h : Invalid (getLE s.mem (q + 8 * i) 8))
    {Q : Unit → Phys → Prop} (hQ : Q () s) : Does (freeEntry free q i) Q s := by
  unfold Invalid at h
  simp only [freeEntry, Does.bind, does_load, h, ne_eq, not_true_eq_false, false_and, if_false,
    Does.pure]
  exact hQ

def Frees (K : Image) (L : List Nat) (P : Multiset Nat) (s : Phys) (_ : Unit) (t : Phys) : Prop :=
  ∃ L', FreeList K t L' ∧ (L' : Multiset Nat) = ↑L + P ∧ AgreeOff pgSize P s.mem t.mem

theorem freeEntry_pointer {free : Nat → Code Unit} {T : Tree (l + 1)} {T' : Tree l} {i : Nat}
    (h : Backed K s L (l + 1) q T) (hi : i < 512) (hT : T i = some (c, T'))
    (hsub : ∀ u L', Backed K u L' l c T' → Does (free c) (Frees K L' (tables l c T') u) u)
    (hJ : Freed K s L q T i t) :
    Does (freeEntry free q i) (fun _ => Freed K s L q T (i + 1)) t := by
  obtain ⟨⟨L', hfree, hL'⟩, hagree, hwords⟩ := hJ
  have hsp := h.split_firsts hi
  rw [below_some hT] at hsp
  have hpage := h.pages c (tables_child hi hT (root_mem_tables _ c T'))
  have hq := (h.pages q (root_mem_tables _ q T)).aligned
  have hmem : ∀ p ∈ {q} + firsts 512 T i, p ∈ tables (l + 1) q T := by
    intro p hp
    rw [tables, nodes_firsts]
    rcases Multiset.mem_add.mp hp with hp | hp
    · exact Multiset.mem_add.mpr (.inl hp)
    · exact Multiset.mem_add.mpr (.inr (Multiset.mem_of_le (firsts_le T (by omega)) hp))
  have hbacked : Backed K t L' l c T' := by
    refine ⟨?_, hfree, fun p hp => h.pages p (tables_child hi hT hp), ?_⟩
    · refine (h.rep.child hi hT).2.frame hagree (fun p hp => (h.pages p (hmem p hp)).aligned) ?_
      intro p hp
      refine ⟨(h.pages p (tables_child hi hT hp)).aligned, ?_⟩
      rw [Multiset.mem_add, not_or, Multiset.mem_singleton]
      exact ⟨fun heq => hsp.root.2.2 (heq ▸ hp),
        fun hf => Multiset.disjoint_left.mp hsp.below.2 hf hp⟩
    · rw [hL', Multiset.nodup_add, Multiset.disjoint_add_left, Multiset.nodup_add]
      exact ⟨⟨hsp.free.1, hsp.below.1, hsp.free.2.1⟩, hsp.others, hsp.free.2.2, hsp.below.2⟩
  have hw : getLE t.mem (q + 8 * i) 8 = pointer c := by
    rw [hwords i hi (Nat.le_refl i)]
    exact (h.rep.child hi hT).1
  simp only [freeEntry, Does.bind, does_load, hw, pointer_valid, pointer_inner, ne_eq,
    not_false_eq_true, and_self, if_true, pte2pa_pointer hpage, does_store]
  refine (hsub t L' hbacked).mono fun _ u hu => ?_
  obtain ⟨L'', hfree', hL'', hagree'⟩ := hu
  have hsum : (L'' : Multiset Nat) = ↑L + firsts 512 T (i + 1) := by
    rw [hL'', hL', firsts_succ, below_some hT, add_assoc]
  have hput : AgreeOff pgSize {q} u.mem (putLE u.mem (q + 8 * i) 8 0) :=
    AgreeOff.putLE (Multiset.mem_singleton_self q) (Nat.le_add_right _ _) (by
      unfold pgSize
      omega)
  have hqsub : ({q} : Multiset Nat) ⊆ {q} + firsts 512 T (i + 1) :=
    Multiset.subset_of_le (Multiset.le_add_right _ _)
  refine ⟨⟨L'', ?_, hsum⟩, ?_, fun j hj hij => ?_⟩
  · refine hfree'.congr rfl hput (by simpa using hq) fun p hp hpq => ?_
    have hpL : p ∈ ↑L + firsts 512 T (i + 1) := hsum ▸ Multiset.mem_coe.mpr hp
    rw [Multiset.mem_singleton.mp hpq, firsts_succ, below_some hT, Multiset.mem_add,
      Multiset.mem_add] at hpL
    rcases hpL with hpL | hpL | hpL
    · exact hsp.root.1 hpL
    · exact hsp.root.2.1 hpL
    · exact hsp.root.2.2 hpL
  · have hsub₁ : {q} + firsts 512 T i ⊆ {q} + firsts 512 T (i + 1) :=
      Multiset.subset_of_le (add_le_add_right (firsts_le T (by omega)) _)
    have hsub₂ : tables l c T' ⊆ {q} + firsts 512 T (i + 1) := by
      intro p hp
      rw [firsts_succ, below_some hT]
      simp [hp]
    exact ((hagree.mono hsub₁).trans (hagree'.mono hsub₂)).trans (hput.mono hqsub)
  · rw [getLE_putLE_of_disjoint (by omega)]
    rw [AgreeOff.entry hagree' (fun p hp => (hbacked.pages p hp).aligned) hq hsp.root.2.2 hj]
    exact hwords j hj (by omega)

theorem freewalk_spec {T : Tree l} (h : Backed K s L l q T) (hno : All 512 Invalid l T) :
    Does (freewalk K (l + 1) q) (Frees K L (tables l q T) s) s := by
  have hpage := h.pages q (root_mem_tables _ q T)
  have hself : ({q} : Multiset Nat) ⊆ tables l q T := by
    simpa using root_mem_tables l q T
  induction l generalizing q s L with
  | zero =>
    rw [freewalk, Does.bind]
    have hloop : Does (Comp.loop (freeEntry (freewalk K 0) q) 0 512) (fun _ t => t = s) s :=
      Does.loop (fun _ t => t = s) (fun j _ hj t ht => by
        subst ht
        refine freeEntry_invalid ?_ rfl
        rw [h.rep j (by omega)]
        exact hno j (by omega)) rfl
    refine hloop.mono fun _ t ht => ?_
    subst ht
    have hqL : q ∉ L := fun hq =>
      Multiset.disjoint_left.mp (Multiset.nodup_add.mp h.nodup).2.2 hq (root_mem_tables 0 q T)
    refine (kfree_spec h.free hpage hqL).mono fun _ u hu => ?_
    refine ⟨q :: L, hu.1, ?_, hu.2.mono hself⟩
    rw [tables, nodes_zero, add_comm, Multiset.singleton_add, Multiset.cons_coe]
  | succ l ih =>
    rw [freewalk, Does.bind]
    have hloop : Does (Comp.loop (freeEntry (freewalk K (l + 1)) q) 0 512)
        (fun _ => Freed K s L q T (0 + 512)) s := by
      refine Does.loop (Freed K s L q T) (fun j _ hj t ht => ?_) ⟨⟨L, h.free, ?_⟩, ?_, ?_⟩
      · have hj' : j < 512 := by omega
        cases hT : T j with
        | none =>
          refine freeEntry_invalid ?_ (ht.skip hT)
          rw [ht.words j hj' (Nat.le_refl j), h.rep.vacant hj' hT]
          rfl
        | some cT =>
          obtain ⟨c, T'⟩ := cT
          refine freeEntry_pointer h hj' hT (fun u L' hb => ?_) ht
          exact ih hb (hno j hj' c T' hT) (hb.pages c (root_mem_tables _ c T'))
            (by simpa using root_mem_tables l c T')
      · rw [firsts_zero, add_zero]
      · exact AgreeOff.refl _
      · exact fun _ _ _ => rfl
    refine hloop.mono fun _ t ht => ?_
    obtain ⟨⟨L', hfree, hL'⟩, hagree, -⟩ := ht
    rw [Nat.zero_add] at hL' hagree
    rw [← nodes_firsts] at hagree
    have hnd := h.nodup
    rw [tables, nodes_firsts, add_left_comm, ← hL', Multiset.singleton_add,
      Multiset.nodup_cons] at hnd
    refine (kfree_spec hfree hpage hnd.1).mono fun _ u hu => ?_
    refine ⟨q :: L', hu.1, ?_, hagree.trans (hu.2.mono hself)⟩
    rw [tables, nodes_firsts, add_left_comm, ← hL', Multiset.singleton_add, Multiset.cons_coe]

end Xv6.Vm
