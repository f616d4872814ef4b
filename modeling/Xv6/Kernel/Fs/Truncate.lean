import Xv6.Kernel.Fs.Update

/-! # Emptying a file

`itrunc` gives back every block of an inode. The ledger runs ahead of the copy in
memory: places are emptied in it first, their blocks are loose until `bfree` gives
them back, and the inode catches up afterwards.
-/

namespace Xv6.Fs

open Lib

section

variable {I : Store → Prop} {E : Stop → Store → Prop} {st : Bool} {P : Nat → Prop}
  {s t u : Store} {ip i : Nat}

/-- Blocks of the inode in entry `ip` have been given back: its copy in memory is `y`, and only
the free map differs on disk. The ledger is that of the inode `x`; the locked blocks are loose. -/
structure Truncates (P : Nat → Prop) (ip i : Nat) (x y : Dinode) (s t : Store) : Prop where
  shape : t.outstanding = s.outstanding ∧ t.touched = s.touched ∧ t.broken = s.broken
  held : ∀ b ∈ t.held, P b
  mem : t.mem = s.mem.mapDin ip fun _ => y
  core : Core P s.mem.sb t.blocks (upd s.inodeOf i x)
  frame : ∀ b, b < s.mem.sb.bmapstart ∨ s.mem.sb.nmeta ≤ b → t.blocks b = s.blocks b
  logged : ∀ b ∈ t.logged, b ∈ s.logged ∨ ∃ a < s.mem.sb.size, b = bblock s.mem.sb a

variable {P' : Nat → Prop} {x y : Dinode}

theorem freeBlock_frame {sb : Superblock} (hsb : sb.Ok) {blocks : Nat → Block} {a b : Nat}
    (ha : a < sb.size) (hb : b < sb.bmapstart ∨ sb.nmeta ≤ b) :
    freeBlock sb blocks a b = blocks b := by
  have hle := bmapstart_le_bblock sb a
  have hlt := hsb.bitmap a ha
  rw [freeBlock, upd_other (by omega)]

theorem Truncates.sb (h : Truncates P ip i x y s t) : t.mem.sb = s.mem.sb := by
  rw [h.mem, mapDin_sb]

theorem Truncates.tidy (h : Truncates P ip i x y s t) (hs : s.touched = []) : t.Tidy := by
  intro b hb
  rw [h.shape.2.1, hs] at hb
  cases hb

theorem Truncates.trans' (h : Truncates P ip i x y s t) (ho : s.Trans E) : t.Trans E := by
  unfold Store.Trans
  rw [h.shape.1]
  exact ho

/-- A loose block that is not locked is given back. -/
theorem Truncates.bfree {Q : Unit → Store → Prop} {a : Nat} (h : Truncates P ip i x y s t)
    (hs : s.touched = []) (ho : s.Trans E) (ha : P a) (hP : ∀ b, P' b ↔ P b ∧ b ≠ a)
    (hfree : a ∉ t.held)
    (hQ : ∀ u, Truncates P' ip i x y s u → u.held = t.held → Q () u) : wp I (bfree a) Q E t := by
  have hsb := h.sb
  have hu := h.core.ledger.used_of_loose a ha
  have hready : t.Ready := by
    refine ⟨hsb ▸ h.core.sbOk, h.tidy hs, fun b hb => ?_⟩
    have hub := h.core.ledger.used_of_loose b (h.held b hb)
    rw [hsb]
    exact ⟨hub.1, hub.2.2⟩
  refine bfree_spec hready (h.trans' ho) (hsb ▸ hu.2.1) (hsb ▸ hu.2.2) (hQ _ ?_ rfl)
  refine ⟨h.shape, fun b hb => ?_, h.mem, ?_, ?_, fun b hb => ?_⟩
  · exact (hP b).mpr ⟨h.held b hb, fun heq => hfree (heq ▸ hb)⟩
  · rw [hsb]
    exact h.core.give ha hP
  · intro b hb
    rw [← h.frame b hb, hsb]
    exact freeBlock_frame h.core.sbOk hu.2.1 hb
  · rcases List.mem_cons.mp hb with rfl | hb
    · exact .inr ⟨a, hu.2.1, by rw [hsb]⟩
    · exact h.logged b hb

theorem slotAddr_clear {k : Nat} (hk : k < nDirect) (blocks : Nat → Block) (x : Dinode) (k' : Nat) :
    slotAddr blocks (x.setAddr k 0) k' = if k' = k then 0 else slotAddr blocks x k' := by
  unfold slotAddr
  by_cases hkk : k' = k
  · subst hkk
    rw [if_pos (by omega), if_pos rfl, Dinode.addr_setAddr_same _ _ (by omega)]
  · rw [if_neg hkk, Dinode.addr_setAddr_other _ _ hkk, Dinode.addr_setAddr_other _ _ (by omega)]

theorem slotAddr_clear_indirect (blocks : Nat → Block) (x : Dinode) (k' : Nat) :
    slotAddr blocks (x.setAddr nDirect 0) k' =
      if nDirect ≤ k' then 0 else slotAddr blocks x k' := by
  unfold slotAddr
  rw [Dinode.addr_setAddr_same _ _ (by omega)]
  by_cases hk : nDirect ≤ k'
  · rw [if_pos hk]
    split
    · rw [show k' = nDirect by omega, Dinode.addr_setAddr_same _ _ (by omega)]
    · rfl
  · rw [if_neg hk, if_pos (by omega), if_pos (by omega), Dinode.addr_setAddr_other _ _ (by omega)]

theorem Truncates.din (h : Truncates P ip i x y s t) : (t.mem.itable ip).din = y := by
  rw [h.mem, mapDin_same]

theorem Truncates.setDin {g : Dinode → Dinode} (h : Truncates P ip i x y s t) (hg : g y = x) :
    Truncates P ip i x x s { t with mem := t.mem.mapDin ip g } := by
  refine ⟨h.shape, h.held, ?_, h.core, h.frame, h.logged⟩
  show t.mem.mapDin ip g = _
  rw [h.mem, mapDin_mapDin, hg]

theorem itruncDirect_spec {Q : Unit → Store → Prop} {k : Nat} (hs : Active P ip i s)
    (ho : s.Trans E) (h : Truncates P ip i x x s t) (hheld : t.held = []) (hk : k < nDirect)
    (ht : x.type = (s.inodeOf i).type)
    (hQ : ∀ u, Truncates P ip i (x.setAddr k 0) (x.setAddr k 0) s u → u.held = [] → Q () u) :
    wp I (itruncDirect ip k) Q E t := by
  simp only [itruncDirect, wp_bind, wp_inode, h.din]
  have hfits : x.Fits := by
    have := h.core.fits i hs.lt
    rwa [upd_same] at this
  have hplace : ∀ b, placeOf s.mem.sb t.blocks (upd s.inodeOf i x) (i, k) = some b ↔
      b ≠ 0 ∧ x.addr k = b := by
    intro b
    rw [placeOf_eq_some]
    simp only [upd_same, slotAddr_direct t.blocks x (show k ≤ nDirect by omega), ht]
    have := hs.lt
    have := hs.type
    have : k < nSlots := by unfold nSlots; omega
    tauto
  -- The place is emptied in the ledger first; its block is loose until it is freed.
  have hdetach : Truncates (fun b => P b ∨ b ≠ 0 ∧ x.addr k = b) ip i (x.setAddr k 0) x s t := by
    refine ⟨h.shape, by rw [hheld]; simp, h.mem, ?_, h.frame, h.logged⟩
    rw [← upd_upd s.inodeOf i x]
    refine h.core.detach (by rw [upd_same, Dinode.setAddr_type]) (hfits.setAddr (by decide))
      (fun k' => k' = k) (fun k' _ => ?_) fun b => ?_
    · rw [upd_same]
      exact slotAddr_clear hk _ _ _
    · simp only [exists_eq_left, hplace]
  refine wp_ite (fun hz => ?_) fun hne => ?_
  · rw [wp_pure]
    refine hQ t ?_ hheld
    rw [show x.setAddr k 0 = x from hz ▸ x.setAddr_self k]
    exact h
  · have hloose : ¬ P (x.addr k) := (h.core.ledger.used_of_ref _ _ ((hplace _).mpr ⟨hne, rfl⟩)).2
    simp only [wp_bind, wp_setDin]
    refine hdetach.bfree hs.touched ho (.inr ⟨hne, rfl⟩) (fun b => ?_) (by rw [hheld]; simp)
      fun u hu huh => hQ _ (hu.setDin rfl) (huh.trans hheld)
    constructor
    · exact fun hb => ⟨.inl hb, fun heq => hloose (heq ▸ hb)⟩
    · rintro ⟨hb | ⟨-, heq⟩, hne'⟩
      · exact hb
      · exact absurd heq.symm hne'

/-- What is loose before round `j` of the loop over the indirect block `ind` with contents
`d`. -/
def looseFrom (P : Nat → Prop) (ind : Nat) (d : Block) (j b : Nat) : Prop :=
  P b ∨ b = ind ∨ ∃ j', j ≤ j' ∧ j' < nIndirect ∧ getLE d (4 * j') 4 ≠ 0 ∧ getLE d (4 * j') 4 = b

/-- The blocks below the indirect block are all different and none is loose yet. -/
structure IndirectOk (P : Nat → Prop) (ind : Nat) (d : Block) : Prop where
  self : ¬ P ind
  loose : ∀ j < nIndirect, getLE d (4 * j) 4 ≠ 0 → ¬ P (getLE d (4 * j) 4)
  ne : ∀ j < nIndirect, getLE d (4 * j) 4 ≠ ind
  inj : ∀ j < nIndirect, ∀ j' < nIndirect, getLE d (4 * j) 4 ≠ 0 →
    getLE d (4 * j) 4 = getLE d (4 * j') 4 → j = j'

theorem IndirectOk.step {ind j : Nat} {d : Block} (h : IndirectOk P ind d) (hj : j < nIndirect)
    (hne : getLE d (4 * j) 4 ≠ 0) (b : Nat) :
    looseFrom P ind d (j + 1) b ↔ looseFrom P ind d j b ∧ b ≠ getLE d (4 * j) 4 := by
  unfold looseFrom
  constructor
  · rintro (hb | rfl | ⟨j', hle, hlt, hne', rfl⟩)
    · exact ⟨.inl hb, fun heq => h.loose j hj hne (heq ▸ hb)⟩
    · exact ⟨.inr (.inl rfl), fun heq => h.ne j hj heq.symm⟩
    · refine ⟨.inr (.inr ⟨j', by omega, hlt, hne', rfl⟩), fun heq => ?_⟩
      have := h.inj j' hlt j hj hne' heq
      omega
  · rintro ⟨hb | hb | ⟨j', hle, hlt, hne', rfl⟩, hbne⟩
    · exact .inl hb
    · exact .inr (.inl hb)
    · have hjj : j' ≠ j := by
        rintro rfl
        exact hbne rfl
      exact .inr (.inr ⟨j', by omega, hlt, hne', rfl⟩)

theorem looseFrom_skip {ind j : Nat} {d : Block} (hz : getLE d (4 * j) 4 = 0) (b : Nat) :
    looseFrom P ind d (j + 1) b ↔ looseFrom P ind d j b := by
  unfold looseFrom
  refine or_congr Iff.rfl (or_congr Iff.rfl ⟨?_, ?_⟩)
  · rintro ⟨j', hle, h⟩
    exact ⟨j', by omega, h⟩
  · rintro ⟨j', hle, hlt, hne, heq⟩
    have hjj : j' ≠ j := by
      rintro rfl
      exact hne hz
    exact ⟨j', by omega, hlt, hne, heq⟩

theorem IndirectOk.last {ind : Nat} {d : Block} (h : IndirectOk P ind d) (b : Nat) :
    P b ↔ looseFrom P ind d nIndirect b ∧ b ≠ ind := by
  unfold looseFrom
  constructor
  · exact fun hb => ⟨.inl hb, fun heq => h.self (heq ▸ hb)⟩
  · rintro ⟨hb | hb | ⟨j', hle, hlt, -⟩, hne⟩
    · exact hb
    · exact absurd hb hne
    · omega

theorem Truncates.congr (h : Truncates P ip i x y s t) (hP : ∀ b, P' b ↔ P b) :
    Truncates P' ip i x y s t := by
  obtain rfl : P' = P := funext fun b => propext (hP b)
  exact h

theorem itruncLoop_spec {ind : Nat} {d : Block} {k : Nat} (hs : s.touched = []) (ho : s.Trans E)
    (hd : IndirectOk P ind d) (h : Truncates (looseFrom P ind d 0) ip i x y s t)
    (hheld : t.held = [ind]) (hk : k ≤ nIndirect) :
    wp I (Comp.loop (itruncIndirect d) 0 k)
      (fun _ u => Truncates (looseFrom P ind d k) ip i x y s u ∧ u.held = [ind]) E t := by
  refine wp_mono (wp_loop (J := fun j u => Truncates (looseFrom P ind d j) ip i x y s u ∧
    u.held = [ind]) ?_ ⟨h, hheld⟩) (fun _ u hu => ?_) fun _ _ he => he
  · rintro j - hj u ⟨hu, huh⟩
    unfold itruncIndirect
    refine wp_ite (fun hz => ?_) fun hne => ?_
    · rw [wp_pure]
      exact ⟨hu.congr (looseFrom_skip hz), huh⟩
    · refine hu.bfree hs ho (.inr (.inr ⟨j, Nat.le_refl j, by omega, hne, rfl⟩))
        (hd.step (by omega) hne) ?_ fun v hv hvh => ⟨hv, hvh.trans huh⟩
      rw [huh, List.mem_singleton]
      exact hd.ne j (by omega)
  · rwa [Nat.zero_add] at hu

theorem Truncates.lock {b : Nat} (h : Truncates P ip i x y s t) (hb : P b) :
    Truncates P ip i x y s (t.lock b) := by
  have hlog : t.mem.sb.inLog b = false := by
    rw [h.sb]
    exact (h.core.ledger.used_of_loose b hb).not_log h.core.sbOk
  refine ⟨⟨h.shape.1, h.shape.2.1, ?_⟩, ?_, h.mem, h.core, h.frame, h.logged⟩
  · show (t.broken || t.mem.sb.inLog b) = s.broken
    rw [hlog, Bool.or_false, h.shape.2.2]
  · intro c hc
    rcases List.mem_cons.mp hc with rfl | hc
    · exact hb
    · exact h.held c hc

theorem Truncates.release {b : Nat} (h : Truncates P ip i x y s t) (hs : s.touched = []) :
    Truncates P ip i x y s (t.release b) := by
  have ht : t.touched = [] := h.shape.2.1.trans hs
  refine ⟨⟨h.shape.1, ?_, ?_⟩, fun c hc => h.held c (List.mem_of_mem_erase hc), h.mem, h.core,
    h.frame, h.logged⟩
  · show t.touched.filter _ = s.touched
    rw [ht, hs]
    rfl
  · show (t.broken || _) = s.broken
    rw [ht, h.shape.2.2]
    simp

theorem Truncates.indirectOk (h : Truncates P ip i x y s t) (hi : i < s.mem.sb.ninodes)
    (ht : x.type ≠ 0) (hne : x.addr nDirect ≠ 0) :
    IndirectOk P (x.addr nDirect) (t.blocks (x.addr nDirect)) ∧
      ∀ b, looseFrom P (x.addr nDirect) (t.blocks (x.addr nDirect)) 0 b ↔
        P b ∨ ∃ k, nDirect ≤ k ∧
          placeOf s.mem.sb t.blocks (upd s.inodeOf i x) (i, k) = some b := by
  have hentry : ∀ j, slotAddr t.blocks x (nDirect + 1 + j) =
      getLE (t.blocks (x.addr nDirect)) (4 * j) 4 := by
    intro j
    unfold slotAddr
    rw [if_neg (by omega), if_neg hne, show nDirect + 1 + j - (nDirect + 1) = j by omega]
  have hind := slotAddr_direct t.blocks x (Nat.le_refl nDirect)
  have hplace : ∀ k b, placeOf s.mem.sb t.blocks (upd s.inodeOf i x) (i, k) = some b ↔
      k < nSlots ∧ b ≠ 0 ∧ slotAddr t.blocks x k = b := by
    intro k b
    rw [placeOf_eq_some]
    simp only [upd_same]
    tauto
  have hself := (hplace nDirect _).mpr ⟨by decide, hne, hind⟩
  have hslot : ∀ j < nIndirect, nDirect + 1 + j < nSlots := by
    intro j hj
    unfold nSlots
    omega
  have href : ∀ j < nIndirect, getLE (t.blocks (x.addr nDirect)) (4 * j) 4 ≠ 0 →
      placeOf s.mem.sb t.blocks (upd s.inodeOf i x) (i, nDirect + 1 + j) =
        some (getLE (t.blocks (x.addr nDirect)) (4 * j) 4) := fun j hj hnz =>
    (hplace _ _).mpr ⟨hslot j hj, hnz, hentry j⟩
  refine ⟨⟨(h.core.ledger.used_of_ref _ _ hself).2,
    fun j hj hnz => (h.core.ledger.used_of_ref _ _ (href j hj hnz)).2, ?_, ?_⟩, ?_⟩
  · intro j hj heq
    have hinj := h.core.ledger.inj _ _ _ (href j hj (by rw [heq]; exact hne)) (heq ▸ hself)
    have := (Prod.mk.inj hinj).2
    omega
  · intro j hj j' hj' hnz heq
    have hinj := h.core.ledger.inj _ _ _ (href j hj hnz) (heq ▸ href j' hj' (heq ▸ hnz))
    have := (Prod.mk.inj hinj).2
    omega
  · intro b
    unfold looseFrom
    refine or_congr Iff.rfl ⟨?_, ?_⟩
    · rintro (rfl | ⟨j, -, hj, hnz, rfl⟩)
      · exact ⟨nDirect, Nat.le_refl _, hself⟩
      · exact ⟨nDirect + 1 + j, by omega, href j hj hnz⟩
    · rintro ⟨k, hk, hb⟩
      obtain ⟨hlt, hnz, heq⟩ := (hplace k b).mp hb
      rcases Nat.eq_or_lt_of_le hk with rfl | hlt'
      · exact .inl (by rw [← heq, hind])
      · refine .inr ⟨k - (nDirect + 1), Nat.zero_le _, by unfold nSlots at hlt; omega, ?_, ?_⟩
        · rw [← hentry, show nDirect + 1 + (k - (nDirect + 1)) = k by omega, heq]
          exact hnz
        · rw [← hentry, show nDirect + 1 + (k - (nDirect + 1)) = k by omega, heq]

theorem itruncBlock_spec {Q : Unit → Store → Prop} (hs : Active P ip i s) (ho : s.Trans E)
    (h : Truncates P ip i x x s t) (hheld : t.held = []) (ht : x.type = (s.inodeOf i).type)
    (hQ : ∀ u, Truncates P ip i (x.setAddr nDirect 0) (x.setAddr nDirect 0) s u → u.held = [] →
      Q () u) : wp I (itruncBlock ip (x.addr nDirect)) Q E t := by
  unfold itruncBlock
  refine wp_ite (fun hz => ?_) fun hne => ?_
  · rw [wp_pure]
    refine hQ t ?_ hheld
    rw [show x.setAddr nDirect 0 = x from hz ▸ x.setAddr_self nDirect]
    exact h
  · obtain ⟨hok, hloose⟩ := h.indirectOk hs.lt (by rw [ht]; exact hs.type) hne
    have hfits : x.Fits := by
      have := h.core.fits i hs.lt
      rwa [upd_same] at this
    -- All places from the indirect block on are emptied in the ledger first.
    have hdetach : Truncates (looseFrom P (x.addr nDirect) (t.blocks (x.addr nDirect)) 0) ip i
        (x.setAddr nDirect 0) x s t := by
      refine ⟨h.shape, by rw [hheld]; simp, h.mem, ?_, h.frame, h.logged⟩
      rw [← upd_upd s.inodeOf i x]
      refine h.core.detach (by rw [upd_same, Dinode.setAddr_type]) (hfits.setAddr (by decide))
        (fun k => nDirect ≤ k) (fun k _ => ?_) hloose
      rw [upd_same]
      exact slotAddr_clear_indirect _ _ _
    simp only [wp_bind]
    refine wp_peek (by rw [hheld]; simp) ?_
    rw [wp_load]
    refine wp_mono (itruncLoop_spec hs.touched ho hok (hdetach.lock (.inr (.inl rfl)))
      (by simp [Store.lock, hheld]) (Nat.le_refl _)) ?_ fun _ _ he => he
    rintro _ u ⟨hu, huh⟩
    rw [wp_brelse, if_pos (by simp [huh])]
    have hrel : (u.release (x.addr nDirect)).held = [] := by simp [Store.release, huh]
    refine (hu.release hs.touched).bfree hs.touched ho (.inr (.inl rfl)) hok.last
      (by rw [hrel]; simp) fun v hv hvh => ?_
    rw [wp_setDin]
    exact hQ _ (hv.setDin rfl) (hvh.trans hrel)


def Dinode.clear (x : Dinode) : Nat → Dinode
  | 0 => x
  | k + 1 => (x.clear k).setAddr k 0

theorem Dinode.clear_addr (x : Dinode) {k j : Nat} (hk : k ≤ nDirect + 1) :
    (x.clear k).addr j = if j < k then 0 else x.addr j := by
  induction k with
  | zero => rfl
  | succ k ih =>
      rw [clear]
      by_cases hjk : j = k
      · subst hjk
        rw [addr_setAddr_same _ _ (by omega), if_pos (by omega)]
      · rw [addr_setAddr_other _ _ hjk, ih (by omega)]
        split <;> split <;> omega

theorem Dinode.clear_fields (x : Dinode) (k : Nat) :
    (x.clear k).type = x.type ∧ (x.clear k).major = x.major ∧ (x.clear k).minor = x.minor ∧
      (x.clear k).nlink = x.nlink := by
  induction k with
  | zero => exact ⟨rfl, rfl, rfl, rfl⟩
  | succ k ih => simpa [clear] using ih

def Dinode.empty (x : Dinode) : Dinode := { x.clear (nDirect + 1) with size := 0 }

theorem Dinode.empty_addr (x : Dinode) {k : Nat} (hk : k ≤ nDirect) : x.empty.addr k = 0 := by
  have h := x.clear_addr (k := nDirect + 1) (j := k) (Nat.le_refl _)
  rw [if_pos (by omega)] at h
  exact h

theorem nodeOf_empty (blocks : Nat → Block) (x : Dinode) :
    nodeOf blocks x.empty = ⟨x.type, x.major, x.minor, x.nlink, 0, fun _ => 0⟩ := by
  obtain ⟨h1, h2, h3, h4⟩ := x.clear_fields (nDirect + 1)
  have hslot : ∀ k, slotAddr blocks x.empty k = 0 := by
    intro k
    unfold slotAddr
    split
    · exact x.empty_addr ‹_›
    · rw [x.empty_addr (Nat.le_refl _), if_pos rfl]
  have hbyte : byteAt blocks x.empty = fun _ => 0 := by
    funext off
    simp [byteAt, hslot]
  rw [nodeOf, hbyte]
  simp only [Dinode.empty, h1, h2, h3, h4]

/-- With all blocks given back and the size zero, only `iupdate` is left. -/
theorem Truncates.pending (h : Truncates P ip i (x.clear (nDirect + 1)) (x.clear (nDirect + 1)) s t)
    (hs : Active P ip i s) (hx : x = s.inodeOf i) (hheld : t.held = [])
    (hu : u = { t with mem := t.mem.mapDin ip fun x => { x with size := 0 } }) :
    Pending st P ip i s u ∧ u.inodeOf i = x.empty := by
  subst hx
  have hmem : u.mem = t.mem.mapDin ip fun x => { x with size := 0 } := by rw [hu]
  rw [h.mem, mapDin_mapDin] at hmem
  have hblocks : u.blocks = t.blocks := by rw [hu]
  have hf : u.inodeOf = upd s.inodeOf i (s.inodeOf i).empty := by
    refine hs.inodeOf_grow (g := fun _ => (s.inodeOf i).empty) hmem fun b hb => ?_
    rw [hblocks]
    exact h.frame b (.inl hb)
  have hdata : ∀ b, usedBlock s.mem.sb s.blocks b → t.blocks b = s.blocks b := fun b hb =>
    h.frame b (.inr hb.1)
  refine ⟨⟨?_, ⟨_, hmem⟩, ?_, ?_, ?_, ?_, ?_, ?_⟩, by rw [hf, upd_same]⟩
  · rw [hu]
    exact ⟨hheld.trans hs.held.symm, h.shape.1, h.shape.2.1⟩
  · rw [hf, hblocks, ← upd_upd s.inodeOf i ((s.inodeOf i).clear (nDirect + 1))]
    refine h.core.setFields (fun k _ => ?_) (Nat.two_pow_pos 32) (.inl ?_) hs.lt
    · rw [upd_same]
      rfl
    · rw [upd_same]
      rfl
  · intro j hj
    rw [hf, upd_other hj]
  · intro b hb
    rw [hblocks]
    exact h.frame b (.inl hb)
  · intro j hj hji htj
    rw [hblocks]
    exact hs.core.nodeOf_frame hj htj fun b hb _ => hdata b hb
  · intro j hj hji htj k hk _
    rw [hblocks]
    exact hs.core.slotAddr_frame hj htj (fun b hb _ => hdata b hb) k
  · intro _ hdir
    rw [hf, upd_same] at hdir ⊢
    refine ⟨Nat.zero_le _, fun bn hbn => ?_, hdir⟩
    exact absurd hbn (Nat.not_lt_zero _)

/-- `itrunc` empties the file. -/
theorem itrunc_spec (st : Bool) {Q : Unit → Store → Prop} (h : Active P ip i s) (ho : s.Trans E)
    (hQ : ∀ t, Edits st P ip i s t → t.broken = s.broken →
      nodeOf t.blocks (t.inodeOf i) =
        { nodeOf s.blocks (s.inodeOf i) with size := 0, byte := fun _ => 0 } →
      (∀ k ≤ nDirect, (t.inodeOf i).addr k = 0) →
      (∀ b ∈ t.logged, b ∈ s.logged ∨ b = iblock s.mem.sb i ∨
        ∃ a < s.mem.sb.size, b = bblock s.mem.sb a) → Q () t) :
    wp I (itrunc ip) Q E s := by
  have hstart : Truncates P ip i (s.inodeOf i) (s.inodeOf i) s s := by
    refine ⟨⟨rfl, rfl, rfl⟩, by rw [h.held]; simp, ?_, by rw [upd_self]; exact h.core,
      fun _ _ => rfl, fun _ => .inl⟩
    exact (mapDin_id h.din.symm).symm
  simp only [itrunc, wp_bind]
  refine wp_mono (wp_loop (J := fun k t => Truncates P ip i ((s.inodeOf i).clear k)
    ((s.inodeOf i).clear k) s t ∧ t.held = []) ?_ ⟨hstart, h.held⟩) ?_ fun _ _ he => he
  · rintro k - hk t ⟨ht, hheld⟩
    exact itruncDirect_spec h ho ht hheld (by omega) ((s.inodeOf i).clear_fields k).1
      fun u hu huh => ⟨hu, huh⟩
  · rintro _ t ⟨ht, hheld⟩
    rw [Nat.zero_add] at ht
    rw [wp_inode, ht.din]
    refine itruncBlock_spec h ho ht hheld ((s.inodeOf i).clear_fields nDirect).1 fun u hu huh => ?_
    rw [wp_setDin]
    obtain ⟨hp, hempty⟩ := hu.pending h rfl huh rfl
    refine hp.iupdate h ho fun hedits hnode _ hsame => hQ _ hedits ?_ ?_ ?_ ?_
    · exact hu.shape.2.2
    · rw [hnode, hempty, nodeOf_empty]
      · rfl
      · rw [hempty]
        show ((s.inodeOf i).clear (nDirect + 1)).type ≠ 0
        rw [((s.inodeOf i).clear_fields _).1]
        exact h.type
    · intro k hk
      rw [hsame, hempty]
      exact (s.inodeOf i).empty_addr hk
    · intro b hb
      rcases List.mem_cons.mp hb with rfl | hb
      · obtain ⟨y, hy⟩ := hp.mem
        refine .inr (.inl ?_)
        rw [hy, mapDin_sb, mapDin_same, h.holds.inum]
      · exact (hu.logged b hb).imp id .inr

end

end Xv6.Fs
