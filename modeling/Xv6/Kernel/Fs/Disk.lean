import Xv6.Kernel.Fs.Blocks

/-! # Who owns which block

The free map and the inodes together form a ledger: a data block in use is
referred to from exactly one place of one allocated inode, or is loose. The
inodes are a parameter, so that the same predicate serves the inodes on disk and
those whose newest copy is in memory.
-/

namespace Xv6.Fs

open Lib

/-- Block `b` is a data block that the free map marks. -/
def usedBlock (sb : Superblock) (blocks : Nat → Block) (b : Nat) : Prop :=
  sb.nmeta ≤ b ∧ b < sb.size ∧ bitOf sb blocks b = true

/-- What place `k` of inode `i` refers to; a free inode refers to nothing. -/
def placeOf (sb : Superblock) (blocks : Nat → Block) (f : Nat → Dinode) (x : Nat × Nat) :
    Option Nat :=
  if x.1 < sb.ninodes ∧ x.2 < nSlots ∧ (f x.1).type ≠ 0 ∧ slotAddr blocks (f x.1) x.2 ≠ 0 then
    some (slotAddr blocks (f x.1) x.2)
  else none

/-- Every block in use has one owner, those in `P` apart. -/
structure Core (P : Nat → Prop) (sb : Superblock) (blocks : Nat → Block) (f : Nat → Dinode) :
    Prop where
  sbOk : sb.Ok
  low : ∀ b < sb.nmeta, bitOf sb blocks b = true
  ledger : Ledger (usedBlock sb blocks) (placeOf sb blocks f) P
  fits : ∀ i < sb.ninodes, (f i).Fits

def entryInum (n : Node) (j : Nat) : Nat :=
  (n.byte (direntSize * j)).toNat + 256 * (n.byte (direntSize * j + 1)).toNat

def DirOk (sb : Superblock) (n : Node) : Prop :=
  n.type = tDir → ∀ j, direntSize * j + direntSize ≤ n.size → entryInum n j < sb.ninodes

/-- An allocated inode is well formed: its size is within bounds, its blocks below the size
are mapped, and a directory only names inodes that exist. Without `st` a direct block may be
missing. -/
structure InodeOk (st : Bool) (sb : Superblock) (blocks : Nat → Block) (x : Dinode) : Prop where
  size : x.size ≤ maxFile * bsize
  mapped : ∀ bn, bn * bsize < x.size → nDirect ≤ bn ∨ st = true →
    slotAddr blocks x (dataSlot bn) ≠ 0
  dirs : DirOk sb (nodeOf blocks x)

structure Disk (st : Bool) (P : Nat → Prop) (sb : Superblock) (blocks : Nat → Block)
    (f : Nat → Dinode) : Prop where
  core : Core P sb blocks f
  ok : ∀ i < sb.ninodes, (f i).type ≠ 0 → InodeOk st sb blocks (f i)

section

variable {st : Bool} {P P' : Nat → Prop} {sb : Superblock} {blocks blocks' : Nat → Block}
  {f f' : Nat → Dinode} {i j k a : Nat}

theorem placeOf_eq_some {x : Nat × Nat} {b : Nat} :
    placeOf sb blocks f x = some b ↔
      x.1 < sb.ninodes ∧ x.2 < nSlots ∧ (f x.1).type ≠ 0 ∧ b ≠ 0 ∧
        slotAddr blocks (f x.1) x.2 = b := by
  unfold placeOf
  split
  · rename_i h
    constructor
    · rintro hb
      obtain rfl := Option.some.inj hb
      exact ⟨h.1, h.2.1, h.2.2.1, h.2.2.2, rfl⟩
    · rintro ⟨_, _, _, _, rfl⟩
      rfl
  · rename_i h
    constructor
    · intro hb
      cases hb
    · rintro ⟨h1, h2, h3, h4, rfl⟩
      exact absurd ⟨h1, h2, h3, h4⟩ h

theorem placeOf_of_slotAddr (hi : i < sb.ninodes) (hk : k < nSlots) (ht : (f i).type ≠ 0)
    (ha : slotAddr blocks (f i) k ≠ 0) :
    placeOf sb blocks f (i, k) = some (slotAddr blocks (f i) k) :=
  placeOf_eq_some.mpr ⟨hi, hk, ht, ha, rfl⟩

theorem Core.used (h : Core P sb blocks f) (hi : i < sb.ninodes) (hk : k < nSlots)
    (ht : (f i).type ≠ 0) (ha : slotAddr blocks (f i) k ≠ 0) :
    usedBlock sb blocks (slotAddr blocks (f i) k) ∧ ¬ P (slotAddr blocks (f i) k) :=
  h.ledger.used_of_ref _ _ (placeOf_of_slotAddr hi hk ht ha)

/-- Two places hold the same block only if they are the same place. -/
theorem Core.place_inj (h : Core P sb blocks f) {k' : Nat} (hi : i < sb.ninodes)
    (hj : j < sb.ninodes) (hk : k < nSlots) (hk' : k' < nSlots) (hti : (f i).type ≠ 0)
    (htj : (f j).type ≠ 0) (ha : slotAddr blocks (f i) k ≠ 0)
    (heq : slotAddr blocks (f i) k = slotAddr blocks (f j) k') : i = j ∧ k = k' := by
  have hp := h.ledger.inj (i, k) (j, k') _ (placeOf_of_slotAddr hi hk hti ha)
    (placeOf_eq_some.mpr ⟨hj, hk', htj, ha, heq.symm⟩)
  exact Prod.mk.inj hp

theorem usedBlock.pos (hsb : sb.Ok) (h : usedBlock sb blocks a) : a ≠ 0 := by
  have := hsb.bitmap a h.2.1
  have := h.1
  omega

theorem usedBlock.lt (hsb : sb.Ok) (h : usedBlock sb blocks a) : a < 2 ^ 32 := by
  have := hsb.small
  have := h.2.1
  omega

theorem usedBlock.not_log (hsb : sb.Ok) (h : usedBlock sb blocks a) : sb.inLog a = false := by
  have hb := hsb.bitmap_meta (by have := h.2.1; omega)
  have := h.1
  exact hsb.bmap_not_log (by omega)

/-! ## Frames -/

/-- The places of inode `i` are the same when its addresses are and its indirect block is. -/
theorem Core.slotAddr_frame (h : Core P sb blocks f) (hi : i < sb.ninodes)
    (ht : (f i).type ≠ 0) (hb : ∀ b, usedBlock sb blocks b → (∃ k < nSlots,
      slotAddr blocks (f i) k = b) → blocks' b = blocks b) (k : Nat) :
    slotAddr blocks' (f i) k = slotAddr blocks (f i) k := by
  refine slotAddr_congr (fun _ _ => rfl) (fun hne => ?_) k
  rw [← slotAddr_direct blocks (f i) (Nat.le_refl nDirect)] at hne ⊢
  exact hb _ (h.used hi (by decide) ht hne).1 ⟨nDirect, by decide, rfl⟩

theorem Core.nodeOf_frame (h : Core P sb blocks f) (hi : i < sb.ninodes) (ht : (f i).type ≠ 0)
    (hb : ∀ b, usedBlock sb blocks b → (∃ k < nSlots, slotAddr blocks (f i) k = b) →
      blocks' b = blocks b) : nodeOf blocks' (f i) = nodeOf blocks (f i) := by
  unfold nodeOf
  congr 1
  funext off
  refine byteAt_congr (fun _ _ => rfl) (fun k hk hne => ?_) off
  exact hb _ (h.used hi hk ht hne).1 ⟨k, hk, rfl⟩

theorem InodeOk.lt_maxFile {x : Dinode} (h : InodeOk st sb blocks x) {bn : Nat}
    (hbn : bn * bsize < x.size) : bn < maxFile :=
  lt_of_mul_lt_mul_right (lt_of_lt_of_le hbn h.size) (Nat.zero_le bsize)

theorem InodeOk.congr {x x' : Dinode} (h : InodeOk st sb blocks x)
    (hn : nodeOf blocks' x' = nodeOf blocks x)
    (hs : ∀ k < nSlots, slotAddr blocks x k ≠ 0 → slotAddr blocks' x' k ≠ 0) :
    InodeOk st sb blocks' x' := by
  have hsize : x'.size = x.size := congrArg Node.size hn
  refine ⟨by rw [hsize]; exact h.size, ?_, by rw [hn]; exact h.dirs⟩
  intro bn hbn hd
  rw [hsize] at hbn
  exact hs _ (dataSlot_lt (h.lt_maxFile hbn)) (h.mapped bn hbn hd)

/-! ## The bitmap -/

theorem bitOf_upd_data (hsb : sb.Ok) {c b : Nat} (hc : sb.nmeta ≤ c) (hb : b < sb.size)
    (d : Block) : bitOf sb (upd blocks c d) b = bitOf sb blocks b := by
  have hlt := hsb.bitmap b hb
  unfold bitOf
  rw [upd_other (by omega)]

theorem bblock_mod_inj {b c : Nat} (hb : bblock sb b = bblock sb c) (hm : b % bpb = c % bpb) :
    b = c := by
  unfold bblock at hb
  have hd : b / bpb = c / bpb := by omega
  have h1 := Nat.div_add_mod b bpb
  have h2 := Nat.div_add_mod c bpb
  rw [hd, hm] at h1
  exact h1.symm.trans h2

theorem bitOf_allocBlock (hsb : sb.Ok) {b : Nat} (ha : sb.nmeta ≤ a) (hb : b < sb.size) :
    bitOf sb (allocBlock sb blocks a) b = (bitOf sb blocks b || decide (a = b)) := by
  rw [allocBlock, bitOf_upd_data hsb ha hb]
  unfold bitOf
  by_cases hbb : bblock sb b = bblock sb a
  · rw [hbb, upd_same, bitAt_setBit]
    congr 2
    exact propext ⟨fun hm => (bblock_mod_inj hbb hm.symm).symm, fun heq => by rw [heq]⟩
  · have hne : a ≠ b := fun heq => hbb (by rw [heq])
    rw [upd_other hbb]
    simp [hne]

theorem bitOf_freeBlock {b : Nat} :
    bitOf sb (freeBlock sb blocks a) b = (bitOf sb blocks b && decide (a ≠ b)) := by
  unfold freeBlock bitOf
  by_cases hbb : bblock sb b = bblock sb a
  · rw [hbb, upd_same, bitAt_clearBit]
    congr 2
    exact propext ⟨fun hm heq => hm (by rw [heq]),
      fun hne hm => hne (bblock_mod_inj hbb hm.symm).symm⟩
  · have hne : a ≠ b := fun heq => hbb (by rw [heq])
    rw [upd_other hbb]
    simp [hne]

theorem allocBlock_data (hsb : sb.Ok) {c : Nat} (ha : a < sb.size) (hc : sb.nmeta ≤ c)
    (hca : c ≠ a) : allocBlock sb blocks a c = blocks c := by
  have hlt := hsb.bitmap a ha
  rw [allocBlock, upd_other hca, upd_other (by omega)]

theorem freeBlock_data (hsb : sb.Ok) {c : Nat} (ha : a < sb.size) (hc : sb.nmeta ≤ c) :
    freeBlock sb blocks a c = blocks c := by
  have hlt := hsb.bitmap a ha
  rw [freeBlock, upd_other (by omega)]

/-! ## Changes to one inode -/

/-- The places after inode `i` became `x` and the blocks `blocks'`, when the other inodes keep
their addresses. -/
theorem placeOf_change {x : Dinode} (ht : x.type = (f i).type)
    (hothers : ∀ j < sb.ninodes, j ≠ i → (f j).type ≠ 0 → ∀ k,
      slotAddr blocks' (f j) k = slotAddr blocks (f j) k)
    {z : Nat} {o : Nat} (hself : ∀ k < nSlots, slotAddr blocks' x k =
      if k = z then o else slotAddr blocks (f i) k) (y : Nat × Nat) :
    placeOf sb blocks' (upd f i x) y =
      if y = (i, z) then
        if i < sb.ninodes ∧ z < nSlots ∧ (f i).type ≠ 0 ∧ o ≠ 0 then some o else none
      else placeOf sb blocks f y := by
  obtain ⟨j, k⟩ := y
  unfold placeOf
  by_cases hji : j = i
  · subst hji
    simp only [upd_same, ht, Prod.mk.injEq, true_and]
    by_cases hk : k < nSlots
    · rw [hself k hk]
      by_cases hkz : k = z
      · subst hkz
        simp
      · simp [hkz]
    · by_cases hkz : k = z
      · subst hkz
        simp [hk]
      · simp [hk, hkz]
  · have hne : (j, k) ≠ (i, z) := fun heq => hji (Prod.mk.inj heq).1
    rw [if_neg hne]
    simp only [upd_other hji]
    by_cases hc : j < sb.ninodes ∧ (f j).type ≠ 0
    · rw [hothers j hc.1 hji hc.2 k]
    · rw [if_neg (by tauto), if_neg (by tauto)]

/-- The new contents of a block leave an inode alone that does not refer to it. -/
theorem Core.slotAddr_upd (h : Core P sb blocks f) (hj : j < sb.ninodes) (ht : (f j).type ≠ 0)
    {d : Block} (ha : ∀ k < nSlots, slotAddr blocks (f j) k ≠ a) (k : Nat) :
    slotAddr (upd blocks a d) (f j) k = slotAddr blocks (f j) k := by
  refine h.slotAddr_frame hj ht ?_ k
  rintro b _ ⟨k', hk', rfl⟩
  exact upd_other (ha k' hk')

theorem Core.nodeOf_upd (h : Core P sb blocks f) (hj : j < sb.ninodes) (ht : (f j).type ≠ 0)
    {d : Block} (ha : ∀ k < nSlots, slotAddr blocks (f j) k ≠ a) :
    nodeOf (upd blocks a d) (f j) = nodeOf blocks (f j) := by
  refine h.nodeOf_frame hj ht ?_
  rintro b _ ⟨k', hk', rfl⟩
  exact upd_other (ha k' hk')

theorem Core.alloc_frame (h : Core P sb blocks f) (ha : a < sb.size)
    (hbit : bitOf sb blocks a = false) (b : Nat) (hb : usedBlock sb blocks b) :
    allocBlock sb blocks a b = blocks b := by
  refine allocBlock_data h.sbOk ha hb.1 ?_
  rintro rfl
  rw [hb.2.2] at hbit
  cases hbit

theorem usedBlock_alloc (hsb : sb.Ok) (hge : sb.nmeta ≤ a) (ha : a < sb.size) (b : Nat) :
    usedBlock sb (allocBlock sb blocks a) b ↔ usedBlock sb blocks b ∨ b = a := by
  unfold usedBlock
  constructor
  · rintro ⟨h1, h2, h3⟩
    rw [bitOf_allocBlock hsb hge h2, Bool.or_eq_true, decide_eq_true_eq] at h3
    exact h3.imp (fun h3 => ⟨h1, h2, h3⟩) Eq.symm
  · rintro (⟨h1, h2, h3⟩ | rfl)
    · exact ⟨h1, h2, by rw [bitOf_allocBlock hsb hge h2, h3]; rfl⟩
    · exact ⟨hge, ha, by rw [bitOf_allocBlock hsb hge ha]; simp⟩

/-- Taking a free block: it is loose. -/
theorem Core.alloc (h : Core P sb blocks f) (hge : sb.nmeta ≤ a) (ha : a < sb.size)
    (hbit : bitOf sb blocks a = false) :
    Core (fun b => P b ∨ b = a) sb (allocBlock sb blocks a) f := by
  have hframe : ∀ j < sb.ninodes, (f j).type ≠ 0 → ∀ k,
      slotAddr (allocBlock sb blocks a) (f j) k = slotAddr blocks (f j) k := fun j hj ht k =>
    h.slotAddr_frame hj ht (fun b hb _ => h.alloc_frame ha hbit b hb) k
  have hplace : ∀ y, placeOf sb (allocBlock sb blocks a) f y = placeOf sb blocks f y := by
    rintro ⟨j, k⟩
    unfold placeOf
    by_cases hc : j < sb.ninodes ∧ (f j).type ≠ 0
    · rw [hframe j hc.1 hc.2 k]
    · rw [if_neg (by tauto), if_neg (by tauto)]
  refine ⟨h.sbOk, ?_, ?_, h.fits⟩
  · intro b hb
    rw [bitOf_allocBlock h.sbOk hge (by omega), h.low b hb]
    rfl
  · have hfree : ¬ usedBlock sb blocks a := fun hu => by
      rw [hu.2.2] at hbit
      cases hbit
    exact (h.ledger.take hfree (usedBlock_alloc h.sbOk hge ha) fun _ => Iff.rfl).congr
      (fun _ => Iff.rfl) hplace fun _ => Iff.rfl

theorem slotAddr_setAddr {x : Dinode} (hk : k ≤ nDirect) (hzero : x.addr k = 0)
    (hblock : ∀ o, blocks a o = 0) (k' : Nat) :
    slotAddr blocks (x.setAddr k a) k' = if k' = k then a else slotAddr blocks x k' := by
  by_cases hkk : k' = k
  · subst hkk
    rw [if_pos rfl, slotAddr_direct _ _ hk, Dinode.addr_setAddr_same _ _ (by omega)]
  · rw [if_neg hkk]
    unfold slotAddr
    by_cases hk' : k' ≤ nDirect
    · rw [if_pos hk', if_pos hk', Dinode.addr_setAddr_other _ _ hkk]
    · rw [if_neg hk', if_neg hk']
      by_cases hind : k = nDirect
      · subst hind
        rw [Dinode.addr_setAddr_same _ _ (by omega), if_pos hzero]
        split
        · rfl
        · exact getLE_eq_zero fun o _ _ => hblock o
      · rw [Dinode.addr_setAddr_other _ _ (Ne.symm hind)]

/-- A loose zeroed block becomes the block of an empty place in `addrs`. -/
theorem Core.setAddr (h : Core P sb blocks f) (hi : i < sb.ninodes) (ht : (f i).type ≠ 0)
    (hk : k ≤ nDirect) (hzero : (f i).addr k = 0) (hloose : P a) (hblock : ∀ o, blocks a o = 0)
    (hP : ∀ b, P' b ↔ P b ∧ b ≠ a) : Core P' sb blocks (upd f i ((f i).setAddr k a)) := by
  have hused := h.ledger.used_of_loose a hloose
  have hne := hused.pos h.sbOk
  refine ⟨h.sbOk, h.low, ?_, ?_⟩
  · have hempty : placeOf sb blocks f (i, k) = none := by
      unfold placeOf
      rw [if_neg]
      rintro ⟨-, -, -, hne'⟩
      exact hne' (by rw [slotAddr_direct _ _ hk]; exact hzero)
    refine h.ledger.attach hempty hloose (fun y => ?_) hP
    rw [placeOf_change (by simp) (fun _ _ _ _ _ => rfl)
      (fun k' _ => slotAddr_setAddr hk hzero hblock k')]
    have hslot : k < nSlots := by unfold nSlots; omega
    simp only [hi, hslot, ne_eq, ht, hne, not_false_eq_true, and_self, if_true]
  · intro j hj
    by_cases hji : j = i
    · subst hji
      rw [upd_same]
      exact (h.fits j hj).setAddr (hused.lt h.sbOk)
    · rw [upd_other hji]
      exact h.fits j hj

/-- A place that gets a zeroed block where it had none: the file reads the same. -/
theorem nodeOf_attach {x x' : Dinode} (hx : x'.type = x.type ∧
      x'.major = x.major ∧ x'.minor = x.minor ∧ x'.nlink = x.nlink ∧ x'.size = x.size)
    (hslot : ∀ k' < nSlots, slotAddr blocks' x' k' = if k' = k then a else slotAddr blocks x k')
    (hzero : slotAddr blocks x k = 0) (hblock : ∀ o, blocks' a o = 0)
    (hsame : ∀ k' < nSlots, k' ≠ nDirect → slotAddr blocks x k' ≠ 0 →
      blocks' (slotAddr blocks x k') = blocks (slotAddr blocks x k')) :
    nodeOf blocks' x' = nodeOf blocks x := by
  obtain ⟨h1, h2, h3, h4, h5⟩ := hx
  unfold nodeOf
  rw [h1, h2, h3, h4, h5]
  congr 1
  funext off
  unfold byteAt
  by_cases hbn : off / bsize < maxFile
  · have hlt := dataSlot_lt hbn
    simp only [hslot _ hlt, hbn, true_and]
    by_cases hdk : dataSlot (off / bsize) = k
    · rw [if_pos hdk, hdk, hzero, hblock]
      simp
    · rw [if_neg hdk]
      split
      · rw [hsame _ hlt (dataSlot_ne _) ‹_›]
      · rfl
  · simp [hbn]

/-- The entry of an empty place of the indirect block is set to a loose block. -/
theorem slotAddr_putEntry (blocks : Nat → Block) (k : Nat) {x : Dinode}
    (hind : x.addr nDirect ≠ 0) (ha : a < 2 ^ 32) (k' : Nat) :
    slotAddr (upd blocks (x.addr nDirect) (putLE (blocks (x.addr nDirect)) (4 * k) 4 a)) x k' =
      if k' = nDirect + 1 + k then a else slotAddr blocks x k' := by
  unfold slotAddr
  by_cases hk' : k' ≤ nDirect
  · rw [if_pos hk', if_pos hk', if_neg (by omega)]
  · rw [if_neg hk', if_neg hk', if_neg hind, if_neg hind, upd_same]
    by_cases hkk : k' = nDirect + 1 + k
    · subst hkk
      rw [if_pos rfl, show nDirect + 1 + k - (nDirect + 1) = k by omega]
      exact getLE_putLE_of_lt (by omega)
    · rw [if_neg hkk, getLE_putLE_of_disjoint (by omega)]

/-- The contents of a data block change: no bit and no other block does. -/
theorem usedBlock_upd (hsb : sb.Ok) (hge : sb.nmeta ≤ a) (d : Block) (b : Nat) :
    usedBlock sb (upd blocks a d) b ↔ usedBlock sb blocks b := by
  unfold usedBlock
  constructor
  · rintro ⟨h1, h2, h3⟩
    exact ⟨h1, h2, by rwa [bitOf_upd_data hsb hge h2] at h3⟩
  · rintro ⟨h1, h2, h3⟩
    exact ⟨h1, h2, by rwa [bitOf_upd_data hsb hge h2]⟩

/-- A block of one place is no block of another inode. -/
theorem Core.slot_ne (h : Core P sb blocks f) {k' : Nat} (hi : i < sb.ninodes)
    (hj : j < sb.ninodes) (hji : j ≠ i) (hk : k < nSlots) (hk' : k' < nSlots)
    (hti : (f i).type ≠ 0) (htj : (f j).type ≠ 0) (ha : slotAddr blocks (f i) k ≠ 0) :
    slotAddr blocks (f j) k' ≠ slotAddr blocks (f i) k :=
  fun heq => hji (h.place_inj hi hj hk hk' hti htj ha heq.symm).1.symm

theorem Core.putEntry (h : Core P sb blocks f) (hi : i < sb.ninodes) (ht : (f i).type ≠ 0)
    (hind : (f i).addr nDirect ≠ 0) (hk : k < nIndirect)
    (hzero : slotAddr blocks (f i) (nDirect + 1 + k) = 0) (hloose : P a)
    (hP : ∀ b, P' b ↔ P b ∧ b ≠ a) :
    Core P' sb (upd blocks ((f i).addr nDirect)
      (putLE (blocks ((f i).addr nDirect)) (4 * k) 4 a)) f := by
  have hused := h.ledger.used_of_loose a hloose
  have hslot := slotAddr_direct blocks (f i) (Nat.le_refl nDirect)
  have hindUsed := (h.used hi (k := nDirect) (by decide) ht (by rw [hslot]; exact hind)).1
  rw [hslot] at hindUsed
  refine ⟨h.sbOk, ?_, ?_, h.fits⟩
  · intro b hb
    rw [bitOf_upd_data h.sbOk hindUsed.1 (by have := hindUsed.1; have := hindUsed.2.1; omega)]
    exact h.low b hb
  · have hlt : nDirect + 1 + k < nSlots := by unfold nSlots; omega
    have hempty : placeOf sb blocks f (i, nDirect + 1 + k) = none := by
      unfold placeOf
      rw [if_neg]
      rintro ⟨-, -, -, hne⟩
      exact hne hzero
    have hother : ∀ j < sb.ninodes, j ≠ i → (f j).type ≠ 0 → ∀ k', slotAddr
        (upd blocks ((f i).addr nDirect) (putLE (blocks ((f i).addr nDirect)) (4 * k) 4 a))
        (f j) k' = slotAddr blocks (f j) k' := fun j hj hji htj k' =>
      h.slotAddr_upd hj htj (fun k'' hk'' => by
        rw [← hslot]
        exact h.slot_ne hi hj hji (by decide) hk'' ht htj (by rw [hslot]; exact hind)) k'
    have hplace := placeOf_change (x := f i) rfl hother
      fun k' _ => slotAddr_putEntry blocks k hind (hused.lt h.sbOk) k'
    rw [upd_self] at hplace
    have hled : Ledger (usedBlock sb blocks) (placeOf sb (upd blocks ((f i).addr nDirect)
        (putLE (blocks ((f i).addr nDirect)) (4 * k) 4 a)) f) P' := by
      refine h.ledger.attach hempty hloose (fun y => ?_) hP
      rw [hplace]
      simp only [hi, hlt, ne_eq, ht, hused.pos h.sbOk, not_false_eq_true, and_self, if_true]
    exact hled.congr (usedBlock_upd h.sbOk hindUsed.1 _) (fun _ => rfl) fun _ => Iff.rfl

theorem Core.slotAddr_writeData (h : Core P sb blocks f) (hi : i < sb.ninodes)
    (ht : (f i).type ≠ 0) (hk : k < nSlots) (hkd : k ≠ nDirect)
    (ha : slotAddr blocks (f i) k ≠ 0) (d : Block) (hj : j < sb.ninodes) (htj : (f j).type ≠ 0)
    (k' : Nat) :
    slotAddr (upd blocks (slotAddr blocks (f i) k) d) (f j) k' = slotAddr blocks (f j) k' := by
  refine slotAddr_congr (fun _ _ => rfl) (fun hne => upd_other ?_) k'
  intro heq
  rw [← slotAddr_direct blocks (f j) (Nat.le_refl nDirect)] at hne heq
  exact hkd (h.place_inj hi hj hk (by decide) ht htj ha heq.symm).2

theorem Core.writeData (h : Core P sb blocks f) (hi : i < sb.ninodes)
    (ht : (f i).type ≠ 0) (hk : k < nSlots) (hkd : k ≠ nDirect)
    (ha : slotAddr blocks (f i) k ≠ 0) (d : Block) :
    Core P sb (upd blocks (slotAddr blocks (f i) k) d) f := by
  have hused := (h.used hi hk ht ha).1
  refine ⟨h.sbOk, ?_, ?_, h.fits⟩
  · intro b hb
    rw [bitOf_upd_data h.sbOk hused.1 (by have := hused.1; have := hused.2.1; omega)]
    exact h.low b hb
  · refine h.ledger.congr (usedBlock_upd h.sbOk hused.1 d) ?_ fun _ => Iff.rfl
    rintro ⟨j, k'⟩
    unfold placeOf
    by_cases hc : j < sb.ninodes ∧ (f j).type ≠ 0
    · rw [h.slotAddr_writeData hi ht hk hkd ha d hc.1 hc.2]
    · rw [if_neg (by tauto), if_neg (by tauto)]

theorem Core.byteAt_writeData (h : Core P sb blocks f) (hi : i < sb.ninodes)
    (ht : (f i).type ≠ 0) {bn : Nat} (hbn : bn < maxFile)
    (ha : slotAddr blocks (f i) (dataSlot bn) = a) (hne : a ≠ 0) (d : Block) (off : Nat) :
    byteAt (upd blocks a d) (f i) off =
      if off / bsize = bn then d (off % bsize) else byteAt blocks (f i) off := by
  subst ha
  have hslot := h.slotAddr_writeData hi ht (dataSlot_lt hbn) (dataSlot_ne bn) hne d hi ht
  unfold byteAt
  simp only [hslot]
  by_cases hoff : off / bsize = bn
  · simp [hoff, hbn, hne]
  · rw [if_neg hoff]
    split
    · rename_i hc
      rw [upd_other]
      intro heq
      have hinj := (h.place_inj hi hi (dataSlot_lt hc.1) (dataSlot_lt hbn) ht ht hc.2 heq).2
      exact hoff (dataSlot_inj hinj)
    · rfl

/-- Fields other than the addresses change; an inode may only be freed when it is empty. -/
theorem Core.setFields (h : Core P sb blocks f) {x : Dinode}
    (haddr : ∀ k ≤ nDirect, x.addr k = (f i).addr k) (hsize : x.size < 2 ^ 32)
    (htype : x.type = (f i).type ∨ ∀ k ≤ nDirect, x.addr k = 0) (hi : i < sb.ninodes) :
    Core P sb blocks (upd f i x) := by
  refine ⟨h.sbOk, h.low, ?_, ?_⟩
  · refine h.ledger.congr (fun _ => Iff.rfl) ?_ fun _ => Iff.rfl
    rintro ⟨j, k⟩
    unfold placeOf
    by_cases hji : j = i
    · subst hji
      have hslot : slotAddr blocks x k = slotAddr blocks (f j) k :=
        slotAddr_congr haddr (fun _ => rfl) k
      rw [upd_same]
      dsimp only
      rw [hslot]
      rcases htype with htype | hempty
      · rw [htype]
      · have hz : slotAddr blocks (f j) k = 0 := by
          unfold slotAddr
          split
          · rw [← haddr k ‹_›]
            exact hempty k ‹_›
          · rw [← haddr nDirect (Nat.le_refl _), hempty nDirect (Nat.le_refl _), if_pos rfl]
        simp [hz]
    · rw [upd_other hji]
  · intro j hj
    by_cases hji : j = i
    · subst hji
      rw [upd_same]
      refine ⟨hsize, fun k => ?_⟩
      by_cases hk : k ≤ nDirect
      · rw [haddr k hk]
        exact (h.fits j hj).2 k
      · unfold Dinode.addr
        rw [dif_neg (by omega)]
        decide
    · rw [upd_other hji]
      exact h.fits j hj

end

/-! ## Growing a file -/

/-- Inodes get blocks where they had none; every file reads the same. -/
structure Grown (P : Nat → Prop) (sb : Superblock) (blocks : Nat → Block) (f : Nat → Dinode)
    (blocks' : Nat → Block) (f' : Nat → Dinode) : Prop where
  core : Core P sb blocks' f'
  nodes : ∀ j < sb.ninodes, (f j).type ≠ 0 → nodeOf blocks' (f' j) = nodeOf blocks (f j)
  slots : ∀ j < sb.ninodes, (f j).type ≠ 0 → ∀ k < nSlots, slotAddr blocks (f j) k ≠ 0 →
    slotAddr blocks' (f' j) k = slotAddr blocks (f j) k
  low : ∀ b < sb.bmapstart, blocks' b = blocks b

section

variable {P : Nat → Prop} {sb : Superblock} {blocks blocks' blocks'' : Nat → Block}
  {f f' f'' : Nat → Dinode} {i k a : Nat}

theorem Core.grown_refl (h : Core P sb blocks f) : Grown P sb blocks f blocks f :=
  ⟨h, fun _ _ _ => rfl, fun _ _ _ _ _ _ => rfl, fun _ _ => rfl⟩

theorem Grown.type (h : Grown P sb blocks f blocks' f') {j : Nat} (hj : j < sb.ninodes)
    (ht : (f j).type ≠ 0) : (f' j).type = (f j).type :=
  congrArg Node.type (h.nodes j hj ht)

theorem Grown.trans (h : Grown P sb blocks f blocks' f')
    (h' : Grown P sb blocks' f' blocks'' f'') : Grown P sb blocks f blocks'' f'' := by
  refine ⟨h'.core, ?_, ?_, fun b hb => (h'.low b hb).trans (h.low b hb)⟩
  · intro j hj ht
    exact (h'.nodes j hj (by rw [h.type hj ht]; exact ht)).trans (h.nodes j hj ht)
  · intro j hj ht k hk hne
    have heq := h.slots j hj ht k hk hne
    rw [h'.slots j hj (by rw [h.type hj ht]; exact ht) k hk (by rw [heq]; exact hne), heq]

theorem Core.free_not_loose (h : Core P sb blocks f) (hbit : bitOf sb blocks a = false) :
    ¬ P a := by
  intro hP
  have hu := (h.ledger.used_of_loose a hP).2.2
  rw [hbit] at hu
  cases hu

theorem Core.allocBlock_low (h : Core P sb blocks f) (hge : sb.nmeta ≤ a) (ha : a < sb.size)
    {b : Nat} (hb : b < sb.bmapstart) : allocBlock sb blocks a b = blocks b := by
  have hmeta := h.sbOk.bitmap a ha
  have hle := bmapstart_le_bblock sb a
  rw [allocBlock, upd_other (by omega), upd_other (by omega)]

theorem Core.nodeOf_alloc (h : Core P sb blocks f) (ha : a < sb.size)
    (hbit : bitOf sb blocks a = false) {j : Nat} (hj : j < sb.ninodes) (ht : (f j).type ≠ 0) :
    nodeOf (allocBlock sb blocks a) (f j) = nodeOf blocks (f j) :=
  h.nodeOf_frame hj ht fun b hb _ => h.alloc_frame ha hbit b hb

theorem Core.slotAddr_alloc (h : Core P sb blocks f) (ha : a < sb.size)
    (hbit : bitOf sb blocks a = false) {j : Nat} (hj : j < sb.ninodes) (ht : (f j).type ≠ 0)
    (k : Nat) : slotAddr (allocBlock sb blocks a) (f j) k = slotAddr blocks (f j) k :=
  h.slotAddr_frame hj ht (fun b hb _ => h.alloc_frame ha hbit b hb) k

/-- A free block becomes the block of an empty place in `addrs`. -/
theorem Core.growAddr (h : Core P sb blocks f) (hi : i < sb.ninodes) (ht : (f i).type ≠ 0)
    (hk : k ≤ nDirect) (hzero : (f i).addr k = 0) (hge : sb.nmeta ≤ a) (ha : a < sb.size)
    (hbit : bitOf sb blocks a = false) :
    Grown P sb blocks f (allocBlock sb blocks a) (upd f i ((f i).setAddr k a)) := by
  have hblock : ∀ o, allocBlock sb blocks a a o = 0 := fun o => by rw [allocBlock, upd_same]
  have hself : ∀ k', slotAddr (allocBlock sb blocks a) ((f i).setAddr k a) k' =
      if k' = k then a else slotAddr (allocBlock sb blocks a) (f i) k' :=
    slotAddr_setAddr hk hzero hblock
  refine ⟨?_, ?_, ?_, fun b hb => h.allocBlock_low hge ha hb⟩
  · refine (h.alloc hge ha hbit).setAddr hi ht hk hzero (.inr rfl) hblock fun b => ?_
    have hne : P b → b ≠ a := fun hP heq => h.free_not_loose hbit (heq ▸ hP)
    tauto
  · intro j hj htj
    by_cases hji : j = i
    · subst hji
      rw [upd_same]
      refine nodeOf_attach (by simp) (fun k' _ => ?_)
        (by rw [slotAddr_direct _ _ hk]; exact hzero) hblock fun k' hk' _ hne => ?_
      · rw [hself k', h.slotAddr_alloc ha hbit hj ht]
      · exact h.alloc_frame ha hbit _ (h.used hj hk' ht hne).1
    · rw [upd_other hji]
      exact h.nodeOf_alloc ha hbit hj htj
  · intro j hj htj k' hk' hne
    by_cases hji : j = i
    · subst hji
      have hkk : k' ≠ k := by
        rintro rfl
        exact hne (by rw [slotAddr_direct _ _ hk]; exact hzero)
      rw [upd_same, hself k', if_neg hkk, h.slotAddr_alloc ha hbit hj ht]
    · rw [upd_other hji, h.slotAddr_alloc ha hbit hj htj]

/-- A free block becomes the block of an empty entry of the indirect block. -/
theorem Core.growEntry (h : Core P sb blocks f) (hi : i < sb.ninodes) (ht : (f i).type ≠ 0)
    (hind : (f i).addr nDirect ≠ 0) (hk : k < nIndirect)
    (hzero : slotAddr blocks (f i) (nDirect + 1 + k) = 0) (hge : sb.nmeta ≤ a) (ha : a < sb.size)
    (hbit : bitOf sb blocks a = false) :
    Grown P sb blocks f (upd (allocBlock sb blocks a) ((f i).addr nDirect)
      (putLE (allocBlock sb blocks a ((f i).addr nDirect)) (4 * k) 4 a)) f := by
  have hslot := slotAddr_direct blocks (f i) (Nat.le_refl nDirect)
  have hused := (h.used hi (k := nDirect) (by decide) ht (by rw [hslot]; exact hind)).1
  rw [hslot] at hused
  have hne : a ≠ (f i).addr nDirect := by
    rintro rfl
    rw [hused.2.2] at hbit
    cases hbit
  have hself := slotAddr_putEntry (allocBlock sb blocks a) k hind
    (show a < 2 ^ 32 by have := h.sbOk.small; omega)
  have hother : ∀ j < sb.ninodes, (f j).type ≠ 0 → j ≠ i → ∀ b, usedBlock sb blocks b →
      (∃ k' < nSlots, slotAddr blocks (f j) k' = b) →
      upd (allocBlock sb blocks a) ((f i).addr nDirect)
        (putLE (allocBlock sb blocks a ((f i).addr nDirect)) (4 * k) 4 a) b = blocks b := by
    rintro j hj htj hji b hb ⟨k', hk', rfl⟩
    rw [upd_other, h.alloc_frame ha hbit _ hb]
    rw [← hslot]
    exact h.slot_ne hi hj hji (by decide) hk' ht htj (by rw [hslot]; exact hind)
  refine ⟨?_, ?_, ?_, ?_⟩
  · refine (h.alloc hge ha hbit).putEntry hi ht hind hk ?_ (.inr rfl) fun b => ?_
    · rw [h.slotAddr_alloc ha hbit hi ht]
      exact hzero
    · have hne : P b → b ≠ a := fun hP heq => h.free_not_loose hbit (heq ▸ hP)
      tauto
  · intro j hj htj
    by_cases hji : j = i
    · subst hji
      refine nodeOf_attach (k := nDirect + 1 + k) (a := a) ⟨rfl, rfl, rfl, rfl, rfl⟩
        (fun k' _ => ?_) hzero ?_ fun k' hk' hkd hne' => ?_
      · rw [hself k', h.slotAddr_alloc ha hbit hj ht]
      · intro o
        rw [upd_other hne, allocBlock, upd_same]
      · rw [upd_other, h.alloc_frame ha hbit _ (h.used hj hk' ht hne').1]
        rw [← hslot]
        intro heq
        exact hkd (h.place_inj hj hj hk' (by decide) ht ht hne' heq).2
    · exact h.nodeOf_frame hj htj (hother j hj htj hji)
  · intro j hj htj k' hk' hne'
    by_cases hji : j = i
    · subst hji
      have hkk : k' ≠ nDirect + 1 + k := by
        rintro rfl
        exact hne' hzero
      rw [hself k', if_neg hkk, h.slotAddr_alloc ha hbit hj ht]
    · exact h.slotAddr_frame hj htj (hother j hj htj hji) k'
  · intro b hb
    have := h.sbOk.bitmap_meta (by omega)
    have := hused.1
    rw [upd_other (by omega), h.allocBlock_low hge ha hb]

end

/-! ## Shrinking a file -/

section

variable {P P' : Nat → Prop} {sb : Superblock} {blocks blocks' : Nat → Block} {f : Nat → Dinode}
  {i k a : Nat}

/-- Some places of an inode are emptied; their blocks are loose. -/
theorem Core.detach (h : Core P sb blocks f) {x : Dinode} (ht : x.type = (f i).type)
    (hx : x.Fits) (D : Nat → Prop) [DecidablePred D]
    (hslot : ∀ k < nSlots, slotAddr blocks x k = if D k then 0 else slotAddr blocks (f i) k)
    (hP : ∀ b, P' b ↔ P b ∨ ∃ k, D k ∧ placeOf sb blocks f (i, k) = some b) :
    Core P' sb blocks (upd f i x) := by
  refine ⟨h.sbOk, h.low, ?_, ?_⟩
  · refine h.ledger.detach (fun y => y.1 = i ∧ D y.2) (fun y => ?_) fun b => ?_
    · obtain ⟨j, k⟩ := y
      unfold placeOf
      by_cases hji : j = i
      · subst hji
        simp only [upd_same, ht, true_and]
        by_cases hk : k < nSlots
        · rw [hslot k hk]
          by_cases hD : D k
          · simp [hD]
          · simp [hD]
        · simp [hk]
      · simp only [upd_other hji, hji, false_and, if_false]
    · rw [hP]
      refine or_congr Iff.rfl ⟨?_, ?_⟩
      · rintro ⟨k, hD, hk⟩
        exact ⟨(i, k), ⟨rfl, hD⟩, hk⟩
      · rintro ⟨⟨j, k⟩, ⟨rfl, hD⟩, hk⟩
        exact ⟨k, hD, hk⟩
  · intro j hj
    by_cases hji : j = i
    · subst hji
      rw [upd_same]
      exact hx
    · rw [upd_other hji]
      exact h.fits j hj

theorem usedBlock_free (b : Nat) :
    usedBlock sb (freeBlock sb blocks a) b ↔ usedBlock sb blocks b ∧ b ≠ a := by
  unfold usedBlock
  rw [bitOf_freeBlock, Bool.and_eq_true, decide_eq_true_eq]
  constructor
  · rintro ⟨h1, h2, h3, h4⟩
    exact ⟨⟨h1, h2, h3⟩, Ne.symm h4⟩
  · rintro ⟨⟨h1, h2, h3⟩, h4⟩
    exact ⟨h1, h2, h3, Ne.symm h4⟩

theorem Core.placeOf_data (h : Core P sb blocks f) (hb : ∀ b, sb.nmeta ≤ b → blocks' b = blocks b)
    (y : Nat × Nat) : placeOf sb blocks' f y = placeOf sb blocks f y := by
  obtain ⟨j, k⟩ := y
  unfold placeOf
  by_cases hc : j < sb.ninodes ∧ (f j).type ≠ 0
  · rw [h.slotAddr_frame hc.1 hc.2 (fun b hu _ => hb b hu.1) k]
  · rw [if_neg (by tauto), if_neg (by tauto)]

theorem Core.give (h : Core P sb blocks f) (ha : P a) (hP : ∀ b, P' b ↔ P b ∧ b ≠ a) :
    Core P' sb (freeBlock sb blocks a) f := by
  have hu := h.ledger.used_of_loose a ha
  refine ⟨h.sbOk, ?_, ?_, h.fits⟩
  · intro b hb
    have hne : a ≠ b := by
      have := hu.1
      omega
    rw [bitOf_freeBlock, h.low b hb]
    simp [hne]
  · exact (h.ledger.give ha usedBlock_free hP).congr (fun _ => Iff.rfl)
      (h.placeOf_data fun b hb => freeBlock_data h.sbOk hu.2.1 hb) fun _ => Iff.rfl

theorem Core.low_frame (h : Core P sb blocks f)
    (hb : ∀ b, sb.bmapstart ≤ b → blocks' b = blocks b) : Core P sb blocks' f := by
  have hbit : ∀ b, bitOf sb blocks' b = bitOf sb blocks b := fun b => by
    unfold bitOf
    rw [hb _ (bmapstart_le_bblock sb b)]
  have hle : ∀ b, usedBlock sb blocks b → sb.bmapstart ≤ b := fun b hu => by
    have := h.sbOk.bitmap_meta (by have := hu.2.1; omega)
    have := hu.1
    omega
  refine ⟨h.sbOk, fun b hlt => by rw [hbit, h.low b hlt], ?_, h.fits⟩
  refine h.ledger.congr (fun b => by unfold usedBlock; rw [hbit]) ?_ fun _ => Iff.rfl
  rintro ⟨j, k⟩
  unfold placeOf
  by_cases hc : j < sb.ninodes ∧ (f j).type ≠ 0
  · rw [h.slotAddr_frame hc.1 hc.2 (fun b hu _ => hb b (hle b hu)) k]
  · rw [if_neg (by tauto), if_neg (by tauto)]

theorem Core.fresh (h : Core P sb blocks f) {x : Dinode} (ht : (f i).type = 0)
    (hx : ∀ k ≤ nDirect, x.addr k = 0) (hfits : x.Fits) : Core P sb blocks (upd f i x) := by
  refine ⟨h.sbOk, h.low, h.ledger.congr (fun _ => Iff.rfl) ?_ fun _ => Iff.rfl, ?_⟩
  · rintro ⟨j, k⟩
    unfold placeOf
    by_cases hji : j = i
    · subst hji
      have hz : slotAddr blocks x k = 0 := by
        unfold slotAddr
        split
        · exact hx k ‹_›
        · rw [hx nDirect (Nat.le_refl _), if_pos rfl]
      simp [hz, ht]
    · simp only [upd_other hji]
  · intro j hj
    by_cases hji : j = i
    · subst hji
      rw [upd_same]
      exact hfits
    · rw [upd_other hji]
      exact h.fits j hj

end

/-! ## Two copies of an inode -/

/-- The copy `x₀` on disk reads the same as the newest copy `x`; without `st` it may lack
direct blocks. -/
structure Coherent (st : Bool) (blocks : Nat → Block) (x₀ x : Dinode) : Prop where
  node : nodeOf blocks x₀ = nodeOf blocks x
  addr : ∀ k ≤ nDirect, x₀.addr k = x.addr k ∨ st = false ∧ k < nDirect ∧ x₀.addr k = 0

section

variable {st : Bool} {blocks blocks' : Nat → Block} {x₀ x x' : Dinode}

theorem Coherent.refl (st : Bool) (blocks : Nat → Block) (x : Dinode) : Coherent st blocks x x :=
  ⟨rfl, fun _ _ => .inl rfl⟩

theorem Coherent.eq (h : Coherent true blocks x₀ x) : x₀ = x := by
  have haddrs : x₀.addrs = x.addrs := by
    funext k
    rcases h.addr k (by omega) with heq | ⟨hf, -⟩
    · rwa [Dinode.addr_of_lt _ k.isLt, Dinode.addr_of_lt _ k.isLt] at heq
    · cases hf
  have hnode := h.node
  cases x₀
  cases x
  simp only [nodeOf, Node.mk.injEq] at hnode
  simp_all

/-- A place of the copy on disk is empty or that of the newest copy. -/
theorem Coherent.slot (h : Coherent st blocks x₀ x) (k : Nat) :
    slotAddr blocks' x₀ k = 0 ∨ slotAddr blocks' x₀ k = slotAddr blocks' x k := by
  unfold slotAddr
  split
  · rcases h.addr k ‹_› with heq | ⟨-, -, hz⟩
    · exact .inr heq
    · exact .inl hz
  · rcases h.addr nDirect (Nat.le_refl _) with heq | ⟨-, hlt, -⟩
    · exact .inr (by rw [heq])
    · exact absurd hlt (Nat.lt_irrefl _)

theorem Coherent.slot_frame (h : Coherent st blocks x₀ x)
    (hs : ∀ k < nSlots, slotAddr blocks x k ≠ 0 → slotAddr blocks' x' k = slotAddr blocks x k)
    {k : Nat} (hk : k < nSlots) :
    slotAddr blocks' x₀ k = 0 ∧ slotAddr blocks x₀ k = 0 ∨
      slotAddr blocks' x₀ k = slotAddr blocks' x' k := by
  by_cases hd : k ≤ nDirect
  · rw [slotAddr_direct blocks' x₀ hd, slotAddr_direct blocks x₀ hd]
    by_cases hz : x₀.addr k = 0
    · exact .inl ⟨hz, hz⟩
    · have heq : x₀.addr k = x.addr k := (h.addr k hd).resolve_right fun hc => hz hc.2.2
      have hx := hs k hk (by rw [slotAddr_direct _ _ hd, ← heq]; exact hz)
      rw [slotAddr_direct blocks x hd] at hx
      exact .inr (by rw [hx, heq])
  · have hind : x₀.addr nDirect = x.addr nDirect :=
      (h.addr nDirect (Nat.le_refl _)).resolve_right fun hc => absurd hc.2.1 (Nat.lt_irrefl _)
    have hcopy : ∀ b : Nat → Block, slotAddr b x₀ k = slotAddr b x k := fun b => by
      unfold slotAddr
      rw [if_neg hd, if_neg hd, hind]
    rw [hcopy, hcopy]
    by_cases hz : x.addr nDirect = 0
    · refine .inl ⟨?_, ?_⟩ <;> rw [slotAddr, if_neg hd, if_pos hz]
    · have hx := hs nDirect (by decide) (by rw [slotAddr_direct _ _ (Nat.le_refl _)]; exact hz)
      rw [slotAddr_direct _ _ (Nat.le_refl _), slotAddr_direct _ _ (Nat.le_refl _)] at hx
      refine .inr ?_
      unfold slotAddr
      rw [if_neg hd, if_neg hd, hx]

/-- When the newest copy keeps its contents and its places, so does the one on disk. -/
theorem Coherent.frame (h : Coherent st blocks x₀ x) (hn : nodeOf blocks' x' = nodeOf blocks x)
    (hs : ∀ k < nSlots, slotAddr blocks x k ≠ 0 → slotAddr blocks' x' k = slotAddr blocks x k) :
    nodeOf blocks' x₀ = nodeOf blocks x₀ := by
  unfold nodeOf
  congr 1
  funext off
  by_cases hbn : off / bsize < maxFile
  · rcases h.slot_frame hs (dataSlot_lt hbn) with ⟨hz', hz⟩ | heq
    · unfold byteAt
      simp [hz, hz']
    · calc byteAt blocks' x₀ off = byteAt blocks' x' off := by unfold byteAt; rw [heq]
        _ = byteAt blocks x off := congrFun (congrArg Node.byte hn) off
        _ = byteAt blocks x₀ off := (congrFun (congrArg Node.byte h.node) off).symm
  · unfold byteAt
    simp [hbn]

end

end Xv6.Fs
