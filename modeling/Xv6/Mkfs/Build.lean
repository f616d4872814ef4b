import Mathlib.Algebra.BigOperators.Group.Finset.Basic
import Mathlib.Data.List.GetD
import Xv6.Kernel.Fs.Disk
import Xv6.Mkfs.Image

/-! # What `mkfs` builds

The image under construction is seen as the kernel will see it, with the bitmap that
`mkfs` only writes at the end already in place. Handing out a block, storing an entry of
an indirect block and storing data are then the moves of the kernel's own disk layer, and
an append is a chain of them. The counters say exactly how many blocks the files need.

The inode blocks have room for a few more inodes than the superblock announces, and
`mkfs` does not look: the invariant covers all that the inode blocks can hold.
-/

namespace Xv6.Mkfs

open Lib Fs

/-- The layout with every inode that the inode blocks have room for. -/
def wide : Superblock := { sb with ninodes := nInodeBlocks * ipb }

theorem wide_ok : wide.Ok where
  log := by decide
  logEnd := by decide
  inodes i hi := by
    have hbound : i < 208 := hi
    show i / 16 + 32 < 45
    omega
  bitmap b hb := by
    have hbound : b < 2000 := hb
    show b / 8192 + 45 < 46
    omega
  small := by decide
  root := by decide

theorem place_eq {b : Nat} (hb : b < fsSize) : place b = b := by
  have hbound : b < 2000 := hb
  show b * 1024 % 2 ^ 32 / 1024 = b
  omega

theorem iblock_range {i : Nat} (hi : i < wide.ninodes) :
    sb.inodestart ≤ iblock sb i ∧ iblock sb i < sb.bmapstart := by
  have hbound : i < 208 := hi
  show 32 ≤ i / 16 + 32 ∧ i / 16 + 32 < 45
  omega

/-! ## The bitmap -/

def bits (n : Nat) : Block := (List.range n).foldl setBit fun _ => 0

theorem bits_succ (n : Nat) : bits (n + 1) = setBit (bits n) n := by
  rw [bits, List.range_succ, List.foldl_append]
  rfl

theorem bitAt_bits (n b : Nat) : bitAt (bits n) b = decide (b < n) := by
  induction n with
  | zero => exact bitAt_zero b
  | succ n ih =>
      rw [bits_succ, bitAt_setBit, ih, ← Bool.decide_or]
      exact decide_eq_decide.mpr (by omega)

namespace Image

/-- The blocks of the image with its bitmap in place. -/
def marked (img : Image) : Nat → Block := upd img.blocks sb.bmapstart (bits img.freeblock)

theorem marked_other {img : Image} {b : Nat} (hb : b ≠ sb.bmapstart) :
    img.marked b = img.blocks b := upd_other hb

theorem bitOf_marked (img : Image) {b : Nat} (hb : b < fsSize) :
    bitOf wide img.marked b = decide (b < img.freeblock) := by
  have hbound : b < 2000 := hb
  have hblock : bblock wide b = sb.bmapstart := by
    show b / 8192 + 45 = 45
    omega
  have hmod : b % bpb = b := by
    show b % 8192 = b
    omega
  rw [bitOf, hblock, hmod, marked, upd_same, bitAt_bits]

end Image

/-! ## The image under construction -/

def WriteOk : Purpose × Nat → Prop
  | (.inode, b) => sb.inodestart ≤ b ∧ b < sb.bmapstart
  | (.indirect, b) | (.data, b) => nMeta ≤ b ∧ b < fsSize
  | (.bitmap, _) => True

/-- The image holds the inodes `g`, the newest copy of each: every block that is handed out
has an owner, what is not handed out is zero. -/
structure Base (img : Image) (g : Nat → Dinode) : Prop where
  core : Core (fun _ => False) wide img.marked g
  low : nMeta ≤ img.freeblock
  high : img.freeblock ≤ fsSize
  zero : ∀ b, img.freeblock ≤ b → img.blocks b = fun _ => 0
  inodes : 1 ≤ img.freeinode ∧ img.freeinode ≤ wide.ninodes
  taken : ∀ i < wide.ninodes, ((g i).type ≠ 0 ↔ 1 ≤ i ∧ i < img.freeinode)
  fresh : ∀ i < wide.ninodes, (g i).type = 0 → g i = Dinode.zero
  writes : ∀ w ∈ img.writes, WriteOk w
  super : ∀ b < sb.inodestart, img.blocks b = blank.blocks b

variable {img img' : Image} {g g' : Nat → Dinode} {i k a : Nat}

theorem free_bit (ha : img.freeblock < fsSize) :
    bitOf wide img.marked img.freeblock = false := by
  rw [img.bitOf_marked ha]
  exact decide_eq_false (Nat.lt_irrefl _)

theorem Base.used (h : Base img g) (hi : i < wide.ninodes) (ht : (g i).type ≠ 0) (hk : k < nSlots)
    (ha : slotAddr img.marked (g i) k ≠ 0) :
    nMeta ≤ slotAddr img.marked (g i) k ∧ slotAddr img.marked (g i) k < img.freeblock := by
  obtain ⟨hlow, hsize, hbit⟩ := (h.core.used hi hk ht ha).1
  rw [img.bitOf_marked hsize, decide_eq_true_eq] at hbit
  exact ⟨hlow, hbit⟩

theorem ne_bitmap {b : Nat} (hb : nMeta ≤ b) : b ≠ sb.bmapstart := by
  have hbound : 46 ≤ b := hb
  show b ≠ 45
  omega

/-- Handing out the next block is what `balloc` of the kernel does. -/
theorem Base.allocBlock_eq (h : Base img g) (ha : img.freeblock < fsSize) :
    allocBlock wide img.marked img.freeblock =
      Image.marked { img with freeblock := img.freeblock + 1 } := by
  have hbound : img.freeblock < 2000 := ha
  have hne := ne_bitmap h.low
  have hblock : bblock wide img.freeblock = sb.bmapstart := by
    show img.freeblock / 8192 + 45 = 45
    omega
  have hmod : img.freeblock % bpb = img.freeblock := by
    show img.freeblock % 8192 = img.freeblock
    omega
  funext b
  rw [allocBlock, hblock, hmod]
  by_cases hb : b = img.freeblock
  · subst hb
    rw [upd_same, Image.marked, upd_other hne, h.zero _ (Nat.le_refl _)]
  · rw [upd_other hb]
    by_cases hbm : b = sb.bmapstart
    · rw [hbm, upd_same, Image.marked, upd_same, Image.marked, upd_same, bits_succ]
    · rw [upd_other hbm, Image.marked, upd_other hbm, Image.marked, upd_other hbm]

/-- Inode `i` gets the block `a`, the next one, in its place `k`; nothing else changes. -/
structure Gets (i k a : Nat) (img : Image) (g : Nat → Dinode) (img' : Image) (g' : Nat → Dinode) :
    Prop where
  base : Base img' g'
  block : a = img.freeblock ∧ img'.freeblock = img.freeblock + 1
  self : ∀ k' < nSlots, slotAddr img'.marked (g' i) k' =
    if k' = k then a else slotAddr img.marked (g i) k'
  other : ∀ j < wide.ninodes, (g j).type ≠ 0 → j ≠ i → g' j = g j ∧
    ∀ k', slotAddr img'.marked (g j) k' = slotAddr img.marked (g j) k'
  nodes : ∀ j < wide.ninodes, (g j).type ≠ 0 →
    nodeOf img'.marked (g' j) = nodeOf img.marked (g j)
  low : ∀ b < sb.bmapstart, img'.blocks b = img.blocks b
  inode : img'.freeinode = img.freeinode

/-- The next block becomes an address of the inode. -/
theorem Base.setAddr (h : Base img g) (hi : i < wide.ninodes) (ht : (g i).type ≠ 0)
    (hk : k ≤ nDirect) (hzero : (g i).addr k = 0) (ha : img.freeblock < fsSize) :
    Gets i k img.freeblock img g { img with freeblock := img.freeblock + 1 }
      (upd g i ((g i).setAddr k img.freeblock)) := by
  have hbit := free_bit ha
  have hgrown := h.core.growAddr hi ht hk hzero h.low ha hbit
  have hmarked := h.allocBlock_eq ha
  have hblock : ∀ o, allocBlock wide img.marked img.freeblock img.freeblock o = 0 := fun o => by
    rw [allocBlock, upd_same]
  have hslots : ∀ k', slotAddr (allocBlock wide img.marked img.freeblock)
      ((g i).setAddr k img.freeblock) k' =
      if k' = k then img.freeblock else slotAddr img.marked (g i) k' := by
    intro k'
    rw [slotAddr_setAddr hk hzero hblock, h.core.slotAddr_alloc ha hbit hi ht]
  rw [hmarked] at hgrown hslots
  constructor
  case base =>
    refine ⟨hgrown.core, Nat.le_succ_of_le h.low, ha, fun b hb => h.zero b (Nat.le_of_succ_le hb),
      h.inodes, fun j hj => ?_, fun j hj htj => ?_, h.writes, h.super⟩
    · by_cases hji : j = i
      · rw [hji, upd_same, Dinode.setAddr_type]
        exact h.taken i hi
      · rw [upd_other hji]
        exact h.taken j hj
    · by_cases hji : j = i
      · rw [hji, upd_same, Dinode.setAddr_type] at htj
        exact absurd htj ht
      · rw [upd_other hji] at htj ⊢
        exact h.fresh j hj htj
  case block => exact ⟨rfl, rfl⟩
  case self =>
    intro k' _
    rw [upd_same]
    exact hslots k'
  case other =>
    intro j hj htj hji
    refine ⟨upd_other hji, fun k' => ?_⟩
    rw [← hmarked]
    exact h.core.slotAddr_alloc ha hbit hj htj k'
  case nodes => exact hgrown.nodes
  case low => exact fun _ _ => rfl
  case inode => rfl

theorem Base.setEntry (h : Base img g) (hi : i < wide.ninodes) (ht : (g i).type ≠ 0)
    (hind : (g i).addr nDirect ≠ 0) (hk : k < nIndirect)
    (hzero : slotAddr img.marked (g i) (nDirect + 1 + k) = 0) (ha : img.freeblock < fsSize) :
    Gets i (nDirect + 1 + k) img.freeblock img g
      (Image.wsect { img with freeblock := img.freeblock + 1 } .indirect ((g i).addr nDirect)
        (putLE (img.blocks ((g i).addr nDirect)) (4 * k) 4 img.freeblock)) g := by
  have hbit := free_bit ha
  have hslot := slotAddr_direct img.marked (g i) (Nat.le_refl nDirect)
  have hused := h.used hi ht (show nDirect < nSlots by decide) (by rw [hslot]; exact hind)
  rw [hslot] at hused
  have hlt : (g i).addr nDirect < fsSize := Nat.lt_trans hused.2 ha
  have hne := ne_bitmap hused.1
  have hgrown := h.core.growEntry hi ht hind hk hzero h.low ha hbit
  -- the block is the same before and after the next one is handed out
  have hsame : allocBlock wide img.marked img.freeblock ((g i).addr nDirect) =
      img.blocks ((g i).addr nDirect) := by
    rw [h.allocBlock_eq ha]
    exact Image.marked_other hne
  have hmarked : upd (allocBlock wide img.marked img.freeblock) ((g i).addr nDirect)
      (putLE (allocBlock wide img.marked img.freeblock ((g i).addr nDirect)) (4 * k) 4
        img.freeblock) =
      Image.marked (Image.wsect { img with freeblock := img.freeblock + 1 } .indirect
        ((g i).addr nDirect) (putLE (img.blocks ((g i).addr nDirect)) (4 * k) 4
          img.freeblock)) := by
    rw [hsame, h.allocBlock_eq ha]
    funext b
    simp only [Image.marked, Image.wsect, place_eq hlt]
    by_cases hb : b = (g i).addr nDirect
    · rw [hb, upd_same, upd_other hne, upd_same]
    · rw [upd_other hb]
      by_cases hbm : b = sb.bmapstart
      · rw [hbm, upd_same, upd_same]
      · rw [upd_other hbm, upd_other hbm, upd_other hb]
  have hslots : ∀ j < wide.ninodes, (g j).type ≠ 0 → ∀ k', slotAddr
      (upd (allocBlock wide img.marked img.freeblock) ((g i).addr nDirect)
        (putLE (allocBlock wide img.marked img.freeblock ((g i).addr nDirect)) (4 * k) 4
          img.freeblock)) (g j) k' =
      if j = i ∧ k' = nDirect + 1 + k then img.freeblock else slotAddr img.marked (g j) k' := by
    intro j hj htj k'
    by_cases hji : j = i
    · subst hji
      have hsmall : img.freeblock < 2 ^ 32 := by
        have hbound : img.freeblock < 2000 := ha
        omega
      rw [slotAddr_putEntry _ k hind hsmall, h.core.slotAddr_alloc ha hbit hi ht]
      simp only [true_and]
    · rw [if_neg fun hx => hji hx.1]
      refine h.core.slotAddr_frame hj htj (fun b hb hk' => ?_) k'
      obtain ⟨k'', hk'', rfl⟩ := hk'
      have hother : slotAddr img.marked (g j) k'' ≠ (g i).addr nDirect := by
        rw [← hslot]
        exact h.core.slot_ne hi hj hji (by decide) hk'' ht htj (by rw [hslot]; exact hind)
      rw [upd_other hother]
      exact h.core.alloc_frame ha hbit _ hb
  rw [hmarked] at hgrown hslots
  have hlow : ∀ b < sb.bmapstart, (Image.wsect { img with freeblock := img.freeblock + 1 }
      .indirect ((g i).addr nDirect) (putLE (img.blocks ((g i).addr nDirect)) (4 * k) 4
        img.freeblock)).blocks b = img.blocks b := by
    intro b hb
    have hb' : b < 45 := hb
    have hge : 46 ≤ (g i).addr nDirect := hused.1
    simp only [Image.wsect, place_eq hlt]
    exact upd_other (by omega)
  constructor
  case base =>
    refine ⟨hgrown.core, Nat.le_succ_of_le h.low, ha, fun b hb => ?_, h.inodes, h.taken, h.fresh,
      fun w hw => ?_, fun b hb =>
      (hlow b (Nat.lt_trans hb (by decide))).trans (h.super b hb)⟩
    · have hb' : img.freeblock + 1 ≤ b := hb
      simp only [Image.wsect, place_eq hlt]
      rw [upd_other (by omega)]
      exact h.zero b (by omega)
    · simp only [Image.wsect, place_eq hlt] at hw
      rcases List.mem_cons.mp hw with rfl | hw
      · exact ⟨hused.1, hlt⟩
      · exact h.writes w hw
  case block => exact ⟨rfl, rfl⟩
  case self =>
    intro k' _
    rw [hslots i hi ht k']
    simp only [true_and]
  case other =>
    intro j hj htj hji
    refine ⟨rfl, fun k' => ?_⟩
    rw [hslots j hj htj k', if_neg fun hx => hji hx.1]
  case nodes => exact hgrown.nodes
  case low => exact hlow
  case inode => rfl

/-! ## The block for a part of a file -/

def need (img : Image) (g : Nat → Dinode) (i bn : Nat) : Nat :=
  (if slotAddr img.marked (g i) (dataSlot bn) = 0 then 1 else 0) +
    if nDirect ≤ bn ∧ (g i).addr nDirect = 0 then 1 else 0

/-- The inode has a block `x` for its part `bn`: one it had, or the next one, together with an
indirect block where it needs one. -/
structure Maps (i bn x : Nat) (img : Image) (g : Nat → Dinode) (img' : Image) (g' : Nat → Dinode) :
    Prop where
  base : Base img' g'
  addr : slotAddr img'.marked (g' i) (dataSlot bn) = x
  pos : x ≠ 0
  slots : ∀ k < nSlots, k ≠ dataSlot bn → k ≠ nDirect →
    slotAddr img'.marked (g' i) k = slotAddr img.marked (g i) k
  indirect : (g' i).addr nDirect ≠ 0 ↔ (g i).addr nDirect ≠ 0 ∨ nDirect ≤ bn
  other : ∀ j < wide.ninodes, (g j).type ≠ 0 → j ≠ i → g' j = g j ∧
    ∀ k, slotAddr img'.marked (g j) k = slotAddr img.marked (g j) k
  nodes : ∀ j < wide.ninodes, (g j).type ≠ 0 →
    nodeOf img'.marked (g' j) = nodeOf img.marked (g j)
  low : ∀ b < sb.bmapstart, img'.blocks b = img.blocks b
  inode : img'.freeinode = img.freeinode
  block : img'.freeblock = img.freeblock + need img g i bn

theorem Base.maps_refl (h : Base img g) {bn : Nat}
    (hpos : slotAddr img.marked (g i) (dataSlot bn) ≠ 0)
    (hind : nDirect ≤ bn → (g i).addr nDirect ≠ 0) :
    Maps i bn (slotAddr img.marked (g i) (dataSlot bn)) img g img g where
  base := h
  addr := rfl
  pos := hpos
  slots _ _ _ _ := rfl
  indirect := ⟨.inl, fun hx => hx.elim id hind⟩
  other _ _ _ _ := ⟨rfl, fun _ => rfl⟩
  nodes _ _ _ := rfl
  low _ _ := rfl
  inode := rfl
  block := by
    rw [need, if_neg hpos, if_neg fun hx => hind hx.1 hx.2, Nat.add_zero]

theorem Base.freeblock_pos (h : Base img g) : img.freeblock ≠ 0 := by
  have hlow : 46 ≤ img.freeblock := h.low
  omega

theorem Gets.maps (h : Base img g) {bn : Nat} (hbn : bn < maxFile)
    (hg : Gets i (dataSlot bn) a img g img' g')
    (hzero : slotAddr img.marked (g i) (dataSlot bn) = 0)
    (hind : nDirect ≤ bn → (g i).addr nDirect ≠ 0) : Maps i bn a img g img' g' where
  base := hg.base
  addr := by rw [hg.self _ (dataSlot_lt hbn), if_pos rfl]
  pos := hg.block.1 ▸ h.freeblock_pos
  slots k hk hne _ := by rw [hg.self k hk, if_neg hne]
  indirect := by
    have hself := hg.self nDirect (by decide)
    rw [if_neg (dataSlot_ne bn).symm, slotAddr_direct _ _ (Nat.le_refl _),
      slotAddr_direct _ _ (Nat.le_refl _)] at hself
    rw [hself]
    exact ⟨.inl, fun hx => hx.elim id hind⟩
  other := hg.other
  nodes := hg.nodes
  low := hg.low
  inode := hg.inode
  block := by
    rw [hg.block.2, need, if_pos hzero, if_neg fun hx => hind hx.1 hx.2]

/-- First the indirect block, then the block itself. -/
theorem Gets.then_maps {img₁ : Image} {g₁ : Nat → Dinode} {bn x : Nat} (hbn : nDirect ≤ bn)
    (hlt : bn < maxFile) (hzero : (g i).addr nDirect = 0) (h : Base img g)
    (hg : Gets i nDirect a img g img₁ g₁)
    (hm : Maps i bn x img₁ g₁ img' g') : Maps i bn x img g img' g' := by
  have htype : ∀ j < wide.ninodes, (g j).type ≠ 0 → (g₁ j).type ≠ 0 := by
    intro j hj htj
    have hnode := congrArg Node.type (hg.nodes j hj htj)
    exact fun hz => htj (hnode.symm.trans hz)
  constructor
  case base => exact hm.base
  case addr => exact hm.addr
  case pos => exact hm.pos
  case slots =>
    intro k hk hne hnd
    rw [hm.slots k hk hne hnd, hg.self k hk, if_neg hnd]
  case indirect => exact iff_of_true (hm.indirect.mpr (.inr hbn)) (.inr hbn)
  case other =>
    intro j hj htj hji
    obtain ⟨heq, hslot⟩ := hg.other j hj htj hji
    obtain ⟨heq', hslot'⟩ := hm.other j hj (htype j hj htj) hji
    rw [heq] at hslot'
    exact ⟨heq'.trans heq, fun k => (hslot' k).trans (hslot k)⟩
  case nodes =>
    intro j hj htj
    rw [hm.nodes j hj (htype j hj htj), hg.nodes j hj htj]
  case low => exact fun b hb => (hm.low b hb).trans (hg.low b hb)
  case inode => exact hm.inode.trans hg.inode
  case block =>
    have hind : (g₁ i).addr nDirect = a := by
      have hself := hg.self nDirect (by decide)
      rwa [if_pos rfl, slotAddr_direct _ _ (Nat.le_refl _)] at hself
    have hpos : (g₁ i).addr nDirect ≠ 0 := by
      rw [hind, hg.block.1]
      exact h.freeblock_pos
    have hsame := hg.self (dataSlot bn) (dataSlot_lt hlt)
    rw [if_neg (dataSlot_ne bn)] at hsame
    have hnone : ¬ (nDirect ≤ bn ∧ (g₁ i).addr nDirect = 0) := fun hx => hpos hx.2
    have hone : nDirect ≤ bn ∧ (g i).addr nDirect = 0 := ⟨hbn, hzero⟩
    rw [hm.block, hg.block.2, need, need, hsame, if_neg hnone, if_pos hone]
    omega

structure Stores (i bn : Nat) (d : Block) (img : Image) (g : Nat → Dinode) (img' : Image) :
    Prop where
  base : Base img' g
  slots : ∀ j < wide.ninodes, (g j).type ≠ 0 → ∀ k,
    slotAddr img'.marked (g j) k = slotAddr img.marked (g j) k
  bytes : ∀ off, byteAt img'.marked (g i) off =
    if off / bsize = bn then d (off % bsize) else byteAt img.marked (g i) off
  nodes : ∀ j < wide.ninodes, (g j).type ≠ 0 → j ≠ i →
    nodeOf img'.marked (g j) = nodeOf img.marked (g j)
  low : ∀ b < sb.bmapstart, img'.blocks b = img.blocks b
  inode : img'.freeinode = img.freeinode
  block : img'.freeblock = img.freeblock

theorem Base.setData (h : Base img g) (hi : i < wide.ninodes) (ht : (g i).type ≠ 0) {bn x : Nat}
    (hbn : bn < maxFile) (hx : slotAddr img.marked (g i) (dataSlot bn) = x) (hpos : x ≠ 0)
    (d : Block) : Stores i bn d img g (img.wsect .data x d) := by
  have hslot : slotAddr img.marked (g i) (dataSlot bn) ≠ 0 := hx ▸ hpos
  have hk := dataSlot_lt hbn
  have hused := h.used hi ht hk hslot
  rw [hx] at hused
  have hlt : x < fsSize := Nat.lt_of_lt_of_le hused.2 h.high
  have hne := ne_bitmap hused.1
  have hmarked : (img.wsect .data x d).marked = upd img.marked x d := by
    funext b
    simp only [Image.marked, Image.wsect, place_eq hlt]
    by_cases hb : b = x
    · rw [hb, upd_same, upd_other hne, upd_same]
    · rw [upd_other hb]
      by_cases hbm : b = sb.bmapstart
      · rw [hbm, upd_same, upd_same]
      · rw [upd_other hbm, upd_other hbm, upd_other hb]
  have hcore := h.core.writeData hi ht hk (dataSlot_ne bn) hslot d
  have hslots : ∀ j < wide.ninodes, (g j).type ≠ 0 → ∀ k,
      slotAddr (upd img.marked x d) (g j) k = slotAddr img.marked (g j) k := by
    intro j hj htj k
    have hdata := h.core.slotAddr_writeData hi ht hk (dataSlot_ne bn) hslot d hj htj k
    rwa [hx] at hdata
  rw [hx] at hcore
  have hlow : ∀ b < sb.bmapstart, (img.wsect .data x d).blocks b = img.blocks b := by
    intro b hb
    have hb' : b < 45 := hb
    have hge : 46 ≤ x := hused.1
    simp only [Image.wsect, place_eq hlt]
    exact upd_other (by omega)
  constructor
  case base =>
    refine ⟨by rw [hmarked]; exact hcore, h.low, h.high, fun b hb => ?_, h.inodes, h.taken,
      h.fresh, fun w hw => ?_, fun b hb =>
      (hlow b (Nat.lt_trans hb (by decide))).trans (h.super b hb)⟩
    · have hb' : img.freeblock ≤ b := hb
      simp only [Image.wsect, place_eq hlt]
      rw [upd_other (by omega)]
      exact h.zero b hb'
    · simp only [Image.wsect, place_eq hlt] at hw
      rcases List.mem_cons.mp hw with rfl | hw
      · exact ⟨hused.1, hlt⟩
      · exact h.writes w hw
  case slots =>
    rw [hmarked]
    exact hslots
  case bytes =>
    intro off
    rw [hmarked]
    exact h.core.byteAt_writeData hi ht hbn hx hpos d off
  case nodes =>
    intro j hj htj hji
    rw [hmarked]
    refine h.core.nodeOf_upd hj htj fun k hk' => ?_
    rw [← hx]
    exact h.core.slot_ne hi hj hji hk hk' ht htj hslot
  case low => exact hlow
  case inode => rfl
  case block => rfl

/-! ## One round of `iappend` -/

theorem rsect_of_lt {b : Nat} (hb : b < fsSize) : img.rsect b = some (img.blocks b) := by
  rw [Image.rsect, place_eq hb, if_pos hb]

theorem rsect_end : img.rsect fsSize = none := by
  have hp : place fsSize = fsSize := by decide
  rw [Image.rsect, hp, if_neg (Nat.lt_irrefl _)]

/-- The block is found, or the image has no room for it and the next read of the block stops
`mkfs`. -/
def Found (img : Image) (g : Nat → Dinode) (i bn : Nat) (x : Nat) (img' : Image)
    (g' : Nat → Dinode) : Prop :=
  Maps i bn x img g img' g' ∨ fsSize < img.freeblock + need img g i bn ∧ img'.rsect x = none

theorem entryFor_spec (h : Base img g) (hi : i < wide.ninodes) (ht : (g i).type ≠ 0) {bn : Nat}
    (hge : nDirect ≤ bn) (hbn : bn < maxFile) (hind : (g i).addr nDirect ≠ 0) :
    ∃ img' x, img.entryFor ((g i).addr nDirect) (bn - nDirect) = some (img', x) ∧
      Found img g i bn x img' g := by
  have hslot := slotAddr_direct img.marked (g i) (Nat.le_refl nDirect)
  have hused := h.used hi ht (show nDirect < nSlots by decide) (by rw [hslot]; exact hind)
  rw [hslot] at hused
  have hk : bn - nDirect < nIndirect := by
    have hbound : bn < nDirect + nIndirect := hbn
    omega
  have hdata : dataSlot bn = nDirect + 1 + (bn - nDirect) := by
    rw [dataSlot, if_neg (Nat.not_lt.mpr hge)]
    omega
  have hentry : getLE (img.blocks ((g i).addr nDirect)) (4 * (bn - nDirect)) 4 =
      slotAddr img.marked (g i) (dataSlot bn) := by
    rw [hdata, slotAddr, if_neg (by omega), if_neg hind, Image.marked_other (ne_bitmap hused.1),
      Nat.add_sub_cancel_left]
  simp only [Image.entryFor, rsect_of_lt (Nat.lt_of_lt_of_le hused.2 h.high), hentry,
    Option.bind_eq_bind, Option.bind_some]
  by_cases hzero : slotAddr img.marked (g i) (dataSlot bn) = 0
  · rw [if_pos hzero]
    refine ⟨_, _, rfl, ?_⟩
    by_cases ha : img.freeblock < fsSize
    · have hgets := h.setEntry hi ht hind hk (hdata ▸ hzero) ha
      rw [← hdata] at hgets
      exact .inl (hgets.maps h hbn hzero fun _ => hind)
    · have hfull : img.freeblock = fsSize := Nat.le_antisymm h.high (Nat.not_lt.mp ha)
      refine .inr ⟨?_, ?_⟩
      · rw [need, if_pos hzero, hfull]
        omega
      · rw [hfull]
        exact rsect_end
  · rw [if_neg hzero]
    exact ⟨_, _, rfl, .inl (h.maps_refl hzero fun _ => hind)⟩

theorem setAddr_size_comm (din : Dinode) (off k a : Nat) :
    ({ din with size := off } : Dinode).setAddr k a = { din.setAddr k a with size := off } := by
  unfold Dinode.setAddr
  split
  · rfl
  · rfl

theorem upd_eq_self {f : Nat → Dinode} {x : Dinode} (hx : f i = x) : upd f i x = f := by
  rw [← hx, upd_self]

/-- `blockFor`, for the inode `i` of which `din` is the copy in memory. -/
theorem blockFor_spec (h : Base img g) (hi : i < wide.ninodes) (ht : (g i).type ≠ 0) {bn off : Nat}
    (hbn : bn < maxFile) {din : Dinode} (hdin : g i = { din with size := off }) :
    (∃ img' din' x, img.blockFor din bn = some (img', din', x) ∧
        Found img g i bn x img' (upd g i { din' with size := off })) ∨
      img.blockFor din bn = none ∧ fsSize < img.freeblock + need img g i bn := by
  have haddr : ∀ k, din.addr k = (g i).addr k := by
    intro k
    rw [hdin]
    rfl
  have hset : ∀ k, ({ din.setAddr k img.freeblock with size := off } : Dinode) =
      (g i).setAddr k img.freeblock := by
    intro k
    rw [hdin]
    exact (setAddr_size_comm din off k img.freeblock).symm
  unfold Image.blockFor
  by_cases hdir : bn < nDirect
  · left
    have hslot : dataSlot bn = bn := if_pos hdir
    have hle : bn ≤ nDirect := Nat.le_of_lt hdir
    have hno : nDirect ≤ bn → (g i).addr nDirect ≠ 0 :=
      fun hge => absurd hdir (Nat.not_lt.mpr hge)
    rw [if_pos hdir, Image.addrFor, haddr]
    by_cases hzero : (g i).addr bn = 0
    · have hzero' : slotAddr img.marked (g i) (dataSlot bn) = 0 := by
        rw [hslot, slotAddr_direct _ _ hle, hzero]
      simp only [if_pos hzero]
      refine ⟨_, _, _, rfl, ?_⟩
      rw [hset, Dinode.addr_setAddr_same din _ (Nat.lt_succ_of_lt hdir)]
      by_cases ha : img.freeblock < fsSize
      · have hgets := h.setAddr hi ht hle hzero ha
        rw [← hslot] at hgets
        have hmaps := hgets.maps h hbn hzero' hno
        rw [hslot] at hmaps
        exact .inl hmaps
      · have hfull : img.freeblock = fsSize := Nat.le_antisymm h.high (Nat.not_lt.mp ha)
        refine .inr ⟨?_, ?_⟩
        · rw [need, if_pos hzero', hfull]
          omega
        · rw [hfull]
          exact rsect_end
    · have hpos : slotAddr img.marked (g i) (dataSlot bn) ≠ 0 := by
        rw [hslot, slotAddr_direct _ _ hle]
        exact hzero
      simp only [if_neg hzero]
      refine ⟨_, _, _, rfl, ?_⟩
      have hmaps := h.maps_refl hpos hno
      rw [hslot, slotAddr_direct _ _ hle, ← haddr] at hmaps
      rw [upd_eq_self hdin]
      exact .inl hmaps
  · have hge : nDirect ≤ bn := Nat.not_lt.mp hdir
    rw [if_neg hdir, Image.addrFor, haddr]
    by_cases hzero : (g i).addr nDirect = 0
    · have hslot0 : slotAddr img.marked (g i) (dataSlot bn) = 0 := by
        have hne : ¬ dataSlot bn ≤ nDirect := by
          rw [dataSlot, if_neg hdir]
          omega
        rw [slotAddr, if_neg hne, if_pos hzero]
      have hneed : need img g i bn = 2 := by
        rw [need, if_pos hslot0, if_pos ⟨hge, hzero⟩]
      simp only [if_pos hzero, Option.bind_eq_bind]
      by_cases ha : img.freeblock < fsSize
      · left
        have hgets := h.setAddr hi ht (Nat.le_refl nDirect) hzero ha
        have ht₁ : (upd g i ((g i).setAddr nDirect img.freeblock) i).type ≠ 0 := by
          rw [upd_same, Dinode.setAddr_type]
          exact ht
        have hind₁ : (upd g i ((g i).setAddr nDirect img.freeblock) i).addr nDirect =
            img.freeblock := by
          rw [upd_same, Dinode.addr_setAddr_same _ _ (by decide)]
        obtain ⟨img', x, hentry, hfound⟩ := entryFor_spec hgets.base hi ht₁ hge hbn
          (by rw [hind₁]; exact h.freeblock_pos)
        rw [hind₁] at hentry
        rw [Dinode.addr_setAddr_same din _ (by decide), hentry]
        refine ⟨_, _, _, rfl, ?_⟩
        rw [hset]
        rcases hfound with hmaps | ⟨hover, hend⟩
        · exact .inl (Gets.then_maps hge hbn hzero h hgets hmaps)
        · refine .inr ⟨?_, hend⟩
          have hone : need { img with freeblock := img.freeblock + 1 }
              (upd g i ((g i).setAddr nDirect img.freeblock)) i bn ≤ 1 := by
            have hnone : ¬ (nDirect ≤ bn ∧
                (upd g i ((g i).setAddr nDirect img.freeblock) i).addr nDirect = 0) := by
              rw [hind₁]
              exact fun hx => h.freeblock_pos hx.2
            rw [need, if_neg hnone]
            split
            · exact Nat.le_refl 1
            · exact Nat.zero_le 1
          have hover' : fsSize < img.freeblock + 1 + _ := hover
          omega
      · right
        have hfull : img.freeblock = fsSize := Nat.le_antisymm h.high (Nat.not_lt.mp ha)
        refine ⟨?_, by omega⟩
        rw [Dinode.addr_setAddr_same din _ (by decide), hfull]
        simp only [Image.entryFor, rsect_end, Option.bind_eq_bind, Option.bind_none]
    · left
      obtain ⟨img', x, hentry, hfound⟩ := entryFor_spec h hi ht hge hbn hzero
      simp only [if_neg hzero, Option.bind_eq_bind, haddr, hentry, Option.bind_some]
      refine ⟨_, _, _, rfl, ?_⟩
      rw [upd_eq_self hdin]
      exact hfound

def blocksOf (n : Nat) : Nat :=
  (n + bsize - 1) / bsize + if nDirect * bsize < n then 1 else 0

/-- The blocks of all files. -/
def total (g : Nat → Dinode) : Nat := ∑ i ∈ Finset.range wide.ninodes, blocksOf (g i).size

/-- The files have the blocks below their sizes and no others, and these are all the blocks
that were handed out. -/
structure Exact (img : Image) (g : Nat → Dinode) : Prop where
  mapped : ∀ i < wide.ninodes, (g i).type ≠ 0 → ∀ bn < maxFile,
    (slotAddr img.marked (g i) (dataSlot bn) ≠ 0 ↔ bn * bsize < (g i).size)
  indirect : ∀ i < wide.ninodes, (g i).type ≠ 0 →
    ((g i).addr nDirect ≠ 0 ↔ nDirect * bsize < (g i).size)
  size : ∀ i < wide.ninodes, (g i).type ≠ 0 → (g i).size ≤ maxFile * bsize
  count : img.freeblock = nMeta + total g

def appendNode (n : Node) (p : List UInt8) : Node :=
  { n with
    size := n.size + p.length
    byte := splice n.byte n.size p.length fun j => p.getD j 0 }

theorem appendNode_nil (n : Node) : appendNode n [] = n := by
  rw [appendNode, List.length_nil, splice_zero, Nat.add_zero]

theorem appendNode_append (n : Node) (p q : List UInt8) :
    appendNode (appendNode n p) q = appendNode n (p ++ q) := by
  unfold appendNode
  have hbytes : splice (splice n.byte n.size p.length fun j => p.getD j 0) (n.size + p.length)
      q.length (fun j => q.getD j 0) =
      splice n.byte n.size (p.length + q.length) fun j => (p ++ q).getD j 0 := by
    rw [← splice_splice]
    congr 1
    · funext o
      by_cases ho : n.size ≤ o ∧ o < n.size + p.length
      · rw [splice_inside ho.1 ho.2, splice_inside ho.1 ho.2,
          List.getD_append _ _ _ _ (by omega)]
      · rw [splice_outside (by omega), splice_outside (by omega)]
    · funext j
      rw [List.getD_append_right _ _ _ _ (Nat.le_add_right _ _), Nat.add_sub_cancel_left]
  simp only [hbytes, List.length_append, Nat.add_assoc]

/-- Inode `i` has got the bytes `p` at its end; nothing else changed. -/
structure Appended (i : Nat) (p : List UInt8) (img : Image) (g : Nat → Dinode) (img' : Image)
    (g' : Nat → Dinode) : Prop where
  base : Base img' g'
  exact : Exact img' g'
  node : nodeOf img'.marked (g' i) = appendNode (nodeOf img.marked (g i)) p
  other : ∀ j < wide.ninodes, j ≠ i → g' j = g j
  nodes : ∀ j < wide.ninodes, (g j).type ≠ 0 → j ≠ i →
    nodeOf img'.marked (g j) = nodeOf img.marked (g j)
  low : ∀ b < sb.bmapstart, img'.blocks b = img.blocks b
  inode : img'.freeinode = img.freeinode

theorem Base.appended_nil (h : Base img g) (he : Exact img g) : Appended i [] img g img g :=
  ⟨h, he, (appendNode_nil _).symm, fun _ _ _ => rfl, fun _ _ _ _ => rfl, fun _ _ => rfl, rfl⟩

theorem Appended.trans {p q : List UInt8} {img'' : Image} {g'' : Nat → Dinode}
    (h : Appended i p img g img' g') (h' : Appended i q img' g' img'' g'') :
    Appended i (p ++ q) img g img'' g'' where
  base := h'.base
  exact := h'.exact
  node := by rw [h'.node, h.node, appendNode_append]
  other j hj hji := (h'.other j hj hji).trans (h.other j hj hji)
  nodes j hj ht hji := by
    have heq := h.other j hj hji
    have hstep := h'.nodes j hj (by rw [heq]; exact ht) hji
    rw [heq] at hstep
    exact hstep.trans (h.nodes j hj ht hji)
  low b hb := (h'.low b hb).trans (h.low b hb)
  inode := h'.inode.trans h.inode

theorem total_congr (h : ∀ j < wide.ninodes, (g' j).size = (g j).size) : total g' = total g :=
  Finset.sum_congr rfl fun j hj => by rw [h j (Finset.mem_range.mp hj)]

theorem total_upd (hi : i < wide.ninodes) (x : Dinode) :
    total (upd g i x) + blocksOf (g i).size = total g + blocksOf x.size := by
  have hmem : i ∈ Finset.range wide.ninodes := Finset.mem_range.mpr hi
  have hrest : ∑ j ∈ (Finset.range wide.ninodes).erase i, blocksOf (upd g i x j).size =
      ∑ j ∈ (Finset.range wide.ninodes).erase i, blocksOf (g j).size :=
    Finset.sum_congr rfl fun j hj => by rw [upd_other (Finset.ne_of_mem_erase hj)]
  unfold total
  rw [← Finset.add_sum_erase _ (fun j => blocksOf (upd g i x j).size) hmem,
    ← Finset.add_sum_erase _ (fun j => blocksOf (g j).size) hmem, hrest, upd_same]
  omega

theorem blocksOf_add {off c : Nat} (hpos : 1 ≤ c) (hle : c ≤ (off / bsize + 1) * bsize - off) :
    blocksOf (off + c) = blocksOf off + ((if ¬ off / bsize * bsize < off then 1 else 0) +
      if nDirect ≤ off / bsize ∧ ¬ nDirect * bsize < off then 1 else 0) := by
  unfold blocksOf
  have hb : bsize = 1024 := rfl
  have hd : nDirect = 12 := rfl
  rw [hb] at hle ⊢
  rw [hd]
  split_ifs <;> omega

theorem chunk_pos {off n : Nat} (hn : 0 < n) : 1 ≤ Image.chunk off n := by
  unfold Image.chunk
  have hb : bsize = 1024 := rfl
  rw [hb]
  omega

theorem chunk_le (off n : Nat) :
    Image.chunk off n ≤ n ∧ Image.chunk off n ≤ (off / bsize + 1) * bsize - off :=
  ⟨Nat.min_le_left _ _, Nat.min_le_right _ _⟩

theorem Base.setSize (h : Base img g) (hi : i < wide.ninodes) (ht : (g i).type ≠ 0) {n : Nat}
    (hn : n < 2 ^ 32) : Base img (upd g i { g i with size := n }) := by
  have hcore : Core (fun _ => False) wide img.marked (upd g i { g i with size := n }) :=
    h.core.setFields (fun _ _ => rfl) hn (.inl rfl) hi
  refine ⟨hcore, h.low, h.high, h.zero, h.inodes, fun j hj => ?_, fun j hj htj => ?_,
    h.writes, h.super⟩
  · by_cases hji : j = i
    · rw [hji, upd_same]
      exact h.taken i hi
    · rw [upd_other hji]
      exact h.taken j hj
  · by_cases hji : j = i
    · rw [hji, upd_same] at htj
      exact absurd htj ht
    · rw [upd_other hji] at htj ⊢
      exact h.fresh j hj htj

/-- The bytes of the file after the block for offset `off` got `c` bytes of `p` there. -/
theorem splice_block {n : Nat → UInt8} {d : Block} {off c o : Nat} {p : List UInt8}
    (hc : c ≤ (off / bsize + 1) * bsize - off)
    (hsame : o / bsize = off / bsize → d (o % bsize) = n o) :
    (if o / bsize = off / bsize then
        splice d (off - off / bsize * bsize) c (fun j => p.getD j 0) (o % bsize)
      else n o) = splice n off c (fun j => p.getD j 0) o := by
  have hb : bsize = 1024 := rfl
  rw [hb] at hc hsame ⊢
  split
  · rename_i ho
    by_cases hin : off ≤ o ∧ o < off + c
    · rw [splice_inside (by omega) (by omega), splice_inside hin.1 hin.2]
      congr 1
      omega
    · rw [splice_outside (by omega), splice_outside (by omega), hsame ho]
  · rw [splice_outside (by omega)]

/-- With the block at hand, the bytes are stored and the size grows over them. -/
theorem Maps.appended {img₁ : Image} {g₁ : Nat → Dinode} {off c x : Nat} {p : List UInt8}
    (hm : Maps i (off / bsize) x img g img₁ g₁) (he : Exact img g) (hi : i < wide.ninodes)
    (ht : (g i).type ≠ 0) (hsize : (g i).size = off) (hoff : off / bsize < maxFile) (hpos : 1 ≤ c)
    (hlen : c ≤ p.length) (hle : c ≤ (off / bsize + 1) * bsize - off)
    (hother : ∀ j < wide.ninodes, j ≠ i → g₁ j = g j)
    (hneed : img.freeblock + need img g i (off / bsize) =
      nMeta + total (upd g i { g i with size := off + c })) :
    Appended i (p.take c) img g
      (img₁.wsect .data x (splice (img₁.blocks x) (off - off / bsize * bsize) c
        fun j => p.getD j 0)) (upd g₁ i { g₁ i with size := off + c }) := by
  have hnode := hm.nodes i hi ht
  have ht₁ : (g₁ i).type ≠ 0 := by
    rw [show (g₁ i).type = (g i).type from congrArg Node.type hnode]
    exact ht
  have hsmall : off + c ≤ maxFile * bsize := by
    have hb : bsize = 1024 := rfl
    have hf : maxFile = 268 := rfl
    rw [hb] at hoff hle ⊢
    rw [hf] at hoff ⊢
    omega
  have hfits : off + c < 2 ^ 32 := Nat.lt_of_le_of_lt hsmall (by decide)
  generalize hd : splice (img₁.blocks x) (off - off / bsize * bsize) c (fun j => p.getD j 0) = d
  have hst := hm.base.setData hi ht₁ hoff hm.addr hm.pos d
  generalize img₁.wsect .data x d = img₂ at hst
  have hslots : ∀ k < nSlots, slotAddr img₂.marked { g₁ i with size := off + c } k =
      slotAddr img₁.marked (g₁ i) k := fun k _ => hst.slots i hi ht₁ k
  have htype : ∀ j < wide.ninodes, j ≠ i → (g j).type ≠ 0 → (g₁ j).type ≠ 0 := by
    intro j hj hji htj
    rw [hother j hj hji]
    exact htj
  have hnodes : ∀ j < wide.ninodes, (g j).type ≠ 0 → j ≠ i →
      nodeOf img₂.marked (g j) = nodeOf img.marked (g j) := by
    intro j hj htj hji
    have h₂ := hst.nodes j hj (htype j hj hji htj) hji
    have h₁ := hm.nodes j hj htj
    rw [hother j hj hji] at h₁ h₂
    exact h₂.trans h₁
  constructor
  case base => exact hst.base.setSize hi ht₁ hfits
  case exact =>
    constructor
    case mapped =>
      intro j hj htj bn hbn
      by_cases hji : j = i
      · subst hji
        rw [upd_same, hslots _ (dataSlot_lt hbn)]
        have hb : bsize = 1024 := rfl
        by_cases hcur : bn = off / bsize
        · rw [hcur, hm.addr]
          refine iff_of_true hm.pos ?_
          show off / bsize * bsize < off + c
          rw [hb]
          omega
        · have hne : dataSlot bn ≠ dataSlot (off / bsize) := fun heq => hcur (dataSlot_inj heq)
          rw [hm.slots _ (dataSlot_lt hbn) hne (dataSlot_ne bn), he.mapped j hi ht bn hbn, hsize]
          show bn * bsize < off ↔ bn * bsize < off + c
          rw [hb] at hcur hle ⊢
          omega
      · rw [upd_other hji, hother j hj hji] at htj ⊢
        have h₂ := hst.slots j hj (htype j hj hji htj)
        have h₁ := (hm.other j hj htj hji).2
        rw [hother j hj hji] at h₂
        rw [h₂, h₁]
        exact he.mapped j hj htj bn hbn
    case indirect =>
      intro j hj htj
      by_cases hji : j = i
      · subst hji
        rw [upd_same]
        have hold := he.indirect j hi ht
        rw [hsize] at hold
        show (g₁ j).addr nDirect ≠ 0 ↔ nDirect * bsize < off + c
        rw [hm.indirect, hold]
        have hb : bsize = 1024 := rfl
        have hn : nDirect = 12 := rfl
        rw [hb] at hle ⊢
        rw [hn]
        omega
      · rw [upd_other hji, hother j hj hji] at htj ⊢
        exact he.indirect j hj htj
    case size =>
      intro j hj htj
      by_cases hji : j = i
      · rw [hji, upd_same]
        exact hsmall
      · rw [upd_other hji, hother j hj hji] at htj ⊢
        exact he.size j hj htj
    case count =>
      have htotal : total (upd g₁ i { g₁ i with size := off + c }) =
          total (upd g i { g i with size := off + c }) := by
        refine total_congr fun j hj => ?_
        by_cases hji : j = i
        · rw [hji, upd_same, upd_same]
        · rw [upd_other hji, upd_other hji, hother j hj hji]
      rw [hst.block, hm.block, hneed, htotal]
  case node =>
    rw [upd_same]
    have hlen' : (p.take c).length = c := by rw [List.length_take, Nat.min_eq_left hlen]
    ext1
    case type => exact show (g₁ i).type = (g i).type from congrArg Node.type hnode
    case major => exact show (g₁ i).major = (g i).major from congrArg Node.major hnode
    case minor => exact show (g₁ i).minor = (g i).minor from congrArg Node.minor hnode
    case nlink => exact show (g₁ i).nlink = (g i).nlink from congrArg Node.nlink hnode
    case size =>
      show off + c = (g i).size + (p.take c).length
      rw [hsize, hlen']
    case byte =>
      funext o
      show byteAt img₂.marked (g₁ i) o = splice (byteAt img.marked (g i)) (g i).size
        (p.take c).length (fun j => (p.take c).getD j 0) o
      have hbyte : byteAt img₁.marked (g₁ i) = byteAt img.marked (g i) :=
        congrArg Node.byte hnode
      rw [hst.bytes o, hlen', hsize, ← hbyte, ← hd]
      have htake : splice (byteAt img₁.marked (g₁ i)) off c (fun j => (p.take c).getD j 0) o =
          splice (byteAt img₁.marked (g₁ i)) off c (fun j => p.getD j 0) o := by
        by_cases ho : off ≤ o ∧ o < off + c
        · have hlt : o - off < c := by omega
          rw [splice_inside ho.1 ho.2, splice_inside ho.1 ho.2, List.getD_eq_getElem?_getD,
            List.getD_eq_getElem?_getD, List.getElem?_take_of_lt hlt]
        · rw [splice_outside (by omega), splice_outside (by omega)]
      rw [htake]
      refine splice_block hle fun ho => ?_
      have hused := hm.base.used hi ht₁ (dataSlot_lt hoff) (by rw [hm.addr]; exact hm.pos)
      rw [hm.addr] at hused
      show _ = byteAt img₁.marked (g₁ i) o
      simp only [byteAt]
      rw [ho, hm.addr, if_pos ⟨hoff, hm.pos⟩, Image.marked_other (ne_bitmap hused.1)]
  case other =>
    intro j hj hji
    rw [upd_other hji, hother j hj hji]
  case nodes => exact hnodes
  case low => exact fun b hb => (hst.low b hb).trans (hm.low b hb)
  case inode => exact hst.inode.trans hm.inode

/-- One round: the bytes it copies are appended, or the image is full. -/
theorem appendRound_spec (h : Base img g) (he : Exact img g) (hi : i < wide.ninodes)
    (ht : (g i).type ≠ 0) {off : Nat} {din : Dinode} (hdin : g i = { din with size := off })
    (hoff : off / bsize < maxFile) {p : List UInt8} (hp : p ≠ []) :
    (∃ img' din', img.appendRound din off p = some (img', din') ∧
        Appended i (p.take (Image.chunk off p.length)) img g img'
          (upd g i { din' with size := off + Image.chunk off p.length })) ∨
      img.appendRound din off p = none ∧ fsSize < nMeta +
        total (upd g i { g i with size := off + Image.chunk off p.length }) := by
  have hsize : (g i).size = off := by rw [hdin]
  generalize hc : Image.chunk off p.length = c
  have hcle : c ≤ p.length ∧ c ≤ (off / bsize + 1) * bsize - off := hc ▸ chunk_le off p.length
  have hcpos : 1 ≤ c := hc ▸ chunk_pos (List.length_pos_iff.mpr hp)
  -- what the round takes from the free blocks is what the size asks for
  have hneed : img.freeblock + need img g i (off / bsize) =
      nMeta + total (upd g i { g i with size := off + c }) := by
    have hmapped := he.mapped i hi ht (off / bsize) hoff
    have hind := he.indirect i hi ht
    rw [hsize] at hmapped hind
    have htotal : total (upd g i { g i with size := off + c }) + blocksOf off =
        total g + blocksOf (off + c) := by
      rw [← hsize]
      exact total_upd hi { g i with size := (g i).size + c }
    have hslot : slotAddr img.marked (g i) (dataSlot (off / bsize)) = 0 ↔
        ¬ off / bsize * bsize < off := by rw [← hmapped, not_not]
    have hzero : (g i).addr nDirect = 0 ↔ ¬ nDirect * bsize < off := by rw [← hind, not_not]
    have hround : need img g i (off / bsize) =
        (if ¬ off / bsize * bsize < off then 1 else 0) +
          if nDirect ≤ off / bsize ∧ ¬ nDirect * bsize < off then 1 else 0 := by
      rw [need, if_congr hslot rfl rfl, if_congr (and_congr_right fun _ => hzero) rfl rfl]
    rw [blocksOf_add hcpos hcle.2] at htotal
    rw [he.count, hround]
    omega
  unfold Image.appendRound
  rw [if_pos hoff, hc]
  rcases blockFor_spec h hi ht hoff hdin with ⟨img₁, din₁, x, hblock, hfound⟩ | ⟨hblock, hover⟩
  · rw [hblock]
    simp only [Option.bind_eq_bind, Option.bind_some]
    rcases hfound with hm | ⟨hover, hend⟩
    · left
      have hused := hm.base.used hi (by
        rw [upd_same]
        rw [hdin] at ht
        have hnode := congrArg Node.type (hm.nodes i hi (by rw [hdin]; exact ht))
        rw [upd_same, hdin] at hnode
        exact fun hz => ht (hnode.symm.trans hz)) (dataSlot_lt hoff)
        (by rw [hm.addr]; exact hm.pos)
      rw [hm.addr] at hused
      rw [rsect_of_lt (Nat.lt_of_lt_of_le hused.2 hm.base.high)]
      refine ⟨_, _, rfl, ?_⟩
      have happ := hm.appended he hi ht hsize hoff hcpos hcle.1 hcle.2
        (fun j _ hji => upd_other hji) hneed
      rw [upd_upd, upd_same] at happ
      exact happ
    · right
      rw [hend]
      exact ⟨rfl, hneed ▸ hover⟩
  · right
    rw [hblock]
    exact ⟨rfl, hneed ▸ hover⟩

/-! ## `iappend` -/

/-- The blocks needed once inode `i` has `n` bytes. -/
def demand (g : Nat → Dinode) (i n : Nat) : Nat := nMeta + total (upd g i { g i with size := n })

theorem blocksOf_mono {m n : Nat} (h : m ≤ n) : blocksOf m ≤ blocksOf n := by
  unfold blocksOf
  have hb : bsize = 1024 := rfl
  have hd : nDirect = 12 := rfl
  rw [hb, hd]
  split_ifs <;> omega

theorem demand_mono (hi : i < wide.ninodes) {m n : Nat} (h : m ≤ n) :
    demand g i m ≤ demand g i n := by
  have hm : total (upd g i { g i with size := m }) + blocksOf (g i).size =
      total g + blocksOf m := total_upd hi { g i with size := m }
  have hn : total (upd g i { g i with size := n }) + blocksOf (g i).size =
      total g + blocksOf n := total_upd hi { g i with size := n }
  have hle := blocksOf_mono h
  unfold demand
  omega

theorem demand_congr (hother : ∀ j < wide.ninodes, j ≠ i → g' j = g j) (n : Nat) :
    demand g' i n = demand g i n := by
  have htotal : total (upd g' i { g' i with size := n }) =
      total (upd g i { g i with size := n }) := by
    refine total_congr fun j hj => ?_
    by_cases hji : j = i
    · rw [hji, upd_same, upd_same]
    · rw [upd_other hji, upd_other hji, hother j hj hji]
  rw [demand, htotal, demand]

/-- The loop appends all the bytes, or stops because the file gets too long or the image
full. -/
theorem iappendFrom_spec {fuel : Nat} {p : List UInt8} (hfuel : p.length ≤ fuel) (h : Base img g)
    (he : Exact img g) (hi : i < wide.ninodes) (ht : (g i).type ≠ 0) {off : Nat} {din : Dinode}
    (hdin : g i = { din with size := off }) :
    (∃ img' din', Image.iappendFrom fuel img din off p = some (img', din', off + p.length) ∧
        Appended i p img g img' (upd g i { din' with size := off + p.length })) ∨
      Image.iappendFrom fuel img din off p = none ∧
        (maxFile * bsize < off + p.length ∨ fsSize < demand g i (off + p.length)) := by
  induction fuel generalizing img g din off p with
  | zero =>
      obtain rfl : p = [] := List.eq_nil_of_length_eq_zero (Nat.le_zero.mp hfuel)
      refine .inl ⟨img, din, rfl, ?_⟩
      rw [List.length_nil, Nat.add_zero, upd_eq_self hdin]
      exact h.appended_nil he
  | succ fuel ih =>
      by_cases hp : p = []
      · subst hp
        refine .inl ⟨img, din, by rw [Image.iappendFrom, if_pos rfl]; rfl, ?_⟩
        rw [List.length_nil, Nat.add_zero, upd_eq_self hdin]
        exact h.appended_nil he
      · have hpos := List.length_pos_iff.mpr hp
        have hcpos : 1 ≤ Image.chunk off p.length := chunk_pos hpos
        have hcle := (chunk_le off p.length).1
        rw [Image.iappendFrom, if_neg hp]
        by_cases hoff : off / bsize < maxFile
        · rcases appendRound_spec h he hi ht hdin hoff hp with ⟨img₁, din₁, hround, happ⟩ |
            ⟨hround, hover⟩
          · rw [hround]
            simp only [Option.bind_eq_bind, Option.bind_some]
            generalize hc : Image.chunk off p.length = c at *
            have hdrop : (p.drop c).length ≤ fuel := by
              rw [List.length_drop]
              omega
            have hlen : off + c + (p.drop c).length = off + p.length := by
              rw [List.length_drop]
              omega
            have htype : (upd g i { din₁ with size := off + c } i).type ≠ 0 := by
              have hnode := congrArg Node.type happ.node
              exact fun hz => ht (hnode.symm.trans hz)
            rcases ih hdrop happ.base happ.exact htype (upd_same _ _ _) with
              ⟨img₂, din₂, hrest, happ'⟩ | ⟨hrest, hover⟩
            · left
              rw [hlen] at hrest happ'
              refine ⟨img₂, din₂, hrest, ?_⟩
              have htrans := happ.trans happ'
              rwa [upd_upd, List.take_append_drop] at htrans
            · right
              rw [hlen] at hover
              refine ⟨hrest, hover.imp_right fun hx => ?_⟩
              rwa [demand_congr (fun j _ hji => upd_other hji)] at hx
          · right
            rw [hround]
            refine ⟨rfl, .inr (Nat.lt_of_lt_of_le hover (demand_mono hi ?_))⟩
            omega
        · right
          rw [Image.appendRound, if_neg hoff]
          have hle : maxFile * bsize ≤ off :=
            (Nat.le_div_iff_mul_le (by decide)).mp (Nat.not_lt.mp hoff)
          exact ⟨rfl, .inl (Nat.lt_of_le_of_lt hle (Nat.lt_add_of_pos_right hpos))⟩

/-! ## Inodes on the image -/

/-- An image between two calls: the inodes are the ones on disk. -/
structure Built (img : Image) (g : Nat → Dinode) : Prop where
  base : Base img g
  exact : Exact img g
  disk : ∀ j < wide.ninodes, diskInode sb img.blocks j = g j

theorem iblock_lt {j : Nat} (hj : j < wide.ninodes) : iblock sb j < fsSize :=
  Nat.lt_trans (iblock_range hj).2 (by decide)

theorem Base.wInode (h : Base img g) (hi : i < wide.ninodes) (d : Block) :
    Base (img.wsect .inode (iblock sb i) d) g ∧
      (∀ j < wide.ninodes, (g j).type ≠ 0 → ∀ k,
        slotAddr (img.wsect .inode (iblock sb i) d).marked (g j) k =
          slotAddr img.marked (g j) k) ∧
      ∀ j < wide.ninodes, (g j).type ≠ 0 →
        nodeOf (img.wsect .inode (iblock sb i) d).marked (g j) = nodeOf img.marked (g j) := by
  obtain ⟨hge, hlt⟩ := iblock_range hi
  have hhigh : ∀ b, sb.bmapstart ≤ b →
      (img.wsect .inode (iblock sb i) d).marked b = img.marked b := by
    intro b hb
    simp only [Image.marked, Image.wsect, place_eq (iblock_lt hi)]
    by_cases hbm : b = sb.bmapstart
    · rw [hbm, upd_same, upd_same]
    · rw [upd_other hbm, upd_other hbm, upd_other (by omega)]
  have hused : ∀ j < wide.ninodes, (g j).type ≠ 0 → ∀ b, usedBlock wide img.marked b →
      (∃ k < nSlots, slotAddr img.marked (g j) k = b) →
      (img.wsect .inode (iblock sb i) d).marked b = img.marked b := by
    intro j _ _ b hb _
    refine hhigh b ?_
    have hb' : 46 ≤ b := hb.1
    show 45 ≤ b
    omega
  refine ⟨⟨h.core.low_frame hhigh, h.low, h.high, fun b hb => ?_, h.inodes, h.taken, h.fresh,
    fun w hw => ?_, fun b hb => ?_⟩, fun j hj ht k => h.core.slotAddr_frame hj ht (hused j hj ht) k,
    fun j hj ht => h.core.nodeOf_frame hj ht (hused j hj ht)⟩
  · have hb' : img.freeblock ≤ b := hb
    have hlow : 46 ≤ img.freeblock := h.low
    have hlt' : iblock sb i < 45 := hlt
    simp only [Image.wsect, place_eq (iblock_lt hi)]
    rw [upd_other (by omega)]
    exact h.zero b hb'
  · simp only [Image.wsect, place_eq (iblock_lt hi)] at hw
    rcases List.mem_cons.mp hw with rfl | hw
    · exact ⟨hge, hlt⟩
    · exact h.writes w hw
  · have hge' : 32 ≤ iblock sb i := hge
    have hb' : b < 32 := hb
    simp only [Image.wsect, place_eq (iblock_lt hi)]
    rw [upd_other (by omega)]
    exact h.super b hb

theorem winode_eq (hi : i < wide.ninodes) (x : Dinode) :
    img.winode i x = some (img.wsect .inode (iblock sb i)
      (x.write (img.blocks (iblock sb i)) (ioff i))) := by
  simp only [Image.winode, rsect_of_lt (iblock_lt hi), Option.bind_eq_bind, Option.bind_some]
  rfl

theorem rinode_eq (hi : i < wide.ninodes) :
    img.rinode i = some (diskInode sb img.blocks i) := by
  simp only [Image.rinode, rsect_of_lt (iblock_lt hi), Option.bind_eq_bind, Option.bind_some]
  rfl

/-- The inodes on disk after the one that differs from its newest copy is stored. -/
theorem Base.disk_store (h : Base img g) (hi : i < wide.ninodes)
    (hdisk : ∀ j < wide.ninodes, j ≠ i → diskInode sb img.blocks j = g j) (j : Nat)
    (hj : j < wide.ninodes) :
    diskInode sb (img.wsect .inode (iblock sb i)
      ((g i).write (img.blocks (iblock sb i)) (ioff i))).blocks j = g j := by
  simp only [Image.wsect, place_eq (iblock_lt hi)]
  by_cases hji : j = i
  · rw [hji]
    exact diskInode_write_same (h.core.fits i hi)
  · rw [diskInode_write_other hji]
    exact hdisk j hj hji

theorem Base.store (h : Base img g) (he : Exact img g) (hi : i < wide.ninodes)
    (hdisk : ∀ j < wide.ninodes, j ≠ i → diskInode sb img.blocks j = g j) :
    Built (img.wsect .inode (iblock sb i) ((g i).write (img.blocks (iblock sb i)) (ioff i))) g := by
  obtain ⟨hb, hslots, _⟩ := h.wInode hi ((g i).write (img.blocks (iblock sb i)) (ioff i))
  refine ⟨hb, ⟨fun j hj ht bn hbn => ?_, he.indirect, he.size, he.count⟩,
    h.disk_store hi hdisk⟩
  rw [hslots j hj ht]
  exact he.mapped j hj ht bn hbn

structure Extends (i : Nat) (p : List UInt8) (img : Image) (g : Nat → Dinode) (img' : Image)
    (g' : Nat → Dinode) : Prop where
  built : Built img' g'
  node : nodeOf img'.marked (g' i) = appendNode (nodeOf img.marked (g i)) p
  nodes : ∀ j < wide.ninodes, (g j).type ≠ 0 → j ≠ i →
    nodeOf img'.marked (g' j) = nodeOf img.marked (g j)
  other : ∀ j < wide.ninodes, j ≠ i → g' j = g j
  inode : img'.freeinode = img.freeinode

theorem iappend_spec (h : Built img g) (hi : i < wide.ninodes) (ht : (g i).type ≠ 0)
    (p : List UInt8) :
    (∃ img' g', img.iappend i p = some img' ∧ Extends i p img g img' g') ∨
      img.iappend i p = none ∧ (maxFile * bsize < (g i).size + p.length ∨
        fsSize < demand g i ((g i).size + p.length)) := by
  unfold Image.iappend
  rw [rinode_eq hi, h.disk i hi]
  simp only [Option.bind_eq_bind, Option.bind_some]
  have hdin : g i = { g i with size := (g i).size } := rfl
  rcases iappendFrom_spec (Nat.le_refl p.length) h.base h.exact hi ht hdin with
    ⟨img₁, din, hloop, happ⟩ | ⟨hloop, hover⟩
  · left
    rw [hloop]
    simp only [Option.bind_some]
    generalize hg' : upd g i { din with size := (g i).size + p.length } = g' at happ
    have hself : ({ din with size := (g i).size + p.length } : Dinode) = g' i := by
      rw [← hg', upd_same]
    rw [hself, winode_eq hi]
    have hdisk : ∀ j < wide.ninodes, j ≠ i → diskInode sb img₁.blocks j = g' j := by
      intro j hj hji
      rw [happ.other j hj hji, ← h.disk j hj]
      exact diskInode_congr (happ.low _ (iblock_range hj).2)
    obtain ⟨_, _, hnodes⟩ := happ.base.wInode hi
      ((g' i).write (img₁.blocks (iblock sb i)) (ioff i))
    have hti : (g' i).type ≠ 0 := by
      have hnode := congrArg Node.type happ.node
      exact fun hz => ht (hnode.symm.trans hz)
    refine ⟨_, g', rfl, happ.base.store happ.exact hi hdisk, ?_, fun j hj htj hji => ?_,
      happ.other, happ.inode⟩
    · rw [hnodes i hi hti, happ.node]
    · have heq := happ.other j hj hji
      rw [hnodes j hj (by rw [heq]; exact htj), heq]
      exact happ.nodes j hj htj hji
  · right
    rw [hloop]
    exact ⟨rfl, hover⟩

end Xv6.Mkfs
