import Xv6.Kernel.Fs.Store
import Xv6.Lib.Ledger

/-! # Reading the disk format back

Bits of the bitmap, inodes of the inode blocks and the block addresses of a file:
what each store of the code changes when it is read back, and what it leaves.
-/

namespace Xv6.Fs

open Lib

/-! ## Bitmap -/

theorem bitMask_eq (bi bj : Nat) :
    (bitMask bi).toBitVec.getLsbD (bj % 8) = decide (bi % 8 = bj % 8) := by
  have h : ∀ a < 8, ∀ b < 8,
      ((1 : UInt8) <<< UInt8.ofNat a).toBitVec.getLsbD b = decide (a = b) := by decide
  exact h _ (Nat.mod_lt _ (by decide)) _ (Nat.mod_lt _ (by decide))

theorem bitAt_eq (d : Block) (bi : Nat) :
    bitAt d bi = (d (bi / 8)).toBitVec.getLsbD (bi % 8) := by
  have hzero : ∀ x : UInt8, (x != 0) = true ↔ ∃ k < 8, x.toBitVec.getLsbD k = true := by
    intro x
    rw [bne_iff_ne, ne_eq, ← UInt8.toBitVec_inj, ← not_iff_not]
    push Not
    constructor
    · intro h k hk
      rw [h]
      simp
    · intro h
      apply BitVec.eq_of_getLsbD_eq
      intro k hk
      rw [Bool.eq_false_iff.mpr (h k hk)]
      simp
  rw [Bool.eq_iff_iff, bitAt, hzero]
  simp only [UInt8.toBitVec_and, BitVec.getLsbD_and, Bool.and_eq_true]
  constructor
  · rintro ⟨k, hk, hd, hm⟩
    have := bitMask_eq bi k
    rw [Nat.mod_eq_of_lt hk, hm] at this
    rwa [of_decide_eq_true this.symm]
  · intro h
    exact ⟨bi % 8, Nat.mod_lt _ (by decide), h, by rw [bitMask_eq]; simp⟩

theorem bitAt_setBit (d : Block) (bi bj : Nat) :
    bitAt (setBit d bi) bj = (bitAt d bj || decide (bi = bj)) := by
  simp only [bitAt_eq, setBit, upd]
  split
  · rename_i hbyte
    rw [UInt8.toBitVec_or, BitVec.getLsbD_or, bitMask_eq, hbyte]
    congr 2
    exact propext ⟨fun h => by omega, fun h => by rw [h]⟩
  · rename_i hbyte
    have hne : bi ≠ bj := fun h => hbyte (by rw [h])
    simp [hne]

theorem bitAt_clearBit (d : Block) (bi bj : Nat) :
    bitAt (clearBit d bi) bj = (bitAt d bj && decide (bi ≠ bj)) := by
  simp only [bitAt_eq, clearBit, upd]
  split
  · rename_i hbyte
    have hlt : bj % 8 < 8 := Nat.mod_lt _ (by decide)
    rw [UInt8.toBitVec_and, UInt8.toBitVec_not, BitVec.getLsbD_and, BitVec.getLsbD_not,
      bitMask_eq, hbyte]
    simp only [hlt, decide_true, Bool.true_and, ne_eq, decide_not]
    congr 3
    exact propext ⟨fun h => by omega, fun h => by rw [h]⟩
  · rename_i hbyte
    have hne : bi ≠ bj := fun h => hbyte (by rw [h])
    simp [hne]

theorem bitAt_zero (bi : Nat) : bitAt (fun _ => 0) bi = false := by
  simp [bitAt]

/-! ## Inodes -/

namespace Dinode

theorem addr_of_lt (x : Dinode) {k : Nat} (hk : k < nDirect + 1) : x.addr k = x.addrs ⟨k, hk⟩ :=
  dif_pos hk

@[simp] theorem addr_setAddr_same (x : Dinode) {k : Nat} (a : Nat) (hk : k < nDirect + 1) :
    (x.setAddr k a).addr k = a := by
  simp [addr, setAddr, hk]

theorem addr_setAddr_other (x : Dinode) {j k : Nat} (a : Nat) (hjk : j ≠ k) :
    (x.setAddr k a).addr j = x.addr j := by
  unfold addr setAddr
  by_cases hk : k < nDirect + 1
  · rw [dif_pos hk]
    split
    · exact upd_other (by simpa using hjk)
    · rfl
  · rw [dif_neg hk]

@[simp] theorem setAddr_type (x : Dinode) (k a : Nat) : (x.setAddr k a).type = x.type := by
  unfold setAddr
  split <;> rfl

@[simp] theorem setAddr_major (x : Dinode) (k a : Nat) : (x.setAddr k a).major = x.major := by
  unfold setAddr
  split <;> rfl

@[simp] theorem setAddr_minor (x : Dinode) (k a : Nat) : (x.setAddr k a).minor = x.minor := by
  unfold setAddr
  split <;> rfl

@[simp] theorem setAddr_nlink (x : Dinode) (k a : Nat) : (x.setAddr k a).nlink = x.nlink := by
  unfold setAddr
  split <;> rfl

@[simp] theorem setAddr_size (x : Dinode) (k a : Nat) : (x.setAddr k a).size = x.size := by
  unfold setAddr
  split <;> rfl

theorem setAddr_self (x : Dinode) (k : Nat) : x.setAddr k (x.addr k) = x := by
  unfold setAddr addr
  split
  · rw [upd_self]
  · rfl

def Fits (x : Dinode) : Prop := x.size < 2 ^ 32 ∧ ∀ k, x.addr k < 2 ^ 32

theorem read_fits (d : Block) (o : Nat) : (read d o).Fits := by
  refine ⟨getLE_lt d (o + 8) 4, fun k => ?_⟩
  unfold addr
  split
  · exact getLE_lt d _ 4
  · decide

theorem Fits.setAddr {x : Dinode} (h : x.Fits) {k a : Nat} (ha : a < 2 ^ 32) :
    (x.setAddr k a).Fits := by
  refine ⟨by rw [setAddr_size]; exact h.1, fun j => ?_⟩
  by_cases hjk : j = k
  · subst hjk
    by_cases hj : j < nDirect + 1
    · rwa [addr_setAddr_same x a hj]
    · unfold addr
      rw [dif_neg hj]
      decide
  · rw [addr_setAddr_other x a hjk]
    exact h.2 j

theorem putAddrs_outside {x : Dinode} {d : Block} {o k i : Nat}
    (h : i < o + 12 ∨ o + 12 + 4 * k ≤ i) : putAddrs x d o k i = d i := by
  induction k with
  | zero => rfl
  | succ k ih => rw [putAddrs, putLE_outside (by omega), ih (by omega)]

theorem getLE_putAddrs {x : Dinode} {d : Block} {o k j : Nat} (hj : j < k)
    (hx : x.addr j < 2 ^ 32) : getLE (putAddrs x d o k) (o + 12 + 4 * j) 4 = x.addr j := by
  induction k with
  | zero => omega
  | succ k ih =>
      rw [putAddrs]
      by_cases hjk : j = k
      · subst hjk
        exact getLE_putLE_of_lt (by simpa using hx)
      · rw [getLE_putLE_of_disjoint (by omega)]
        exact ih (by omega)

theorem write_outside {x : Dinode} {d : Block} {o i : Nat} (h : i < o ∨ o + dinodeSize ≤ i) :
    x.write d o i = d i := by
  unfold dinodeSize at h
  have hd : nDirect = 12 := rfl
  simp only [write]
  rw [putAddrs_outside (by omega), putLE_outside (by omega), putLE_outside (by omega),
    putLE_outside (by omega), putLE_outside (by omega), putLE_outside (by omega)]

theorem read_congr {d d' : Block} {o : Nat}
    (h : ∀ i, o ≤ i → i < o + dinodeSize → d i = d' i) : read d o = read d' o := by
  unfold dinodeSize at h
  have hw : ∀ a k, o ≤ a → a + k ≤ o + 64 → getLE d a k = getLE d' a k := fun a k ha hk =>
    getLE_congr fun i hi hlt => h i (by omega) (by omega)
  have haddr : ∀ k : Fin (nDirect + 1), getLE d (o + 12 + 4 * k) 4 = getLE d' (o + 12 + 4 * k) 4 :=
    fun k => hw _ _ (by omega) (by have := k.isLt; unfold nDirect at this; omega)
  simp only [read, hw o 2 (by omega) (by omega), hw (o + 2) 2 (by omega) (by omega),
    hw (o + 4) 2 (by omega) (by omega), hw (o + 6) 2 (by omega) (by omega),
    hw (o + 8) 4 (by omega) (by omega), haddr]

theorem read_write_other {x : Dinode} {d : Block} {o o' : Nat}
    (h : o' + dinodeSize ≤ o ∨ o + dinodeSize ≤ o') : read (x.write d o) o' = read d o' :=
  read_congr fun _ _ _ => write_outside (by omega)

theorem getLE_write_head {x : Dinode} {d : Block} {o a k : Nat} (h : a + k ≤ o + 12) :
    getLE (x.write d o) a k =
      getLE (putLE (putLE (putLE (putLE (putLE d o 2 x.type.toNat) (o + 2) 2 x.major.toNat)
        (o + 4) 2 x.minor.toNat) (o + 6) 2 x.nlink.toNat) (o + 8) 4 x.size) a k :=
  getLE_congr fun _ _ _ => putAddrs_outside (by omega)

theorem ofNat_getLE_putLE (v : BitVec 16) (d : Block) (a : Nat) :
    BitVec.ofNat 16 (getLE (putLE d a 2 v.toNat) a 2) = v := by
  rw [getLE_putLE_of_lt (by have := v.isLt; omega), BitVec.ofNat_toNat, BitVec.setWidth_eq]

theorem read_write_same {x : Dinode} (d : Block) (o : Nat) (hx : x.Fits) :
    read (x.write d o) o = x := by
  have haddr : ∀ k : Fin (nDirect + 1),
      getLE (x.write d o) (o + 12 + 4 * k) 4 = x.addrs k := fun k => by
    rw [write, getLE_putAddrs k.isLt (hx.2 k), addr_of_lt x k.isLt]
  have htype : BitVec.ofNat 16 (getLE (x.write d o) o 2) = x.type := by
    rw [getLE_write_head (by omega), getLE_putLE_of_disjoint (by omega),
      getLE_putLE_of_disjoint (by omega), getLE_putLE_of_disjoint (by omega),
      getLE_putLE_of_disjoint (by omega), ofNat_getLE_putLE]
  have hmajor : BitVec.ofNat 16 (getLE (x.write d o) (o + 2) 2) = x.major := by
    rw [getLE_write_head (by omega), getLE_putLE_of_disjoint (by omega),
      getLE_putLE_of_disjoint (by omega), getLE_putLE_of_disjoint (by omega), ofNat_getLE_putLE]
  have hminor : BitVec.ofNat 16 (getLE (x.write d o) (o + 4) 2) = x.minor := by
    rw [getLE_write_head (by omega), getLE_putLE_of_disjoint (by omega),
      getLE_putLE_of_disjoint (by omega), ofNat_getLE_putLE]
  have hnlink : BitVec.ofNat 16 (getLE (x.write d o) (o + 6) 2) = x.nlink := by
    rw [getLE_write_head (by omega), getLE_putLE_of_disjoint (by omega), ofNat_getLE_putLE]
  have hsize : getLE (x.write d o) (o + 8) 4 = x.size := by
    rw [getLE_write_head (by omega)]
    exact getLE_putLE_of_lt (by have := hx.1; omega)
  simp only [read, htype, hmajor, hminor, hnlink, hsize, haddr]

end Dinode

theorem zero_fits (type nlink : BitVec 16) :
    ({ Dinode.zero with type := type, nlink := nlink } : Dinode).Fits := by
  refine ⟨Nat.two_pow_pos 32, fun k => ?_⟩
  unfold Dinode.addr
  split <;> exact Nat.two_pow_pos 32

/-- Two inodes in one block do not overlap. -/
theorem ioff_disjoint {sb : Superblock} {i j : Nat} (hb : iblock sb i = iblock sb j) (hij : i ≠ j) :
    ioff j + dinodeSize ≤ ioff i ∨ ioff i + dinodeSize ≤ ioff j := by
  unfold iblock at hb
  unfold ioff dinodeSize
  have hdiv : i / ipb = j / ipb := by omega
  have hi := Nat.div_add_mod i ipb
  have hj := Nat.div_add_mod j ipb
  rw [hdiv] at hi
  omega

def diskInode (sb : Superblock) (blocks : Nat → Block) (i : Nat) : Dinode :=
  Dinode.read (blocks (iblock sb i)) (ioff i)

theorem diskInode_write_same {sb : Superblock} {blocks : Nat → Block} {i : Nat} {x : Dinode}
    (hx : x.Fits) :
    diskInode sb (upd blocks (iblock sb i) (x.write (blocks (iblock sb i)) (ioff i))) i = x := by
  rw [diskInode, upd_same, Dinode.read_write_same _ _ hx]

theorem diskInode_write_other {sb : Superblock} {blocks : Nat → Block} {i j : Nat} {x : Dinode}
    (hij : j ≠ i) :
    diskInode sb (upd blocks (iblock sb i) (x.write (blocks (iblock sb i)) (ioff i))) j =
      diskInode sb blocks j := by
  unfold diskInode
  by_cases hb : iblock sb j = iblock sb i
  · rw [hb, upd_same, Dinode.read_write_other]
    exact (ioff_disjoint hb hij).symm
  · rw [upd_other hb]

theorem diskInode_congr {sb : Superblock} {blocks blocks' : Nat → Block} {i : Nat}
    (h : blocks' (iblock sb i) = blocks (iblock sb i)) :
    diskInode sb blocks' i = diskInode sb blocks i := by
  rw [diskInode, h, diskInode]

/-! ## Files -/

/-- The places in which an inode can hold a block address: `addrs`, then the entries of the
indirect block. -/
def nSlots : Nat := nDirect + 1 + nIndirect

/-- The address in place `k`, 0 if there is none. -/
def slotAddr (blocks : Nat → Block) (x : Dinode) (k : Nat) : Nat :=
  if k ≤ nDirect then x.addr k
  else if x.addr nDirect = 0 then 0
  else getLE (blocks (x.addr nDirect)) (4 * (k - (nDirect + 1))) 4

/-- The place of the address of the file's block `bn`. -/
def dataSlot (bn : Nat) : Nat := if bn < nDirect then bn else bn + 1

def byteAt (blocks : Nat → Block) (x : Dinode) (off : Nat) : UInt8 :=
  let a := slotAddr blocks x (dataSlot (off / bsize))
  if off / bsize < maxFile ∧ a ≠ 0 then blocks a (off % bsize) else 0

/-- An inode with its contents: what the layers above see of it. -/
@[ext] structure Node where
  type : BitVec 16
  major : BitVec 16
  minor : BitVec 16
  nlink : BitVec 16
  size : Nat
  byte : Nat → UInt8

def nodeOf (blocks : Nat → Block) (x : Dinode) : Node :=
  ⟨x.type, x.major, x.minor, x.nlink, x.size, byteAt blocks x⟩

theorem dataSlot_lt {bn : Nat} (h : bn < maxFile) : dataSlot bn < nSlots := by
  unfold dataSlot nSlots
  unfold maxFile at h
  split <;> omega

theorem dataSlot_ne (bn : Nat) : dataSlot bn ≠ nDirect := by
  unfold dataSlot
  split <;> omega

theorem dataSlot_inj {bn bn' : Nat} (h : dataSlot bn = dataSlot bn') : bn = bn' := by
  unfold dataSlot at h
  split at h <;> split at h <;> omega

theorem slotAddr_direct (blocks : Nat → Block) (x : Dinode) {k : Nat} (hk : k ≤ nDirect) :
    slotAddr blocks x k = x.addr k :=
  if_pos hk

theorem slotAddr_congr {blocks blocks' : Nat → Block} {x x' : Dinode}
    (ha : ∀ k ≤ nDirect, x'.addr k = x.addr k)
    (hb : x.addr nDirect ≠ 0 → blocks' (x.addr nDirect) = blocks (x.addr nDirect)) (k : Nat) :
    slotAddr blocks' x' k = slotAddr blocks x k := by
  unfold slotAddr
  split
  · exact ha k ‹_›
  · rw [ha nDirect (Nat.le_refl _)]
    split
    · rfl
    · rw [hb ‹_›]

/-- The contents only depend on the blocks that the file refers to. -/
theorem byteAt_congr {blocks blocks' : Nat → Block} {x x' : Dinode}
    (ha : ∀ k ≤ nDirect, x'.addr k = x.addr k)
    (hb : ∀ k < nSlots, slotAddr blocks x k ≠ 0 →
      blocks' (slotAddr blocks x k) = blocks (slotAddr blocks x k)) (off : Nat) :
    byteAt blocks' x' off = byteAt blocks x off := by
  have hind : x.addr nDirect ≠ 0 → blocks' (x.addr nDirect) = blocks (x.addr nDirect) := by
    intro h
    have := hb nDirect (by decide)
    rw [slotAddr_direct _ _ (Nat.le_refl _)] at this
    exact this h
  unfold byteAt
  simp only [slotAddr_congr ha hind]
  split
  · rename_i h
    rw [hb _ (dataSlot_lt h.1) h.2]
  · rfl

end Xv6.Fs
