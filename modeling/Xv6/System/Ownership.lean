import Xv6.System.Sessions

/-! # Who owns the blocks of a disk

On a disk without holes the free map says which blocks are in use: it marks the metadata and
every block that an inode refers to, each of which has one place that refers to it. Every
session of system calls keeps it so, and what it changes it logs.
-/

namespace Xv6.System

open Lib Fs Mkfs

/-- Place `k` of the allocated inode `i` on the disk holds the address of block `b`: a direct
block, the indirect block or a block that is listed there. -/
def Refers (sb : Superblock) (blocks : Nat → Block) (i k b : Nat) : Prop :=
  i < sb.ninodes ∧ k < nSlots ∧ (diskInode sb blocks i).type ≠ 0 ∧ b ≠ 0 ∧
    slotAddr blocks (diskInode sb blocks i) k = b

/-- The blocks in use are those the free map marks, and each data block has one owner. -/
structure Owned (sb : Superblock) (blocks : Nat → Block) : Prop where
  marked : ∀ b < sb.size, bitOf sb blocks b = true ↔ b < sb.nmeta ∨ ∃ i k, Refers sb blocks i k b
  single : ∀ i k j l b, Refers sb blocks i k b → Refers sb blocks j l b → i = j ∧ k = l
  within : ∀ i k b, Refers sb blocks i k b → sb.nmeta ≤ b ∧ b < sb.size

section

variable {sb : Superblock} {blocks : Nat → Block} {s t : Store} {nt : Prop} {L U : List Nat}

/-- Without holes the newest copies of the inodes are those on the disk. -/
theorem inodeOf_eq_diskInode (h : Inv true nt L U s) {i : Nat} (hi : i < s.mem.sb.ninodes) :
    s.inodeOf i = diskInode s.mem.sb s.blocks i := by
  rcases Store.inodeOf_cases h.uniq hi with ⟨ip, hh, heq⟩ | ⟨-, heq⟩
  · rw [heq]
    exact (h.coh ip i hh).eq.symm
  · exact heq

theorem owned_of_inv (h : Inv true nt L U s) : Owned s.mem.sb s.blocks := by
  obtain ⟨P, hP, hdisk⟩ := h.disk
  have hledger := hdisk.core.ledger
  have hplace : ∀ i k b, Refers s.mem.sb s.blocks i k b ↔
      placeOf s.mem.sb s.blocks s.inodeOf (i, k) = some b := by
    intro i k b
    rw [placeOf_eq_some]
    by_cases hi : i < s.mem.sb.ninodes
    · rw [inodeOf_eq_diskInode h hi]
      exact Iff.rfl
    · exact ⟨fun hr => absurd hr.1 hi, fun hr => absurd hr.1 hi⟩
  refine ⟨fun b hb => ⟨fun hbit => ?_, fun hr => ?_⟩, fun i k j l b hi hj => ?_, fun i k b hr => ?_⟩
  · by_cases hlow : b < s.mem.sb.nmeta
    · exact .inl hlow
    · rcases hledger.cover b ⟨Nat.le_of_not_lt hlow, hb, hbit⟩ with hloose | ⟨⟨i, k⟩, hx⟩
      · exact absurd hloose (hP rfl b)
      · exact .inr ⟨i, k, (hplace i k b).mpr hx⟩
  · rcases hr with hlow | ⟨i, k, hr⟩
    · exact hdisk.core.low b hlow
    · exact (hledger.used_of_ref _ _ ((hplace i k b).mp hr)).1.2.2
  · exact Prod.mk.inj (hledger.inj _ _ _ ((hplace i k b).mp hi) ((hplace j l b).mp hj))
  · have hused := (hledger.used_of_ref _ _ ((hplace i k b).mp hr)).1
    exact ⟨hused.1, hused.2.1⟩

/-- What `balloc` returns in a transaction is 0 or a block that nothing refers to. -/
theorem balloc_unowned (h : Inv true nt L U s) :
    wp (fun _ => True) balloc (fun b _ => b = 0 ∨ s.mem.sb.nmeta ≤ b ∧ b < s.mem.sb.size ∧
        ∀ i k, ¬ Refers s.mem.sb s.blocks i k b) (fun _ _ => False)
      { s with outstanding := 1 } := by
  have howned := owned_of_inv h
  obtain ⟨P, -, hdisk⟩ := h.disk
  have hready : Store.Ready { s with outstanding := 1 } := by
    refine ⟨hdisk.core.sbOk, fun b hb => ?_, fun b hb => ?_⟩
    · have hnone : b ∈ s.touched := hb
      rw [h.touched] at hnone
      cases hnone
    · have hnone : b ∈ s.held := hb
      rw [h.held] at hnone
      cases hnone
  refine balloc_spec hready (.inl (Int.le_refl 1)) hdisk.core.low (fun _ => .inl rfl)
    fun a hlow hlt hfree => .inr ⟨hlow, hlt, fun i k hr => ?_⟩
  have hmarked := (howned.marked a hlt).mpr (.inr ⟨i, k, hr⟩)
  rw [hfree] at hmarked
  cases hmarked

end

/-- Blocks have owners: in every state of a session on a well-formed disk without holes the
free map marks the blocks in use, each of which has one owner, `balloc` hands out blocks that
nothing refers to, and no block that is free is freed. -/
theorem blocks_owned {sb : Superblock} {blocks : Nat → Block} (hwf : WellFormed true sb blocks) :
    (∀ t, Reaches (fun _ e => e.2.Typed) (firstStore sb blocks) t → Owned sb t.blocks ∧
      wp (fun _ => True) balloc (fun b _ => b = 0 ∨ sb.nmeta ≤ b ∧ b < sb.size ∧
        ∀ i k, ¬ Refers sb t.blocks i k b) (fun _ _ => False) { t with outstanding := 1 }) ∧
      ¬ Panics (fun _ e => e.2.Typed) (firstStore sb blocks) "freeing free block" := by
  have hs : Kept ⟨true, False, False, False⟩ sb (firstStore sb blocks) := WellFormed.kept hwf id
  constructor
  · intro t ht
    obtain ⟨⟨v, hin⟩, hsb⟩ := (typed_suits _ _).reaches hs ht
    have hinv : Inv true False v.held v.pending t := hin.inv
    rw [← hsb]
    exact ⟨owned_of_inv hinv, balloc_unowned hinv⟩
  · intro hp
    exact (typed_suits _ _).panics hs hp List.mem_cons_self

def cameAndWent : List (Nat × Syscall) :=
  [(0, .mkdir (some [100])), (0, .unlink (some [100]))]

theorem blocks_owned_cameAndWent : ∃ blocks t, WellFormed true sb blocks ∧
    Reaches (fun _ e => e.2.Typed) (firstStore sb blocks) t ∧ (t.node 2).type = 0 ∧
    Owned sb t.blocks := by
  have hrun : ((session (fun _ e => e.2.Typed) [] cameAndWent).map fun t => (t.node 2).type) =
      some 0 := by decide +kernel
  obtain ⟨t, ht, htype⟩ := Option.map_eq_some_iff.mp hrun
  obtain ⟨s, hboot, hreach⟩ := session_reaches (fun _ _ h => of_decide_eq_true h) ht
  obtain ⟨img, g, hmade, rfl⟩ := hboot.made (by decide)
  have hwf : WellFormed true sb img.blocks := hmade.wellFormed (by decide) fun _ => by decide
  exact ⟨img.blocks, t, hwf, hreach, htype, ((blocks_owned hwf).1 t hreach).1⟩

/-! ## Changes are logged -/

/-- In a session in which no copy of a write stops inside a block, no buffer is released with a
change that is not logged, no block of the log is read through the cache, and no transaction is
committed while a buffer is held. -/
theorem changes_are_logged {st : Bool} {sb : Superblock} {blocks : Nat → Block} {t : Store}
    (hwf : WellFormed st sb blocks) (h : Reaches (fun s e => e.2.Typed ∧ e.2.Whole s e.1)
      (firstStore sb blocks) t) : t.broken = false := by
  have hs : Kept ⟨st, False, False, True⟩ sb (firstStore sb blocks) := WellFormed.kept hwf id
  have hok : Suits ⟨st, False, False, True⟩ fun s e => e.2.Typed ∧ e.2.Whole s e.1 :=
    ⟨fun _ _ he => he.1, fun _ _ _ he => he.2, id⟩
  obtain ⟨⟨v, hin⟩, -⟩ := hok.reaches hs h
  exact hin.clean trivial

theorem wholeChunks_of_mapped {um : UserMem} (h : ∀ a, um.mapped a = true) (addr off n : Nat) :
    WholeChunks um addr off n := by
  intro k _ s i tot _ _ m hm
  refine .inl (Src.Mapped.whole (n := tot + m) ?_ tot m (Nat.le_refl _))
  exact fun _ _ => h _

theorem changes_are_logged_write : ∃ blocks t, WellFormed true sb blocks ∧ (t.node 2).size = 5 ∧
    Reaches (fun s e => e.2.Typed ∧ e.2.Whole s e.1) (firstStore sb blocks) t ∧
    t.broken = false := by
  have hrun : ((boot []).bind fun s => (Prog.serve Store.handle request s makeFile).bind fun t =>
      (Prog.serve Store.handle request t writeFive).map fun u => (u.node 2).size) = some 5 := by
    decide +kernel
  obtain ⟨s, hboot, hrest⟩ := Option.bind_eq_some_iff.mp hrun
  obtain ⟨t, hmake, hrest⟩ := Option.bind_eq_some_iff.mp hrest
  obtain ⟨u, hwrite, hsize⟩ := Option.map_eq_some_iff.mp hrest
  obtain ⟨img, g, hmade, rfl⟩ := (booted_of_boot hboot).made (by decide)
  have hwf : WellFormed true sb img.blocks := hmade.wellFormed (by decide) fun _ => by decide
  have hwhole : writeFive.2.Whole t 0 := fun _ _ => wholeChunks_of_mapped (fun _ => rfl) _ _ _
  have hreach : Reaches (fun s e => e.2.Typed ∧ e.2.Whole s e.1) (firstStore sb img.blocks) u :=
    .left ((Run.nil.snoc (e := makeFile) ⟨trivial, trivial⟩ hmake).snoc (e := writeFive)
      ⟨trivial, hwhole⟩ hwrite)
  exact ⟨img.blocks, u, hwf, hsize, hreach, changes_are_logged hwf hreach⟩

-- a copy that stops inside a block leaves there what it copied, and the block is not logged
example : (session (fun _ e => e.2.Typed) [] [makeFile, writeFive,
    (0, .write 0 ⟨fun a => a = 0, fun _ => 98⟩ 4093 5 fun _ => 0)]).map Store.broken =
      some true := by
  decide +kernel

end Xv6.System
