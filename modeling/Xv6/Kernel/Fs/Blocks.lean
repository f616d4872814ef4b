import Xv6.Kernel.Fs.Layout

/-! # Allocating and freeing blocks

The code changes the store through one pattern: read a block, store into it, log
it, release it. What is left is the new contents and a longer transaction. The
specifications of `balloc` and `bfree` are stated in these terms; inside a
transaction they never stop.
-/

namespace Xv6.Fs

open Lib

/-! ## The layout -/

/-- The number of blocks before the first data block. -/
def Superblock.nmeta (sb : Superblock) : Nat := sb.size - sb.nblocks

/-- The order of the parts of the disk, as `fs.h` draws it. -/
structure Superblock.Ok (sb : Superblock) : Prop where
  log : 2 ≤ sb.logstart
  logEnd : sb.logstart + sb.nlog ≤ sb.inodestart
  inodes : ∀ i < sb.ninodes, iblock sb i < sb.bmapstart
  bitmap : ∀ b < sb.size, bblock sb b < sb.nmeta
  small : sb.size < 2 ^ 31
  root : rootIno < sb.ninodes

section

variable {sb : Superblock}

theorem Superblock.Ok.bitmap_meta (h : sb.Ok) (hs : 0 < sb.size) : sb.bmapstart < sb.nmeta := by
  simpa [bblock] using h.bitmap 0 hs

theorem Superblock.Ok.iblock_not_log (h : sb.Ok) (i : Nat) : sb.inLog (iblock sb i) = false := by
  have hlog := h.logEnd
  unfold Superblock.inLog iblock
  generalize i / ipb = q
  rw [decide_eq_false_iff_not]
  omega

theorem Superblock.Ok.bmap_not_log (h : sb.Ok) {b : Nat} (hb : sb.bmapstart ≤ b) :
    sb.inLog b = false := by
  have hi := h.inodes rootIno h.root
  have hlog := h.logEnd
  unfold iblock at hi
  generalize rootIno / ipb = q at hi
  unfold Superblock.inLog
  rw [decide_eq_false_iff_not]
  omega

theorem bmapstart_le_bblock (sb : Superblock) (b : Nat) : sb.bmapstart ≤ bblock sb b := by
  simp [bblock]

theorem Superblock.Ok.iblock_ne_bblock (h : sb.Ok) {i : Nat} (hi : i < sb.ninodes) (b : Nat) :
    iblock sb i ≠ bblock sb b := by
  have := h.inodes i hi
  have := bmapstart_le_bblock sb b
  omega

end

/-! ## One block at a time -/

/-- Only held blocks have stores that are not released. -/
def Store.Tidy (s : Store) : Prop := ∀ b ∈ s.touched, b ∈ s.held

/-- The calls that log are made inside a transaction, or may stop where they log. -/
def Store.Trans (s : Store) (E : Stop → Store → Prop) : Prop :=
  1 ≤ s.outstanding ∨ ∀ t, E (.panic "log_write outside of trans") t

/-- The store after block `b` got the contents `f` makes of it, logged and released. -/
def Store.put (s : Store) (b : Nat) (f : Block → Block) : Store :=
  { s with blocks := upd s.blocks b (f (s.blocks b)), logged := b :: s.logged }

section

variable {I : Store → Prop} {E : Stop → Store → Prop} {s : Store} {b : Nat}

theorem Store.Tidy.lock (h : s.Tidy) : (s.lock b).Tidy :=
  fun c hc => List.mem_cons_of_mem b (h c hc)

theorem Store.Tidy.filter_touched (h : s.Tidy) (hb : b ∉ s.held) :
    s.touched.filter (fun c => !decide (c = b)) = s.touched := by
  rw [List.filter_eq_self]
  intro c hc
  have hne : c ≠ b := fun heq => hb (heq ▸ h c hc)
  simp [hne]

/-- A block that was only read is released without a trace. -/
theorem Store.lock_release (h : s.Tidy) (hb : b ∉ s.held) (hl : s.mem.sb.inLog b = false) :
    (s.lock b).release b = s := by
  have ht : b ∉ s.touched := fun hc => hb (h b hc)
  simp [Store.lock, Store.release, h.filter_touched hb, hl, ht]

/-- A block that was written and logged is released as `put` says. -/
theorem Store.write_release (h : s.Tidy) (hb : b ∉ s.held) (hl : s.mem.sb.inLog b = false)
    (f : Block → Block) : (((s.lock b).write b f).record b).release b = s.put b f := by
  simp [Store.lock, Store.write, Store.record, Store.release, Store.put, h.filter_touched hb, hl]

theorem wp_peek {Q : Unit → Store → Prop} (hb : b ∉ s.held) (hQ : Q () (s.lock b)) :
    wp I (bread b) Q E s := by
  rw [wp_bread, if_neg hb]
  exact hQ

theorem wp_done {Q : Unit → Store → Prop} (h : s.Tidy) (hb : b ∉ s.held)
    (hl : s.mem.sb.inLog b = false) (hQ : Q () s) : wp I (brelse b) Q E (s.lock b) := by
  rw [wp_brelse, if_pos (by simp [Store.lock]), Store.lock_release h hb hl]
  exact hQ

theorem wp_put {f : Block → Block} {Q : Unit → Store → Prop} (h : s.Tidy) (hb : b ∉ s.held)
    (hl : s.mem.sb.inLog b = false) (ho : s.Trans E) (hQ : Q () (s.put b f)) :
    wp I (store b f) (fun _ t => wp I (logWrite b) (fun _ t => wp I (brelse b) Q E t) E t) E
      (s.lock b) := by
  rw [wp_store, if_pos (by simp [Store.lock]), wp_logWrite,
    if_pos (by simp [Store.lock, Store.write])]
  split
  · rename_i hlt
    have hlt : s.outstanding < 1 := hlt
    exact ho.elim (fun hge => absurd hge (by omega)) fun hE => hE _
  · rw [wp_brelse, if_pos (by simp [Store.lock, Store.write, Store.record]),
      Store.write_release h hb hl]
    exact hQ

theorem bzero_spec {Q : Unit → Store → Prop} (h : s.Tidy) (hb : b ∉ s.held)
    (hl : s.mem.sb.inLog b = false) (ho : s.Trans E)
    (hQ : Q () (s.put b fun _ _ => 0)) : wp I (bzero b) Q E s := by
  simp only [bzero, wp_bind]
  exact wp_peek hb (wp_put h hb hl ho hQ)

end

/-! ## The allocator -/

def bitOf (sb : Superblock) (blocks : Nat → Block) (b : Nat) : Bool :=
  bitAt (blocks (bblock sb b)) (b % bpb)

def allocBlock (sb : Superblock) (blocks : Nat → Block) (a : Nat) : Nat → Block :=
  upd (upd blocks (bblock sb a) (setBit (blocks (bblock sb a)) (a % bpb))) a fun _ => 0

def freeBlock (sb : Superblock) (blocks : Nat → Block) (a : Nat) : Nat → Block :=
  upd blocks (bblock sb a) (clearBit (blocks (bblock sb a)) (a % bpb))

theorem bblock_add (sb : Superblock) {b bi : Nat} (hb : b % bpb = 0) (hbi : bi < bpb) :
    bblock sb (b + bi) = bblock sb b ∧ (b + bi) % bpb = bi := by
  have hd := Nat.div_add_mod b bpb
  rw [hb, Nat.add_zero] at hd
  unfold bblock
  rw [← hd, Nat.mul_add_div (by decide), Nat.mul_add_mod, Nat.div_eq_of_lt hbi,
    Nat.mod_eq_of_lt hbi, Nat.mul_div_cancel_left _ (by decide)]
  simp

/-- The preconditions the allocator shares: the held blocks are data blocks in use. -/
structure Store.Ready (s : Store) : Prop where
  sb : s.mem.sb.Ok
  tidy : s.Tidy
  held : ∀ b ∈ s.held, s.mem.sb.nmeta ≤ b ∧ bitOf s.mem.sb s.blocks b = true

section

variable {I : Store → Prop} {E : Stop → Store → Prop} {s : Store}

theorem Store.Ready.bblock_free (h : s.Ready) {b : Nat} (hb : b < s.mem.sb.size) :
    bblock s.mem.sb b ∉ s.held := by
  intro hm
  have hlt := h.sb.bitmap b hb
  have hle := (h.held _ hm).1
  omega

theorem Store.Ready.bblock_not_log (h : s.Ready) (b : Nat) :
    s.mem.sb.inLog (bblock s.mem.sb b) = false :=
  h.sb.bmap_not_log (bmapstart_le_bblock _ b)

theorem ballocFrom_find {d : Block} {n : Nat} :
    (∃ bi < n, (List.range n).find? (fun bi => !bitAt d bi) = some bi ∧ bitAt d bi = false) ∨
      (List.range n).find? (fun bi => !bitAt d bi) = none ∧ ∀ bi < n, bitAt d bi = true := by
  cases hf : (List.range n).find? (fun bi => !bitAt d bi) with
  | some bi =>
      have hlt := List.mem_range.mp (List.mem_of_find?_eq_some hf)
      have hbit := List.find?_some hf
      exact .inl ⟨bi, hlt, rfl, by simpa using hbit⟩
  | none =>
      refine .inr ⟨rfl, fun bi hbi => ?_⟩
      have hbit := List.find?_eq_none.mp hf bi (List.mem_range.mpr hbi)
      simpa using hbit

section

variable {Q : Nat → Store → Prop} (h : s.Ready) (ho : s.Trans E)
  (hmeta : ∀ b < s.mem.sb.nmeta, bitOf s.mem.sb s.blocks b = true)
  (hfull : (∀ b < s.mem.sb.size, bitOf s.mem.sb s.blocks b = true) → Q 0 s)
  (hgot : ∀ a, s.mem.sb.nmeta ≤ a → a < s.mem.sb.size → bitOf s.mem.sb s.blocks a = false →
    Q a { s with
      blocks := allocBlock s.mem.sb s.blocks a
      logged := a :: bblock s.mem.sb a :: s.logged })

include h ho hmeta hfull hgot

theorem ballocFrom_spec {fuel b : Nat} (hb : b % bpb = 0) (hfuel : s.mem.sb.size ≤ b + fuel * bpb)
    (hbelow : ∀ c < b, c < s.mem.sb.size → bitOf s.mem.sb s.blocks c = true) :
    wp I (ballocFrom s.mem.sb fuel b) Q E s := by
  induction fuel generalizing b with
  | zero =>
      simp only [ballocFrom, wp_pure]
      exact hfull fun c hc => hbelow c (by omega) hc
  | succ fuel ih =>
      rw [ballocFrom]
      refine wp_ite (fun hlt => ?_) fun hge => ?_
      · simp only [wp_bind]
        have hfree := h.bblock_free hlt
        have hlog := h.bblock_not_log b
        refine wp_peek hfree ?_
        rw [wp_load]
        rcases ballocFrom_find (d := (s.lock (bblock s.mem.sb b)).blocks (bblock s.mem.sb b))
          (n := min bpb (s.mem.sb.size - b)) with ⟨bi, hbi, hf, hbit⟩ | ⟨hf, hall⟩
        · obtain ⟨hblk, hmod⟩ := bblock_add s.mem.sb hb (show bi < bpb by omega)
          have hfalse : bitOf s.mem.sb s.blocks (b + bi) = false := by
            rw [bitOf, hblk, hmod]
            exact hbit
          have hge : s.mem.sb.nmeta ≤ b + bi := by
            by_contra hlt'
            rw [hmeta _ (by omega)] at hfalse
            cases hfalse
          have hnot : b + bi ∉ s.held := fun hm => by
            rw [(h.held _ hm).2] at hfalse
            cases hfalse
          have hne : b + bi ≠ bblock s.mem.sb b := by
            have := h.sb.bitmap b hlt
            omega
          rw [hf]
          simp only [wp_bind]
          refine wp_put h.tidy hfree hlog ho ?_
          refine bzero_spec (s := s.put _ _) h.tidy hnot
            (h.sb.bmap_not_log (by have := h.sb.bitmap_meta (by omega); omega)) ho ?_
          rw [wp_pure]
          have hstate : (s.put (bblock s.mem.sb b) fun d => setBit d bi).put (b + bi)
              (fun _ _ => 0) = { s with
                blocks := allocBlock s.mem.sb s.blocks (b + bi)
                logged := (b + bi) :: bblock s.mem.sb (b + bi) :: s.logged } := by
            simp only [Store.put, allocBlock, hblk, hmod]
          rw [hstate]
          exact hgot _ hge (by omega) hfalse
        · rw [hf]
          simp only [wp_bind]
          refine wp_done h.tidy hfree hlog ?_
          refine ih (by rw [Nat.add_mod, hb]; decide) ?_ ?_
          · rw [Nat.succ_mul] at hfuel
            omega
          · intro c hc hsize
            by_cases hcb : c < b
            · exact hbelow c hcb hsize
            · have hbi := hall (c - b) (by omega)
              obtain ⟨hblk, hmod⟩ := bblock_add s.mem.sb hb (show c - b < bpb by omega)
              rw [show b + (c - b) = c by omega] at hblk hmod
              rw [bitOf, hblk, hmod]
              exact hbi
      · rw [wp_pure]
        exact hfull fun c hc => hbelow c (by omega) hc

/-- `balloc` takes a free data block and zeroes it, or finds that there is none. -/
theorem balloc_spec : wp I balloc Q E s := by
  simp only [balloc, wp_bind, wp_superblock]
  refine ballocFrom_spec h ho hmeta hfull hgot (by decide) ?_ (by omega)
  have := Nat.div_add_mod s.mem.sb.size bpb
  have hlt := Nat.mod_lt s.mem.sb.size (show bpb > 0 by decide)
  rw [Nat.succ_mul, Nat.mul_comm]
  omega

end

theorem bfree_spec {Q : Unit → Store → Prop} (h : s.Ready) (ho : s.Trans E) {a : Nat}
    (ha : a < s.mem.sb.size)
    (hbit : bitOf s.mem.sb s.blocks a = true)
    (hQ : Q () { s with
      blocks := freeBlock s.mem.sb s.blocks a, logged := bblock s.mem.sb a :: s.logged }) :
    wp I (bfree a) Q E s := by
  simp only [bfree, wp_bind, wp_superblock]
  refine wp_peek (h.bblock_free ha) ?_
  rw [wp_load]
  have hset : bitAt ((s.lock (bblock s.mem.sb a)).blocks (bblock s.mem.sb a)) (a % bpb) = true :=
    hbit
  rw [if_pos hset]
  simp only [wp_bind]
  exact wp_put h.tidy (h.bblock_free ha) (h.bblock_not_log a) ho hQ

end

end Xv6.Fs
