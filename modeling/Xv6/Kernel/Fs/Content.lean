import Xv6.Kernel.Fs.Inodes

/-! # Reading and writing files

`readi` and `writei` as operations on the bytes of a file. A read of a file whose
blocks are all mapped changes nothing; without that it may allocate a direct
block on the way, and the file still reads the same. A write replaces the bytes
it copied, and stops short only if the copy fails or no block is free.
-/

namespace Xv6.Fs

open Lib

/-! ## User buffers -/

/-- All of the first `n` bytes of the source can be copied, from any point on. -/
def Src.Whole (src : Src) (n : Nat) : Prop := ∀ tot m, tot + m ≤ n → src.copied tot m = m

def Dst.Whole (dst : Dst) (n : Nat) : Prop := ∀ tot m, tot + m ≤ n → dst.copied tot m = m

theorem copySpan_le (mapped : Nat → Bool) (fuel va len : Nat) :
    copySpan mapped fuel va len ≤ len := by
  induction fuel generalizing va len with
  | zero => simp [copySpan]
  | succ fuel ih =>
      rw [copySpan]
      dsimp only
      split
      · omega
      · split
        · have := ih ((va - va % pgSize + pgSize) % 2 ^ 64)
            (len - min (pgSize - (va - (va - va % pgSize))) len)
          omega
        · omega

theorem Src.copied_le (src : Src) (tot m : Nat) : src.copied tot m ≤ m := by
  cases src with
  | kernel => exact Nat.le_refl m
  | user um va => exact copySpan_le _ _ _ _

/-- A range whose pages are all mapped is copied as a whole. -/
theorem copySpan_whole {mapped : Nat → Bool} {va len fuel : Nat} (hfuel : len ≤ fuel)
    (hva : va < 2 ^ 64)
    (h : ∀ j < len, mapped ((va + j) % 2 ^ 64 - (va + j) % 2 ^ 64 % pgSize) = true) :
    copySpan mapped fuel va len = len := by
  induction fuel generalizing va len with
  | zero =>
      have : len = 0 := by omega
      simp [copySpan, this]
  | succ fuel ih =>
      rw [copySpan]
      split
      · omega
      · rename_i hlen
        have hmap := h 0 (by omega)
        rw [Nat.add_zero, Nat.mod_eq_of_lt hva] at hmap
        rw [if_pos hmap]
        dsimp only
        have hmod : va % pgSize < pgSize := Nat.mod_lt _ (by decide)
        have hle := Nat.mod_le va pgSize
        have hsub : va - (va - va % pgSize) = va % pgSize := by omega
        rw [hsub]
        by_cases hall : len ≤ pgSize - va % pgSize
        · rw [Nat.min_eq_right hall, Nat.sub_self]
          cases fuel with
          | zero => simp [copySpan]
          | succ fuel => simp [copySpan]
        · have hnext : va - va % pgSize + pgSize = va + (pgSize - va % pgSize) := by omega
          rw [Nat.min_eq_left (by omega), hnext, ih (by omega) (Nat.mod_lt _ (by decide))]
          · omega
          · intro j hj
            rw [Nat.mod_add_mod, Nat.add_assoc]
            exact h _ (by omega)

/-- Every page that the first `n` bytes from `va` on touch is mapped. -/
def UserMem.Maps (um : UserMem) (va n : Nat) : Prop :=
  ∀ j < n, um.mapped ((va + j) % 2 ^ 64 - (va + j) % 2 ^ 64 % pgSize) = true

theorem UserMem.Maps.span {um : UserMem} {va n tot m : Nat} (h : um.Maps va n)
    (hm : tot + m ≤ n) : copySpan um.mapped m ((va + tot) % 2 ^ 64) m = m := by
  refine copySpan_whole (Nat.le_refl m) (Nat.mod_lt _ (by decide)) fun j hj => ?_
  rw [Nat.mod_add_mod, Nat.add_assoc]
  exact h _ (by omega)

def Src.Mapped : Src → Nat → Prop
  | .kernel _, _ => True
  | .user um va, n => um.Maps va n

def Dst.Mapped : Dst → Nat → Prop
  | .kernel, _ => True
  | .user um va, n => um.Maps va n

theorem Src.Mapped.whole {src : Src} {n : Nat} (h : src.Mapped n) : src.Whole n := by
  intro tot m hm
  cases src with
  | kernel => rfl
  | user um va => exact UserMem.Maps.span h hm

theorem Dst.Mapped.whole {dst : Dst} {n : Nat} (h : dst.Mapped n) : dst.Whole n := by
  intro tot m hm
  cases dst with
  | kernel => rfl
  | user um va => exact UserMem.Maps.span h hm

theorem Dst.Whole.mono {dst : Dst} {n m : Nat} (h : dst.Whole n) (hm : m ≤ n) : dst.Whole m :=
  fun tot k hk => h tot k (by omega)

/-! ## Bytes of a file -/

def Node.slice (n : Node) (off m : Nat) : List UInt8 :=
  (List.range m).map fun j => n.byte (off + j)

def Node.content (n : Node) : List UInt8 := n.slice 0 n.size

@[simp] theorem Node.slice_length (n : Node) (off m : Nat) : (n.slice off m).length = m := by
  simp [slice]

theorem Node.slice_add (n : Node) (off a b : Nat) :
    n.slice off (a + b) = n.slice off a ++ n.slice (off + a) b := by
  simp [slice, List.range_add, Nat.add_assoc]

section

variable {I : Store → Prop} {E : Stop → Store → Prop} {st : Bool} {P : Nat → Prop}
  {s t u : Store} {ip i : Nat}

theorem div_mod_of_near {p q : Nat} (h : q ≤ p) (hlt : p < q + (bsize - q % bsize)) :
    p / bsize = q / bsize ∧ p % bsize = q % bsize + (p - q) := by
  have hdiv := Nat.div_add_mod q bsize
  have hp : p = bsize * (q / bsize) + (q % bsize + (p - q)) := by omega
  have hrem : q % bsize + (p - q) < bsize := by omega
  constructor
  · rw [hp, Nat.mul_add_div (by decide), Nat.div_eq_of_lt hrem, Nat.add_zero]
  · rw [hp, Nat.mul_add_mod, Nat.mod_eq_of_lt hrem, ← hp]

theorem byteAt_block {blocks : Nat → Block} {x : Dinode} {off a j : Nat}
    (hbn : off / bsize < maxFile) (ha : slotAddr blocks x (dataSlot (off / bsize)) = a)
    (hne : a ≠ 0) (hj : j < bsize - off % bsize) :
    byteAt blocks x (off + j) = blocks a (off % bsize + j) := by
  obtain ⟨hdiv, hmod⟩ := div_mod_of_near (Nat.le_add_right off j) (by omega)
  unfold byteAt
  rw [hdiv, hmod, ha, if_pos ⟨hbn, hne⟩, Nat.add_sub_cancel_left]

theorem blockBytes_eq_slice {blocks : Nat → Block} {x : Dinode} {off a m : Nat}
    (hbn : off / bsize < maxFile) (ha : slotAddr blocks x (dataSlot (off / bsize)) = a)
    (hne : a ≠ 0) (hm : m ≤ bsize - off % bsize) :
    blockBytes (blocks a) (off % bsize) m = (nodeOf blocks x).slice off m := by
  unfold blockBytes Node.slice
  refine List.map_congr_left fun j hj => ?_
  exact (byteAt_block hbn ha hne (by have := List.mem_range.mp hj; omega)).symm

/-! ## Reading -/

/-- A read leaves the file as it is; without `st` it may get direct blocks. -/
structure Reads (st : Bool) (P : Nat → Prop) (ip i : Nat) (s t : Store) : Prop where
  grew : Grew P ip i s t
  indirect : (t.inodeOf i).addr nDirect = (s.inodeOf i).addr nDirect
  same : st = true → t = s

theorem Active.reads_refl (h : Active P ip i s) : Reads st P ip i s s :=
  ⟨h.grew_refl, rfl, fun _ => rfl⟩

theorem Reads.trans (h : Reads st P ip i s t) (hs : Active P ip i s)
    (h' : Reads st P ip i t u) : Reads st P ip i s u :=
  ⟨h.grew.trans hs h'.grew, h'.indirect.trans h.indirect,
    fun hst => (h'.same hst).trans (h.same hst)⟩

theorem Grew.inodeOk (h : Grew P ip i s t) (hs : Active P ip i s)
    (hok : InodeOk st s.mem.sb s.blocks (s.inodeOf i)) :
    InodeOk st t.mem.sb t.blocks (t.inodeOf i) := by
  rw [h.sb]
  refine hok.congr (h.node hs) fun k hk hne => ?_
  rw [h.grown.slots i hs.lt hs.type k hk hne]
  exact hne

theorem bmap_read {Q : Nat → Store → Prop} {bn : Nat} (h : Active P ip i s)
    (hok : InodeOk st s.mem.sb s.blocks (s.inodeOf i)) (hbn : bn * bsize < (s.inodeOf i).size)
    (ho : st = true ∨ s.Trans E)
    (hQ : ∀ a t, Reads st P ip i s t → slotAddr t.blocks (t.inodeOf i) (dataSlot bn) = a →
      (a = 0 → st = false ∧ t.Full) → Q a t) : wp I (bmap ip bn) Q E s := by
  have hlt := hok.lt_maxFile hbn
  by_cases hne : slotAddr s.blocks (s.inodeOf i) (dataSlot bn) = 0
  · have hmap := hok.mapped bn hbn
    have hd : bn < nDirect := by
      by_contra hge
      exact hmap (.inl (by omega)) hne
    have hst : st = false := by
      cases st with
      | false => rfl
      | true => exact absurd hne (hmap (.inr rfl))
    have ho' : s.Trans E := ho.resolve_left (by simp [hst])
    refine bmap_direct h hd ho' fun a t hg _ hm hind => ?_
    exact hQ a t ⟨hg, hind, fun h => by simp [hst] at h⟩ hm.1 fun hz => ⟨hst, hm.2 hz⟩
  · exact bmap_mapped h hlt hne (hQ _ s h.reads_refl rfl fun hz => absurd hz hne)

def ReadBytes (st : Bool) (dst : Dst) (n : Node) (off m : Nat) (r : Int × List UInt8)
    (t : Store) : Prop :=
  r = ((m : Int), n.slice off m) ∨ r.1 ≠ m ∧ (dst.Whole m → st = false ∧ t.Full)

theorem readLoop_spec {Q : Int × List UInt8 → Store → Prop} {dst : Dst} {n off fuel tot : Nat}
    (h : Active P ip i s) (hok : InodeOk st s.mem.sb s.blocks (s.inodeOf i))
    (hend : off + n ≤ (s.inodeOf i).size) (ho : st = true ∨ s.Trans E)
    (hQ : ∀ r t, Reads st P ip i s t →
      ReadBytes st dst (nodeOf s.blocks (s.inodeOf i)) off n r t → Q r t)
    (hst : Reads st P ip i s t) (hfuel : n ≤ tot + fuel) (htot : tot ≤ n) :
    wp I (readLoop ip dst n fuel tot (off + tot)
      ((nodeOf s.blocks (s.inodeOf i)).slice off tot)) Q E t := by
  induction fuel generalizing t tot with
  | zero =>
      have heq : tot = n := by omega
      rw [readLoop, wp_pure, heq]
      exact hQ _ t hst (.inl rfl)
  | succ fuel ih =>
      rw [readLoop]
      refine wp_ite (fun hlt => ?_) fun hge => ?_
      · have hsize : (t.inodeOf i).size = (s.inodeOf i).size :=
          congrArg Node.size (hst.grew.node h)
        have hbn : (off + tot) / bsize * bsize < (t.inodeOf i).size := by
          have := Nat.div_mul_le_self (off + tot) bsize
          omega
        have hokt := hst.grew.inodeOk h hok
        simp only [wp_bind]
        refine bmap_read (hst.grew.active h) hokt hbn (ho.imp id hst.grew.trans') ?_
        intro a u hu ha hzero
        have hsu := hst.trans h hu
        have hactive := hsu.grew.active h
        refine wp_ite (fun hz => ?_) fun hne => ?_
        · rw [wp_pure]
          refine hQ _ u hsu (.inr ⟨?_, fun _ => hzero hz⟩)
          show (tot : Int) ≠ n
          omega
        · have hused : usedBlock u.mem.sb u.blocks a := by
            rw [← ha]
            exact hactive.slot_used (dataSlot_lt (hokt.lt_maxFile hbn)) (by rw [ha]; exact hne)
          have hlog := hused.not_log hactive.core.sbOk
          simp only [wp_bind]
          refine wp_peek (hactive.not_held a) ?_
          rw [wp_load]
          refine wp_done hactive.tidy (hactive.not_held a) hlog ?_
          have hmod := Nat.mod_lt (off + tot) (show bsize > 0 by decide)
          generalize hm : min (n - tot) (bsize - (off + tot) % bsize) = m
          have hbytes : blockBytes (u.blocks a) ((off + tot) % bsize) m =
              (nodeOf s.blocks (s.inodeOf i)).slice (off + tot) m := by
            rw [blockBytes_eq_slice (hokt.lt_maxFile hbn) ha hne (by omega), hsu.grew.node h]
          refine wp_ite (fun hc => ?_) fun hc => ?_
          · show wp I (readLoop ip dst n fuel (tot + m) (off + tot + m)
              (_ ++ blockBytes (u.blocks a) ((off + tot) % bsize) m)) Q E u
            rw [hbytes, ← Node.slice_add, Nat.add_assoc]
            exact ih hsu (by omega) (by omega)
          · rw [wp_pure]
            exact hQ _ u hsu (.inr ⟨by simp, fun hw => absurd (hw tot m (by omega)) hc⟩)
      · have heq : tot = n := by omega
        rw [wp_pure, heq]
        exact hQ _ t hst (.inl rfl)

def readLen (size off n : Nat) : Nat :=
  if size < off ∨ 2 ^ 32 ≤ off + n then 0 else min n (size - off)

theorem readi_spec {Q : Int × List UInt8 → Store → Prop} {dst : Dst} {n off : Nat}
    (h : Active P ip i s) (hok : InodeOk st s.mem.sb s.blocks (s.inodeOf i)) (hn : n < 2 ^ 32)
    (ho : st = true ∨ s.Trans E)
    (hQ : ∀ r t, Reads st P ip i s t →
      ReadBytes st dst (nodeOf s.blocks (s.inodeOf i)) off (readLen (s.inodeOf i).size off n) r t →
      Q r t) : wp I (readi ip dst off n) Q E s := by
  have hfits := (h.core.fits i h.lt).1
  simp only [readi, wp_bind, wp_inode, h.din]
  refine wp_ite (fun hc => ?_) fun hc => ?_
  · rw [wp_pure]
    have hlen : readLen (s.inodeOf i).size off n = 0 := by
      unfold readLen
      rw [if_pos (by omega)]
    refine hQ _ s h.reads_refl (.inl ?_)
    rw [hlen]
    rfl
  · have hlen : readLen (s.inodeOf i).size off n =
        if (s.inodeOf i).size < (off + n) % 2 ^ 32 then (s.inodeOf i).size - off else n := by
      unfold readLen
      rw [if_neg (by omega)]
      split <;> omega
    rw [← hlen]
    have hend : off + readLen (s.inodeOf i).size off n ≤ (s.inodeOf i).size := by
      rw [hlen]
      split <;> omega
    have hloop : wp I (readLoop ip dst (readLen (s.inodeOf i).size off n)
        (readLen (s.inodeOf i).size off n) 0 (off + 0) (Node.slice _ off 0)) Q E s :=
      readLoop_spec h hok hend ho hQ h.reads_refl (by omega) (by omega)
    simpa [Node.slice] using hloop

/-! ## Writing -/

/-- The first `m` bytes of `src` have replaced those of the file from `off` on; its size is not
set yet. -/
structure Wrote (P : Nat → Prop) (ip i : Nat) (src : Nat → UInt8) (off m : Nat) (s t : Store) :
    Prop where
  shape : t.held = s.held ∧ t.outstanding = s.outstanding ∧ t.touched = s.touched
  mem : ∃ x, t.mem = s.mem.mapDin ip fun _ => x
  core : Core P s.mem.sb t.blocks t.inodeOf
  others : ∀ j, j ≠ i → t.inodeOf j = s.inodeOf j
  nodes : ∀ j < s.mem.sb.ninodes, j ≠ i → (s.inodeOf j).type ≠ 0 →
    nodeOf t.blocks (s.inodeOf j) = nodeOf s.blocks (s.inodeOf j)
  node : nodeOf t.blocks (t.inodeOf i) = { nodeOf s.blocks (s.inodeOf i) with
    byte := splice (nodeOf s.blocks (s.inodeOf i)).byte off m src }
  slots : ∀ j < s.mem.sb.ninodes, (s.inodeOf j).type ≠ 0 → ∀ k < nSlots,
    slotAddr s.blocks (s.inodeOf j) k ≠ 0 →
      slotAddr t.blocks (t.inodeOf j) k = slotAddr s.blocks (s.inodeOf j) k
  low : ∀ b < s.mem.sb.bmapstart, t.blocks b = s.blocks b
  mapped : ∀ p, off ≤ p → p < off + m →
    p / bsize < maxFile ∧ slotAddr t.blocks (t.inodeOf i) (dataSlot (p / bsize)) ≠ 0
  logged : ∀ b ∈ s.logged, b ∈ t.logged
  fresh : ∀ k < nSlots, slotAddr s.blocks (s.inodeOf i) k = 0 →
    slotAddr t.blocks (t.inodeOf i) k ≠ 0 → slotAddr t.blocks (t.inodeOf i) k ∈ t.logged

variable {src : Nat → UInt8} {off m : Nat}

theorem Active.wrote_refl (h : Active P ip i s) : Wrote P ip i src off 0 s s := by
  refine ⟨⟨rfl, rfl, rfl⟩, ⟨_, (mapDin_id rfl).symm⟩, h.core, fun _ _ => rfl,
    fun _ _ _ _ => rfl, ?_, fun _ _ _ _ _ _ => rfl, fun _ _ => rfl, ?_, fun _ hb => hb,
      fun _ _ hz hne => absurd hz hne⟩
  · rw [splice_zero]
  · intro p hp hlt
    omega

theorem Wrote.sb (h : Wrote P ip i src off m s t) : t.mem.sb = s.mem.sb := by
  obtain ⟨x, hx⟩ := h.mem
  rw [hx, mapDin_sb]

theorem Wrote.type (h : Wrote P ip i src off m s t) : (t.inodeOf i).type = (s.inodeOf i).type :=
  congrArg Node.type h.node

theorem Wrote.active (h : Wrote P ip i src off m s t) (hs : Active P ip i s) :
    Active P ip i t := by
  obtain ⟨x, hx⟩ := h.mem
  refine ⟨?_, ?_, ?_, ?_, ?_, ?_, ?_⟩
  · rw [h.sb]
    exact h.core
  · rw [hx]
    exact hs.uniq.mapDin
  · rw [hx]
    exact mapDin_holds.mpr hs.holds
  · rw [h.sb]
    exact hs.lt
  · rw [h.type]
    exact hs.type
  · rw [h.shape.1]
    exact hs.held
  · rw [h.shape.2.2]
    exact hs.touched

theorem Wrote.type_ne (h : Wrote P ip i src off m s t) (hs : Active P ip i s) {j : Nat}
    (htj : (s.inodeOf j).type ≠ 0) : (t.inodeOf j).type ≠ 0 := by
  by_cases hji : j = i
  · rw [hji]
    exact (h.active hs).type
  · rw [h.others j hji]
    exact htj

theorem Wrote.grew (h : Wrote P ip i src off m s t) (hs : Active P ip i s)
    (hg : Grew P ip i t u) : Wrote P ip i src off m s u := by
  have ht := h.active hs
  have hty : ∀ j < s.mem.sb.ninodes, (s.inodeOf j).type ≠ 0 → (t.inodeOf j).type ≠ 0 :=
    fun _ _ htj => h.type_ne hs htj
  have hgrown := hg.grown
  rw [h.sb] at hgrown
  refine ⟨?_, ?_, hgrown.core, fun j hj => (hg.others j hj).trans (h.others j hj), ?_,
    (hg.node ht).trans h.node, ?_, fun b hb => (hgrown.low b hb).trans (h.low b hb), ?_,
    fun b hb => hg.logged b (h.logged b hb), ?_⟩
  · rw [hg.shape]
    exact h.shape
  · obtain ⟨x, hx⟩ := h.mem
    obtain ⟨y, hy⟩ := hg.mem
    exact ⟨y, by rw [hy, hx, mapDin_mapDin]⟩
  · intro j hj hji htj
    have hn := hgrown.nodes j hj (hty j hj htj)
    rw [hg.others j hji, h.others j hji] at hn
    exact hn.trans (h.nodes j hj hji htj)
  · intro j hj htj k hk hne
    have heq := h.slots j hj htj k hk hne
    rw [hgrown.slots j hj (hty j hj htj) k hk (by rw [heq]; exact hne), heq]
  · intro p hp hlt
    obtain ⟨hbn, hne⟩ := h.mapped p hp hlt
    rw [hgrown.slots i hs.lt (hty i hs.lt hs.type) _ (dataSlot_lt hbn) hne]
    exact ⟨hbn, hne⟩
  · intro k hk hz hne
    by_cases hzt : slotAddr t.blocks (t.inodeOf i) k = 0
    · exact hg.fresh k hk hzt hne
    · rw [hgrown.slots i hs.lt (hty i hs.lt hs.type) k hk hzt]
      exact hg.logged _ (h.fresh k hk hz hzt)

/-- A store into one block of a file is a store into the file. -/
theorem Core.byteAt_splice {sb : Superblock} {blocks : Nat → Block} {f : Nat → Dinode}
    (h : Core P sb blocks f) (hi : i < sb.ninodes) (ht : (f i).type ≠ 0) {q a cnt : Nat}
    (hbn : q / bsize < maxFile) (ha : slotAddr blocks (f i) (dataSlot (q / bsize)) = a)
    (hne : a ≠ 0) (hcnt : cnt ≤ bsize - q % bsize) (g : Nat → UInt8) :
    byteAt (upd blocks a (splice (blocks a) (q % bsize) cnt g)) (f i) =
      splice (byteAt blocks (f i)) q cnt g := by
  funext p
  rw [h.byteAt_writeData hi ht hbn ha hne]
  by_cases hin : q ≤ p ∧ p < q + cnt
  · obtain ⟨hdiv, hmod⟩ := div_mod_of_near hin.1 (by omega)
    rw [if_pos hdiv, splice_inside hin.1 hin.2, splice_inside (by omega) (by omega)]
    congr 1
    omega
  · rw [splice_outside (i := p) (by omega)]
    split
    · rename_i hdiv
      have hp := Nat.div_add_mod p bsize
      have hq := Nat.div_add_mod q bsize
      rw [hdiv] at hp
      rw [splice_outside (by omega)]
      unfold byteAt
      rw [hdiv, ha, if_pos ⟨hbn, hne⟩]
    · rfl

/-- A store into a block of a file leaves the inodes and all places alone. -/
theorem Active.stored (h : Active P ip i t) {a bn : Nat} {d : Block} (hbn : bn < maxFile)
    (ha : slotAddr t.blocks (t.inodeOf i) (dataSlot bn) = a) (hne : a ≠ 0)
    (hu : u = { t with
      blocks := upd t.blocks a d, logged := u.logged, broken := u.broken }) :
    (∀ b < t.mem.sb.bmapstart, u.blocks b = t.blocks b) ∧ u.inodeOf = t.inodeOf ∧
      ∀ j < t.mem.sb.ninodes, (t.inodeOf j).type ≠ 0 → ∀ k,
        slotAddr u.blocks (t.inodeOf j) k = slotAddr t.blocks (t.inodeOf j) k := by
  have hk := dataSlot_lt hbn
  have hused : usedBlock t.mem.sb t.blocks a := by
    rw [← ha]
    exact h.slot_used hk (by rw [ha]; exact hne)
  have hmeta := h.core.sbOk.bitmap_meta (by have := hused.2.1; omega)
  have hlow : ∀ b < t.mem.sb.bmapstart, u.blocks b = t.blocks b := by
    intro b hb
    have := hused.1
    rw [hu]
    exact upd_other (by omega)
  refine ⟨hlow, ?_, fun j hj htj k => ?_⟩
  · refine inodeOf_congr (by rw [hu]) fun j hj => diskInode_congr ?_
    exact hlow _ (h.core.sbOk.inodes j hj)
  · rw [hu, ← ha]
    exact h.core.slotAddr_writeData h.lt h.type hk (dataSlot_ne bn) (by rw [ha]; exact hne) _ hj
      htj k

/-- The block is logged, or nothing is. -/
theorem Local.store {S : Nat → Prop} (h : Local i S s t) (ht : Active P ip i t) {a bn : Nat}
    {d : Block} (hsb : t.mem.sb = s.mem.sb) (hbn : bn < maxFile)
    (ha : slotAddr t.blocks (t.inodeOf i) (dataSlot bn) = a) (hne : a ≠ 0) (hS : S (dataSlot bn))
    (hu : u = { t with blocks := upd t.blocks a d, logged := u.logged, broken := u.broken })
    (hlg : ∀ b ∈ u.logged, b = a ∨ b ∈ t.logged) : Local i S s u := by
  obtain ⟨-, hf, hslots⟩ := ht.stored hbn ha hne hu
  have hsame : ∀ k, slotAddr u.blocks (u.inodeOf i) k = slotAddr t.blocks (t.inodeOf i) k := by
    intro k
    rw [hf, hslots i ht.lt ht.type]
  refine ⟨fun j hj => by rw [hf, h.others j hj], fun j hj hji htj k => ?_,
    fun k hk hn => (hsame k).trans (h.slots k hk hn), fun b hb => ?_⟩
  · rw [← h.apart j hj hji htj k, ← h.others j hji]
    exact hslots j (hsb ▸ hj) (by rw [h.others j hji]; exact htj) k
  rcases hlg b hb with rfl | hold
  · refine .inr ⟨dataSlot bn, dataSlot_lt hbn, hS, ?_, .inl ?_⟩
    · rw [hsame, ha]
      exact hne
    · rw [hsame, ha]
  · rcases h.logged b hold with hold | ⟨k, hk, hs, hnew⟩
    · exact .inl hold
    · rw [← hsame k] at hnew
      exact .inr ⟨k, hk, hs, hnew⟩

theorem Wrote.store (h : Wrote P ip i src off m s t) (hs : Active P ip i s) {a cnt : Nat}
    (hbn : (off + m) / bsize < maxFile)
    (ha : slotAddr t.blocks (t.inodeOf i) (dataSlot ((off + m) / bsize)) = a) (hne : a ≠ 0)
    (hcnt : cnt ≤ bsize - (off + m) % bsize)
    (hu : u = { t with
      blocks := upd t.blocks a (splice (t.blocks a) ((off + m) % bsize) cnt fun j => src (m + j))
      logged := u.logged, broken := u.broken })
    (hlg : ∀ b ∈ t.logged, b ∈ u.logged) : Wrote P ip i src off (m + cnt) s u := by
  have ht := h.active hs
  have hk := dataSlot_lt hbn
  have hkd := dataSlot_ne ((off + m) / bsize)
  obtain ⟨hlow, hf, hslots⟩ := ht.stored hbn ha hne hu
  have hty : ∀ j < s.mem.sb.ninodes, (s.inodeOf j).type ≠ 0 → (t.inodeOf j).type ≠ 0 :=
    fun _ _ htj => h.type_ne hs htj
  refine ⟨?_, ?_, ?_, fun j hj => by rw [hf, h.others j hj], ?_, ?_, ?_, ?_, ?_, ?_, ?_⟩
  · rw [hu]
    exact h.shape
  · rw [hu]
    exact h.mem
  · have hcore := ht.core.writeData ht.lt ht.type hk hkd (by rw [ha]; exact hne)
      (splice (t.blocks a) ((off + m) % bsize) cnt fun j => src (m + j))
    rw [hf, hu, ← h.sb]
    rw [ha] at hcore
    exact hcore
  · intro j hj hji htj
    rw [← h.nodes j hj hji htj, ← h.others j hji, hu]
    refine ht.core.nodeOf_upd (by rw [h.sb]; exact hj) (hty j hj htj) fun k hk' => ?_
    rw [← ha]
    exact ht.core.slot_ne ht.lt (by rw [h.sb]; exact hj) hji hk hk' ht.type (hty j hj htj)
      (by rw [ha]; exact hne)
  · have hbyte := ht.core.byteAt_splice ht.lt ht.type hbn ha hne hcnt fun j => src (m + j)
    have hold : byteAt t.blocks (t.inodeOf i) =
        splice (nodeOf s.blocks (s.inodeOf i)).byte off m src := congrArg Node.byte h.node
    have hnew : nodeOf u.blocks (u.inodeOf i) = { nodeOf t.blocks (t.inodeOf i) with
        byte := splice (byteAt t.blocks (t.inodeOf i)) (off + m) cnt fun j => src (m + j) } := by
      rw [hf, hu, ← hbyte]
      rfl
    rw [hnew, hold, splice_splice, h.node]
  · intro j hj htj k hk' hnz
    rw [hf, hslots j (by rw [h.sb]; exact hj) (hty j hj htj)]
    exact h.slots j hj htj k hk' hnz
  · intro b hb
    rw [hlow b (by rw [h.sb]; exact hb), h.low b hb]
  · intro p hp hlt
    rw [hf, hslots i ht.lt ht.type]
    by_cases hpm : p < off + m
    · exact h.mapped p hp hpm
    · rw [(div_mod_of_near (p := p) (q := off + m) (by omega) (by omega)).1, ha]
      exact ⟨hbn, hne⟩
  · exact fun b hb => hlg b (h.logged b hb)
  · intro k hk' hz hnz
    rw [hf, hslots i ht.lt ht.type] at hnz ⊢
    exact hlg _ (h.fresh k hk' hz hnz)

/-- No chunk of the write is cut inside a block that the file already has. -/
def NoTear (s : Store) (i : Nat) (src : Src) (off n : Nat) : Prop :=
  ∀ tot < n, (tot = 0 ∨ (off + tot) % bsize = 0) →
    ∀ m, m = min (n - tot) (bsize - (off + tot) % bsize) →
      src.copied tot m = m ∨ src.copied tot m = 0 ∨
        slotAddr s.blocks (s.inodeOf i) (dataSlot ((off + tot) / bsize)) = 0

def Covers (off n k : Nat) : Prop := ∃ j < n, PlaceOf ((off + j) / bsize) k

/-- What the loop of `writei` leaves: `r.1` bytes are written, and `cnt` more of a chunk that
was cut. -/
structure LoopWrote (P : Nat → Prop) (ip i : Nat) (src : Src) (off n : Nat) (s : Store)
    (r : Nat × Nat) (cnt : Nat) (t : Store) : Prop where
  wrote : Wrote P ip i src.byte off (r.1 + cnt) s t
  next : r.2 = off + r.1
  le : r.1 + cnt ≤ n
  short : r.1 < n → t.Full ∨ ¬ src.Whole n
  hole : src.Whole n → r.1 < n →
    slotAddr t.blocks (t.inodeOf i) (dataSlot ((off + r.1) / bsize)) = 0
  whole : src.Whole n → cnt = 0
  sound : NoTear s i src off n → t.broken = s.broken
  step : r.1 = 0 ∨ (off + r.1) % bsize = 0 ∨ r.1 = n
  places : Local i (Covers off n) s t

/-- The release of a block that was stored into and not logged. -/
theorem release_torn (h : s.Tidy) {b : Nat} (hb : b ∉ s.held) (hl : s.mem.sb.inLog b = false)
    (f : Block → Block) : ((s.lock b).write b f).release b =
      { s with
        blocks := upd s.blocks b (f (s.blocks b))
        broken := s.broken || decide (b ∉ s.logged) } := by
  simp [Store.lock, Store.write, Store.release, h.filter_touched hb, hl]

theorem writeLoop_spec {Q : Nat × Nat → Store → Prop} {src : Src} {n off fuel tot : Nat}
    (h : Active P ip i s) (hmax : off + n ≤ maxFile * bsize) (ho : s.Trans E)
    (hQ : ∀ r cnt t, LoopWrote P ip i src off n s r cnt t → Q r t)
    (hw : Wrote P ip i src.byte off tot s t) (hpl : Local i (Covers off n) s t)
    (hbr : NoTear s i src off n → t.broken = s.broken)
      (hal : tot = 0 ∨ (off + tot) % bsize = 0 ∨ tot = n)
    (hfuel : n ≤ tot + fuel) (htot : tot ≤ n) :
    wp I (writeLoop ip src n fuel tot (off + tot)) Q E t := by
  have hdone : ∀ t, Wrote P ip i src.byte off n s t → Local i (Covers off n) s t →
      (NoTear s i src off n → t.broken = s.broken) → Q (n, off + n) t := fun t hw hpl hbr =>
    hQ _ 0 t ⟨hw, rfl, Nat.le_refl n, fun hlt => absurd hlt (Nat.lt_irrefl n),
      fun _ hlt => absurd hlt (Nat.lt_irrefl n), fun _ => rfl, hbr, .inr (.inr rfl), hpl⟩
  induction fuel generalizing t tot with
  | zero =>
      have heq : tot = n := by omega
      rw [writeLoop, wp_pure]
      subst heq
      exact hdone t hw hpl hbr
  | succ fuel ih =>
      rw [writeLoop]
      refine wp_ite (fun hlt => ?_) fun hge => ?_
      · have hbn : (off + tot) / bsize < maxFile :=
          (Nat.div_lt_iff_lt_mul (by decide)).mpr (by omega)
        have hot : t.Trans E := by
          unfold Store.Trans
          rw [hw.shape.2.1]
          exact ho
        simp only [wp_bind]
        refine bmap_spec (hw.active h) hbn hot fun a u hg hloc hm => ?_
        have hwu := hw.grew h hg
        have hplu : Local i (Covers off n) s u :=
          hpl.trans (hloc.mono fun k hk => ⟨tot, hlt, hk⟩) hw.sb (hw.slots i h.lt h.type)
            (hg.grown.slots i (hw.active h).lt (hw.active h).type)
        have hbru : NoTear s i src off n → u.broken = s.broken := by
          rw [hg.shape]
          exact hbr
        have hu := hwu.active h
        refine wp_ite (fun hz => ?_) fun hne => ?_
        · rw [wp_pure]
          exact hQ _ 0 u ⟨hwu, rfl, by omega, fun _ => .inl (hm.2 hz), fun _ _ => hm.1.trans hz,
            fun _ => rfl, hbru, hal, hplu⟩
        · have hused : usedBlock u.mem.sb u.blocks a := by
            rw [← hm.1]
            exact hu.slot_used (dataSlot_lt hbn) (by rw [hm.1]; exact hne)
          have hlog := hused.not_log hu.core.sbOk
          have hmod := Nat.mod_lt (off + tot) (show bsize > 0 by decide)
          simp only [wp_bind]
          refine wp_peek (hu.not_held a) ?_
          generalize hmeq : min (n - tot) (bsize - (off + tot) % bsize) = m
          have hcle := src.copied_le tot m
          have hstore : ∀ c ≤ m, ∀ v : Store, (∀ b ∈ u.logged, b ∈ v.logged) →
              v = { u with
                blocks := upd u.blocks a (splice (u.blocks a) ((off + tot) % bsize) c
                  fun j => src.byte (tot + j))
                logged := v.logged, broken := v.broken } →
              Wrote P ip i src.byte off (tot + c) s v := fun c hc v hlg hv =>
            hwu.store h hbn hm.1 hne (by omega) hv hlg
          have hplace : Covers off n (dataSlot ((off + tot) / bsize)) := ⟨tot, hlt, .inl rfl⟩
          by_cases hc : src.copied tot m = m
          · simp only [copyBlock, hc, if_neg (show m ≠ 0 by omega), if_true, wp_bind]
            refine wp_put hu.tidy (hu.not_held a) hlog (hg.trans' hot) ?_
            rw [Nat.add_assoc]
            refine ih (hstore m (Nat.le_refl m) _ (fun b hb => List.mem_cons_of_mem _ hb) rfl)
              (hplu.store hu hwu.sb hbn hm.1 hne hplace rfl fun b hb => List.mem_cons.mp hb) hbru ?_
              (by omega) (by omega)
            by_cases hlast : m = n - tot
            · exact .inr (.inr (by omega))
            · have hdiv := Nat.div_add_mod (off + tot) bsize
              have hnext : off + (tot + m) = bsize * ((off + tot) / bsize + 1) := by
                rw [Nat.mul_add]
                omega
              exact .inr (.inl (by rw [hnext, Nat.mul_mod_right]))
          · have hnw : ¬ src.Whole n := fun hw => hc (hw tot m (by omega))
            by_cases hc0 : src.copied tot m = 0
            · simp only [copyBlock, hc0, if_true, wp_pure,
                if_neg (show ¬ 0 = m by omega), wp_bind]
              refine wp_done hu.tidy (hu.not_held a) hlog ?_
              exact hQ _ 0 u ⟨hwu, rfl, by omega, fun _ => .inr hnw, fun hw => absurd hw hnw,
                fun _ => rfl, hbru, hal, hplu⟩
            · simp only [copyBlock, if_neg hc0, if_neg hc, wp_bind, wp_pure]
              rw [wp_store, if_pos (by simp [Store.lock]), wp_brelse,
                if_pos (by simp [Store.lock, Store.write]),
                release_torn hu.tidy (hu.not_held a) hlog]
              refine hQ _ (src.copied tot m) _ ⟨hstore _ hcle _ (fun b hb => hb) rfl, rfl,
                by show tot + _ ≤ n; omega, fun _ => .inr hnw, fun hw => absurd hw hnw,
                fun hw => absurd hw hnw, ?_, hal,
                hplu.store hu hwu.sb hbn hm.1 hne hplace rfl fun b hb => .inr hb⟩
              intro hnt
              rcases hnt tot hlt (by omega) m hmeq.symm with hcm | hcz | hz
              · exact absurd hcm hc
              · exact absurd hcz hc0
              · have hmem := hwu.fresh _ (dataSlot_lt hbn) hz (by rw [hm.1]; exact hne)
                rw [hm.1] at hmem
                simp [hmem, hbru hnt]
      · have heq : tot = n := by omega
        rw [wp_pure]
        subst heq
        exact hdone t hw hpl hbr

end

end Xv6.Fs
