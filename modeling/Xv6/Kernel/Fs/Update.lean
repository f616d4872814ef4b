import Xv6.Kernel.Fs.Content

/-! # Changes to one inode

`iupdate` writes the copy in memory back. With it the operations on one inode are
complete: each leaves the two copies in agreement, keeps the ledger of blocks, and
leaves every other inode alone.
-/

namespace Xv6.Fs

open Lib

/-- What an operation on the inode in entry `ip`, number `i`, does to the rest. -/
structure Edits (st : Bool) (P : Nat → Prop) (ip i : Nat) (s t : Store) : Prop where
  shape : t.held = s.held ∧ t.outstanding = s.outstanding ∧ t.touched = s.touched
  mem : ∃ x, t.mem = s.mem.mapDin ip fun _ => x
  core : Core P s.mem.sb t.blocks t.inodeOf
  others : ∀ j, j ≠ i → t.inodeOf j = s.inodeOf j
  disk : ∀ j < s.mem.sb.ninodes, j ≠ i →
    diskInode s.mem.sb t.blocks j = diskInode s.mem.sb s.blocks j
  nodes : ∀ j < s.mem.sb.ninodes, j ≠ i → (s.inodeOf j).type ≠ 0 →
    nodeOf t.blocks (s.inodeOf j) = nodeOf s.blocks (s.inodeOf j)
  slots : ∀ j < s.mem.sb.ninodes, j ≠ i → (s.inodeOf j).type ≠ 0 → ∀ k < nSlots,
    slotAddr s.blocks (s.inodeOf j) k ≠ 0 →
      slotAddr t.blocks (s.inodeOf j) k = slotAddr s.blocks (s.inodeOf j) k
  coh : Coherent st t.blocks (diskInode s.mem.sb t.blocks i) (t.inodeOf i)
  ok : (t.inodeOf i).type ≠ 0 → DirOk s.mem.sb (nodeOf t.blocks (t.inodeOf i)) →
    InodeOk st s.mem.sb t.blocks (t.inodeOf i)

def Store.updated (s : Store) (ip : Nat) : Store :=
  s.put (iblock s.mem.sb (s.mem.itable ip).inum) fun d =>
    (s.mem.itable ip).din.write d (ioff (s.mem.itable ip).inum)

section

variable {I : Store → Prop} {E : Stop → Store → Prop} {st : Bool} {P : Nat → Prop}
  {s t u : Store} {ip i : Nat}

theorem iupdate_spec {Q : Unit → Store → Prop} (hsb : s.mem.sb.Ok) (ht : s.Tidy)
    (hh : s.held = []) (ho : s.Trans E) (hQ : Q () (s.updated ip)) :
    wp I (iupdate ip) Q E s := by
  have hfree : iblock s.mem.sb (s.mem.itable ip).inum ∉ s.held := by
    rw [hh]
    exact List.not_mem_nil
  simp only [iupdate, wp_bind, wp_superblock, wp_inode]
  exact wp_peek hfree (wp_put ht hfree (hsb.iblock_not_log _) ho hQ)

/-- A reading of the file system leaves the inode's two copies in agreement. -/
theorem Reads.edits (h : Reads st P ip i s t) (hs : Active P ip i s)
    (hcoh : Coherent st s.blocks (diskInode s.mem.sb s.blocks i) (s.inodeOf i))
    (hok : InodeOk st s.mem.sb s.blocks (s.inodeOf i)) : Edits st P ip i s t := by
  have hg := h.grew
  have hdisk : ∀ j < s.mem.sb.ninodes,
      diskInode s.mem.sb t.blocks j = diskInode s.mem.sb s.blocks j := fun j hj =>
    diskInode_congr (hg.grown.low _ (hs.core.sbOk.inodes j hj))
  refine ⟨by rw [hg.shape]; exact ⟨rfl, rfl, rfl⟩, hg.mem, hg.grown.core, hg.others,
    fun j hj _ => hdisk j hj, ?_, ?_, ⟨?_, ?_⟩, fun _ _ => hg.sb ▸ hg.inodeOk hs hok⟩
  · intro j hj hji htj
    rw [← hg.others j hji, hg.grown.nodes j hj htj]
    rw [hg.others j hji]
  · intro j hj hji htj k hk hne
    have := hg.grown.slots j hj htj k hk hne
    rwa [hg.others j hji] at this
  · rw [hdisk i hs.lt, hcoh.frame (hg.node hs) (hg.grown.slots i hs.lt hs.type), hcoh.node,
      hg.node hs]
  · intro k hk
    rw [hdisk i hs.lt]
    cases st with
    | true =>
        rw [h.same rfl]
        exact hcoh.addr k hk
    | false =>
        by_cases hz : (s.inodeOf i).addr k = 0
        · have hz₀ : (diskInode s.mem.sb s.blocks i).addr k = 0 :=
            (hcoh.addr k hk).elim (fun heq => heq.trans hz) fun hc => hc.2.2
          rcases Nat.lt_or_eq_of_le hk with hlt | rfl
          · exact .inr ⟨rfl, hlt, hz₀⟩
          · exact .inl (by rw [hz₀, h.indirect, hz])
        · have hslot := hg.grown.slots i hs.lt hs.type k (by unfold nSlots; omega)
            (by rw [slotAddr_direct _ _ hk]; exact hz)
          rw [slotAddr_direct _ _ hk, slotAddr_direct _ _ hk] at hslot
          rw [hslot]
          exact hcoh.addr k hk

/-! ## Writing the inode back -/

/-- What is left to do before `iupdate`: only the copy in memory has the changes. -/
structure Pending (st : Bool) (P : Nat → Prop) (ip i : Nat) (s t : Store) : Prop where
  shape : t.held = s.held ∧ t.outstanding = s.outstanding ∧ t.touched = s.touched
  mem : ∃ x, t.mem = s.mem.mapDin ip fun _ => x
  core : Core P s.mem.sb t.blocks t.inodeOf
  others : ∀ j, j ≠ i → t.inodeOf j = s.inodeOf j
  low : ∀ b < s.mem.sb.bmapstart, t.blocks b = s.blocks b
  nodes : ∀ j < s.mem.sb.ninodes, j ≠ i → (s.inodeOf j).type ≠ 0 →
    nodeOf t.blocks (s.inodeOf j) = nodeOf s.blocks (s.inodeOf j)
  slots : ∀ j < s.mem.sb.ninodes, j ≠ i → (s.inodeOf j).type ≠ 0 → ∀ k < nSlots,
    slotAddr s.blocks (s.inodeOf j) k ≠ 0 →
      slotAddr t.blocks (s.inodeOf j) k = slotAddr s.blocks (s.inodeOf j) k
  ok : (t.inodeOf i).type ≠ 0 → DirOk s.mem.sb (nodeOf t.blocks (t.inodeOf i)) →
    InodeOk st s.mem.sb t.blocks (t.inodeOf i)

theorem Pending.sb (h : Pending st P ip i s t) : t.mem.sb = s.mem.sb := by
  obtain ⟨x, hx⟩ := h.mem
  rw [hx, mapDin_sb]

theorem updated_other {b : Nat} (h : b ≠ iblock s.mem.sb (s.mem.itable ip).inum) :
    (s.updated ip).blocks b = s.blocks b :=
  upd_other h

theorem updated_disk_other (hh : s.mem.Holds ip i) {j : Nat} (hji : j ≠ i) :
    diskInode s.mem.sb (s.updated ip).blocks j = diskInode s.mem.sb s.blocks j := by
  unfold Store.updated
  rw [hh.inum]
  exact diskInode_write_other hji

theorem updated_disk_same (hh : s.mem.Holds ip i) (hx : (s.mem.itable ip).din.Fits) :
    diskInode s.mem.sb (s.updated ip).blocks i = (s.mem.itable ip).din := by
  unfold Store.updated
  rw [hh.inum]
  exact diskInode_write_same hx

theorem updated_inodeOf (hu : s.mem.Unique) (hi : i < s.mem.sb.ninodes)
    (hh : s.mem.Holds ip i) : (s.updated ip).inodeOf = s.inodeOf := by
  have heq := inodeOf_mapDin (t := s.updated ip) (g := id) hu hi hh (mapDin_id rfl).symm
    fun j hj hn => updated_disk_other hh (fun hji => hn ip (hji ▸ hh))
  rw [heq]
  exact upd_self _ _

theorem Pending.holds (h : Pending st P ip i s t) (hs : Active P ip i s) : t.mem.Holds ip i := by
  obtain ⟨x, hx⟩ := h.mem
  exact hx ▸ mapDin_holds.mpr hs.holds

theorem Pending.updated_high (h : Pending st P ip i s t) (hs : Active P ip i s) {b : Nat}
    (hb : s.mem.sb.bmapstart ≤ b) : (t.updated ip).blocks b = t.blocks b := by
  refine updated_other ?_
  have := hs.core.sbOk.inodes i hs.lt
  rw [(h.holds hs).inum, h.sb]
  omega

theorem Pending.updated_data (h : Pending st P ip i s t) (hs : Active P ip i s) {b : Nat}
    (hb : usedBlock s.mem.sb t.blocks b) : (t.updated ip).blocks b = t.blocks b := by
  have := hs.core.sbOk.bitmap_meta (by have := hb.2.1; omega)
  have := hb.1
  exact h.updated_high hs (by omega)

theorem Pending.updated_slots (h : Pending st P ip i s t) (hs : Active P ip i s)
    (htype : (t.inodeOf i).type ≠ 0) (k : Nat) :
    slotAddr (t.updated ip).blocks ((t.updated ip).inodeOf i) k =
      slotAddr t.blocks (t.inodeOf i) k := by
  obtain ⟨x, hx⟩ := h.mem
  rw [updated_inodeOf (hx ▸ hs.uniq.mapDin) (h.sb ▸ hs.lt) (h.holds hs)]
  exact h.core.slotAddr_frame hs.lt htype (fun b hb _ => h.updated_data hs hb) k

theorem Pending.updated_apart (h : Pending st P ip i s t) (hs : Active P ip i s) {j : Nat}
    (hji : j ≠ i) (hj : j < s.mem.sb.ninodes) (htype : (s.inodeOf j).type ≠ 0) (k : Nat) :
    slotAddr (t.updated ip).blocks (s.inodeOf j) k = slotAddr t.blocks (s.inodeOf j) k := by
  rw [← h.others j hji] at htype ⊢
  exact h.core.slotAddr_frame hj htype (fun b hb _ => h.updated_data hs hb) k

/-- After `iupdate` the operation is complete. -/
theorem Pending.updated (h : Pending st P ip i s t) (hs : Active P ip i s) :
    Edits st P ip i s (t.updated ip) ∧ ((t.inodeOf i).type ≠ 0 →
      nodeOf (t.updated ip).blocks ((t.updated ip).inodeOf i) = nodeOf t.blocks (t.inodeOf i)) := by
  obtain ⟨x, hx⟩ := h.mem
  have hsb : t.mem.sb = s.mem.sb := h.sb
  have hu : t.mem.Unique := hx ▸ hs.uniq.mapDin
  have hh := h.holds hs
  have hi : i < t.mem.sb.ninodes := hsb ▸ hs.lt
  have hf := updated_inodeOf hu hi hh
  have hinode := inodeOf_of_holds hu hi hh
  have hframe : ∀ j < s.mem.sb.ninodes, (t.inodeOf j).type ≠ 0 →
      nodeOf (t.updated ip).blocks (t.inodeOf j) = nodeOf t.blocks (t.inodeOf j) ∧
      ∀ k, slotAddr (t.updated ip).blocks (t.inodeOf j) k = slotAddr t.blocks (t.inodeOf j) k :=
    fun j hj htj => ⟨h.core.nodeOf_frame hj htj fun b hb _ => h.updated_data hs hb,
      h.core.slotAddr_frame hj htj fun b hb _ => h.updated_data hs hb⟩
  refine ⟨⟨h.shape, h.mem, ?_, ?_, ?_, ?_, ?_, ?_, ?_⟩, fun htype => ?_⟩
  · rw [hf]
    exact h.core.low_frame fun b hb => h.updated_high hs hb
  · rw [hf]
    exact h.others
  · intro j hj hji
    rw [← hsb, updated_disk_other hh hji, hsb]
    exact diskInode_congr (h.low _ (hs.core.sbOk.inodes j hj))
  · intro j hj hji htj
    rw [← h.nodes j hj hji htj, ← h.others j hji]
    exact (hframe j hj (by rw [h.others j hji]; exact htj)).1
  · intro j hj hji htj k hk hne
    rw [← h.slots j hj hji htj k hk hne, ← h.others j hji]
    exact (hframe j hj (by rw [h.others j hji]; exact htj)).2 k
  · have hfits := h.core.fits i hs.lt
    rw [hf, ← hsb, updated_disk_same hh (hinode ▸ hfits), ← hinode]
    exact Coherent.refl _ _ _
  · intro htype hdir
    rw [hf] at htype hdir ⊢
    obtain ⟨hnode, hslots⟩ := hframe i hs.lt htype
    rw [hnode] at hdir
    exact (h.ok htype hdir).congr hnode fun k _ hne => by rw [hslots]; exact hne
  · rw [hf]
    exact (hframe i hs.lt htype).1

theorem Store.Full.updated (h : t.Full) (hsb : t.mem.sb.Ok) (hh : t.mem.Holds ip i)
    (hi : i < t.mem.sb.ninodes) : (t.updated ip).Full := by
  intro b hb
  have hne : bblock t.mem.sb b ≠ iblock t.mem.sb (t.mem.itable ip).inum := by
    rw [hh.inum]
    exact (hsb.iblock_ne_bblock hi b).symm
  show bitAt ((t.updated ip).blocks (bblock t.mem.sb b)) (b % bpb) = true
  rw [updated_other hne]
  exact h b hb

theorem Pending.iupdate {Q : Unit → Store → Prop} (h : Pending st P ip i s t)
    (hs : Active P ip i s) (ho : s.Trans E)
    (hQ : Edits st P ip i s (t.updated ip) → ((t.inodeOf i).type ≠ 0 →
      nodeOf (t.updated ip).blocks ((t.updated ip).inodeOf i) = nodeOf t.blocks (t.inodeOf i)) →
      (t.Full → (t.updated ip).Full) → (t.updated ip).inodeOf = t.inodeOf → Q () (t.updated ip)) :
    wp I (iupdate ip) Q E t := by
  obtain ⟨x, hx⟩ := h.mem
  have hsb : t.mem.sb.Ok := h.sb ▸ hs.core.sbOk
  have htidy : t.Tidy := by
    intro b hb
    rw [h.shape.2.2, hs.touched] at hb
    cases hb
  have ho' : t.Trans E := by
    unfold Store.Trans
    rw [h.shape.2.1]
    exact ho
  have hh : t.mem.Holds ip i := hx ▸ mapDin_holds.mpr hs.holds
  have hi : i < t.mem.sb.ninodes := h.sb ▸ hs.lt
  obtain ⟨hedits, hnode⟩ := h.updated hs
  exact iupdate_spec hsb htidy (h.shape.1.trans hs.held) ho'
    (hQ hedits hnode (fun hfull => hfull.updated hsb hh hi)
      (updated_inodeOf (hx ▸ hs.uniq.mapDin) hi hh))

/-! ## `writei` -/

theorem Active.inodeOf_fields (h : Active P ip i s) (g : Dinode → Dinode) :
    Store.inodeOf { s with mem := s.mem.mapDin ip g } = upd s.inodeOf i (g (s.inodeOf i)) :=
  h.inodeOf_grow rfl fun _ _ => rfl

theorem Wrote.resize {src : Nat → UInt8} {off m tot : Nat} (h : Wrote P ip i src off m s t)
    (hs : Active P ip i s) (hok : InodeOk st s.mem.sb s.blocks (s.inodeOf i))
    (hoff : off ≤ (s.inodeOf i).size) (htot : tot ≤ m) (hmax : off + tot ≤ maxFile * bsize)
    (hu : u = { t with mem := t.mem.mapDin ip fun x =>
      { x with size := if x.size < off + tot then off + tot else x.size } }) :
    Pending st P ip i s u ∧
      nodeOf u.blocks (u.inodeOf i) = { nodeOf s.blocks (s.inodeOf i) with
        size := max (s.inodeOf i).size (off + tot)
        byte := splice (nodeOf s.blocks (s.inodeOf i)).byte off m src } := by
  have ht := h.active hs
  have hf := ht.inodeOf_fields fun x =>
    { x with size := if x.size < off + tot then off + tot else x.size }
  rw [← hu] at hf
  have hsize : (t.inodeOf i).size = (s.inodeOf i).size := congrArg Node.size h.node
  have hnew : (if (t.inodeOf i).size < off + tot then off + tot else (t.inodeOf i).size) =
      max (s.inodeOf i).size (off + tot) := by
    rw [hsize]
    split <;> omega
  have hblocks : u.blocks = t.blocks := by rw [hu]
  have hnode : nodeOf u.blocks (u.inodeOf i) = { nodeOf t.blocks (t.inodeOf i) with
      size := max (s.inodeOf i).size (off + tot) } := by
    rw [hf, upd_same, ← hnew, hblocks]
    rfl
  have hother : ∀ j, j ≠ i → u.inodeOf j = s.inodeOf j := by
    intro j hj
    rw [hf, upd_other hj, h.others j hj]
  refine ⟨⟨?_, ?_, ?_, hother, ?_, ?_, ?_, ?_⟩, ?_⟩
  · rw [hu]
    exact h.shape
  · obtain ⟨x, hx⟩ := h.mem
    have hmem : u.mem = t.mem.mapDin ip fun x =>
        { x with size := if x.size < off + tot then off + tot else x.size } := by rw [hu]
    rw [hx, mapDin_mapDin] at hmem
    exact ⟨_, hmem⟩
  · rw [hf, hblocks]
    refine h.core.setFields (fun _ _ => rfl) ?_ (.inl rfl) hs.lt
    show (if _ then _ else _) < _
    rw [hnew]
    have := hok.size
    have : maxFile * bsize < 2 ^ 32 := by decide
    omega
  · rw [hblocks]
    exact h.low
  · rw [hblocks]
    exact h.nodes
  · intro j hj hji htj k hk hne
    have hslot := h.slots j hj htj k hk hne
    rw [h.others j hji] at hslot
    rw [hblocks, hslot]
  · intro _ hdir
    have hx : ∀ k, slotAddr u.blocks (u.inodeOf i) k = slotAddr t.blocks (t.inodeOf i) k := by
      intro k
      rw [hf, upd_same, hblocks]
      rfl
    have hus : (u.inodeOf i).size = max (s.inodeOf i).size (off + tot) := congrArg Node.size hnode
    refine ⟨?_, ?_, hdir⟩
    · have := hok.size
      rw [hus]
      omega
    · intro bn hbn hd
      rw [hus] at hbn
      rw [hx]
      by_cases hold : bn * bsize < (s.inodeOf i).size
      · have hne := hok.mapped bn hold hd
        rw [h.slots i hs.lt hs.type _ (dataSlot_lt (hok.lt_maxFile hold)) hne]
        exact hne
      · have hm := (h.mapped (bn * bsize) (by omega) (by omega)).2
        rwa [Nat.mul_div_cancel _ (by decide)] at hm
  · rw [hnode, h.node]

theorem Wrote.resize_slots {src : Nat → UInt8} {off m : Nat} (h : Wrote P ip i src off m s t)
    (hs : Active P ip i s) (size : Dinode → Nat) (k : Nat) :
    slotAddr t.blocks (Store.inodeOf { t with mem := t.mem.mapDin ip fun x =>
      { x with size := size x } } i) k = slotAddr t.blocks (t.inodeOf i) k := by
  rw [(h.active hs).inodeOf_fields, upd_same]
  rfl

/-- What `writei` leaves when it returns `tot`; `cnt` bytes of a chunk that was cut may be
there too. -/
structure Written (st : Bool) (P : Nat → Prop) (ip i : Nat) (src : Src) (off n : Nat) (s : Store)
    (tot cnt : Nat) (t : Store) : Prop where
  base : Core P s.mem.sb s.blocks s.inodeOf
  edits : Edits st P ip i s t
  node : nodeOf t.blocks (t.inodeOf i) = { nodeOf s.blocks (s.inodeOf i) with
    size := max (s.inodeOf i).size (off + tot)
    byte := splice (nodeOf s.blocks (s.inodeOf i)).byte off (tot + cnt) src.byte }
  le : tot + cnt ≤ n
  short : tot < n → t.Full ∨ ¬ src.Whole n
  hole : src.Whole n → tot < n →
    slotAddr t.blocks (t.inodeOf i) (dataSlot ((off + tot) / bsize)) = 0
  kept : ∀ k < nSlots, slotAddr s.blocks (s.inodeOf i) k ≠ 0 →
    slotAddr t.blocks (t.inodeOf i) k = slotAddr s.blocks (s.inodeOf i) k
  mapped : ∀ p, off ≤ p → p < off + tot →
    slotAddr t.blocks (t.inodeOf i) (dataSlot (p / bsize)) ≠ 0
  apart : ∀ j < s.mem.sb.ninodes, j ≠ i → (s.inodeOf j).type ≠ 0 → ∀ k,
    slotAddr t.blocks (s.inodeOf j) k = slotAddr s.blocks (s.inodeOf j) k
  places : ∀ k < nSlots, ¬ Covers off n k →
    slotAddr t.blocks (t.inodeOf i) k = slotAddr s.blocks (s.inodeOf i) k
  logged : ∀ b ∈ t.logged, b ∈ s.logged ∨ b = iblock s.mem.sb i ∨ LogsAt i (Covers off n) s t b
  whole : src.Whole n → cnt = 0
  sound : NoTear s i src off n → t.broken = s.broken
  step : tot = 0 ∨ (off + tot) % bsize = 0 ∨ tot = n

/-- The arguments that `writei` refuses. -/
def WriteBad (size off n : Nat) : Prop :=
  size < off ∨ 2 ^ 32 ≤ off + n ∨ maxFile * bsize < off + n

theorem writei_spec {Q : Int → Store → Prop} {src : Src} {n off : Nat} (h : Active P ip i s)
    (hok : InodeOk st s.mem.sb s.blocks (s.inodeOf i)) (hn : n < 2 ^ 32) (ho : s.Trans E)
    (hbad : WriteBad (s.inodeOf i).size off n → Q (-1) s)
    (hQ : ∀ (tot cnt : Nat) t, ¬ WriteBad (s.inodeOf i).size off n →
      Written st P ip i src off n s tot cnt t → Q tot t) :
    wp I (writei ip src off n) Q E s := by
  have hfits := (h.core.fits i h.lt).1
  simp only [writei, wp_bind, wp_inode, h.din]
  refine wp_ite (fun hc => ?_) fun hc => wp_ite (fun hc' => ?_) fun hc' => ?_
  · rw [wp_pure]
    exact hbad (by unfold WriteBad; omega)
  · rw [wp_pure]
    exact hbad (by unfold WriteBad; omega)
  · have hmax : maxFile * bsize < 2 ^ 32 := by decide
    have hgood : ¬ WriteBad (s.inodeOf i).size off n := by
      unfold WriteBad
      omega
    have hsum : (off + n) % 2 ^ 32 = off + n := Nat.mod_eq_of_lt (by omega)
    have hloop : wp I (writeLoop ip src n n 0 (off + 0)) (fun r t =>
        wp I (setDin ip fun x => { x with size := if x.size < r.2 then r.2 else x.size })
          (fun _ t => wp I (iupdate ip) (fun _ t => Q r.1 t) E t) E t) E s := by
      refine writeLoop_spec h (by omega) ho (fun r cnt t hl => ?_) h.wrote_refl (.refl i _ s)
        (fun _ => rfl) (.inl rfl) (by omega) (by omega)
      have hle := hl.le
      rw [wp_setDin, hl.next]
      obtain ⟨hp, hnode⟩ := hl.wrote.resize h hok (by omega) (Nat.le_add_right r.1 cnt)
        (by omega) rfl
      have htype : (Store.inodeOf _ i).type = (s.inodeOf i).type := congrArg Node.type hnode
      have hslot := fun k => (hp.updated_slots h (by rw [htype]; exact h.type) k).trans
        (hl.wrote.resize_slots h _ k)
      refine hp.iupdate h ho fun hedits hsame hfull _ => hQ r.1 cnt _ hgood
        ⟨h.core, hedits, ?_, hle,
        fun hlt => (hl.short hlt).imp hfull id, ?_, ?_, ?_, ?_, ?_, ?_, hl.whole, hl.sound, hl.step⟩
      · rw [hsame (by rw [htype]; exact h.type), hnode]
      · exact fun hw hlt => (hslot _).trans (hl.hole hw hlt)
      · exact fun k hk hne => (hslot k).trans (hl.wrote.slots i h.lt h.type k hk hne)
      · intro p hp' hlt
        rw [hslot]
        exact (hl.wrote.mapped p hp' (by omega)).2
      · intro j hj hji htj k
        exact (hp.updated_apart h hji hj htj k).trans (hl.places.apart j hj hji htj k)
      · exact fun k hk hn => (hslot k).trans (hl.places.slots k hk hn)
      · intro b hb
        rcases List.mem_cons.mp hb with rfl | hb
        · right; left
          show iblock _ _ = _
          rw [(hp.holds h).inum]
          exact congrArg (iblock · i) hl.wrote.sb
        · rcases hl.places.logged b hb with hold | ⟨k, hk, hc, hnew⟩
          · exact .inl hold
          · rw [← hslot k] at hnew
            exact .inr (.inr ⟨k, hk, hc, hnew⟩)
    simp only [wp_bind, wp_pure]
    exact hloop

/-- Fields other than the addresses, the type and the size change, and are written back. -/
theorem update_spec {Q : Unit → Store → Prop} {g : Dinode → Dinode} (h : Active P ip i s)
    (hok : InodeOk st s.mem.sb s.blocks (s.inodeOf i)) (ho : s.Trans E)
    (hg : ∀ x, (g x).addrs = x.addrs ∧ (g x).type = x.type ∧ (g x).size = x.size)
    (hQ : ∀ t, Edits st P ip i s t → t.broken = s.broken →
      nodeOf t.blocks (t.inodeOf i) = nodeOf s.blocks (g (s.inodeOf i)) → Q () t) :
    wp I (setDin ip g) (fun _ t => wp I (iupdate ip) Q E t) E s := by
  obtain ⟨haddrs, htype, hsize⟩ := hg (s.inodeOf i)
  have hf := h.inodeOf_fields g
  have haddr : ∀ k, (g (s.inodeOf i)).addr k = (s.inodeOf i).addr k := fun k => by
    unfold Dinode.addr
    rw [haddrs]
  have hslot : ∀ k, slotAddr s.blocks (g (s.inodeOf i)) k = slotAddr s.blocks (s.inodeOf i) k :=
    slotAddr_congr (fun k _ => haddr k) fun _ => rfl
  have hbyte : byteAt s.blocks (g (s.inodeOf i)) = byteAt s.blocks (s.inodeOf i) :=
    funext (byteAt_congr (fun k _ => haddr k) fun _ _ _ => rfl)
  rw [wp_setDin]
  have hp : Pending st P ip i s { s with mem := s.mem.mapDin ip g } := by
    refine ⟨⟨rfl, rfl, rfl⟩, ⟨g (s.mem.itable ip).din, rfl⟩, ?_, ?_, fun _ _ => rfl,
      fun _ _ _ _ => rfl, fun _ _ _ _ _ _ _ => rfl, ?_⟩
    · rw [hf]
      exact h.core.setFields (fun k _ => haddr k)
        (by rw [hsize]; exact (h.core.fits i h.lt).1) (.inl htype) h.lt
    · intro j hj
      rw [hf, upd_other hj]
    · intro _ hdir
      rw [hf, upd_same] at hdir ⊢
      refine ⟨by rw [hsize]; exact hok.size, fun bn hbn hd => ?_, hdir⟩
      rw [hslot]
      exact hok.mapped bn (hsize ▸ hbn) hd
  refine hp.iupdate h ho fun hedits hnode _ _ => hQ _ hedits rfl ?_
  rw [hf, upd_same] at hnode
  exact hnode (by rw [htype]; exact h.type)

end

end Xv6.Fs
