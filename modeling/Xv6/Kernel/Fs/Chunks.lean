import Mathlib.Order.Interval.Finset.Nat
import Xv6.Kernel.Fs.Opened

/-! # Writes in chunks

`filewrite` cuts a write into pieces of three blocks, each in a transaction of its own. Here
is what one piece may log, and that the pieces together write what one `writei` would.
-/

namespace Xv6.Fs

open Lib

def writeChunk (f ip : Nat) (um : UserMem) (va n : Nat) : FsProg Int := do
  ilock ip
  let x ← file f
  let r ← writei ip (.user um va) x.off n
  if 0 < r then setFile f fun x => { x with off := (x.off + r.toNat) % 2 ^ 32 } else pure ()
  iunlock ip
  return r

def writeOnce (f ip : Nat) (um : UserMem) (va n : Nat) : FsProg Int := do
  beginOp
  let r ← writeChunk f ip um va n
  endOp
  return r

theorem filewriteFrom_succ (f ip : Nat) (um : UserMem) (addr n fuel i : Nat) :
    filewriteFrom f ip um addr n (fuel + 1) i =
      if i < n then do
        let r ← writeOnce f ip um ((addr + i) % 2 ^ 64) (min (n - i) maxWrite)
        if r ≠ (min (n - i) maxWrite : Nat) then return i
        else filewriteFrom f ip um addr n fuel (i + min (n - i) maxWrite)
      else return i := by
  rw [filewriteFrom, writeOnce, writeChunk]
  refine if_congr Iff.rfl ?_ rfl
  simp only [bind_assoc]
  congr 1
  funext _
  congr 1
  funext _
  congr 1
  funext x
  congr 1
  funext r
  split <;> simp only [bind_assoc, pure_bind]

/-! ## What a chunk logs -/

section

variable {I : Store → Prop} {E : Stop → Store → Prop} {nt : Prop} {L U : List Nat} {s t : Store}
  {f ip i off n : Nat}

/-- The places that a write works at, one after the other. -/
def covered (off n : Nat) : List Nat :=
  ((List.range ((off + n - 1) / bsize - off / bsize + 1)).map fun j =>
    dataSlot (off / bsize + j)) ++
    [nDirect]

theorem Covers.mem {k : Nat} (h : Covers off n k) : k ∈ covered off n := by
  obtain ⟨j, hj, hk⟩ := h
  have hlo : off / bsize ≤ (off + j) / bsize := Nat.div_le_div_right (by omega)
  have hhi : (off + j) / bsize ≤ (off + n - 1) / bsize := Nat.div_le_div_right (by omega)
  refine List.mem_append.mpr (hk.imp (fun hk => ?_) fun hk => List.mem_singleton.mpr hk.2)
  refine List.mem_map.mpr ⟨(off + j) / bsize - off / bsize, List.mem_range.mpr (by omega), ?_⟩
  rw [hk]
  congr 1
  omega

/-- The blocks that a write may log: that of the inode, those at the places, and the blocks of
the free map for places that were empty. -/
def footprint (s t : Store) (i off n : Nat) : List Nat :=
  iblock s.mem.sb i :: (covered off n).map (slotAddr t.blocks (t.inodeOf i)) ++
    ((covered off n).filter fun k => slotAddr s.blocks (s.inodeOf i) k = 0).map fun k =>
      bblock s.mem.sb (slotAddr t.blocks (t.inodeOf i) k)

theorem Written.footprint {st : Bool} {P : Nat → Prop} {src : Src} {tot cnt : Nat}
    (h : Written st P ip i src off n s tot cnt t) {b : Nat} (hb : b ∈ t.logged) :
    b ∈ s.logged ∨ b ∈ footprint s t i off n := by
  rcases h.logged b hb with hold | rfl | ⟨k, -, hc, -, rfl | ⟨hz, rfl⟩⟩
  · exact .inl hold
  · exact .inr (List.mem_append_left _ List.mem_cons_self)
  · exact .inr (List.mem_append_left _ (List.mem_cons_of_mem _ (List.mem_map_of_mem hc.mem)))
  · refine .inr (List.mem_append_right _ (List.mem_map.mpr ⟨k, ?_, rfl⟩))
    exact List.mem_filter.mpr ⟨hc.mem, by simpa using hz⟩

theorem maxWrite_blocks : maxWrite = 3 * bsize := rfl

/-- At most four blocks of a file are in a chunk, and the first of four is there already. -/
theorem footprint_length {blocks : Nat → Block} {x : Dinode} (hs : s.blocks = blocks)
    (hx : s.inodeOf i = x) (hoff : off ≤ x.size) (hn : n ≤ maxWrite)
    (hmapped : ∀ bn, bn * bsize < x.size → slotAddr blocks x (dataSlot bn) ≠ 0) :
    (footprint s t i off n).length ≤ maxOpBlocks := by
  have hb : bsize = 1024 := rfl
  have hmax : maxOpBlocks = 10 := rfl
  rw [maxWrite_blocks] at hn
  set c := (off + n - 1) / bsize - off / bsize + 1 with hc
  have hlen : (covered off n).length = c + 1 := by simp [covered, hc]
  have hnew : ((covered off n).filter fun k => slotAddr s.blocks (s.inodeOf i) k = 0).length ≤
      if c = 4 then 4 else c + 1 := by
    split
    · rename_i hfour
      -- four blocks: the write starts inside the first, which ends below the size
      have hin : off / bsize * bsize < x.size := by
        rw [hb] at hc ⊢
        omega
      have hfirst : covered off n = dataSlot (off / bsize) ::
          (((List.range 3).map fun j => dataSlot (off / bsize + (j + 1))) ++ [nDirect]) := by
        unfold covered
        rw [← hc, hfour]
        rfl
      rw [hfirst, List.filter_cons_of_neg (by rw [hs, hx]; simpa using hmapped _ hin)]
      refine (List.length_filter_le _ _).trans ?_
      simp
    · exact (List.length_filter_le _ _).trans (Nat.le_of_eq hlen)
  have hc4 : c ≤ 4 := by
    rw [hb] at hc
    omega
  unfold footprint
  rw [List.length_append, List.length_cons, List.length_map, List.length_map, hlen]
  split at hnew <;> omega

/-! ## One chunk -/

theorem Inv.setOff {st : Bool} (h : Inv st nt L U s) (f o : Nat)
    (ht : t = { s with mem := { s.mem with
      ftable := upd s.mem.ftable f { s.mem.ftable f with off := o } } }) :
    Inv st nt L U t := by
  have hft : t.mem.ftable = upd s.mem.ftable f { s.mem.ftable f with off := o } := by rw [ht]
  have hfile : ∀ g, (t.mem.ftable g).type = (s.mem.ftable g).type ∧
      (t.mem.ftable g).ip = (s.mem.ftable g).ip ∧ (t.mem.ftable g).ref = (s.mem.ftable g).ref ∧
      (t.mem.ftable g).writable = (s.mem.ftable g).writable := by
    intro g
    rw [hft]
    by_cases hg : g = f
    · rw [hg, upd_same]
      exact ⟨rfl, rfl, rfl, rfl⟩
    · rw [upd_other hg]
      exact ⟨rfl, rfl, rfl, rfl⟩
  have hrefs : ∀ ip, t.mem.fileRefs ip = s.mem.fileRefs ip := by
    intro ip
    unfold FsMem.fileRefs
    congr 1
    funext g
    rw [(hfile g).1, (hfile g).2.1]
  have hsame : t.mem.itable = s.mem.itable ∧ t.mem.sb = s.mem.sb ∧ t.mem.proc = s.mem.proc ∧
      t.blocks = s.blocks ∧ t.held = s.held ∧ t.touched = s.touched ∧ t.inodeOf = s.inodeOf ∧
      t.node = s.node := by
    rw [ht]
    exact ⟨rfl, rfl, rfl, rfl, rfl, rfl, rfl, rfl⟩
  obtain ⟨hit, hsb, hpr, hbl, hheld, htouch, hino, hnode⟩ := hsame
  constructor
  case disk => rw [hsb, hbl, hino]; exact h.disk
  case uniq =>
    unfold FsMem.Unique
    rw [hit]
    exact h.uniq
  case held => rw [hheld]; exact h.held
  case touched => rw [htouch]; exact h.touched
  case inum => rw [hit, hsb]; exact h.inum
  case coh =>
    intro ip i hh
    rw [hbl, hsb, hit]
    exact h.coh ip i ⟨hh.lt, hit ▸ hh.ref, hit ▸ hh.valid, hit ▸ hh.inum⟩
  case type =>
    intro ip i hh
    rw [hit]
    exact h.type ip i ⟨hh.lt, hit ▸ hh.ref, hit ▸ hh.valid, hit ▸ hh.inum⟩
  case refs =>
    intro ip hip
    rw [hit, hrefs]
    exact h.refs ip hip
  case lt => exact h.lt
  case alive =>
    intro ip hip hc
    rw [hino, hit]
    rw [hrefs] at hc
    exact h.alive ip hip hc
  case idle =>
    intro g hg
    rw [(hfile g).1, (hfile g).2.2.1]
    exact h.idle g hg
  case files =>
    intro g hg
    rw [(hfile g).1, (hfile g).2.1]
    exact h.files g hg
  case writers =>
    intro g hg
    rw [(hfile g).1, (hfile g).2.2.2, (hfile g).2.1, hino, hit]
    exact h.writers g hg
  case fds =>
    rw [hpr]
    exact h.fds
  case dirs =>
    rw [hnode]
    exact h.dirs

/-- What holds again when a chunk is written. -/
structure Rests (st : Bool) (nt : Prop) (L U : List Nat) (ip : Nat) (s t : Store) : Prop where
  inv : Inv st nt L U t
  free : (t.mem.itable ip).locked = false
  num : (t.mem.itable ip).inum = (s.mem.itable ip).inum
  sb : t.mem.sb = s.mem.sb
  ops : t.outstanding = s.outstanding

theorem Unread.trans {u : Store} (h : Unread s t) (h' : Unread t u) : Unread s u :=
  ⟨h'.blocks.trans h.blocks, h'.logged.trans h.logged, h'.inodes.trans h.inodes⟩

/-- A chunk is written to an open file. `s'` is the store once the inode
is locked, and `t'` the store when `writei` returns. -/
theorem writeChunk_runs {st : Bool} {Q : Int → Store → Prop} {um : UserMem} {va : Nat}
    (h : Inv st nt L U s) (ho : 1 ≤ s.outstanding) (hf : f < nFile)
    (hty : (s.mem.ftable f).type = .inode) (hwr : (s.mem.ftable f).writable = true)
    (hip : (s.mem.ftable f).ip = ip) (hnum : (s.mem.itable ip).inum = i)
    (hoff : (s.mem.ftable f).off = off)
    (hwait : (s.mem.itable ip).locked = true → E .deadlock s) (hn : n < 2 ^ 32)
    (hbad : ∀ t, WriteBad (s.node i).size off n → Rests st nt L U ip s t → Unread s t →
      t.mem.ftable = s.mem.ftable → Q (-1) t)
    (hQ : ∀ P tot cnt s' t' t, ¬ WriteBad (s.node i).size off n → Unread s s' →
      s'.mem.sb = s.mem.sb → Written st P ip i (.user um va) off n s' tot cnt t' → Unread t' t →
      Rests st nt L U ip s t → t.node = upd s.node i
        ((s.node i).written (.user um va) off tot cnt) →
      t.mem.ftable = (if 0 < tot then upd s.mem.ftable f
        { s.mem.ftable f with off := (off + tot) % 2 ^ 32 } else s.mem.ftable) → Q tot t) :
    wp I (writeChunk f ip um va n) Q E s := by
  obtain ⟨hlt, hpos, halive⟩ := h.file_entry hf hty
  have hwriter := h.writers f hf hty hwr
  rw [hip] at hlt hpos halive hwriter
  rw [hnum, ← s.node_type] at hwriter
  unfold writeChunk
  rw [wp_bind]
  refine ilock_runs h hlt hpos hwait (fun hz => absurd hz halive)
    fun s' hinv hnode hframe hh hlocked hun => ?_
  rw [hnum] at hh
  rw [wp_bind, wp_file, hframe.ftable, hoff, wp_bind]
  have hops : s'.Trans E := .inl (by rw [hframe.outstanding]; exact ho)
  have hnodir : (s'.node i).type ≠ tDir := by
    rw [hnode]
    exact hwriter
  -- the inode is unlocked in whatever state is left
  have hend : ∀ (r : Int) (t' : Store), Inv st nt L U t' → t'.mem.Holds ip i →
      (t'.mem.itable ip).locked = true →
      (∀ t, Inv st nt L U t → t.node = t'.node → Frame t' t → Unread t' t →
        t.mem.itable ip = { t'.mem.itable ip with locked := false } → Q r t) →
      wp I (do iunlock ip; return r) Q E t' := by
    intro r t' hinv' hh' hlk hdone
    rw [wp_bind]
    refine iunlock_runs hinv' hh'.lt hh'.ref (fun hopen => ?_)
      fun t ht hnode' hframe' hun' hentry =>
      (wp_pure r).mpr (hdone t ht hnode' hframe' hun' hentry)
    rw [hlk] at hopen
    cases hopen
  have hrests : ∀ {t' t : Store}, Inv st nt L U t → t'.mem.sb = s.mem.sb →
      t'.outstanding = s.outstanding → t'.mem.Holds ip i → Outline t' t →
      t.mem.itable ip = { t'.mem.itable ip with locked := false } → Rests st nt L U ip s t := by
    intro t' t hinv' hsb hout hh' hout' hentry
    refine ⟨hinv', by rw [hentry], ?_, hout'.sb.trans hsb, hout'.outstanding.trans hout⟩
    rw [hentry, hnum]
    exact hh'.inum
  refine writei_inv hops hinv hh hn (fun hd => absurd hd hnodir) (fun hb => ?_)
    fun P tot cnt t' hgood hw hd => ?_
  · rw [if_neg (by decide)]
    refine hend (-1) s' hinv hh hlocked fun t ht hnode' hframe' hun' hentry => ?_
    refine hbad t (hnode ▸ hb) (hrests ht hframe.sb hframe.outstanding hh hframe'.toOutline hentry)
      (hun.trans hun') ?_
    rw [hframe'.ftable, hframe.ftable]
  · have hlk : (t'.mem.itable ip).locked = true := by
      obtain ⟨x, hx⟩ := hw.edits.mem
      rw [hx, mapDin_same]
      exact hlocked
    have hsb := hd.outline.sb.trans hframe.sb
    have hout := hd.outline.outstanding.trans hframe.outstanding
    have hft := hd.outline.ftable.trans hframe.ftable
    have hnew : t'.node = upd s.node i ((s.node i).written (.user um va) off tot cnt) := by
      rw [hd.node, hnode]
      rfl
    rw [hnode] at hgood
    by_cases htot : 0 < tot
    · have hmoved : ∀ u : Store, u = { t' with mem := { t'.mem with
          ftable := upd t'.mem.ftable f { t'.mem.ftable f with off := (off + tot) % 2 ^ 32 } } } →
          wp I (do iunlock ip; return (tot : Int)) Q E u := by
        intro u hu
        have hhu : u.mem.Holds ip i := by
          rw [hu]
          exact ⟨hd.holds.lt, hd.holds.ref, hd.holds.valid, hd.holds.inum⟩
        refine hend tot u (hd.inv.setOff f _ hu) hhu (by rw [hu]; exact hlk)
          fun t ht hnode' hframe' hun' hentry => ?_
        refine hQ P tot cnt s' t' t hgood hun hframe.sb hw ?_ (hrests ht ?_ ?_ hhu hframe'.toOutline
          hentry) ?_ ?_
        · exact ⟨by rw [hun'.blocks, hu], by rw [hun'.logged, hu], by rw [hun'.inodes, hu]; rfl⟩
        · rw [hu]
          exact hsb
        · rw [hu]
          exact hout
        · rw [hnode', hu]
          exact hnew
        · rw [if_pos htot, hframe'.ftable, hu]
          show upd t'.mem.ftable f _ = _
          rw [hft]
      rw [if_pos (by exact_mod_cast htot), wp_bind, setFile, wp_setMem]
      refine hmoved _ ?_
      rw [hft, hoff]
      rfl
    · rw [if_neg (by exact_mod_cast htot)]
      refine hend tot t' hd.inv hd.holds hlk fun t ht hnode' hframe' hun' hentry => ?_
      refine hQ P tot cnt s' t' t hgood hun hframe.sb hw hun'
        (hrests ht hsb hout hd.holds hframe'.toOutline hentry) (hnode'.trans hnew) ?_
      rw [if_neg htot, hframe'.ftable, hft]

/-! ## Chunk after chunk -/

/-- What `m` bytes written from `off` on leave at the places of the inodes. -/
structure Taken (P : Nat → Prop) (i off m : Nat) (s t : Store) : Prop where
  base : Core P t.mem.sb t.blocks t.inodeOf
  others : ∀ j, j ≠ i → t.inodeOf j = s.inodeOf j
  apart : ∀ j < s.mem.sb.ninodes, j ≠ i → (s.inodeOf j).type ≠ 0 → ∀ k,
    slotAddr t.blocks (s.inodeOf j) k = slotAddr s.blocks (s.inodeOf j) k
  kept : ∀ k < nSlots, slotAddr s.blocks (s.inodeOf i) k ≠ 0 →
    slotAddr t.blocks (t.inodeOf i) k = slotAddr s.blocks (s.inodeOf i) k
  mapped : ∀ p, off ≤ p → p < off + m →
    slotAddr t.blocks (t.inodeOf i) (dataSlot (p / bsize)) ≠ 0
  fits : m = 0 ∨ off + m ≤ maxFile * bsize

/-- A write stopped after `tot` of `n` bytes, as there was no block left for the next one. -/
structure Stuck (i off n tot : Nat) (s t : Store) : Prop where
  full : t.Full
  hole : slotAddr t.blocks (t.inodeOf i) (dataSlot ((off + tot) / bsize)) = 0
  places : ∀ k < nSlots, ¬ Covers off n k →
    slotAddr t.blocks (t.inodeOf i) k = slotAddr s.blocks (s.inodeOf i) k

theorem Taken.refl {P : Nat → Prop} (h : Core P s.mem.sb s.blocks s.inodeOf) (i off : Nat) :
    Taken P i off 0 s s :=
  ⟨h, fun _ _ => rfl, fun _ _ _ _ _ => rfl, fun _ _ _ => rfl, fun p _ _ => by omega, .inl rfl⟩

theorem Taken.trans {P : Nat → Prop} {u : Store} {a b : Nat} (h : Taken P i off a s t)
    (h' : Taken P i (off + a) b t u) (hsb : t.mem.sb = s.mem.sb) : Taken P i off (a + b) s u := by
  have hfits := h.fits
  have hfits' := h'.fits
  refine ⟨h'.base, ?_, ?_, ?_, ?_, by omega⟩
  · intro j hj
    rw [h'.others j hj, h.others j hj]
  · intro j hj hji hty k
    have hlast := h'.apart j (hsb ▸ hj) hji (by rw [h.others j hji]; exact hty) k
    rw [h.others j hji] at hlast
    rw [hlast, h.apart j hj hji hty k]
  · intro k hk hne
    have hmid := h.kept k hk hne
    rw [h'.kept k hk (by rw [hmid]; exact hne), hmid]
  · intro p hlo hhi
    by_cases hp : p < off + a
    · have hne := h.mapped p hlo hp
      have hbn : p / bsize < maxFile := Nat.div_lt_of_lt_mul (by rw [Nat.mul_comm]; omega)
      rw [h'.kept _ (dataSlot_lt hbn) hne]
      exact hne
    · exact h'.mapped p (by omega) (by omega)

theorem Taken.congr {P : Nat → Prop} {s' t' : Store} {m : Nat} (h : Taken P i off m s t)
    (hs : s'.blocks = s.blocks ∧ s'.inodeOf = s.inodeOf ∧ s'.mem.sb = s.mem.sb)
    (ht : t'.blocks = t.blocks ∧ t'.inodeOf = t.inodeOf ∧ t'.mem.sb = t.mem.sb) :
    Taken P i off m s' t' := by
  obtain ⟨hsb, hsi, hss⟩ := hs
  obtain ⟨htb, hti, hts⟩ := ht
  constructor
  case base =>
    rw [htb, hti, hts]
    exact h.base
  case others =>
    rw [hti, hsi]
    exact h.others
  case apart =>
    rw [htb, hsb, hsi, hss]
    exact h.apart
  case kept =>
    rw [htb, hti, hsb, hsi]
    exact h.kept
  case mapped =>
    rw [htb, hti]
    exact h.mapped
  case fits => exact h.fits

theorem Unread.node (h : Unread s t) : t.node = s.node := by
  funext j
  unfold Store.node
  rw [h.inodes, h.blocks]

theorem Written.taken {st : Bool} {P P' : Nat → Prop} {src : Src} {tot cnt : Nat}
    (h : Written st P' ip i src off n s tot cnt t) (hP : Core P s.mem.sb s.blocks s.inodeOf)
    (hgood : off + n ≤ maxFile * bsize) : Taken P i off tot s t := by
  have hle := h.le
  have hsb : t.mem.sb = s.mem.sb := by
    obtain ⟨x, hx⟩ := h.edits.mem
    rw [hx]
    rfl
  -- the loose blocks are those of the state before
  obtain rfl : P' = P := by
    funext b
    rw [h.base.ledger.loose_iff b, hP.ledger.loose_iff b]
  exact ⟨hsb ▸ h.edits.core, h.edits.others, h.apart, h.kept, h.mapped, .inr (by omega)⟩

/-- Every place that the bytes need is filled: the indirect block too. -/
theorem Taken.covers {P : Nat → Prop} {k : Nat} (h : Taken P i off n s t) (hk : Covers off n k) :
    slotAddr t.blocks (t.inodeOf i) k ≠ 0 := by
  obtain ⟨j, hj, rfl | ⟨hind, rfl⟩⟩ := hk
  · exact h.mapped (off + j) (by omega) (by omega)
  · have hne := h.mapped (off + j) (by omega) (by omega)
    rw [dataSlot_indirect hind] at hne
    intro hz
    rw [slotAddr_direct _ _ (Nat.le_refl nDirect)] at hz
    refine hne ?_
    unfold slotAddr
    rw [if_neg (by omega), if_pos hz]

/-- If the chunks found a place for every byte then so does a single write. -/
theorem Stuck.absurd {P : Nat → Prop} {u : Store} {tot : Nat} (h : Stuck i off n tot s u)
    (hu : Taken P i off tot s u) (ht : Taken P i off n s t) (hlt : tot < n)
    (hi : i < s.mem.sb.ninodes) (hty : (s.inodeOf i).type ≠ 0)
    (htt : (t.inodeOf i).type = (s.inodeOf i).type)
    (hsbt : t.mem.sb = s.mem.sb) (hsbu : u.mem.sb = s.mem.sb) : False := by
  have hlt' := ht.base.ledger
  have hlu' := hu.base.ledger
  rw [hsbt] at hlt'
  rw [hsbu] at hlu'
  have hfits := ht.fits
  have hslot : dataSlot ((off + tot) / bsize) < nSlots :=
    dataSlot_lt (Nat.div_lt_of_lt_mul (by rw [Nat.mul_comm]; omega))
  have hfilled : placeOf s.mem.sb t.blocks t.inodeOf (i, dataSlot ((off + tot) / bsize)) = some _ :=
    placeOf_of_slotAddr hi hslot (by rw [htt]; exact hty)
      (ht.mapped (off + tot) (by omega) (by omega))
  have hall : ∀ b ∈ Finset.Ico s.mem.sb.nmeta s.mem.sb.size, usedBlock s.mem.sb u.blocks b := by
    intro b hb
    obtain ⟨hlo, hhi⟩ := Finset.mem_Ico.mp hb
    have hbit := h.full b (by rw [hsbu]; exact hhi)
    rw [hsbu] at hbit
    exact ⟨hlo, hhi, hbit⟩
  have hsub : ∀ x r, placeOf s.mem.sb u.blocks u.inodeOf x = some r →
      ∃ r', placeOf s.mem.sb t.blocks t.inodeOf x = some r' := by
    intro x r hx
    obtain ⟨j, k⟩ := x
    obtain ⟨hj, hk, htyj, hne, heq⟩ := placeOf_eq_some.mp hx
    dsimp only at hj hk htyj heq
    refine ⟨_, placeOf_of_slotAddr (k := k) hj hk ?_ ?_⟩
    · by_cases hji : j = i
      · rw [hji, htt]
        exact hty
      · rw [ht.others j hji, ← hu.others j hji]
        exact htyj
    · by_cases hji : j = i
      · rw [hji] at heq ⊢
        by_cases hc : Covers off n k
        · exact ht.covers hc
        · have hold := (h.places k hk hc).symm.trans heq
          rw [ht.kept k hk (by rw [hold]; exact hne), hold]
          exact hne
      · rw [hu.others j hji] at htyj heq
        rw [ht.others j hji, ht.apart j hj hji htyj, ← hu.apart j hj hji htyj, heq]
        exact hne
  obtain ⟨r, hr⟩ := hlt'.filled_of_full hlu'
    (fun b hb => Finset.mem_Ico.mpr ⟨hb.1, hb.2.1⟩) hall hsub hfilled
  obtain ⟨-, -, -, hne, heq⟩ := placeOf_eq_some.mp hr
  exact hne (heq.symm.trans h.hole)

/-- `m` bytes of a write that started in `s` are in the file. -/
structure Progress (st : Bool) (nt : Prop) (L U : List Nat) (P : Nat → Prop) (f ip i : Nat)
    (src : Src) (off m : Nat) (s t : Store) : Prop where
  rests : Rests st nt L U ip s t
  node : t.node = upd s.node i ((s.node i).written src off m 0)
  file : t.mem.ftable = upd s.mem.ftable f { s.mem.ftable f with off := off + m }
  taken : Taken P i off m s t

theorem Node.written_zero {x : Node} (h : off ≤ x.size) (src : Src) :
    x.written src off 0 0 = x := by
  unfold Node.written
  rw [Nat.add_zero, Nat.add_zero, splice_zero, Nat.max_eq_left h]

theorem Progress.start {st : Bool} {P : Nat → Prop} (h : Inv st nt L U s)
    (hP : Core P s.mem.sb s.blocks s.inodeOf) (hoff : (s.mem.ftable f).off = off)
    (hle : off ≤ (s.node i).size) (hfree : (s.mem.itable ip).locked = false) (src : Src) :
    Progress st nt L U P f ip i src off 0 s s := by
  refine ⟨⟨h, hfree, rfl, rfl, rfl⟩, ?_, ?_, Taken.refl hP i off⟩
  · rw [Node.written_zero hle, upd_self]
  · rw [Nat.add_zero, ← hoff]
    exact (upd_self _ _).symm

theorem Progress.once {st : Bool} {P : Nat → Prop} {um : UserMem} {addr m c : Nat}
    (h : Progress st nt L U P f ip i (.user um addr) off m s t) (ho : 0 ≤ s.outstanding)
    (hf : f < nFile) (hty : (s.mem.ftable f).type = .inode)
    (hwr : (s.mem.ftable f).writable = true) (hip : (s.mem.ftable f).ip = ip)
    (hnum : (s.mem.itable ip).inum = i) (hmap : um.Maps addr n) (hc : m + c ≤ n) (hn : n < 2 ^ 32) :
    wp (fun _ => True) (writeOnce f ip um ((addr + m) % 2 ^ 64) c)
      (fun r u => (r = -1 ∧ WriteBad (t.node i).size (off + m) c ∧
          Progress st nt L U P f ip i (.user um addr) off m s u) ∨
        ∃ tot : Nat, tot ≤ c ∧ r = tot ∧
          Progress st nt L U P f ip i (.user um addr) off (m + tot) s u ∧
          (tot < c → Stuck i (off + m) c tot t u))
      (fun _ _ => False) t := by
  obtain ⟨⟨hinv, hfree, hnum', hsb, hops⟩, hnode, hfile, htaken⟩ := h
  have hmine : t.mem.ftable f = { s.mem.ftable f with off := off + m } := by
    rw [hfile, upd_same]
  have hwhole : (Src.user um ((addr + m) % 2 ^ 64)).Whole c := Src.Mapped.whole (hmap.drop hc)
  unfold writeOnce
  rw [wp_bind, wp_beginOp, wp_bind]
  set b : Store := { t with outstanding := t.outstanding + 1 } with hb
  have hbegun : Inv st nt L U b := hinv.relog _ _ _ rfl
  have hfileb : b.mem.ftable f = { s.mem.ftable f with off := off + m } := hmine
  have hoffb : (b.mem.ftable f).off = off + m := by rw [hfileb]
  have hopen : 1 ≤ b.outstanding := by
    show 1 ≤ t.outstanding + 1
    omega
  have hend : ∀ {u : Store}, Rests st nt L U ip b u → Rests st nt L U ip s u.leave := by
    intro u hr
    refine ⟨hr.inv.relog _ _ _ rfl, hr.free, hr.num.trans hnum', hr.sb.trans hsb, ?_⟩
    show u.outstanding - 1 = s.outstanding
    rw [hr.ops, ← hops]
    exact Int.add_sub_cancel _ _
  have hfinish : ∀ {Q : Int → Store → Prop} (r : Int) (u : Store), Q r u.leave →
      wp (fun _ => True) (do endOp; return r) Q (fun _ _ => False) u := by
    intro Q r u hq
    rw [wp_bind, wp_endOp]
    exact ⟨fun _ => trivial, (wp_pure r).mpr hq⟩
  refine writeChunk_runs (i := i) hbegun hopen hf (by rw [hfileb]; exact hty)
    (by rw [hfileb]; exact hwr) (by rw [hfileb]; exact hip) (hnum'.trans hnum) hoffb
    (fun hlocked => ?_) (by omega) (fun u hbad hr hun hft => ?_)
    fun P' tot cnt s' t' u hgood hun hsb' hw hun' hr hnew hft => ?_
  · rw [show (b.mem.itable ip).locked = false from hfree] at hlocked
    cases hlocked
  · refine hfinish (-1) u (.inl ⟨rfl, hbad, hend hr, ?_, hft.trans hfile, ?_⟩)
    · show u.node = _
      rw [hun.node]
      exact hnode
    · exact htaken.congr ⟨rfl, rfl, rfl⟩ ⟨hun.blocks, hun.inodes, hr.sb⟩
  · have hfit : off + m + c ≤ maxFile * bsize := by
      unfold WriteBad at hgood
      omega
    have hmax : maxFile * bsize < 2 ^ 32 := by decide
    have hle := hw.le
    have hmore : Taken P i (off + m) tot s' t' := hw.taken
      (by rw [hun.blocks, hun.inodes, hsb']; exact htaken.base) hfit
    have hsbt : t'.mem.sb = s'.mem.sb := by
      obtain ⟨x, hx⟩ := hw.edits.mem
      rw [hx]
      rfl
    have hmore' : Taken P i (off + m) tot t u.leave := hmore.congr
      ⟨hun.blocks.symm, hun.inodes.symm, hsb'.symm⟩
      ⟨hun'.blocks, hun'.inodes, hr.sb.trans (hsb'.symm.trans hsbt.symm)⟩
    refine hfinish tot u (.inr ⟨tot, by omega, rfl, ⟨hend hr, ?_, ?_, htaken.trans hmore' hsb⟩,
      fun hlt => ⟨?_, ?_, ?_⟩⟩)
    · show u.node = _
      rw [hnew, hw.whole hwhole, show b.node = t.node from rfl, hnode, upd_same, upd_upd,
        Node.written_written]
    · show u.mem.ftable = _
      rw [hft, show b.mem.ftable = t.mem.ftable from rfl, hfile]
      split
      · rw [upd_upd, upd_same, Nat.mod_eq_of_lt (by omega), Nat.add_assoc]
      · rw [show tot = 0 by omega, Nat.add_zero]
    · intro a ha
      have hfull := (hw.short hlt).resolve_right fun hno => hno hwhole
      have hsame : u.leave.mem.sb = t'.mem.sb := hr.sb.trans (hsb'.symm.trans hsbt.symm)
      show bitOf u.leave.mem.sb u.blocks a = true
      rw [hsame, hun'.blocks]
      exact hfull a (hsame ▸ ha)
    · show slotAddr u.blocks (u.inodeOf i) _ = 0
      rw [hun'.blocks, hun'.inodes]
      exact hw.hole hwhole hlt
    · show ∀ k < nSlots, _ → slotAddr u.blocks (u.inodeOf i) k = slotAddr b.blocks (b.inodeOf i) k
      rw [hun'.blocks, hun'.inodes, ← hun.blocks, ← hun.inodes]
      exact hw.places

/-- Why a write of `n` bytes from `off` on stops after `k` of them. -/
def CutShort (i off n k : Nat) (t : Store) : Prop :=
  maxFile * bsize < off + n ∨
    t.Full ∧ slotAddr t.blocks (t.inodeOf i) (dataSlot ((off + k) / bsize)) = 0

/-- The loop of `filewrite`: it writes all that is left, or stops short of it for a reason. -/
theorem Progress.loop {st : Bool} {P : Nat → Prop} {um : UserMem} {addr : Nat}
    (ho : 0 ≤ s.outstanding) (hf : f < nFile) (hty : (s.mem.ftable f).type = .inode)
    (hwr : (s.mem.ftable f).writable = true) (hip : (s.mem.ftable f).ip = ip)
    (hnum : (s.mem.itable ip).inum = i) (hmap : um.Maps addr n) (hn : n < 2 ^ 32) (fuel m : Nat)
    (t : Store) (h : Progress st nt L U P f ip i (.user um addr) off m s t) (hm : m ≤ n)
    (hfuel : n ≤ fuel + m) :
    wp (fun _ => True) (filewriteFrom f ip um addr n fuel m)
      (fun r u => r ≤ n ∧ ∃ k ≤ n, (k = n ↔ r = n) ∧ (k < n → CutShort i off n k u) ∧
        Progress st nt L U P f ip i (.user um addr) off k s u) (fun _ _ => False) t := by
  induction fuel generalizing m t with
  | zero =>
    rw [filewriteFrom, wp_pure]
    exact ⟨hm, m, hm, Iff.rfl, fun hlt => by omega, h⟩
  | succ fuel ih =>
    rw [filewriteFrom_succ]
    refine wp_ite (fun hlt => ?_) fun hge => ?_
    · have hpos : 0 < maxWrite := by decide
      have hmax : maxFile * bsize < 2 ^ 32 := by decide
      refine wp_seq (h.once ho hf hty hwr hip hnum hmap (c := min (n - m) maxWrite) (by omega) hn)
        fun r u hr => ?_
      rcases hr with ⟨rfl, hbad, hu⟩ | ⟨tot, htot, rfl, hu, hstuck⟩
      · have hsize : off + m ≤ (t.node i).size := by
          rw [h.node, upd_same]
          exact Nat.le_max_right _ _
        have hcut : maxFile * bsize < off + n := by
          unfold WriteBad at hbad
          omega
        rw [if_pos (by omega), wp_pure]
        exact ⟨hm, m, hm, Iff.rfl, fun _ => .inl hcut, hu⟩
      · refine wp_ite (fun hshort => ?_) fun hall => ?_
        · have hstop := hstuck (by omega)
          rw [wp_pure]
          refine ⟨hm, m + tot, by omega, by omega, fun _ => .inr ⟨hstop.full, ?_⟩, hu⟩
          rw [← Nat.add_assoc]
          exact hstop.hole
        · have heq : tot = min (n - m) maxWrite := by omega
          rw [heq] at hu
          exact ih _ _ hu (by omega) (by omega)
    · rw [wp_pure]
      exact ⟨hm, m, hm, Iff.rfl, fun hlt => by omega, h⟩

/-- More fuel than bytes changes nothing: every turn of the loop writes some. -/
theorem filewriteFrom_fuel (f ip : Nat) (um : UserMem) (addr n k : Nat) (fuel m : Nat)
    (hfuel : n ≤ fuel + m) :
    filewriteFrom f ip um addr n (fuel + k) m = filewriteFrom f ip um addr n fuel m := by
  induction fuel generalizing m with
  | zero =>
    cases k with
    | zero => rfl
    | succ k =>
      rw [Nat.zero_add, filewriteFrom_succ, if_neg (by omega), filewriteFrom]
  | succ fuel ih =>
    have hpos : 0 < maxWrite := by decide
    rw [Nat.add_right_comm, filewriteFrom_succ, filewriteFrom_succ]
    refine if_ctx_congr Iff.rfl (fun hlt => ?_) fun _ => rfl
    rw [ih _ (by omega)]

theorem writeOnce_refused {st : Bool} {um : UserMem} {va : Nat} (h : Inv st nt L U s)
    (ho : 0 ≤ s.outstanding) (hf : f < nFile) (hty : (s.mem.ftable f).type = .inode)
    (hwr : (s.mem.ftable f).writable = true) (hip : (s.mem.ftable f).ip = ip)
    (hnum : (s.mem.itable ip).inum = i) (hoff : (s.mem.ftable f).off = off)
    (hfree : (s.mem.itable ip).locked = false) (hn : n < 2 ^ 32)
    (hbad : WriteBad (s.node i).size off n) :
    wp (fun _ => True) (writeOnce f ip um va n)
      (fun r u => r = -1 ∧ u.node = s.node ∧ u.mem.ftable = s.mem.ftable) (fun _ _ => False) s := by
  unfold writeOnce
  rw [wp_bind, wp_beginOp, wp_bind]
  set b : Store := { s with outstanding := s.outstanding + 1 } with hb
  have hopen : 1 ≤ b.outstanding := by
    show 1 ≤ s.outstanding + 1
    omega
  refine writeChunk_runs (h.relog _ _ _ rfl : Inv st nt L U b) hopen hf hty hwr hip hnum hoff
    (fun hlocked => ?_) hn (fun u _ _ hun hft => ?_)
    fun P tot cnt s' t' u hgood _ _ _ _ _ _ _ => absurd hbad hgood
  · rw [show (b.mem.itable ip).locked = false from hfree] at hlocked
    cases hlocked
  · rw [wp_bind, wp_endOp, wp_pure]
    exact ⟨fun _ => trivial, rfl, hun.node, hft⟩

end

end Xv6.Fs
