import Xv6.Kernel.Fs.Table

/-! # Inodes under the invariant

First the operations on the contents and the fields of one inode, then those on
references. `iget` adds a reference whose inode may turn out to be free; `ilock`
finds out; `iput` takes a reference away and frees the inode if it was the last one
to an inode without links.
-/

namespace Xv6.Fs

open Lib

section

variable {I : Store → Prop} {E : Stop → Store → Prop} {st : Bool} {nt : Prop} {L U : List Nat}
  {s t u : Store} {ip i : Nat}

theorem Outline.trans' (h : Outline s t) (ho : s.Trans E) : t.Trans E := by
  unfold Store.Trans
  rw [h.outstanding]
  exact ho

/-! ## One inode -/

theorem Edits.node_upd {P : Nat → Prop} (he : Edits st P ip i s t) :
    t.node = upd s.node i (t.node i) := by
  funext j
  by_cases hj : j = i
  · rw [hj, upd_same]
  · rw [upd_other hj, he.node j hj]

theorem Edits.holds {P : Nat → Prop} (he : Edits st P ip i s t) (hh : s.mem.Holds ip i) :
    t.mem.Holds ip i ∧ ∀ jp, (t.mem.itable jp).ref = (s.mem.itable jp).ref := by
  obtain ⟨x, hx⟩ := he.mem
  rw [hx]
  exact ⟨mapDin_holds.mpr hh, fun jp => (mapDin_fields _ _ _ jp).1⟩

/-- What an operation on the inode in entry `ip` leaves under the invariant: its node is
`n`. -/
structure Did (st : Bool) (nt : Prop) (L U : List Nat) (ip i : Nat) (n : Node) (s t : Store) :
    Prop where
  inv : Inv st nt L U t
  outline : Outline s t
  node : t.node = upd s.node i n
  holds : t.mem.Holds ip i
  ref : ∀ jp, (t.mem.itable jp).ref = (s.mem.itable jp).ref

theorem Inv.did {P : Nat → Prop} {n : Node} (h : Inv st nt L U s) (hP : st = true → ∀ b, ¬ P b)
    (hd : Disk st P s.mem.sb s.blocks s.inodeOf) (hh : s.mem.Holds ip i)
    (he : Edits st P ip i s t) (hn : nodeOf t.blocks (t.inodeOf i) = n)
    (htype : n.type = (s.node i).type) (hdir : NodeOk s.mem.sb n) : Did st nt L U ip i n s t := by
  have hs := h.active hd hh
  have ht : (t.inodeOf i).type = (s.inodeOf i).type := by
    rw [← s.node_type, ← htype, ← hn]
    rfl
  have hnode : t.node i = n := by
    rw [Store.node_of_type (by rw [ht]; exact hs.type), hn]
  refine ⟨h.edits hP hd hh he ht (by rw [hnode]; exact hdir), he.outline, ?_, (he.holds hh).1,
    (he.holds hh).2⟩
  rw [he.node_upd, hnode]

theorem Inv.node_holds (h : Inv st nt L U s) (hh : s.mem.Holds ip i) :
    s.node i = nodeOf s.blocks (s.inodeOf i) ∧ (s.node i).type ≠ 0 ∧
      (s.mem.itable ip).din = s.inodeOf i := by
  obtain ⟨P, -, hd⟩ := h.disk
  have hs := h.active hd hh
  rw [s.node_type]
  exact ⟨Store.node_of_type hs.type, hs.type, hs.din⟩

theorem itrunc_inv {Q : Unit → Store → Prop} (ho : s.Trans E) (h : Inv st nt L U s)
    (hh : s.mem.Holds ip i)
    (hQ : ∀ t, Did st nt L U ip i { s.node i with size := 0, byte := fun _ => 0 } s t →
      t.broken = s.broken → (∀ k ≤ nDirect, (t.inodeOf i).addr k = 0) → Q () t) :
    wp I (itrunc ip) Q E s := by
  obtain ⟨P, hP, hd⟩ := h.disk
  obtain ⟨hnode, -, -⟩ := h.node_holds hh
  refine itrunc_spec st (h.active hd hh) ho fun t he hbr hempty haddr _ => hQ t ?_ hbr haddr
  rw [hnode]
  refine h.did hP hd hh he hempty (by rw [hnode]) ⟨fun _ j hj => ?_, fun _ => Nat.zero_mod _⟩
  exact absurd hj (by simp [direntSize])

theorem update_inv {Q : Unit → Store → Prop} {g : Dinode → Dinode} (ho : s.Trans E)
    (h : Inv st nt L U s) (hh : s.mem.Holds ip i)
    (hg : ∀ x, (g x).addrs = x.addrs ∧ (g x).type = x.type ∧ (g x).size = x.size)
    (hQ : ∀ t, Did st nt L U ip i { s.node i with
      major := (g (s.inodeOf i)).major, minor := (g (s.inodeOf i)).minor
      nlink := (g (s.inodeOf i)).nlink } s t → t.broken = s.broken → Q () t) :
    wp I (setDin ip g) (fun _ t => wp I (iupdate ip) Q E t) E s := by
  obtain ⟨P, hP, hd⟩ := h.disk
  obtain ⟨hnode, htype, -⟩ := h.node_holds hh
  have hs := h.active hd hh
  have hok := hd.ok i hs.lt hs.type
  refine update_spec hs hok ho hg fun t he hbr hn => hQ t ?_ hbr
  obtain ⟨haddrs, hty, hsize⟩ := hg (s.inodeOf i)
  have haddr : ∀ k, (g (s.inodeOf i)).addr k = (s.inodeOf i).addr k := fun k => by
    unfold Dinode.addr
    rw [haddrs]
  have hbyte : byteAt s.blocks (g (s.inodeOf i)) = byteAt s.blocks (s.inodeOf i) :=
    funext (byteAt_congr (fun k _ => haddr k) fun _ _ _ => rfl)
  refine h.did hP hd hh he ?_ rfl ?_
  · rw [hn, hnode]
    unfold nodeOf
    rw [hbyte, hty, hsize]
  · refine ⟨?_, h.dirs i⟩
    rw [hnode]
    exact hok.dirs

/-! ## References -/

theorem Inv.file_entry {f : Nat} (h : Inv st nt L U s) (hf : f < nFile)
    (hty : (s.mem.ftable f).type = .inode) :
    (s.mem.ftable f).ip < nInode ∧ 0 < (s.mem.itable (s.mem.ftable f).ip).ref ∧
      (s.inodeOf (s.mem.itable (s.mem.ftable f).ip).inum).type ≠ 0 := by
  have hip := h.files f hf (.inl hty)
  have hpos : 0 < s.mem.fileRefs (s.mem.ftable f).ip := by
    refine List.countP_pos_iff.mpr ⟨f, List.mem_range.mpr hf, ?_⟩
    simp [hty]
  refine ⟨hip, ?_, h.alive _ hip (.inl hpos)⟩
  rw [h.refs _ hip]
  omega

theorem count_cons_add (n : Nat) (l : List Nat) (jp : Nat) {d : Int} (hd : d = 1) :
    ((n + (ip :: l).count jp : Nat) : Int) = (n + l.count jp : Nat) + if jp = ip then d else 0 := by
  rw [List.count_cons, hd]
  by_cases heq : jp = ip
  · subst heq
    simp
    omega
  · rw [if_neg (by simpa using Ne.symm heq), if_neg heq]
    simp

/-- One more reference to an inode, which may be free. -/
theorem Inv.more (h : Inv st nt L U s) (hip : ip < nInode) (hpos : 0 < (s.mem.itable ip).ref)
    (hal : nt → ip ∈ U ∨ (s.inodeOf (s.mem.itable ip).inum).type ≠ 0) {t : Store}
    (ht : t = { s with
      mem := s.mem.setEntry ip { s.mem.itable ip with ref := (s.mem.itable ip).ref + 1 } }) :
    Inv st nt L (ip :: U) t ∧ t.node = s.node ∧ Frame s t := by
  refine h.setEntry L (ip :: U) { s.mem.itable ip with ref := (s.mem.itable ip).ref + 1 } hip hpos
    (Int.lt_add_one_of_le (Int.le_of_lt hpos)) ⟨rfl, rfl, rfl⟩
    (fun jp => count_cons_add _ _ _ (by simp)) (fun jp hc => ?_) ht
  rcases hc with hL | ⟨hn, hU⟩
  · exact .inl hL
  · rcases List.mem_cons.mp hU with rfl | hU
    · exact .inr ((hal hn).imp (⟨hn, ·⟩) (⟨rfl, ·⟩))
    · exact .inr (.inl ⟨hn, hU⟩)

/-- Every entry of the inode table is in use. -/
def FsMem.NoEntry (m : FsMem) : Prop := ∀ ip < nInode, 0 < (m.itable ip).ref

theorem iget_spec {Q : Nat → Store → Prop}
    (hfull : s.mem.NoEntry → E (.panic "iget: no inodes") s)
    (h : Inv st nt L U s) (hi : i < s.mem.sb.ninodes) (hal : nt → (s.inodeOf i).type ≠ 0)
    (hQ : ∀ ip t, Inv st nt L (ip :: U) t → t.node = s.node → Frame s t →
      (t.mem.itable ip).inum = i → Q ip t) : wp I (iget i) Q E s := by
  simp only [iget, wp_bind, wp_mem]
  cases hf : (List.range nInode).find? fun ip =>
      0 < (s.mem.itable ip).ref ∧ (s.mem.itable ip).inum = i with
  | some ip =>
      have hp := List.find?_some hf
      have hip := List.mem_range.mp (List.mem_of_find?_eq_some hf)
      simp only [decide_eq_true_eq] at hp
      simp only [wp_bind, wp_setInode, wp_pure]
      obtain ⟨hinv, hnode, hframe⟩ := h.more hip hp.1 (fun hn => .inr (hp.2.symm ▸ hal hn)) rfl
      exact hQ ip _ hinv hnode hframe (by rw [setEntry_same]; exact hp.2)
  | none =>
      have hnew : ∀ jp < nInode, 0 < (s.mem.itable jp).ref → (s.mem.itable jp).inum ≠ i := by
        intro jp hjp hpos heq
        have hn := List.find?_eq_none.mp hf jp (List.mem_range.mpr hjp)
        simp [hpos, heq] at hn
      cases hf' : (List.range nInode).find? fun ip => (s.mem.itable ip).ref = 0 with
      | some ip =>
          have hp := List.find?_some hf'
          have hip := List.mem_range.mp (List.mem_of_find?_eq_some hf')
          simp only [decide_eq_true_eq] at hp
          simp only [wp_bind, wp_setInode, wp_pure]
          obtain ⟨hinv, hnode, hframe⟩ := h.newEntry
            { s.mem.itable ip with inum := i, ref := 1, valid := false } hip hp hi
            ⟨rfl, rfl, rfl⟩ hnew hal rfl
          exact hQ ip _ hinv hnode hframe (by rw [setEntry_same])
      | none =>
          rw [wp_panic]
          refine hfull fun jp hjp => ?_
          have hne := List.find?_eq_none.mp hf' jp (List.mem_range.mpr hjp)
          have hcount := h.refs jp hjp
          simp only [decide_eq_true_eq] at hne
          omega

theorem idup_spec {Q : Nat → Store → Prop} (h : Inv st nt L U s) (hip : ip ∈ L)
    (hQ : ∀ t, Inv st nt (ip :: L) U t → t.node = s.node → Frame s t → Q ip t) :
    wp I (idup ip) Q E s := by
  have hpos := h.ref_pos (.inl hip)
  simp only [idup, wp_bind, wp_setInode, wp_pure]
  have halive : ∀ jp, jp ∈ ip :: L ∨ nt ∧ jp ∈ U → jp ∈ L ∨ (nt ∧ jp ∈ U) ∨
      jp = ip ∧ (s.inodeOf (s.mem.itable ip).inum).type ≠ 0 := by
    intro jp hc
    rcases hc with hL | hU
    · rcases List.mem_cons.mp hL with rfl | hL
      · exact .inl hip
      · exact .inl hL
    · exact .inr (.inl hU)
  obtain ⟨hinv, hnode, hframe⟩ := h.setEntry (ip :: L) U
    { s.mem.itable ip with ref := (s.mem.itable ip).ref + 1 } (h.lt ip (.inl hip)) hpos
    (Int.lt_add_one_of_le (Int.le_of_lt hpos)) ⟨rfl, rfl, rfl⟩
    (fun jp => by
      rw [Nat.add_comm, Nat.add_comm (L.count jp)]
      exact count_cons_add _ _ _ (by simp)) halive rfl
  exact hQ _ hinv hnode hframe

/-- A second reference to an inode that may be free. -/
theorem idup_more {Q : Nat → Store → Prop} (h : Inv st nt L U s) (hip : ip ∈ U)
    (hQ : ∀ t, Inv st nt L (ip :: U) t → t.node = s.node → Frame s t → Q ip t) :
    wp I (idup ip) Q E s := by
  simp only [idup, wp_bind, wp_setInode, wp_pure]
  obtain ⟨hinv, hnode, hframe⟩ :=
    h.more (h.lt ip (.inr hip)) (h.ref_pos (.inr hip)) (fun _ => .inl hip) rfl
  exact hQ _ hinv hnode hframe

theorem Inv.setLocked (h : Inv st nt L U s) (hip : ip < nInode)
    (hpos : 0 < (s.mem.itable ip).ref) (b : Bool)
    (ht : t = { s with mem := s.mem.setEntry ip { s.mem.itable ip with locked := b } }) :
    Inv st nt L U t ∧ t.node = s.node ∧ Frame s t :=
  h.setEntry L U { s.mem.itable ip with locked := b } hip hpos hpos ⟨rfl, rfl, rfl⟩
    (fun jp => by simp) (fun jp hc => hc.imp id .inl) ht

theorem Inv.tidy (h : Inv st nt L U s) : s.Tidy := by
  intro b hb
  rw [h.touched] at hb
  cases hb

theorem acquiresleep_spec {Q : Unit → Store → Prop}
    (hwait : (s.mem.itable ip).locked = true → E .deadlock s) (h : Inv st nt L U s)
    (hh : s.mem.Holds ip i)
    (hQ : ∀ t, Inv st nt L U t → t.node = s.node → Frame s t → t.mem.Holds ip i →
      (∀ jp, (t.mem.itable jp).ref = (s.mem.itable jp).ref) → Q () t) :
    wp I (acquiresleep ip) Q E s := by
  simp only [acquiresleep, wp_bind, wp_inode]
  refine wp_ite (fun hlocked => ?_) fun _ => ?_
  · rw [wp_stop]
    exact hwait hlocked
  · rw [wp_setInode]
    obtain ⟨hinv, hnode, hframe⟩ := h.setLocked hh.lt hh.ref true rfl
    have hentry : ∀ jp, ((s.mem.setEntry ip { s.mem.itable ip with locked := true }).itable jp) =
        { s.mem.itable jp with locked := decide (jp = ip) || (s.mem.itable jp).locked } := by
      intro jp
      by_cases hjp : jp = ip
      · subst hjp
        simp
      · rw [setEntry_other hjp]
        simp [hjp]
    refine hQ _ hinv hnode hframe ⟨hh.lt, ?_, ?_, ?_⟩ fun jp => ?_
    · rw [hentry]
      exact hh.ref
    · rw [hentry]
      exact hh.valid
    · rw [hentry]
      exact hh.inum
    · rw [hentry]

theorem wp_loadDin {b : Nat} {f : Block → Dinode} {Q : Block → Store → Prop} (ht : s.Tidy)
    (hb : b ∉ s.held) (hl : s.mem.sb.inLog b = false)
    (hQ : Q (s.blocks b) { s with mem := s.mem.mapDin ip fun _ => f (s.blocks b) }) :
    wp I (bread b) (fun _ t => wp I (load b) (fun d t => wp I (setDin ip fun _ => f d)
      (fun _ t => wp I (brelse b) (fun _ t => Q d t) E t) E t) E t) E s := by
  refine wp_peek hb ?_
  rw [wp_load, wp_setDin]
  exact wp_done (s := { s with mem := s.mem.mapDin ip fun _ => f (s.blocks b) }) ht hb hl hQ

/-- The lock of an entry is not read by anything that looks for an inode. -/
theorem inodeOf_setLocked (s : Store) (ip : Nat) (b : Bool) :
    Store.inodeOf { s with mem := s.mem.setEntry ip { s.mem.itable ip with locked := b } } =
      s.inodeOf := by
  set x : Inode := { s.mem.itable ip with locked := b } with hx
  have hentry : ∀ jp, ((s.mem.setEntry ip x).itable jp).inum = (s.mem.itable jp).inum ∧
      ((s.mem.setEntry ip x).itable jp).ref = (s.mem.itable jp).ref ∧
      ((s.mem.setEntry ip x).itable jp).valid = (s.mem.itable jp).valid ∧
      ((s.mem.setEntry ip x).itable jp).din = (s.mem.itable jp).din := by
    intro jp
    by_cases hjp : jp = ip
    · rw [hjp, setEntry_same]
      exact ⟨rfl, rfl, rfl, rfl⟩
    · rw [setEntry_other hjp]
      exact ⟨rfl, rfl, rfl, rfl⟩
  funext j
  unfold Store.inodeOf FsMem.slotOf
  simp only [hentry]
  rfl

/-- What only reading leaves alone. -/
structure Unread (s t : Store) : Prop where
  blocks : t.blocks = s.blocks
  logged : t.logged = s.logged
  inodes : t.inodeOf = s.inodeOf

/-- `ilock` leaves a valid copy in the entry, which is locked. -/
theorem ilock_runs {Q : Unit → Store → Prop} (h : Inv st nt L U s) (hip : ip < nInode)
    (hpos : 0 < (s.mem.itable ip).ref) (hwait : (s.mem.itable ip).locked = true → E .deadlock s)
    (hno : (s.inodeOf (s.mem.itable ip).inum).type = 0 → ∀ t, E (.panic "ilock: no type") t)
    (hQ : ∀ t, Inv st nt L U t → t.node = s.node → Frame s t →
      t.mem.Holds ip (s.mem.itable ip).inum → (t.mem.itable ip).locked = true → Unread s t →
      Q () t) : wp I (ilock ip) Q E s := by
  simp only [ilock, acquiresleep, wp_bind, wp_superblock, wp_inode]
  rw [if_neg (by omega)]
  simp only [wp_bind, wp_inode]
  refine wp_ite (fun hlocked => by rw [wp_stop]; exact hwait hlocked) fun _ => ?_
  rw [wp_setInode]
  obtain ⟨hlock, hnode, hframe⟩ := h.setLocked hip hpos true rfl
  have hsame : (s.mem.setEntry ip { s.mem.itable ip with locked := true }).itable ip =
      { s.mem.itable ip with locked := true } := setEntry_same _ _ _
  refine wp_ite (fun hval => ?_) fun hval => ?_
  · rw [wp_pure]
    exact hQ _ hlock hnode hframe ⟨hip, by rw [hsame]; exact hpos, by rw [hsame]; exact hval,
      by rw [hsame]⟩ (by rw [hsame]) ⟨rfl, rfl, inodeOf_setLocked s ip true⟩
  · simp only [wp_bind]
    have hfree : iblock s.mem.sb (s.mem.itable ip).inum ∉ s.held := by
      rw [h.held]
      exact List.not_mem_nil
    obtain ⟨P, -, hd⟩ := h.disk
    refine wp_loadDin hlock.tidy hfree (hd.core.sbOk.iblock_not_log _) ?_
    rw [wp_setInode]
    have hstate : Store.mk s.blocks s.held s.outstanding s.logged s.touched s.broken
        (((s.mem.setEntry ip { s.mem.itable ip with locked := true }).mapDin ip fun _ =>
          diskInode s.mem.sb s.blocks (s.mem.itable ip).inum).setEntry ip
          { ((s.mem.setEntry ip { s.mem.itable ip with locked := true }).mapDin ip fun _ =>
            diskInode s.mem.sb s.blocks (s.mem.itable ip).inum).itable ip with valid := true }) =
        { s with mem := s.mem.setEntry ip ⟨(s.mem.itable ip).inum,
          (s.mem.itable ip).ref, true, true,
          diskInode s.mem.sb s.blocks (s.mem.itable ip).inum⟩ } := by
      simp [FsMem.setEntry, FsMem.mapDin]
    refine (congrArg (wp I _ Q E) hstate).mpr ?_
    have hi := h.inum ip hip hpos
    have hdisk : s.inodeOf (s.mem.itable ip).inum =
        diskInode s.mem.sb s.blocks (s.mem.itable ip).inum := by
      refine inodeOf_of_not_holds hi fun jp hh => ?_
      obtain rfl := h.uniq jp ip hh.lt hip hh.ref hpos hh.inum
      exact hval hh.valid
    refine wp_ite (fun hz => ?_) fun hnz => ?_
    · rw [wp_panic]
      exact hno (by rw [hdisk]; exact hz) _
    · rw [wp_pure]
      obtain ⟨hinv, hnode', hframe', hinodes⟩ := h.load
        ⟨(s.mem.itable ip).inum, (s.mem.itable ip).ref, true, true,
          diskInode s.mem.sb s.blocks (s.mem.itable ip).inum⟩ hip hpos (by simpa using hval)
        ⟨rfl, rfl, rfl, rfl⟩ hnz rfl
      exact hQ _ hinv hnode' hframe' ⟨hip, by rw [setEntry_same]; exact hpos,
        by rw [setEntry_same], by rw [setEntry_same]⟩ (by rw [setEntry_same]) ⟨rfl, rfl, hinodes⟩

theorem ilock_spec {Q : Unit → Store → Prop} (hE : Benign st nt E) (h : Inv st nt L U s)
    (hip : ip < nInode) (hpos : 0 < (s.mem.itable ip).ref)
    (hno : (s.inodeOf (s.mem.itable ip).inum).type = 0 → ∀ t, E (.panic "ilock: no type") t)
    (hQ : ∀ t, Inv st nt L U t → t.node = s.node → Frame s t →
      t.mem.Holds ip (s.mem.itable ip).inum → Q () t) : wp I (ilock ip) Q E s :=
  ilock_runs h hip hpos (fun _ => hE.deadlock s) hno fun t hinv hnode hframe hh _ _ =>
    hQ t hinv hnode hframe hh

theorem iunlock_runs {Q : Unit → Store → Prop} (h : Inv st nt L U s) (hip : ip < nInode)
    (hpos : 0 < (s.mem.itable ip).ref)
    (hbad : (s.mem.itable ip).locked = false → E (.panic "iunlock") s)
    (hQ : ∀ t, Inv st nt L U t → t.node = s.node → Frame s t → Unread s t →
      t.mem.itable ip = { s.mem.itable ip with locked := false } → Q () t) :
    wp I (iunlock ip) Q E s := by
  simp only [iunlock, releasesleep, wp_bind, wp_inode]
  refine wp_ite (fun hc => ?_) fun _ => ?_
  · rw [wp_panic]
    exact hbad (by simpa using hc.resolve_right (by omega))
  · rw [wp_setInode]
    obtain ⟨hinv, hnode, hframe⟩ := h.setLocked hip hpos false rfl
    exact hQ _ hinv hnode hframe ⟨rfl, rfl, inodeOf_setLocked s ip false⟩ (setEntry_same _ _ _)

theorem iunlock_spec {Q : Unit → Store → Prop} (hE : Benign st nt E) (h : Inv st nt L U s)
    (hip : ip < nInode) (hpos : 0 < (s.mem.itable ip).ref)
    (hQ : ∀ t, Inv st nt L U t → t.node = s.node → Frame s t → Q () t) :
    wp I (iunlock ip) Q E s :=
  iunlock_runs h hip hpos (fun _ => hE.panic _ (by cases st <;> decide) (by decide) s)
    fun t hinv hnode hframe _ _ => hQ t hinv hnode hframe

/-- A reference turns out to be to an allocated inode. -/
theorem Inv.promote (h : Inv st nt L (ip :: U) s)
    (ht : (s.inodeOf (s.mem.itable ip).inum).type ≠ 0) : Inv st nt (ip :: L) U s := by
  refine ⟨h.disk, h.uniq, h.held, h.touched, h.inum, h.coh, h.type, ?_, ?_, ?_, h.idle, h.files,
    h.writers, h.fds, h.dirs⟩
  · intro jp hjp
    rw [h.refs jp hjp, List.count_cons, List.count_cons]
    omega
  · intro jp hjp
    refine h.lt jp ?_
    rcases hjp with hL | hU
    · exact (List.mem_cons.mp hL).elim (fun heq => .inr (heq ▸ List.mem_cons_self)) .inl
    · exact .inr (List.mem_cons_of_mem _ hU)
  · intro jp hjp hc
    rcases hc with hf | hL | ⟨hn, hU⟩
    · exact h.alive jp hjp (.inl hf)
    · rcases List.mem_cons.mp hL with rfl | hL
      · exact ht
      · exact h.alive jp hjp (.inr (.inl hL))
    · exact h.alive jp hjp (.inr (.inr ⟨hn, List.mem_cons_of_mem _ hU⟩))

/-- The test of `iput`: the last reference to an inode without links goes. -/
def FsMem.LastRef (m : FsMem) (ip : Nat) : Prop :=
  (m.itable ip).ref = 1 ∧ (m.itable ip).valid = true ∧ (m.itable ip).din.nlink = 0

/-- What `iput` does to the inodes: nothing, or the inode had no links and this was the last
reference. -/
def Put (ip i : Nat) (s t : Store) : Prop :=
  ¬ s.mem.LastRef ip ∧ t.node = s.node ∨
    (s.mem.itable ip).ref = 1 ∧ (s.node i).type ≠ 0 ∧ (s.node i).nlink = 0 ∧
      t.node = upd s.node i Node.free

structure OneLess (ip : Nat) (L U L' U' : List Nat) : Prop where
  count : ∀ jp, L'.count jp + U'.count jp + (if jp = ip then 1 else 0) = L.count jp + U.count jp
  sub : ∀ jp, (jp ∈ L' → jp ∈ L) ∧ (jp ∈ U' → jp ∈ U)

theorem Inv.one_ref {L' U' : List Nat} (h : Inv st nt L U s) (hl : OneLess ip L U L' U') :
    ip < nInode ∧ 1 ≤ (s.mem.itable ip).ref := by
  have hc := hl.count ip
  rw [if_pos rfl] at hc
  have hmem : ip ∈ L ∨ ip ∈ U := by
    rcases Nat.eq_zero_or_pos (L.count ip) with hz | hL
    · exact .inr (List.count_pos_iff.mp (by omega))
    · exact .inl (List.count_pos_iff.mp hL)
  exact ⟨h.lt ip hmem, h.ref_pos hmem⟩

theorem Inv.unref {L' U' : List Nat} (h : Inv st nt L U s) (hl : OneLess ip L U L' U')
    (ht : t = { s with
      mem := s.mem.setEntry ip { s.mem.itable ip with ref := (s.mem.itable ip).ref - 1 } }) :
    Inv st nt L' U' t ∧ t.node = s.node ∧ Frame s t := by
  obtain ⟨hip, hpos⟩ := h.one_ref hl
  by_cases hone : (s.mem.itable ip).ref = 1
  · exact h.drop L' U' { s.mem.itable ip with ref := (s.mem.itable ip).ref - 1 } hip hone
      ⟨rfl, by simp [hone]⟩ hl.count hl.sub ht
  · refine h.setEntry L' U' { s.mem.itable ip with ref := (s.mem.itable ip).ref - 1 } hip hpos
      (by show 0 < (s.mem.itable ip).ref - 1; omega) ⟨rfl, rfl, rfl⟩ (fun jp => ?_)
      (fun jp hj => hj.imp (hl.sub jp).1 fun hU => .inl ⟨hU.1, (hl.sub jp).2 hU.2⟩) ht
    have := hl.count jp
    split at this <;> simp_all
    omega

theorem Inv.freed_blocks (h : Inv st nt L U s) (hh : s.mem.Holds ip i)
    (hu : u = { s with mem := s.mem.mapDin ip fun x => { x with type := 0 } }) :
    (u.updated ip).blocks = upd s.blocks (iblock s.mem.sb i)
      (Dinode.write { s.inodeOf i with type := 0 } (s.blocks (iblock s.mem.sb i)) (ioff i)) := by
  have hdin := (h.node_holds hh).2.2
  have hentry : u.mem.itable ip = { s.mem.itable ip with din :=
    { s.inodeOf i with type := 0 } } := by
    rw [hu, ← hdin]
    exact upd_same _ _ _
  have hsb : u.mem.sb = s.mem.sb := by
    rw [hu]
    rfl
  have hblk : u.blocks = s.blocks := by rw [hu]
  show upd u.blocks (iblock u.mem.sb (u.mem.itable ip).inum) ((u.mem.itable ip).din.write
    (u.blocks (iblock u.mem.sb (u.mem.itable ip).inum)) (ioff (u.mem.itable ip).inum)) = _
  rw [hentry, hsb, hblk]
  dsimp only
  rw [hh.inum]

theorem Inv.release {L' U' : List Nat} (h : Inv st nt L U s) (hl : OneLess ip L U L' U')
    (hh : s.mem.Holds ip i) (hone : (s.mem.itable ip).ref = 1)
    (hzero : ∀ k ≤ nDirect, (s.inodeOf i).addr k = 0)
    (hu : u = { s with mem := s.mem.mapDin ip fun x => { x with type := 0 } })
    (hm : t.mem = u.mem.setEntry ip { u.mem.itable ip with
      valid := false, locked := false, ref := (u.mem.itable ip).ref - 1 })
    (hb : t.blocks = (u.updated ip).blocks)
    (hshape : t.held = s.held ∧ t.touched = s.touched ∧ t.outstanding = s.outstanding ∧
      t.broken = s.broken) :
    Inv st nt L' U' t ∧ t.node = upd s.node i Node.free ∧ Frame s t := by
  have hdin := (h.node_holds hh).2.2
  have hentry : u.mem.itable ip = { s.mem.itable ip with din :=
    { s.inodeOf i with type := 0 } } := by
    rw [hu, ← hdin]
    exact upd_same _ _ _
  have hinum : (s.mem.itable ip).inum = i := hh.inum
  have hm' : t.mem = s.mem.setEntry ip { s.mem.itable ip with
      din := { s.inodeOf i with type := 0 }, valid := false, locked := false, ref := 0 } := by
    rw [hm, hentry, hu, hone]
    simp [FsMem.setEntry, FsMem.mapDin]
  have hb' := hb.trans (h.freed_blocks hh hu)
  refine h.freed L' U' hh hone hzero ?_ rfl hl.count hl.sub hm' hb' hshape
  exact ⟨hinum, rfl⟩

/-- `ifree` and the release of the last reference. -/
theorem ifree_spec {L' U' : List Nat} {Q : Unit → Store → Prop}
    (hwait : (s.mem.itable ip).locked = true → E .deadlock s)
    (ho : s.Trans E) (h : Inv st nt L U s) (hl : OneLess ip L U L' U') (hh : s.mem.Holds ip i)
    (hone : (s.mem.itable ip).ref = 1)
    (hQ : ∀ t, Inv st nt L' U' t → Frame s t → t.node = upd s.node i Node.free → Q () t) :
    wp I (ifree ip) (fun _ t => wp I (setInode ip fun x => { x with ref := x.ref - 1 }) Q E t)
      E s := by
  simp only [ifree, releasesleep, wp_bind]
  refine acquiresleep_spec hwait h hh fun v hv hnode hframe hhv href => ?_
  have hov : v.Trans E := hframe.trans' ho
  refine itrunc_inv hov hv hhv fun t hdid hbr haddr => ?_
  have hinv := hdid.inv
  obtain ⟨_, _, hdt⟩ := hinv.disk
  rw [wp_setDin]
  refine iupdate_spec hdt.core.sbOk hinv.tidy hinv.held (hdid.outline.trans' hov) ?_
  rw [wp_setInode, wp_setInode, wp_setInode]
  have hfin : ∀ w : Store, Inv st nt L' U' w ∧ w.node = upd t.node i Node.free ∧ Frame t w →
      Q () w := by
    intro w hw
    obtain ⟨hw, hnw, hfw⟩ := hw
    refine hQ w hw ⟨?_, ?_⟩ ?_
    · refine hframe.toOutline.trans (hdid.outline.trans hfw.toOutline fun jp _ hjp => ?_)
        fun jp _ hjp => ?_
      · rw [hdid.ref]
        exact hjp
      · rw [href]
        exact hjp
    · rw [hfw.broken, hbr, hframe.broken]
    · rw [hnw, hdid.node, upd_upd, hnode]
  refine hfin _ (hinv.release hl hdid.holds (by rw [hdid.ref, href, hone]) haddr rfl ?_ rfl
    ⟨rfl, rfl, rfl, rfl⟩)
  simp [FsMem.setEntry, Store.updated, Store.put]

theorem iput_gen {L' U' : List Nat} {Q : Unit → Store → Prop}
    (hwait : (s.mem.itable ip).locked = true → E .deadlock s)
    (ho : s.Trans E) (h : Inv st nt L U s) (hl : OneLess ip L U L' U')
    (hQ : ∀ t, Inv st nt L' U' t → Frame s t → Put ip (s.mem.itable ip).inum s t → Q () t) :
    wp I (iput ip) Q E s := by
  obtain ⟨hip, hpos⟩ := h.one_ref hl
  simp only [iput, wp_bind, wp_inode]
  refine wp_ite (fun hc => ?_) fun hc => ?_
  · obtain ⟨hone, hval, hlink⟩ := hc
    have hh : s.mem.Holds ip (s.mem.itable ip).inum := ⟨hip, hpos, hval, rfl⟩
    obtain ⟨hn, htype, hdin⟩ := h.node_holds hh
    rw [wp_bind]
    refine ifree_spec hwait ho h hl hh hone fun t ht hframe hnode =>
      hQ t ht hframe (.inr ⟨hone, htype, ?_, hnode⟩)
    rw [hn]
    show (s.inodeOf _).nlink = 0
    rw [← hdin]
    exact hlink
  · rw [wp_setInode]
    obtain ⟨hinv, hnode, hframe⟩ := h.unref hl rfl
    exact hQ _ hinv hframe (.inl ⟨hc, hnode⟩)

end

end Xv6.Fs
