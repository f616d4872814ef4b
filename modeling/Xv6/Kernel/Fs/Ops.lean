import Xv6.Kernel.Fs.Refs

/-! # Contents and allocation under the invariant

Reading and writing a file, writing an entry of a directory, and allocating an
inode, each as a change of one node.
-/

namespace Xv6.Fs

open Lib

section

variable {I : Store → Prop} {E : Stop → Store → Prop} {st : Bool} {nt : Prop} {L U : List Nat}
  {s t u : Store} {ip i : Nat} {sb : Superblock}

theorem Inv.coherent (h : Inv st nt L U s) (hh : s.mem.Holds ip i) :
    Coherent st s.blocks (diskInode s.mem.sb s.blocks i) (s.inodeOf i) := by
  rw [← (h.node_holds hh).2.2]
  exact h.coh ip i hh

theorem Inv.nodeOk (h : Inv st nt L U s) (hh : s.mem.Holds ip i) : NodeOk s.mem.sb (s.node i) := by
  obtain ⟨P, -, hd⟩ := h.disk
  have hs := h.active hd hh
  refine ⟨?_, h.dirs i⟩
  rw [(h.node_holds hh).1]
  exact (hd.ok i hs.lt hs.type).dirs

/-- The invariant does not speak about the log. -/
theorem Inv.relog (h : Inv st nt L U s) (o : Int) (lg : List Nat) (br : Bool)
    (ht : t = { s with outstanding := o, logged := lg, broken := br }) : Inv st nt L U t := by
  subst ht
  exact ⟨h.disk, h.uniq, h.held, h.touched, h.inum, h.coh, h.type, h.refs, h.lt, h.alive, h.idle,
    h.files, h.writers, h.fds, h.dirs⟩

/-! ## Reading -/

theorem readi_inv {Q : Int × List UInt8 → Store → Prop} {dst : Dst} {off n : Nat}
    (ho : st = true ∨ s.Trans E) (h : Inv st nt L U s) (hh : s.mem.Holds ip i) (hn : n < 2 ^ 32)
    (hQ : ∀ r t, Did st nt L U ip i (s.node i) s t → t.broken = s.broken → (st = true → t = s) →
      ReadBytes st dst (s.node i) off (readLen (s.node i).size off n) r t → Q r t) :
    wp I (readi ip dst off n) Q E s := by
  obtain ⟨P, hP, hd⟩ := h.disk
  obtain ⟨hnode, -, -⟩ := h.node_holds hh
  have hs := h.active hd hh
  have hok := hd.ok i hs.lt hs.type
  refine readi_spec hs hok hn ho fun r t hr hb => ?_
  have he := hr.edits hs (h.coherent hh) hok
  have hsame : nodeOf t.blocks (t.inodeOf i) = s.node i := by
    rw [hr.grew.node hs, hnode]
  refine hQ r t (h.did hP hd hh he hsame rfl (h.nodeOk hh)) ?_ hr.same ?_
  · rw [hr.grew.shape]
  · rw [hnode]
    exact hb

/-! ## Writing -/

theorem direntSize_eq : direntSize = 16 := rfl

def numberOf (de : Nat → UInt8) : Nat := (de 0).toNat + 256 * (de 1).toNat

def entryWrite (ninodes : Nat) : Src → Nat → Nat → Bool
  | .kernel de, off, n => n = direntSize ∧ off % direntSize = 0 ∧ numberOf de < ninodes
  | .user _ _, _, _ => false

theorem entryWrite_inv {ninodes off n : Nat} {src : Src} (h : entryWrite ninodes src off n) :
    ∃ de, src = .kernel de ∧ n = direntSize ∧ off % direntSize = 0 ∧ numberOf de < ninodes := by
  cases src with
  | kernel de => exact ⟨de, rfl, by simpa [entryWrite] using h⟩
  | user um addr => cases h

theorem entryInum_splice {n n' : Node} {de : Nat → UInt8} {off : Nat} (hoff : off % direntSize = 0)
    (hb : n'.byte = splice n.byte off direntSize de) (j : Nat) :
    entryInum n' j = if direntSize * j = off then numberOf de else entryInum n j := by
  unfold entryInum numberOf
  rw [hb]
  rw [direntSize_eq] at hoff ⊢
  split
  · rename_i heq
    rw [splice_inside (by omega) (by omega), splice_inside (by omega) (by omega), heq,
      Nat.sub_self, Nat.add_sub_cancel_left]
  · rw [splice_outside (by omega), splice_outside (by omega)]

theorem NodeOk.entry {n n' : Node} {de : Nat → UInt8} {off : Nat} (h : NodeOk sb n)
    (hoff : off % direntSize = 0) (hle : off ≤ n.size) (hde : numberOf de < sb.ninodes)
    (htype : n'.type = n.type) (hsize : n'.size = max n.size (off + direntSize))
    (hb : n'.byte = splice n.byte off direntSize de) : NodeOk sb n' := by
  refine ⟨fun hd j hj => ?_, fun hd => ?_⟩
  · rw [htype] at hd
    have hwhole := h.whole hd
    rw [entryInum_splice hoff hb]
    split
    · exact hde
    · refine h.names hd j ?_
      rw [hsize] at hj
      rw [direntSize_eq] at *
      omega
  · rw [htype] at hd
    have hwhole := h.whole hd
    rw [hsize]
    rw [direntSize_eq] at *
    omega

/-- An entry is written as a whole or not at all. -/
theorem Written.entry_all {P : Nat → Prop} {de : Nat → UInt8} {off tot cnt : Nat}
    (h : Written st P ip i (.kernel de) off direntSize s tot cnt t) (hoff : off % direntSize = 0) :
    cnt = 0 ∧ (tot = 0 ∨ tot = direntSize) := by
  have hcnt : cnt = 0 := h.whole fun _ _ _ => rfl
  have hle := h.le
  have hstep := h.step
  unfold bsize at hstep
  rw [direntSize_eq] at *
  refine ⟨hcnt, ?_⟩
  omega

theorem writei_inv {Q : Int → Store → Prop} {src : Src} {off n : Nat} (ho : s.Trans E)
    (h : Inv st nt L U s) (hh : s.mem.Holds ip i) (hn : n < 2 ^ 32)
    (hdir : (s.node i).type = tDir → entryWrite s.mem.sb.ninodes src off n)
    (hbad : WriteBad (s.node i).size off n → Q (-1) s)
    (hQ : ∀ P tot cnt t, ¬ WriteBad (s.node i).size off n →
      Written st P ip i src off n s tot cnt t → Did st nt L U ip i { s.node i with
        size := max (s.node i).size (off + tot)
        byte := splice (s.node i).byte off (tot + cnt) src.byte } s t → Q tot t) :
    wp I (writei ip src off n) Q E s := by
  obtain ⟨P, hP, hd⟩ := h.disk
  obtain ⟨hnode, -, -⟩ := h.node_holds hh
  have hs := h.active hd hh
  have hok := hd.ok i hs.lt hs.type
  have hsize : (s.inodeOf i).size = (s.node i).size := by rw [hnode]; rfl
  refine writei_spec hs hok hn ho (fun hb => hbad (hsize ▸ hb)) fun tot cnt t hgood hw => ?_
  rw [hsize] at hgood
  have hnew := hw.node
  rw [← hnode, hsize] at hnew
  refine hQ P tot cnt t hgood hw (h.did hP hd hh hw.edits hnew rfl ?_)
  by_cases hty : (s.node i).type = tDir
  · obtain ⟨de, rfl, rfl, hoff, hde⟩ := entryWrite_inv (hdir hty)
    obtain ⟨rfl, rfl | rfl⟩ := hw.entry_all hoff
    · have hle : off ≤ (s.node i).size := by
        unfold WriteBad at hgood
        omega
      rw [Nat.add_zero, Nat.add_zero, splice_zero, Nat.max_eq_left hle]
      exact h.nodeOk hh
    · refine (h.nodeOk hh).entry hoff ?_ hde rfl rfl rfl
      unfold WriteBad at hgood
      omega
  · exact ⟨fun hd => absurd hd hty, fun hd => absurd hd hty⟩

/-! ## Allocating an inode -/

def iclaim (sb : Superblock) (type : BitVec 16) (inum : Nat) : FsProg Bool := do
  bread (iblock sb inum)
  let d ← load (iblock sb inum)
  if (Dinode.read d (ioff inum)).type = 0 then do
    store (iblock sb inum) fun d => { Dinode.zero with type := type }.write d (ioff inum)
    logWrite (iblock sb inum)
    brelse (iblock sb inum)
    return true
  else do
    brelse (iblock sb inum)
    return false

theorem iallocFrom_succ (sb : Superblock) (type : BitVec 16) (fuel inum : Nat) :
    iallocFrom sb type (fuel + 1) inum =
      if inum < sb.ninodes then do
        if ← iclaim sb type inum then some <$> iget inum else iallocFrom sb type fuel (inum + 1)
      else pure none := by
  rw [iallocFrom]
  split
  · simp only [iclaim, bind_assoc]
    congr 1
    funext _
    congr 1
    funext d
    split <;> simp
  · rfl

theorem Dinode.zero_addr (type : BitVec 16) (k : Nat) :
    Dinode.addr { Dinode.zero with type := type } k = 0 := by
  unfold Dinode.addr
  split <;> rfl

def Node.blank (type : BitVec 16) : Node := ⟨type, 0, 0, 0, 0, fun _ => 0⟩

theorem nodeOf_zero (blocks : Nat → Block) (type : BitVec 16) :
    nodeOf blocks { Dinode.zero with type := type } = Node.blank type := by
  have hbyte : byteAt blocks { Dinode.zero with type := type } = fun _ => 0 := by
    funext o
    have hslot : ∀ k, slotAddr blocks { Dinode.zero with type := type } k = 0 := by
      intro k
      unfold slotAddr
      simp [Dinode.zero_addr]
    simp [byteAt, hslot]
  unfold nodeOf Node.blank
  rw [hbyte]
  rfl

def Store.claim (s : Store) (type : BitVec 16) (i : Nat) : Store :=
  s.put (iblock s.mem.sb i) fun d => { Dinode.zero with type := type }.write d (ioff i)

theorem Inv.claim (h : Inv st nt L U s) (hi : i < s.mem.sb.ninodes)
    (hfree : (diskInode s.mem.sb s.blocks i).type = 0) (type : BitVec 16) :
    Inv st nt L U (s.claim type i) ∧ s.node i = Node.free ∧ (type ≠ 0 →
      (s.claim type i).node = upd s.node i (Node.blank type) ∧
        ((s.claim type i).inodeOf i).type ≠ 0) := by
  have hfits : Dinode.Fits { Dinode.zero with type := type } :=
    ⟨Nat.two_pow_pos 32, fun k => by rw [Dinode.zero_addr]; exact Nat.two_pow_pos 32⟩
  obtain ⟨hty, hinv, hf, hnode⟩ := h.claimed (t := s.claim type i) hi hfree hfits
    (fun k _ => Dinode.zero_addr type k) rfl rfl rfl ⟨rfl, rfl⟩
  refine ⟨hinv, Store.node_eq_free hty, fun htype => ?_⟩
  have hnew : ((s.claim type i).inodeOf i).type ≠ 0 := by
    rw [hf, upd_same]
    exact htype
  refine ⟨?_, hnew⟩
  funext j
  by_cases hj : j = i
  · rw [hj, upd_same, Store.node_of_type hnew, hf, upd_same, nodeOf_zero]
  · rw [upd_other hj, hnode j hj]

theorem iclaim_spec {Q : Bool → Store → Prop} {type : BitVec 16} (ho : s.Trans E)
    (h : Inv st nt L U s)
    (htaken : (diskInode s.mem.sb s.blocks i).type ≠ 0 → Q false s)
    (hfree : (diskInode s.mem.sb s.blocks i).type = 0 → Q true (s.claim type i)) :
    wp I (iclaim s.mem.sb type i) Q E s := by
  obtain ⟨P, -, hd⟩ := h.disk
  have hnot : iblock s.mem.sb i ∉ s.held := by
    rw [h.held]
    exact List.not_mem_nil
  have hlog := hd.core.sbOk.iblock_not_log i
  simp only [iclaim, wp_bind]
  refine wp_peek hnot ?_
  rw [wp_load]
  refine wp_ite (fun hz => ?_) fun hnz => ?_
  · simp only [wp_bind, wp_pure]
    exact wp_put h.tidy hnot hlog ho (hfree hz)
  · simp only [wp_bind, wp_pure]
    exact wp_done h.tidy hnot hlog (htaken hnz)

end

end Xv6.Fs
