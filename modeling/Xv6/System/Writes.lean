import Xv6.Kernel.Fs.Chunks
import Xv6.Kernel.Fs.Files
import Xv6.System.Reads

/-! # Writes in a session

`filewrite` cuts a write into chunks and makes a transaction of each. A chunk fits in the log
however its blocks are spread over the free map, and the chunks together are one write.
-/

namespace Xv6.System

open Lib Fs Mkfs Reading

section

variable {st : Bool} {nt : Prop} {L U : List Nat} {s t : Store} {f ip i off : Nat}

/-- A transaction of `filewrite` on a file without holes logs no more blocks than it reserved,
wherever the bits of the blocks it allocates are. It stops only to wait for the inode, before it
has logged anything. -/
theorem filewrite_chunk_fits {st : Bool} (h : Inv st nt L U s) (ho : 0 ≤ s.outstanding)
    (hf : f < nFile) (hty : (s.mem.ftable f).type = .inode)
    (hwr : (s.mem.ftable f).writable = true) (hip : (s.mem.ftable f).ip = ip)
    (hnum : (s.mem.itable ip).inum = i)
    (hmapped : ∀ bn, bn * bsize < (s.inodeOf i).size →
      slotAddr s.blocks (s.inodeOf i) (dataSlot bn) ≠ 0) (um : UserMem) (addr : Nat) :
    (∀ size fuel j, filewriteFrom f ip um addr size (fuel + 1) j =
      if j < size then do
        let r ← writeOnce f ip um ((addr + j) % 2 ^ 64) (min (size - j) maxWrite)
        if r ≠ (min (size - j) maxWrite : Nat) then return j
        else filewriteFrom f ip um addr size fuel (j + min (size - j) maxWrite)
      else return j) ∧
    ∀ va n, n ≤ maxWrite → wp (fun _ => True) (do beginOp; writeChunk f ip um va n)
      (fun _ t => t.logged.toFinset.card ≤ maxOpBlocks) (fun e t => e = .deadlock ∧ t.logged = [])
      { s with logged := [] } := by
  refine ⟨fun size fuel j => filewriteFrom_succ f ip um addr size fuel j, fun va n hn => ?_⟩
  rw [wp_bind, wp_beginOp]
  set u : Store := { s with outstanding := s.outstanding + 1, logged := [] } with hu
  have hinv : Inv st nt L U u := h.relog _ _ _ rfl
  have hn32 : n < 2 ^ 32 := hn.trans_lt (by decide)
  obtain ⟨-, -, halive⟩ := hinv.file_entry hf hty
  rw [show (u.mem.ftable f).ip = ip from hip, show (u.mem.itable ip).inum = i from hnum] at halive
  refine writeChunk_runs hinv (by rw [hu]; show 1 ≤ s.outstanding + 1; omega) hf hty
    hwr hip hnum rfl
    (fun _ => ⟨rfl, rfl⟩) hn32 (fun t _ _ hun _ => ?_)
    fun P tot cnt s' t' t hgood hun hsb hw hun' _ _ _ => ?_
  · rw [hun.logged]
    exact Nat.zero_le _
  · have hoff : (s.mem.ftable f).off ≤ (s.inodeOf i).size := by
      have hle : ¬ (u.node i).size < (s.mem.ftable f).off := fun hlt => hgood (.inl hlt)
      rw [Store.node_of_type halive] at hle
      exact Nat.le_of_not_lt hle
    have hlen : (footprint s' t' i (s.mem.ftable f).off n).length ≤ maxOpBlocks :=
      footprint_length hun.blocks (congrFun hun.inodes i) hoff hn hmapped
    have hsub : t.logged.toFinset ⊆ (footprint s' t' i (s.mem.ftable f).off n).toFinset := by
      intro b hb
      rw [List.mem_toFinset] at hb ⊢
      rw [hun'.logged] at hb
      refine (hw.footprint hb).resolve_left fun hold => ?_
      rw [hun.logged] at hold
      exact absurd hold List.not_mem_nil
    calc t.logged.toFinset.card
        ≤ (footprint s' t' i (s.mem.ftable f).off n).toFinset.card := Finset.card_le_card hsub
      _ ≤ (footprint s' t' i (s.mem.ftable f).off n).length := List.toFinset_card_le _
      _ ≤ maxOpBlocks := hlen

def openNew : List (Nat × Syscall) := [(0, .open (some [slash, 102]) 0x202)]

/-- In the state that leaves, the new file is empty, nobody uses it, and there is room on the
disk for 5000 bytes. -/
theorem openNew_reaches : ∃ L U t, Inv true False L U t ∧ t.outstanding = 0 ∧
    (t.mem.ftable 0).type = .inode ∧ (t.mem.ftable 0).writable = true ∧
    (t.mem.itable (t.mem.ftable 0).ip).locked = false ∧
    (t.inodeOf (t.mem.itable (t.mem.ftable 0).ip).inum).size = 0 ∧
    (Prog.returns Store.handle (filewrite 0 allMapped 0 5000 fun _ => 0) t).map Prod.fst =
      some 5000 := by
  have hrun : ((session (fun _ e => e.2.Typed) [] openNew).map fun t => decide
      (t.outstanding = 0 ∧ (t.mem.ftable 0).type = .inode ∧ (t.mem.ftable 0).writable = true ∧
        (t.mem.itable (t.mem.ftable 0).ip).locked = false ∧
        (t.inodeOf (t.mem.itable (t.mem.ftable 0).ip).inum).size = 0 ∧
        (Prog.returns Store.handle (filewrite 0 allMapped 0 5000 fun _ => 0) t).map Prod.fst =
          some 5000)) = some true := by decide +kernel
  obtain ⟨t, ht, hfacts⟩ := Option.map_eq_some_iff.mp hrun
  obtain ⟨s, hboot, hcalls⟩ := Option.bind_eq_some_iff.mp ht
  have hcalls : Run _ (fun _ (e : Nat × Syscall) => e.2.Typed) _ _ _ :=
    .of_runTest (fun _ _ h => of_decide_eq_true h) hcalls
  obtain ⟨L, U, hinv⟩ := (booted_of_boot hboot).inv (by decide) (by decide) hcalls
  exact ⟨L, U, t, hinv, of_decide_eq_true hfacts⟩

theorem filewrite_chunk_fits_openNew : ∃ t : Store, (t.mem.ftable 0).writable = true ∧
    wp (fun _ => True) (do beginOp; writeChunk 0 (t.mem.ftable 0).ip allMapped 0 maxWrite)
      (fun _ u => u.logged.toFinset.card ≤ maxOpBlocks) (fun e u => e = .deadlock ∧ u.logged = [])
      { t with logged := [] } := by
  obtain ⟨L, U, t, hinv, hops, hty, hwr, -, hsize, -⟩ := openNew_reaches
  refine ⟨t, hwr, (filewrite_chunk_fits hinv (Int.le_of_eq hops.symm) (by decide) hty hwr rfl rfl
    (fun bn hbn => ?_) allMapped 0).2 0 maxWrite (Nat.le_refl _)⟩
  rw [hsize] at hbn
  exact absurd hbn (Nat.not_lt_zero _)

/-- The first `m` bytes of a source are in the file from `off` on, and the file goes on after
them. -/
structure PutAt (f i : Nat) (src : Src) (off m : Nat) (s t : Store) : Prop where
  content : (t.node i).content =
    (s.node i).content.take off ++ (List.range m).map src.byte ++ (s.node i).content.drop (off + m)
  off : (t.mem.ftable f).off = off + m

/-- The file and its offset are the same in two states. -/
structure SameFile (f i : Nat) (t u : Store) : Prop where
  content : (t.node i).content = (u.node i).content
  size : (t.node i).size = (u.node i).size
  off : (t.mem.ftable f).off = (u.mem.ftable f).off

theorem putAt_zero (ht : t.node = s.node) (hft : t.mem.ftable = s.mem.ftable)
    (hoff : (s.mem.ftable f).off = off) (src : Src) : PutAt f i src off 0 s t := by
  constructor
  · rw [ht]
    simp
  · rw [hft, hoff]
    rfl

theorem putAt_of_progress {P : Nat → Prop} {src : Src} {m : Nat}
    (h : Progress st nt L U P f ip i src off m s t) (hle : off ≤ (s.node i).size) :
    PutAt f i src off m s t := by
  have hnode : t.node i = (s.node i).written src off m 0 := by rw [h.node, upd_same]
  constructor
  · exact Node.content_splice hle (by rw [hnode]; rfl) (by rw [hnode]; rfl)
  · rw [h.file, upd_same]

theorem sameFile_of_progress {P P' : Nat → Prop} {src : Src} {m : Nat} {u : Store}
    (h : Progress st nt L U P f ip i src off m s t)
    (h' : Progress st nt L U P' f ip i src off m s u) : SameFile f i t u := by
  constructor
  · rw [h.node, h'.node]
  · rw [h.node, h'.node]
  · rw [h.file, h'.file]

/-- A write in one transaction from where the chunks started does what they did. -/
theorem writeOnce_same {P : Nat → Prop} {um : UserMem} {addr n : Nat} (h : Inv st nt L U s)
    (ho : 0 ≤ s.outstanding) (hf : f < nFile) (hty : (s.mem.ftable f).type = .inode)
    (hwr : (s.mem.ftable f).writable = true) (hip : (s.mem.ftable f).ip = ip)
    (hnum : (s.mem.itable ip).inum = i) (hmap : um.Maps addr n) (haddr : addr < 2 ^ 64)
    (hn : n < 2 ^ 32) (hle : off ≤ (s.node i).size)
    (hs : Progress st nt L U P f ip i (.user um addr) off 0 s s)
    (ht : Progress st nt L U P f ip i (.user um addr) off n s t) :
    wp (fun _ => True) (writeOnce f ip um addr n)
      (fun r u => SameFile f i t u ∧ (0 < n → r = n)) (fun _ _ => False) s := by
  have hone := hs.once ho hf hty hwr hip hnum hmap (c := n) (Nat.le_of_eq (Nat.zero_add n)) hn
  rw [Nat.add_zero, Nat.mod_eq_of_lt haddr] at hone
  refine wp_mono hone (fun r u hr => ?_) fun _ _ he => he
  have hfits := ht.taken.fits
  have hmax : maxFile * bsize < 2 ^ 32 := by decide
  rcases hr with ⟨-, hbad, hu⟩ | ⟨tot, htot, rfl, hu, hstuck⟩
  · have hzero : n = 0 := by
      unfold WriteBad at hbad
      omega
    rw [hzero] at ht ⊢
    exact ⟨sameFile_of_progress ht hu, fun hpos => absurd hpos (Nat.lt_irrefl 0)⟩
  · rw [Nat.zero_add] at hu
    obtain ⟨-, -, halive⟩ := h.file_entry hf hty
    obtain ⟨hlt, hpos, -⟩ := h.file_entry hf hty
    rw [hip, hnum] at halive
    have hin : i < s.mem.sb.ninodes := by
      rw [← hnum, ← hip]
      exact h.inum _ hlt hpos
    -- were it short, no block would be left, and the chunks would not have found theirs
    by_cases hshort : tot < n
    · have hstop := hstuck hshort
      have htype : ∀ {m : Nat} {v : Store}, Progress st nt L U P f ip i (.user um addr) off m s v →
          (v.inodeOf i).type = (s.inodeOf i).type := by
        intro m v hv
        rw [← v.node_type, ← s.node_type, hv.node, upd_same]
        rfl
      exact (hstop.absurd hu.taken ht.taken hshort hin halive (htype ht) ht.rests.sb
        hu.rests.sb).elim
    · obtain rfl : tot = n := by omega
      exact ⟨sameFile_of_progress ht hu, fun _ => rfl⟩

/-- Chunks equal one write. If `filewrite` returns the length, the file and its offset are as
after a single transaction; if it returns -1, the length was negative, the offset beyond the
end, the file would get too long or there was no block for the next byte, and those before it
are written and the offset has moved past them. The loop ends before its fuel does. -/
theorem filewrite_chunks {um : UserMem} {addr : Nat} {n : Int} {other : File → Int}
    (h : Inv st nt L U s) (ho : 0 ≤ s.outstanding) (hf : f < nFile)
    (hty : (s.mem.ftable f).type = .inode) (hwr : (s.mem.ftable f).writable = true)
      (hip : (s.mem.ftable f).ip = ip)
    (hnum : (s.mem.itable ip).inum = i) (hoff : (s.mem.ftable f).off = off)
    (hfree : (s.mem.itable ip).locked = false) (hn : n < 2 ^ 31) (haddr : addr < 2 ^ 64)
    (hmap : um.Maps addr n.toNat) :
    (∀ k, filewriteFrom f ip um addr n.toNat (n.toNat + k) 0 =
      filewriteFrom f ip um addr n.toNat n.toNat 0) ∧
    wp (fun _ => True) (filewrite f um addr n other)
      (fun r t =>
        (r = n ∧ 0 ≤ n ∧ PutAt f i (.user um addr) off n.toNat s t ∧
          wp (fun _ => True) (writeOnce f ip um addr n.toNat)
            (fun r' u => SameFile f i t u ∧ (0 < n → r' = n)) (fun _ _ => False) s) ∨
        (r = -1 ∧ ∃ m : Nat, (n ≤ 0 → m = 0) ∧ (0 < n → m < n) ∧
          (n < 0 ∨ (s.node i).size < off ∨ CutShort i off n.toNat m t) ∧
          PutAt f i (.user um addr) off m s t))
      (fun _ _ => False) s := by
  refine ⟨fun k => filewriteFrom_fuel f ip um addr n.toNat k n.toNat 0 (Nat.le_refl _), ?_⟩
  obtain ⟨P, -, hd⟩ := h.disk
  have hn32 : n.toNat < 2 ^ 32 := by omega
  unfold filewrite
  rw [wp_bind, wp_file, hwr, hty, hip]
  rw [if_neg (by decide), wp_bind]
  by_cases hle : off ≤ (s.node i).size
  · have hstart := Progress.start h hd.core hoff hle hfree (.user um addr)
    refine wp_mono (hstart.loop ho hf hty hwr hip hnum hmap hn32 n.toNat 0 s (Nat.zero_le _)
      (Nat.le_refl _)) (fun r t hr => ?_) fun _ _ he => he
    obtain ⟨hr, k, hk, hiff, hcut, hp⟩ := hr
    refine wp_ite (fun heq => ?_) fun hne => ?_
    · obtain rfl : k = n.toNat := hiff.mpr (by omega)
      rw [wp_pure]
      refine .inl ⟨rfl, by omega, putAt_of_progress hp hle, ?_⟩
      refine wp_mono (writeOnce_same h ho hf hty hwr hip hnum hmap haddr hn32 hle hstart hp)
        (fun r' u hu => ⟨hu.1, fun hpos => ?_⟩) fun _ _ he => he
      rw [hu.2 (by omega)]
      omega
    · rw [wp_pure]
      have hlt : k = n.toNat → r = n.toNat := hiff.mp
      refine .inr ⟨rfl, k, fun hneg => by omega, fun hpos => by omega, ?_, putAt_of_progress hp hle⟩
      by_cases hneg : n < 0
      · exact .inl hneg
      · exact .inr (.inr (hcut (by omega)))
  · -- the offset is beyond the end: the first chunk is refused, if there is one
    have hrefused : ∀ va c, c < 2 ^ 32 → wp (fun _ => True) (writeOnce f ip um va c) _ _ s :=
      fun va c hc => writeOnce_refused h ho hf hty hwr hip hnum hoff hfree hc
        (.inl (Nat.lt_of_not_le hle))
    rcases Nat.eq_zero_or_pos n.toNat with hzero | hpos
    · rw [hzero, filewriteFrom, wp_pure]
      refine wp_ite (fun heq => ?_) fun hne => ?_
      · rw [wp_pure]
        refine .inl ⟨rfl, by omega, putAt_zero rfl rfl hoff _, ?_⟩
        refine wp_mono (hrefused addr 0 (by decide)) (fun r' u hu => ⟨?_, fun hpos => by omega⟩)
          fun _ _ he => he
        exact ⟨by rw [hu.2.1], by rw [hu.2.1], by rw [hu.2.2]⟩
      · rw [wp_pure]
        exact .inr ⟨rfl, 0, fun _ => rfl, fun hpos => by omega, .inr (.inl (Nat.lt_of_not_le hle)),
          putAt_zero rfl rfl hoff _⟩
    · obtain ⟨fuel, hfuel⟩ := Nat.exists_eq_add_one.mpr hpos
      rw [hfuel, filewriteFrom_succ, if_pos (Nat.succ_pos fuel)]
      refine wp_seq (hrefused _ _ (by omega)) fun r t hr => ?_
      obtain ⟨rfl, hnode, hft⟩ := hr
      rw [if_pos (by omega), wp_pure, if_neg (by omega), wp_pure]
      exact .inr ⟨rfl, 0, fun _ => rfl, fun hpos => by omega, .inr (.inl (Nat.lt_of_not_le hle)),
        putAt_zero hnode hft hoff _⟩

/-- All 5000 bytes are written, in two chunks, and one transaction would have done the same. -/
theorem filewrite_chunks_openNew : ∃ (t u : Store) (i : Nat),
    Prog.returns Store.handle (filewrite 0 allMapped 0 5000 fun _ => 0) t = some (5000, u) ∧
    PutAt 0 i (.user allMapped 0) (t.mem.ftable 0).off 5000 t u ∧
    wp (fun _ => True) (writeOnce 0 (t.mem.ftable 0).ip allMapped 0 5000)
      (fun r' v => SameFile 0 i u v ∧ (0 < (5000 : Int) → r' = 5000)) (fun _ _ => False) t := by
  obtain ⟨L, U, t, hinv, hops, hty, hwr, hfree, -, hret⟩ := openNew_reaches
  obtain ⟨⟨r, u⟩, hr, rfl⟩ := Option.map_eq_some_iff.mp hret
  have hall := Prog.wp_returns (filewrite_chunks hinv (Int.le_of_eq hops.symm) (by decide) hty hwr
    rfl rfl rfl hfree (by decide) (by decide) fun _ _ => rfl).2 hr
  obtain ⟨-, -, hput, hone⟩ | ⟨hneg, -⟩ := hall
  · exact ⟨t, u, _, hr, hput, hone⟩
  · exact absurd hneg (by decide)

end

end Xv6.System
