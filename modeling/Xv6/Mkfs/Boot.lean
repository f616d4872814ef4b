import Xv6.Kernel.Fs.Boot
import Xv6.Mkfs.Result

/-! # The kernel on an image of `mkfs`

What `mkfs` has written is a well-formed disk to the kernel: `fsinit` takes the superblock,
the log is empty, and the tree is the root directory with the files in it. A block of the
root directory can be missing, because its size is rounded up past its last block.
-/

namespace Xv6.Mkfs

open Lib Fs

variable {img : Image} {g : Nat → Dinode} {files : List Input}

/-! ## The superblock and the log -/

theorem readsb_superBlock : readsb superBlock = (fsMagic, sb) := by decide +kernel

theorem putLE_zero (o k : Nat) : putLE (fun _ => 0) o k 0 = fun _ => 0 := by
  funext i
  simp [putLE, splice]

theorem recoverFromLog_blank {blocks : Nat → Block} (h : blocks sb.logstart = fun _ => 0) :
    recoverFromLog sb blocks = blocks := by
  have hn : getLE (fun _ => 0) 0 4 = 0 := by decide
  unfold recoverFromLog
  dsimp only
  rw [h, hn]
  show upd blocks sb.logstart (putLE (blocks sb.logstart) 0 4 0) = blocks
  rw [h, putLE_zero, ← h, upd_self]

/-- The kernel starts on the image. -/
theorem Made.fsinit (h : Made files img g) :
    Fs.fsinit img.blocks = .ok (firstStore sb img.blocks) := by
  have hsuper : img.blocks 1 = superBlock := (h.super 1 (by decide)).trans blank_super
  have hlog : img.blocks sb.logstart = fun _ => 0 :=
    (h.super _ (by decide)).trans (blank_blocks (by decide))
  unfold Fs.fsinit
  rw [hsuper, readsb_superBlock]
  dsimp only
  rw [if_neg (fun hne => hne rfl), recoverFromLog_blank hlog]

/-! ## The root directory -/

def numbered : Nat → List Input → List (List UInt8 × Nat)
  | _, [] => []
  | n, f :: fs => (f.name, n) :: numbered (n + 1) fs

theorem numbered_get (n : Nat) (fs : List Input) (k : Nat) :
    (numbered n fs)[k]? = fs[k]?.map fun f => (f.name, n + k) := by
  induction fs generalizing n k with
  | nil => rfl
  | cons f fs ih =>
    cases k with
    | zero => rfl
    | succ k =>
      rw [numbered, List.getElem?_cons_succ, List.getElem?_cons_succ, ih]
      congr 2
      funext f
      rw [Nat.add_assoc, Nat.add_comm 1 k]

def dirents (l : List (List UInt8 × Nat)) : List UInt8 :=
    (l.map fun x => Image.dirent x.1 x.2).flatten

theorem entries_eq (n : Nat) (fs : List Input) : entries n fs = dirents (numbered n fs) := by
  induction fs generalizing n with
  | nil => rfl
  | cons f fs ih => rw [entries, ih]; rfl

theorem dirents_getD (l : List (List UInt8 × Nat)) (j : Nat) {r : Nat} (hr : r < direntSize) :
    (dirents l).getD (direntSize * j + r) 0 =
      (l[j]?.map fun x => direntBytes x.1 x.2 r).getD 0 := by
  induction l generalizing j with
  | nil => rfl
  | cons x l ih =>
    have hlen : (Image.dirent x.1 x.2).length = direntSize := dirent_length _ _
    show (Image.dirent x.1 x.2 ++ dirents l).getD _ 0 = _
    cases j with
    | zero =>
      have hlt : direntSize * 0 + r < (Image.dirent x.1 x.2).length := by omega
      rw [List.getD_append _ _ _ _ hlt, List.getD_eq_getElem _ _ hlt]
      simp [Image.dirent]
    | succ j =>
      have hge : (Image.dirent x.1 x.2).length ≤ direntSize * (j + 1) + r := by
        rw [hlen, Nat.mul_succ]
        omega
      have hidx : direntSize * (j + 1) + r - (Image.dirent x.1 x.2).length =
        direntSize * j + r := by
        rw [hlen, Nat.mul_succ]
        omega
      rw [List.getD_append_right _ _ _ _ hge, hidx, ih, List.getElem?_cons_succ]

def rootList (files : List Input) : List (List UInt8 × Nat) :=
  (dot, rootIno) :: (dotdot, rootIno) :: numbered 2 files

theorem rootNode_byte (files : List Input) (o : Nat) :
    (rootNode files).byte o = (dirents (rootList files)).getD o 0 := by
  have hbytes : rootEntries ++ entries 2 files = dirents (rootList files) := by
    rw [entries_eq, rootEntries, List.append_assoc]
    rfl
  show splice (fun _ => 0) 0 _ (fun j => (rootEntries ++ entries 2 files).getD j 0) o = _
  rw [hbytes]
  by_cases ho : o < (dirents (rootList files)).length
  · rw [splice_inside (Nat.zero_le _) (by omega), Nat.sub_zero]
  · rw [splice_outside (by omega), List.getD_eq_default _ _ (by omega)]

theorem rootList_get (files : List Input) (j : Nat) : (rootList files)[j]? =
    if j = 0 then some (dot, rootIno) else if j = 1 then some (dotdot, rootIno)
    else files[j - 2]?.map fun f => (f.name, j) := by
  rcases j with _ | _ | j
  · rfl
  · rfl
  · rw [if_neg (by omega), if_neg (by omega), rootList, List.getElem?_cons_succ,
      List.getElem?_cons_succ, numbered_get, Nat.add_comm 2 j]
    rfl

theorem rootList_num {x : List UInt8 × Nat} {j : Nat} (h : (rootList files)[j]? = some x) :
    0 < x.2 ∧ x.2 < files.length + 2 := by
  rw [rootList_get] at h
  by_cases h0 : j = 0
  · rw [if_pos h0] at h
    cases h
    exact ⟨by decide, Nat.lt_of_lt_of_le (by decide) (Nat.le_add_left 2 _)⟩
  · rw [if_neg h0] at h
    by_cases h1 : j = 1
    · rw [if_pos h1] at h
      cases h
      exact ⟨by decide, Nat.lt_of_lt_of_le (by decide) (Nat.le_add_left 2 _)⟩
    · rw [if_neg h1] at h
      obtain ⟨f, hf, rfl⟩ := Option.map_eq_some_iff.mp h
      have hlt := (List.getElem?_eq_some_iff.mp hf).1
      exact ⟨by dsimp only; omega, by dsimp only; omega⟩

theorem root_byte (files : List Input) {j r : Nat} (hr : r < direntSize) :
    (rootNode files).byte (direntSize * j + r) =
      ((rootList files)[j]?.map fun x => direntBytes x.1 x.2 r).getD 0 := by
  rw [rootNode_byte, dirents_getD _ _ hr]

theorem root_number (hsmall : files.length + 2 ≤ 65536) (j : Nat) :
    entryInum (rootNode files) j = ((rootList files)[j]?.map Prod.snd).getD 0 := by
  have hzero := root_byte files (j := j) (r := 0) (by decide)
  have hone := root_byte files (j := j) (r := 1) (by decide)
  rw [Nat.add_zero] at hzero
  unfold entryInum
  rw [hzero, hone]
  cases hx : (rootList files)[j]? with
  | none => rfl
  | some x =>
    have hlt := (rootList_num hx).2
    show numberOf (direntBytes x.1 x.2) = x.2
    rw [numberOf_direntBytes, Nat.mod_eq_of_lt (by omega)]

theorem root_size (files : List Input) :
    (rootNode files).size = (rootSize files / bsize + 1) * bsize := rfl

/-! ## The disk -/

def fileAt (files : List Input) (i : Nat) : Option Input := if i < 2 then none else files[i - 2]?

/-- The tree on the image. -/
def imageNode (files : List Input) (i : Nat) : Node :=
  if i = rootIno then rootNode files
  else ((fileAt files i).map fun f => appendNode (emptyNode tFile) f.content).getD Node.free

/-- The last block of the root directory is not past its entries. -/
def HoleFree (files : List Input) : Prop := rootSize files % bsize ≠ 0

instance : Decidable (HoleFree files) := inferInstanceAs (Decidable (_ ≠ _))

theorem fileAt_some {f : Input} {i : Nat} (h : fileAt files i = some f) :
    ∃ k, i = 2 + k ∧ files[k]? = some f ∧ k < files.length := by
  unfold fileAt at h
  split at h
  · cases h
  · exact ⟨i - 2, by omega, h, (List.getElem?_eq_some_iff.mp h).1⟩

theorem fileAt_none {i : Nat} (h : fileAt files i = none) : i < 2 ∨ files.length + 2 ≤ i := by
  unfold fileAt at h
  split at h
  · exact .inl ‹_›
  · rw [List.getElem?_eq_none_iff] at h
    omega

namespace Made

variable (h : Made files img g)

include h

theorem inodesOn_eq {i : Nat} (hi : i < sb.ninodes) : inodesOn sb img.blocks i = g i := by
  rw [inodesOn, if_pos hi, h.disk i (Nat.lt_of_lt_of_le hi (by decide))]

/-- The inodes past those that were handed out are free. -/
theorem past {i : Nat} (hi : files.length + 2 ≤ i) (hw : i < wide.ninodes) : (g i).type = 0 := by
  by_contra hne
  have htaken := ((h.taken i hw).mp hne).2
  rw [h.inode] at htaken
  omega

variable (hfew : files.length + 2 ≤ sb.ninodes)

include hfew

theorem nodesOn_eq : nodesOn sb img.blocks = imageNode files := by
  funext i
  unfold nodesOn imageNode
  by_cases hi : i < sb.ninodes
  · have hw : i < wide.ninodes := Nat.lt_of_lt_of_le hi (by decide)
    rw [h.inodesOn_eq hi]
    have htaken := h.taken i hw
    rw [h.inode] at htaken
    by_cases hroot : i = rootIno
    · have hone : i = 1 := hroot
      have htype : (g i).type ≠ 0 := htaken.mpr ⟨by omega, by omega⟩
      rw [if_neg htype, if_pos hroot, hroot, h.root]
    · rw [if_neg hroot]
      cases hf : fileAt files i with
      | none =>
        have hfree : (g i).type = 0 := by
          by_contra hne
          have hrange := htaken.mp hne
          have hne1 : i ≠ 1 := hroot
          have hout := fileAt_none hf
          omega
        rw [if_pos hfree]
        rfl
      | some f =>
        obtain ⟨k, rfl, hk, hlt⟩ := fileAt_some hf
        rw [if_neg (htaken.mpr ⟨by omega, by omega⟩), h.file k f hk]
        rfl
  · have hno : i ≠ rootIno := by
      intro heq
      rw [heq] at hi
      exact hi (by decide)
    have hfile : fileAt files i = none := by
      cases hf : fileAt files i with
      | none => rfl
      | some f =>
        obtain ⟨k, rfl, -, hlt⟩ := fileAt_some hf
        omega
    rw [inodesOn, if_neg hi, if_neg hno, hfile]
    rfl

theorem core_sb : Core (fun _ => False) sb img.blocks (inodesOn sb img.blocks) := by
  have hsmall : sb.ninodes ≤ wide.ninodes := by decide
  have hplace : ∀ x, placeOf sb img.blocks (inodesOn sb img.blocks) x =
      placeOf wide img.blocks g x := by
    intro x
    unfold placeOf
    by_cases hx : x.1 < sb.ninodes
    · have hw : x.1 < wide.ninodes := by omega
      rw [h.inodesOn_eq hx]
      simp only [hx, hw, true_and]
    · rw [if_neg fun hc => hx hc.1, if_neg]
      intro hc
      exact hc.2.2.1 (h.past (by omega) hc.1)
  refine ⟨⟨by decide, by decide, fun i hi => wide_ok.inodes i (by omega), wide_ok.bitmap,
    wide_ok.small, by decide⟩, h.core.low, h.core.ledger.congr (fun _ => Iff.rfl) hplace
    fun _ => Iff.rfl, fun i hi => ?_⟩
  rw [h.inodesOn_eq hi]
  exact h.core.fits i (by omega)

theorem inodeOk {st : Bool} (hst : st = true → HoleFree files) {i : Nat} (hi : i < sb.ninodes)
    (ht : (g i).type ≠ 0) : InodeOk st sb img.blocks (g i) := by
  have hw : i < wide.ninodes := Nat.lt_of_lt_of_le hi (by decide)
  have hb : bsize = 1024 := rfl
  have hd : direntSize = 16 := rfl
  have hmax : maxFile = 268 := rfl
  have hn : sb.ninodes = 200 := rfl
  by_cases hroot : i = rootIno
  · subst hroot
    have hsize : (g rootIno).size = (rootSize files / bsize + 1) * bsize :=
      congrArg Node.size h.root
    have hsmall : rootSize files ≤ 3200 := by
      unfold rootSize
      rw [hd]
      omega
    refine ⟨?_, fun bn hbn hc => ?_, ?_⟩
    · rw [hsize, hb, hmax]
      omega
    · rw [hsize, hb] at hbn
      have hbound : bn ≤ rootSize files / 1024 := by
        rw [Nat.mul_lt_mul_right (by decide)] at hbn
        omega
      have hdirect : ¬ nDirect ≤ bn := by
        show ¬ 12 ≤ bn
        omega
      have hfull := hst (hc.resolve_left hdirect)
      unfold HoleFree at hfull
      rw [hb] at hfull
      refine (h.rootMapped bn (by rw [hmax]; omega)).mpr ?_
      rw [hb]
      omega
    · rw [h.root]
      intro _ j _
      rw [root_number (by omega)]
      cases hx : (rootList files)[j]? with
      | none => decide
      | some x => exact Nat.lt_of_lt_of_le (rootList_num hx).2 hfew
  · refine ⟨h.sized i hw ht hroot, fun bn hbn _ => ?_, fun hdir => ?_⟩
    · have hsize := h.sized i hw ht hroot
      have hlt : bn < maxFile := by
        rw [hb] at hbn hsize
        omega
      exact (h.mapped i hw ht hroot bn hlt).mpr hbn
    · obtain ⟨hge, hlt⟩ := (h.taken i hw).mp ht
      rw [h.inode] at hlt
      have hne : i ≠ 1 := hroot
      have hget : files[i - 2]? = some files[i - 2] := List.getElem?_eq_getElem (by omega)
      have hnode := h.file _ _ hget
      rw [show 2 + (i - 2) = i by omega] at hnode
      rw [hnode] at hdir
      cases hdir

/-- The image is a well-formed disk; without a hole unless the root directory ends with a
block. -/
theorem wellFormed {st : Bool} (hst : st = true → HoleFree files) :
    WellFormed st sb img.blocks := by
  have hd : direntSize = 16 := rfl
  have hb : bsize = 1024 := rfl
  refine ⟨⟨h.core_sb hfew, fun i hi ht => ?_⟩, by decide, fun i hdir => ?_, ?_, fun i ht => ?_⟩
  · rw [h.inodesOn_eq hi] at ht ⊢
    exact h.inodeOk hfew hst hi ht
  · rw [h.nodesOn_eq hfew] at hdir ⊢
    unfold imageNode at hdir ⊢
    by_cases hroot : i = rootIno
    · rw [if_pos hroot, root_size, hb, hd]
      omega
    · rw [if_neg hroot] at hdir
      cases hf : fileAt files i with
      | none =>
        rw [hf] at hdir
        cases hdir
      | some f =>
        rw [hf] at hdir
        cases hdir
  · rw [h.nodesOn_eq hfew, imageNode, if_pos rfl]
    show tDir ≠ 0
    decide
  · rw [h.nodesOn_eq hfew] at ht ⊢
    unfold imageNode at ht ⊢
    by_cases hroot : i = rootIno
    · rw [if_pos hroot]
      show (1 : BitVec 16) ≠ 0
      decide
    · rw [if_neg hroot] at ht ⊢
      cases hf : fileAt files i with
      | none =>
        rw [hf] at ht
        exact absurd rfl ht
      | some f =>
        show (1 : BitVec 16) ≠ 0
        decide

end Made

/-! ## The tree -/

theorem image_file {i : Nat} (hi : i ≠ rootIno) : (imageNode files i).type ≠ tDir := by
  unfold imageNode
  rw [if_neg hi]
  cases fileAt files i with
  | none => decide
  | some f =>
    show tFile ≠ tDir
    decide

theorem image_used {i : Nat} (hpos : 0 < i) (hlt : i < files.length + 2) :
    (imageNode files i).type ≠ 0 := by
  unfold imageNode
  by_cases hroot : i = rootIno
  · rw [if_pos hroot]
    show tDir ≠ 0
    decide
  · have hne : i ≠ 1 := hroot
    have hfile : fileAt files i = some files[i - 2] := by
      rw [fileAt, if_neg (by omega)]
      exact List.getElem?_eq_getElem (by omega)
    rw [if_neg hroot, hfile]
    show tFile ≠ 0
    decide

/-- Every entry of the root directory, the only directory on an image, is for an inode in use. -/
theorem image_rooted (hfew : files.length + 2 ≤ sb.ninodes) : Rooted (imageNode files) := by
  constructor
  · exact image_used (by decide) (Nat.lt_of_lt_of_le (by decide) (Nat.le_add_left 2 _))
  · intro d hdir j _ hnum
    have hd : d = rootIno := by
      by_contra hne
      exact image_file hne hdir
    have hnode : imageNode files d = rootNode files := if_pos hd
    rw [hnode, root_number (Nat.le_trans hfew (by decide))] at hnum ⊢
    cases hx : (rootList files)[j]? with
    | none =>
      rw [hx] at hnum
      exact absurd rfl hnum
    | some x =>
      obtain ⟨hpos, hlt⟩ := rootList_num hx
      exact image_used hpos hlt

end Xv6.Mkfs
