import Xv6.Mkfs.Files

/-! # The finished image

What is on the image when `mkfs` is done, and whether it kept to its own layout: nothing
in `mkfs` compares the inodes it hands out with the number it announces.
-/

namespace Xv6.Mkfs

open Lib Fs

variable {img img' : Image} {g g' : Nat → Dinode} {i : Nat} {files : List Input}

/-! ## Finishing -/

def rootSize (files : List Input) : Nat := direntSize * (files.length + 2)

def rootNode (files : List Input) : Node :=
  { appendNode (emptyNode tDir) (rootEntries ++ entries 2 files) with
    size := (rootSize files / bsize + 1) * bsize }

structure Made (files : List Input) (img : Image) (g : Nat → Dinode) : Prop where
  core : Core (fun _ => False) wide img.blocks g
  disk : ∀ j < wide.ninodes, diskInode sb img.blocks j = g j
  inode : img.freeinode = files.length + 2
  taken : ∀ j < wide.ninodes, ((g j).type ≠ 0 ↔ 1 ≤ j ∧ j < img.freeinode)
  root : nodeOf img.blocks (g rootIno) = rootNode files
  file : ∀ k f, files[k]? = some f →
    nodeOf img.blocks (g (2 + k)) = appendNode (emptyNode tFile) f.content
  mapped : ∀ j < wide.ninodes, (g j).type ≠ 0 → j ≠ rootIno → ∀ bn < maxFile,
    (slotAddr img.blocks (g j) (dataSlot bn) ≠ 0 ↔ bn * bsize < (g j).size)
  sized : ∀ j < wide.ninodes, (g j).type ≠ 0 → j ≠ rootIno → (g j).size ≤ maxFile * bsize
  rootMapped : ∀ bn < maxFile,
    (slotAddr img.blocks (g rootIno) (dataSlot bn) ≠ 0 ↔ bn * bsize < rootSize files)
  bits : ∀ b < fsSize, bitOf sb img.blocks b = decide (b < img.freeblock)
  block : nMeta ≤ img.freeblock ∧ img.freeblock ≤ fsSize
  writes : ∀ w ∈ img.writes, WriteOk w
  super : ∀ b < sb.inodestart, img.blocks b = blank.blocks b

/-- Rounding the size of the root directory and writing the bitmap. -/
theorem finish_spec (h : Built img g) (hroot : rootIno < img.freeinode)
    (hinode : img.freeinode = files.length + 2)
    (hnode : nodeOf img.marked (g rootIno) =
      appendNode (emptyNode tDir) (rootEntries ++ entries 2 files))
    (hfile : ∀ k f, files[k]? = some f →
      nodeOf img.marked (g (2 + k)) = appendNode (emptyNode tFile) f.content) :
    ∃ img' g', (img.fixRoot.bind fun img => img.balloc img.freeblock) = some img' ∧
      Made files img' g' := by
  have hr : rootIno < wide.ninodes := by decide
  have htr : (g rootIno).type ≠ 0 := (h.base.taken _ hr).mpr ⟨Nat.le_refl 1, hroot⟩
  have hsize : (g rootIno).size = rootSize files := by
    have hsz : (g rootIno).size = _ := congrArg Node.size hnode
    rw [hsz]
    show 0 + (rootEntries ++ entries 2 files).length = direntSize * (files.length + 2)
    rw [rootEntries, List.length_append, List.length_append, dirent_length, dirent_length,
      entries_length]
    have hd : direntSize = 16 := rfl
    rw [hd]
    omega
  generalize hR : (rootSize files / bsize + 1) * bsize = R
  have hRsmall : R < 2 ^ 32 := by
    have hle := h.exact.size rootIno hr htr
    rw [hsize] at hle
    have hb : bsize = 1024 := rfl
    have hm : maxFile * bsize = 274432 := rfl
    rw [hm] at hle
    rw [← hR, hb]
    omega
  generalize hg' : upd g rootIno { g rootIno with size := R } = g'
  have hself : g' rootIno = { g rootIno with size := R } := by rw [← hg', upd_same]
  have hother : ∀ j, j ≠ rootIno → g' j = g j := fun j hj => by rw [← hg', upd_other hj]
  have htype : ∀ j, (g' j).type = (g j).type := by
    intro j
    by_cases hj : j = rootIno
    · rw [hj, hself]
    · rw [hother j hj]
  have hbase : Base img g' := by
    rw [← hg']
    exact h.base.setSize hr htr hRsmall
  have hdisk : ∀ j < wide.ninodes, j ≠ rootIno → diskInode sb img.blocks j = g' j := by
    intro j hj hjr
    rw [hother j hjr]
    exact h.disk j hj
  generalize himg : img.wsect .inode (iblock sb rootIno)
    ((g' rootIno).write (img.blocks (iblock sb rootIno)) (ioff rootIno)) = img₁
  have hfix : img.fixRoot = some img₁ := by
    simp only [Image.fixRoot, rinode_eq hr, h.disk _ hr, Option.bind_eq_bind, Option.bind_some]
    rw [winode_eq hr, hsize, hR, ← hself, himg]
  obtain ⟨hbase₁, hslots, hnodes⟩ := hbase.wInode hr
    ((g' rootIno).write (img.blocks (iblock sb rootIno)) (ioff rootIno))
  have hdisk₁ := hbase.disk_store hr hdisk
  have hcounters : img₁.freeinode = img.freeinode ∧ img₁.freeblock = img.freeblock := by
    rw [← himg]
    exact ⟨rfl, rfl⟩
  rw [himg] at hbase₁ hslots hnodes hdisk₁
  have hused : img₁.freeblock < bsize * 8 := Nat.lt_of_le_of_lt hbase₁.high (by decide)
  have hplace : place sb.bmapstart = sb.bmapstart := place_eq (by decide)
  -- the bitmap on the image is now the one that `marked` puts there
  generalize hw : img₁.wsect .bitmap sb.bmapstart
    ((List.range img₁.freeblock).foldl setBit fun _ => 0) = img₂
  have hblocks : img₂.blocks = img₁.marked := by
    rw [← hw]
    simp only [Image.wsect, hplace]
    rfl
  have hother₂ : img₂.freeinode = img₁.freeinode ∧ img₂.freeblock = img₁.freeblock ∧
      img₂.writes = (.bitmap, sb.bmapstart) :: img₁.writes := by
    rw [← hw]
    simp only [Image.wsect, hplace, and_self]
  refine ⟨img₂, g', ?_, ?_⟩
  · rw [hfix, Option.bind_some, Image.balloc, if_pos hused, hw]
  constructor
  case core =>
    rw [hblocks]
    exact hbase₁.core
  case disk =>
    intro j hj
    rw [← hdisk₁ j hj, hblocks]
    exact diskInode_congr (Image.marked_other (Nat.ne_of_lt (iblock_range hj).2))
  case inode => rw [hother₂.1, hcounters.1, hinode]
  case taken =>
    intro j hj
    rw [hother₂.1, hcounters.1, htype]
    exact h.base.taken j hj
  case root =>
    rw [hblocks, hnodes _ hr (by rw [htype]; exact htr), hself, rootNode, ← hnode, hR]
    rfl
  case file =>
    intro k f hk
    have hlen : k < files.length := (List.getElem?_eq_some_iff.mp hk).1
    have hlt : 2 + k < wide.ninodes := by
      have hle := h.base.inodes.2
      omega
    have hne : 2 + k ≠ rootIno := by
      show 2 + k ≠ 1
      omega
    have ht : (g (2 + k)).type ≠ 0 := (h.base.taken _ hlt).mpr ⟨by omega, by omega⟩
    have heq := hother _ hne
    rw [hblocks, hnodes _ hlt (by rw [heq]; exact ht), heq]
    exact hfile k f hk
  case mapped =>
    intro j hj ht hjr bn hbn
    have heq := hother j hjr
    have ht' : (g j).type ≠ 0 := by
      rw [← htype]
      exact ht
    rw [hblocks, hslots j hj ht, heq]
    exact h.exact.mapped j hj ht' bn hbn
  case sized =>
    intro j hj ht hjr
    rw [htype] at ht
    rw [hother j hjr]
    exact h.exact.size j hj ht
  case rootMapped =>
    intro bn hbn
    rw [hblocks, hslots _ hr (by rw [htype]; exact htr), hself, ← hsize]
    exact h.exact.mapped _ hr htr bn hbn
  case bits =>
    intro b hb
    rw [hblocks, hother₂.2.1]
    exact img₁.bitOf_marked hb
  case block =>
    rw [hother₂.2.1]
    exact ⟨hbase₁.low, hbase₁.high⟩
  case writes =>
    intro w hw'
    rw [hother₂.2.2] at hw'
    rcases List.mem_cons.mp hw' with rfl | hw'
    · exact trivial
    · exact hbase₁.writes w hw'
  case super =>
    intro b hb
    have hb' : b < 32 := hb
    have hne : b ≠ sb.bmapstart := by
      show b ≠ 45
      omega
    rw [hblocks, Image.marked_other hne]
    exact hbase₁.super b hb

def blocksNeeded (files : List Input) : Nat :=
  nMeta + blocksOf (rootSize files) + filesBlocks files

/-- With room for the inodes, `mkfs` makes the image unless an input is bad or the blocks do
not suffice. -/
theorem mkfs_spec (hroom : files.length + 2 ≤ wide.ninodes) :
    (∃ img g, mkfs files = some img ∧ Made files img g) ∨
      mkfs files = none ∧ ((∃ f ∈ files, f.Bad) ∨ fsSize < blocksNeeded files) := by
  obtain ⟨img₀, g₀, hroot, hbuilt, hinode, hnode, htotal⟩ := root_spec
  have hlen : rootEntries.length = 32 := by
    rw [rootEntries, List.length_append, dirent_length, dirent_length]
    rfl
  have hsize : (g₀ rootIno).size = direntSize * img₀.freeinode := by
    have hsz : (g₀ rootIno).size = 0 + rootEntries.length := congrArg Node.size hnode
    rw [hsz, hlen, hinode]
    rfl
  have hlt : rootIno < img₀.freeinode := by
    rw [hinode]
    decide
  unfold mkfs
  simp only [hroot, Option.bind_eq_bind, Option.bind_some]
  rcases addFiles_spec files hbuilt hlt (by rw [hinode]; omega) hsize with
    ⟨img₁, g₁, hadd, hadds⟩ | ⟨hadd, hover⟩
  · left
    rw [hadd, Option.bind_some]
    refine finish_spec hadds.built ?_ ?_ ?_ fun k f hk => ?_
    · rw [hadds.inode]
      omega
    · rw [hadds.inode, hinode, Nat.add_comm]
    · rw [hadds.root, hnode, appendNode_append, hinode]
    · have hnew := hadds.new k f hk
      rwa [hinode] at hnew
  · right
    rw [hadd]
    refine ⟨rfl, hover.imp_right fun hx => ?_⟩
    have h32 : blocksOf (direntSize * 2) = 1 := rfl
    rw [hinode, h32, htotal, Nat.add_comm 2 files.length] at hx
    unfold blocksNeeded rootSize
    omega

/-! ## The layout

The number of inodes handed out depends on the number of files alone, whatever happens
to the blocks: every other part of `mkfs` leaves the counter as it is.
-/

theorem winode_freeinode {inum : Nat} {din : Dinode} (h : img.winode inum din = some img') :
    img'.freeinode = img.freeinode := by
  obtain ⟨d, _, hd⟩ := Option.bind_eq_some_iff.mp h
  cases hd
  rfl

theorem addrFor_freeinode (din : Dinode) (k : Nat) :
    (img.addrFor din k).1.freeinode = img.freeinode := by
  unfold Image.addrFor
  split <;> rfl

theorem entryFor_freeinode {ind k x : Nat} (h : img.entryFor ind k = some (img', x)) :
    img'.freeinode = img.freeinode := by
  obtain ⟨d, _, hd⟩ := Option.bind_eq_some_iff.mp h
  split at hd <;> cases hd <;> rfl

theorem blockFor_freeinode {din din' : Dinode} {fbn x : Nat}
    (h : img.blockFor din fbn = some (img', din', x)) : img'.freeinode = img.freeinode := by
  unfold Image.blockFor at h
  split at h
  · cases h
    exact addrFor_freeinode din fbn
  · obtain ⟨⟨img₁, y⟩, hentry, hy⟩ := Option.bind_eq_some_iff.mp h
    cases hy
    rw [entryFor_freeinode hentry]
    exact addrFor_freeinode din nDirect

theorem appendRound_freeinode {din din' : Dinode} {off : Nat} {p : List UInt8}
    (h : img.appendRound din off p = some (img', din')) : img'.freeinode = img.freeinode := by
  unfold Image.appendRound at h
  split at h
  · obtain ⟨⟨img₁, din₁, x⟩, hblock, hrest⟩ := Option.bind_eq_some_iff.mp h
    obtain ⟨d, _, hd⟩ := Option.bind_eq_some_iff.mp hrest
    cases hd
    have hkept : img₁.freeinode = img.freeinode := blockFor_freeinode hblock
    exact hkept
  · cases h

theorem iappendFrom_freeinode (fuel : Nat) :
    ∀ {img : Image} {din din' : Dinode} {off off' : Nat} {p : List UInt8},
      Image.iappendFrom fuel img din off p = some (img', din', off') →
      img'.freeinode = img.freeinode := by
  induction fuel with
  | zero =>
    intro img din din' off off' p h
    cases h
    rfl
  | succ fuel ih =>
    intro img din din' off off' p h
    unfold Image.iappendFrom at h
    split at h
    · cases h
      rfl
    · obtain ⟨⟨img₁, din₁⟩, hround, hrest⟩ := Option.bind_eq_some_iff.mp h
      rw [ih hrest, appendRound_freeinode hround]

theorem iappend_freeinode {inum : Nat} {p : List UInt8} (h : img.iappend inum p = some img') :
    img'.freeinode = img.freeinode := by
  obtain ⟨din, _, hrest⟩ := Option.bind_eq_some_iff.mp h
  obtain ⟨⟨img₁, din₁, off⟩, hloop, hwrite⟩ := Option.bind_eq_some_iff.mp hrest
  rw [winode_freeinode hwrite, iappendFrom_freeinode _ hloop]

theorem appendAll_freeinode {inum : Nat} (ps : List (List UInt8)) :
    ∀ {img : Image}, img.appendAll inum ps = some img' → img'.freeinode = img.freeinode := by
  induction ps with
  | nil =>
    intro img h
    cases h
    rfl
  | cons p ps ih =>
    intro img h
    obtain ⟨img₁, hone, hrest⟩ := Option.bind_eq_some_iff.mp h
    rw [ih hrest, iappend_freeinode hone]

theorem addFile_freeinode {f : Input} (h : img.addFile f = some img') :
    img'.freeinode = img.freeinode + 1 := by
  unfold Image.addFile at h
  split at h
  · cases h
  · obtain ⟨reads, _, h⟩ := Option.bind_eq_some_iff.mp h
    obtain ⟨img₁, hnew, h⟩ := Option.bind_eq_some_iff.mp h
    obtain ⟨img₂, hentry, h⟩ := Option.bind_eq_some_iff.mp h
    rw [appendAll_freeinode _ h, iappend_freeinode hentry, winode_freeinode hnew]

theorem addFiles_freeinode (fs : List Input) :
    ∀ {img : Image}, img.addFiles fs = some img' →
      img'.freeinode = img.freeinode + fs.length := by
  induction fs with
  | nil =>
    intro img h
    cases h
    rfl
  | cons f fs ih =>
    intro img h
    obtain ⟨img₁, hone, hrest⟩ := Option.bind_eq_some_iff.mp h
    rw [ih hrest, addFile_freeinode hone, List.length_cons]
    omega

theorem mkfs_freeinode (h : mkfs files = some img) : img.freeinode = files.length + 2 := by
  obtain ⟨img₀, g₀, hroot, _, hinode, _⟩ := root_spec
  unfold mkfs at h
  simp only [hroot, Option.bind_eq_bind, Option.bind_some] at h
  obtain ⟨img₁, hadd, h⟩ := Option.bind_eq_some_iff.mp h
  obtain ⟨img₂, hfix, h⟩ := Option.bind_eq_some_iff.mp h
  simp only [Image.fixRoot, Option.bind_eq_bind] at hfix
  obtain ⟨din, _, hfix⟩ := Option.bind_eq_some_iff.mp hfix
  unfold Image.balloc at h
  split at h
  · cases h
    show img₂.freeinode = files.length + 2
    rw [winode_freeinode hfix, addFiles_freeinode files hadd, hinode, Nat.add_comm]
  · cases h

def Reserved (b : Nat) : Prop :=
  b < 2 ∨ (sb.logstart ≤ b ∧ b < sb.logstart + sb.nlog) ∨ (sb.bmapstart ≤ b ∧ b < nMeta)

/-- The image keeps to the layout that its superblock announces. -/
structure Image.KeepsLayout (img : Image) : Prop where
  inodes : ∀ i, 1 ≤ i → i < img.freeinode →
    i < sb.ninodes ∧ sb.inodestart ≤ iblock sb i ∧ iblock sb i < sb.bmapstart
  blocks : ∀ b, nMeta ≤ b → b < img.freeblock → b < sb.size
  writes : ∀ w ∈ img.writes, w.1 ≠ .bitmap → ¬Reserved w.2

theorem WriteOk.not_reserved {w : Purpose × Nat} (h : WriteOk w) (hw : w.1 ≠ .bitmap) :
    ¬Reserved w.2 := by
  obtain ⟨why, b⟩ := w
  have hlow : sb.inodestart ≤ b ∧ b < sb.bmapstart ∨ nMeta ≤ b := by
    cases why with
    | inode => exact Or.inl h
    | indirect | data => exact Or.inr h.1
    | bitmap => exact absurd rfl hw
  show ¬(b < 2 ∨ (2 ≤ b ∧ b < 2 + 30) ∨ (45 ≤ b ∧ b < 46))
  have hlow' : 32 ≤ b ∧ b < 45 ∨ 46 ≤ b := hlow
  omega

theorem Made.keepsLayout (h : Made files img g) (hfew : files.length + 2 ≤ sb.ninodes) :
    img.KeepsLayout where
  inodes i _ hi := by
    rw [h.inode] at hi
    have hn : sb.ninodes ≤ wide.ninodes := by decide
    exact ⟨by omega, iblock_range (by omega)⟩
  blocks b _ hb := Nat.lt_of_lt_of_le hb h.block.2
  writes w hw hwhy := (h.writes w hw).not_reserved hwhy

/-- An image that `mkfs` finishes keeps to its layout exactly when the files and the root
directory have inodes that the superblock announces. -/
theorem mkfs_keepsLayout_iff (h : mkfs files = some img) :
    img.KeepsLayout ↔ files.length + 2 ≤ sb.ninodes := by
  constructor
  · intro hgood
    have hlast := (hgood.inodes (files.length + 1) (by omega) (by rw [mkfs_freeinode h]; omega)).1
    omega
  · intro hfew
    have hroom : files.length + 2 ≤ wide.ninodes := Nat.le_trans hfew (by decide)
    rcases mkfs_spec hroom with ⟨img', g, hmade, hprops⟩ | ⟨hnone, _⟩
    · cases h.symm.trans hmade
      exact hprops.keepsLayout hfew
    · rw [h] at hnone
      cases hnone

/-- A file with three bytes. -/
def oneFile : Input := ⟨[97], some [[1, 2, 3]]⟩

theorem mkfs_keepsLayout_one : ∃ img, mkfs [oneFile] = some img ∧ img.KeepsLayout := by
  have hsome : (mkfs [oneFile]).isSome = true := by decide +kernel
  obtain ⟨img, hmade⟩ := Option.isSome_iff_exists.mp hsome
  exact ⟨img, hmade, (mkfs_keepsLayout_iff hmade).mpr (by decide)⟩

def emptyFile (i : Nat) : Input :=
  ⟨[102, 48 + (i / 100).toUInt8, 48 + (i / 10 % 10).toUInt8, 48 + (i % 10).toUInt8], some []⟩

/-- With 199 empty files `mkfs` finishes, and inode 200 is one too many. -/
theorem mkfs_inode_overflow :
    ∃ img, mkfs ((List.range 199).map emptyFile) = some img ∧ ¬img.KeepsLayout := by
  generalize hfiles : (List.range 199).map emptyFile = files
  have hlen : files.length = 199 := by rw [← hfiles, List.length_map, List.length_range]
  have hroom : files.length + 2 ≤ wide.ninodes := by
    rw [hlen]
    decide
  rcases mkfs_spec hroom with ⟨img, g, hmade, hprops⟩ | ⟨_, hbad | hfull⟩
  · refine ⟨img, hmade, fun hgood => ?_⟩
    have hlast := (hgood.inodes 200 (by decide) (by rw [hprops.inode, hlen]; decide)).1
    exact absurd hlast (by decide)
  · obtain ⟨f, hf, hbad⟩ := hbad
    rw [← hfiles] at hf
    obtain ⟨i, hi, rfl⟩ := List.mem_map.mp hf
    have hslash : ∀ i < 199, slash ∉ (emptyFile i).shortname := by decide +kernel
    rcases hbad with hs | hnone | hlong
    · exact absurd hs (hslash i (List.mem_range.mp hi))
    · cases hnone
    · have hlong' : maxFile * bsize < 0 := hlong
      exact absurd hlong' (Nat.not_lt_zero _)
  · rw [← hfiles] at hfull
    exact absurd hfull (by decide +kernel)

end Xv6.Mkfs
