import Xv6.Mkfs.Build

/-! # The files in the image

From single appends to the whole run of `mkfs`: every input becomes an inode with the
bytes that were read and an entry of the root directory. The run fails only for a reason
that can be read off the inputs, as long as the inode blocks have room.
-/

namespace Xv6.Mkfs

open Lib Fs

variable {img img' : Image} {g g' : Nat → Dinode} {i : Nat}

def newInode (type : BitVec 16) : Dinode := { Dinode.zero with type := type, nlink := 1 }

def emptyNode (type : BitVec 16) : Node := ⟨type, 0, 0, 1, 0, fun _ => 0⟩

theorem slotAddr_newInode (blocks : Nat → Block) (type : BitVec 16) (k : Nat) :
    slotAddr blocks (newInode type) k = 0 := by
  have haddr : ∀ k, (newInode type).addr k = 0 := by
    intro k
    unfold Dinode.addr
    split
    · rfl
    · rfl
  rw [slotAddr]
  split
  · exact haddr k
  · rw [if_pos (haddr nDirect)]

theorem nodeOf_newInode (blocks : Nat → Block) (type : BitVec 16) :
    nodeOf blocks (newInode type) = emptyNode type := by
  ext1
  case byte =>
    funext off
    show byteAt blocks (newInode type) off = 0
    simp only [byteAt, slotAddr_newInode]
    exact if_neg fun hx => hx.2 rfl
  all_goals rfl

theorem newInode_addr (type : BitVec 16) {k : Nat} (hk : k ≤ nDirect) :
    (newInode type).addr k = 0 := by
  have hslot := slotAddr_newInode (fun _ _ => 0) type k
  rwa [slotAddr_direct _ _ hk] at hslot

structure Adds (type : BitVec 16) (img : Image) (g : Nat → Dinode) (img' : Image)
    (g' : Nat → Dinode) : Prop where
  built : Built img' g'
  inode : img'.freeinode = img.freeinode + 1
  self : g' img.freeinode = newInode type
  other : ∀ j < wide.ninodes, j ≠ img.freeinode → g' j = g j
  nodes : ∀ j < wide.ninodes, (g j).type ≠ 0 →
    nodeOf img'.marked (g' j) = nodeOf img.marked (g j)
  total : total g' = total g

theorem ialloc_spec (h : Built img g) (hroom : img.freeinode < wide.ninodes) {type : BitVec 16}
    (htype : type ≠ 0) : ∃ img' g', img.ialloc type = some img' ∧ Adds type img g img' g' := by
  have hfree : (g img.freeinode).type = 0 := by
    by_contra hne
    exact Nat.lt_irrefl _ ((h.base.taken _ hroom).mp hne).2
  generalize hg' : upd g img.freeinode (newInode type) = g'
  have hself : g' img.freeinode = newInode type := by rw [← hg', upd_same]
  have hother : ∀ j, j ≠ img.freeinode → g' j = g j := fun j hj => by rw [← hg', upd_other hj]
  have hne : ∀ j < wide.ninodes, (g j).type ≠ 0 → j ≠ img.freeinode :=
    fun j _ ht heq => ht (heq ▸ hfree)
  have hcore : Core (fun _ => False) wide img.marked g' := by
    rw [← hg']
    exact h.base.core.fresh hfree (fun k hk => newInode_addr type hk) (zero_fits type 1)
  have hbase : Base { img with freeinode := img.freeinode + 1 } g' := by
    refine ⟨hcore, h.base.low, h.base.high, h.base.zero, ⟨Nat.le_add_left 1 _, hroom⟩,
      fun j hj => ?_, fun j hj ht => ?_, h.base.writes, h.base.super⟩
    · by_cases hji : j = img.freeinode
      · rw [hji, hself]
        exact iff_of_true htype ⟨h.base.inodes.1, Nat.lt_succ_self _⟩
      · rw [hother j hji, h.base.taken j hj]
        show _ ↔ 1 ≤ j ∧ j < img.freeinode + 1
        omega
    · by_cases hji : j = img.freeinode
      · rw [hji, hself] at ht
        exact absurd ht htype
      · rw [hother j hji] at ht ⊢
        exact h.base.fresh j hj ht
  have htotal : total g' = total g := by
    refine total_congr fun j hj => ?_
    by_cases hji : j = img.freeinode
    · rw [hji, hself, h.base.fresh _ hroom hfree]
      rfl
    · rw [hother j hji]
  have hexact : Exact { img with freeinode := img.freeinode + 1 } g' := by
    refine ⟨fun j hj ht bn hbn => ?_, fun j hj ht => ?_, fun j hj ht => ?_, ?_⟩
    · by_cases hji : j = img.freeinode
      · rw [hji, hself, slotAddr_newInode]
        exact iff_of_false (fun hx => hx rfl) (Nat.not_lt_zero _)
      · rw [hother j hji] at ht ⊢
        exact h.exact.mapped j hj ht bn hbn
    · by_cases hji : j = img.freeinode
      · rw [hji, hself, newInode_addr type (Nat.le_refl _)]
        exact iff_of_false (fun hx => hx rfl) (Nat.not_lt_zero _)
      · rw [hother j hji] at ht ⊢
        exact h.exact.indirect j hj ht
    · by_cases hji : j = img.freeinode
      · rw [hji, hself]
        exact Nat.zero_le _
      · rw [hother j hji] at ht ⊢
        exact h.exact.size j hj ht
    · rw [htotal]
      exact h.exact.count
  have hdisk : ∀ j < wide.ninodes, j ≠ img.freeinode →
      diskInode sb ({ img with freeinode := img.freeinode + 1 } : Image).blocks j = g' j := by
    intro j hj hji
    rw [hother j hji]
    exact h.disk j hj
  have hstore := hbase.store hexact hroom hdisk
  obtain ⟨_, _, hnodes⟩ := hbase.wInode hroom
    ((g' img.freeinode).write (img.blocks (iblock sb img.freeinode)) (ioff img.freeinode))
  refine ⟨_, g', ?_, hstore, rfl, hself, fun j _ hji => hother j hji, fun j hj ht => ?_, htotal⟩
  · rw [hself]
    exact winode_eq hroom (newInode type)
  · have heq := hother j (hne j hj ht)
    rw [hnodes j hj (by rw [heq]; exact ht), heq]
    rfl

/-! ## One file -/

theorem Built.extends_nil (h : Built img g) : Extends i [] img g img g :=
  ⟨h, (appendNode_nil _).symm, fun _ _ _ _ => rfl, fun _ _ _ => rfl, rfl⟩

theorem Extends.size {p : List UInt8} (h : Extends i p img g img' g') :
    (g' i).size = (g i).size + p.length := congrArg Node.size h.node

theorem Extends.type {p : List UInt8} (h : Extends i p img g img' g') :
    (g' i).type = (g i).type := congrArg Node.type h.node

theorem Extends.trans {p q : List UInt8} {img'' : Image} {g'' : Nat → Dinode}
    (h : Extends i p img g img' g') (h' : Extends i q img' g' img'' g'') :
    Extends i (p ++ q) img g img'' g'' where
  built := h'.built
  node := by rw [h'.node, h.node, appendNode_append]
  nodes j hj ht hji := by
    rw [h'.nodes j hj (by rw [h.other j hj hji]; exact ht) hji, h.nodes j hj ht hji]
  other j hj hji := (h'.other j hj hji).trans (h.other j hj hji)
  inode := h'.inode.trans h.inode

theorem appendAll_spec (ps : List (List UInt8)) (h : Built img g) (hi : i < wide.ninodes)
    (ht : (g i).type ≠ 0) :
    (∃ img' g', img.appendAll i ps = some img' ∧ Extends i ps.flatten img g img' g') ∨
      img.appendAll i ps = none ∧ (maxFile * bsize < (g i).size + ps.flatten.length ∨
        fsSize < demand g i ((g i).size + ps.flatten.length)) := by
  induction ps generalizing img g with
  | nil => exact .inl ⟨img, g, rfl, h.extends_nil⟩
  | cons p ps ih =>
      rw [Image.appendAll, List.flatten_cons]
      rcases iappend_spec h hi ht p with ⟨img₁, g₁, happ, hext⟩ | ⟨happ, hover⟩
      · rw [happ, Option.bind_eq_bind, Option.bind_some]
        have hlen : (g₁ i).size + ps.flatten.length =
            (g i).size + (p ++ ps.flatten).length := by
          rw [hext.size, List.length_append, Nat.add_assoc]
        rcases ih hext.built (by rw [hext.type]; exact ht) with ⟨img₂, g₂, hrest, hext'⟩ |
          ⟨hrest, hover⟩
        · exact .inl ⟨img₂, g₂, hrest, hext.trans hext'⟩
        · rw [hlen, demand_congr hext.other] at hover
          exact .inr ⟨hrest, hover⟩
      · right
        rw [happ]
        refine ⟨rfl, hover.imp (fun hx => ?_) fun hx => ?_⟩
        · rw [List.length_append]
          omega
        · refine Nat.lt_of_lt_of_le hx (demand_mono hi ?_)
          rw [List.length_append]
          omega

def Input.content (f : Input) : List UInt8 := (f.reads.getD []).flatten

/-- A reason for `mkfs` to stop at an input that does not depend on the others. -/
def Input.Bad (f : Input) : Prop :=
  slash ∈ f.shortname ∨ f.reads = none ∨ maxFile * bsize < f.content.length

structure AddsFile (f : Input) (img : Image) (g : Nat → Dinode) (img' : Image)
    (g' : Nat → Dinode) : Prop where
  built : Built img' g'
  inode : img'.freeinode = img.freeinode + 1
  root : nodeOf img'.marked (g' rootIno) =
    appendNode (nodeOf img.marked (g rootIno)) (Image.dirent f.name img.freeinode)
  new : nodeOf img'.marked (g' img.freeinode) = appendNode (emptyNode tFile) f.content
  nodes : ∀ j < wide.ninodes, (g j).type ≠ 0 → j ≠ rootIno →
    nodeOf img'.marked (g' j) = nodeOf img.marked (g j)
  total : total g' + blocksOf (g rootIno).size =
    total g + blocksOf ((g rootIno).size + direntSize) + blocksOf f.content.length

theorem dirent_length (name : List UInt8) (inum : Nat) :
    (Image.dirent name inum).length = direntSize := by
  rw [Image.dirent, List.length_map, List.length_range]

/-- The totals once the root directory and a new inode have got their sizes. -/
theorem total_two {n a b : Nat} (hr : rootIno < wide.ninodes) (hn : n < wide.ninodes)
    (hne : n ≠ rootIno) (hzero : (g n).size = 0) (hroot : (g' rootIno).size = a)
    (hnew : (g' n).size = b)
    (hother : ∀ j < wide.ninodes, j ≠ rootIno → j ≠ n → (g' j).size = (g j).size) :
    total g' + blocksOf (g rootIno).size = total g + blocksOf a + blocksOf b := by
  have h₁ : total (upd g rootIno { g rootIno with size := a }) + blocksOf (g rootIno).size =
      total g + blocksOf a := total_upd hr { g rootIno with size := a }
  have h₂ : total (upd (upd g rootIno { g rootIno with size := a }) n { g n with size := b }) +
      blocksOf (upd g rootIno { g rootIno with size := a } n).size =
      total (upd g rootIno { g rootIno with size := a }) + blocksOf b :=
    total_upd hn { g n with size := b }
  have h₃ : total g' =
      total (upd (upd g rootIno { g rootIno with size := a }) n { g n with size := b }) := by
    refine total_congr fun j hj => ?_
    by_cases hjn : j = n
    · rw [hjn, upd_same, hnew]
    · rw [upd_other hjn]
      by_cases hjr : j = rootIno
      · rw [hjr, upd_same, hroot]
      · rw [upd_other hjr, hother j hj hjr hjn]
  have hz : blocksOf 0 = 0 := rfl
  rw [upd_other hne, hzero, hz, Nat.add_zero] at h₂
  rw [h₃, h₂]
  omega

theorem addFile_spec (h : Built img g) (hroom : img.freeinode < wide.ninodes)
    (hroot : rootIno < img.freeinode)
    (hdir : (g rootIno).size + direntSize ≤ maxFile * bsize) (f : Input) :
    (∃ img' g', img.addFile f = some img' ∧ AddsFile f img g img' g') ∨
      img.addFile f = none ∧ (f.Bad ∨ fsSize + blocksOf (g rootIno).size < nMeta + total g +
        blocksOf ((g rootIno).size + direntSize) + blocksOf f.content.length) := by
  unfold Image.addFile
  by_cases hslash : slash ∈ f.shortname
  · rw [if_pos hslash]
    exact .inr ⟨rfl, .inl (.inl hslash)⟩
  rw [if_neg hslash]
  cases hreads : f.reads with
  | none => exact .inr ⟨rfl, .inl (.inr (.inl hreads))⟩
  | some reads =>
  have hcontent : f.content = reads.flatten := by rw [Input.content, hreads, Option.getD_some]
  have hr : rootIno < wide.ninodes := by decide
  have hne : img.freeinode ≠ rootIno := Nat.ne_of_gt hroot
  have htr : (g rootIno).type ≠ 0 := (h.base.taken _ hr).mpr ⟨Nat.le_refl 1, hroot⟩
  have hz : blocksOf 0 = 0 := rfl
  obtain ⟨img₁, g₁, halloc, hadds⟩ := ialloc_spec h hroom (show tFile ≠ 0 by decide)
  have hroot₁ : g₁ rootIno = g rootIno := hadds.other _ hr hne.symm
  simp only [Option.bind_eq_bind, Option.bind_some, halloc]
  rcases iappend_spec hadds.built hr (by rw [hroot₁]; exact htr)
    (Image.dirent f.name img.freeinode) with ⟨img₂, g₂, happ, hext⟩ | ⟨happ, hover⟩
  · rw [happ]
    simp only [Option.bind_some]
    have hnew₂ : g₂ img.freeinode = newInode tFile := by
      rw [hext.other _ hroom hne, hadds.self]
    have hsize₂ : (g₂ rootIno).size = (g rootIno).size + direntSize := by
      rw [hext.size, hroot₁, dirent_length]
    have htype₂ : (g₂ img.freeinode).type ≠ 0 := by
      rw [hnew₂]
      show tFile ≠ 0
      decide
    have hzero : (g₂ img.freeinode).size = 0 := by
      rw [hnew₂]
      rfl
    have htotal₂ : total g₂ + blocksOf (g rootIno).size =
        total g + blocksOf ((g rootIno).size + direntSize) := by
      have hupd : total g₂ + blocksOf (g₁ rootIno).size =
          total g₁ + blocksOf ((g rootIno).size + direntSize) + blocksOf 0 :=
        total_two hr hroom hne (by rw [hadds.self]; rfl) hsize₂ hzero
          fun j hj hjr _ => by rw [hext.other j hj hjr]
      rwa [hroot₁, hadds.total, hz, Nat.add_zero] at hupd
    rcases appendAll_spec reads hext.built hroom htype₂ with ⟨img₃, g₃, hall, hext'⟩ |
      ⟨hall, hover⟩
    · refine .inl ⟨img₃, g₃, hall, hext'.built, ?_, ?_, ?_, fun j hj ht hjr => ?_, ?_⟩
      · rw [hext'.inode, hext.inode, hadds.inode]
      · rw [hext'.nodes _ hr (by rw [hext.type, hroot₁]; exact htr) hne.symm, hext.node,
          hadds.nodes _ hr htr]
      · rw [hext'.node, hcontent, hnew₂, nodeOf_newInode]
      · have hjn : j ≠ img.freeinode := by
          intro heq
          have htaken := ((h.base.taken j hj).mp ht).2
          exact Nat.lt_irrefl _ (heq ▸ htaken)
        have ht₁ : (g₁ j).type ≠ 0 := by
          rw [hadds.other j hj hjn]
          exact ht
        have ht₂ : (g₂ j).type ≠ 0 := by
          rw [hext.other j hj hjr]
          exact ht₁
        rw [hext'.nodes j hj ht₂ hjn, hext.nodes j hj ht₁ hjr, hadds.nodes j hj ht]
      · refine total_two hr hroom hne ?_ ?_ ?_ fun j hj hjr hjn => ?_
        · by_contra hpos
          have hfresh : (g img.freeinode).type = 0 := by
            by_contra hne'
            exact Nat.lt_irrefl _ ((h.base.taken _ hroom).mp hne').2
          rw [h.base.fresh _ hroom hfresh] at hpos
          exact hpos rfl
        · rw [hext'.other _ hr hne.symm, hsize₂]
        · rw [hext'.size, hzero, Nat.zero_add, hcontent]
        · rw [hext'.other j hj hjn, hext.other j hj hjr, hadds.other j hj hjn]
    · right
      refine ⟨hall, ?_⟩
      rw [hzero, Nat.zero_add, ← hcontent] at hover
      refine hover.imp (fun hx => .inr (.inr hx)) fun hx => ?_
      have hupd : total (upd g₂ img.freeinode
          { g₂ img.freeinode with size := f.content.length }) + blocksOf 0 =
          total g₂ + blocksOf f.content.length := by
        rw [← hzero]
        exact total_upd hroom { g₂ img.freeinode with size := f.content.length }
      rw [demand] at hx
      omega
  · right
    rw [happ]
    rw [hroot₁, dirent_length] at hover
    refine ⟨rfl, .inr ?_⟩
    rcases hover with hx | hx
    · exact absurd hdir (Nat.not_le.mpr hx)
    · have hupd : total (upd g₁ rootIno
          { g₁ rootIno with size := (g rootIno).size + direntSize }) +
          blocksOf (g₁ rootIno).size = total g₁ + blocksOf ((g rootIno).size + direntSize) :=
        total_upd hr { g₁ rootIno with size := (g rootIno).size + direntSize }
      rw [hroot₁, hadds.total] at hupd
      rw [demand, hroot₁] at hx
      omega

/-! ## All files -/

/-- The entries of the root directory for files whose inodes are numbered from `n` on. -/
def entries : Nat → List Input → List UInt8
  | _, [] => []
  | n, f :: fs => Image.dirent f.name n ++ entries (n + 1) fs

theorem entries_length (n : Nat) (fs : List Input) :
    (entries n fs).length = direntSize * fs.length := by
  induction fs generalizing n with
  | nil => rfl
  | cons f fs ih =>
      rw [entries, List.length_append, dirent_length, ih, List.length_cons, Nat.mul_succ,
        Nat.add_comm]

/-- The blocks of the contents of the files. -/
def filesBlocks (fs : List Input) : Nat := (fs.map fun f => blocksOf f.content.length).sum

structure AddsFiles (fs : List Input) (img : Image) (g : Nat → Dinode) (img' : Image)
    (g' : Nat → Dinode) : Prop where
  built : Built img' g'
  inode : img'.freeinode = img.freeinode + fs.length
  root : nodeOf img'.marked (g' rootIno) =
    appendNode (nodeOf img.marked (g rootIno)) (entries img.freeinode fs)
  new : ∀ k f, fs[k]? = some f →
    nodeOf img'.marked (g' (img.freeinode + k)) = appendNode (emptyNode tFile) f.content
  nodes : ∀ j < wide.ninodes, (g j).type ≠ 0 → j ≠ rootIno →
    nodeOf img'.marked (g' j) = nodeOf img.marked (g j)

theorem AddsFiles.cons {f : Input} {fs : List Input} {img₁ : Image} {g₁ : Nat → Dinode}
    (hroot : rootIno < img.freeinode) (hroom : img.freeinode < wide.ninodes)
    (h : AddsFile f img g img₁ g₁) (h' : AddsFiles fs img₁ g₁ img' g') :
    AddsFiles (f :: fs) img g img' g' := by
  have htype : ∀ j < wide.ninodes, (g j).type ≠ 0 → j ≠ rootIno → (g₁ j).type ≠ 0 := by
    intro j hj ht hjr
    have hnode := congrArg Node.type (h.nodes j hj ht hjr)
    exact fun hz => ht (hnode.symm.trans hz)
  constructor
  case built => exact h'.built
  case inode =>
    rw [h'.inode, h.inode, List.length_cons]
    omega
  case root => rw [h'.root, h.root, appendNode_append, h.inode, entries]
  case new =>
    intro k f' hk
    cases k with
    | zero =>
        obtain rfl : f = f' := by simpa using hk
        have hnew : (g₁ img.freeinode).type ≠ 0 := by
          have hnode : (g₁ img.freeinode).type = tFile := congrArg Node.type h.new
          rw [hnode]
          decide
        rw [Nat.add_zero, h'.nodes _ hroom hnew (Nat.ne_of_gt hroot), h.new]
    | succ k =>
        have hnew := h'.new k f' (by simpa using hk)
        rw [h.inode] at hnew
        rwa [Nat.add_assoc, Nat.add_comm 1 k] at hnew
  case nodes =>
    intro j hj ht hjr
    rw [h'.nodes j hj (htype j hj ht hjr) hjr, h.nodes j hj ht hjr]

/-- All files are added, or there is a bad one, or together they are too many blocks. -/
theorem addFiles_spec (fs : List Input) (h : Built img g) (hroot : rootIno < img.freeinode)
    (hroom : img.freeinode + fs.length ≤ wide.ninodes)
    (hsize : (g rootIno).size = direntSize * img.freeinode) :
    (∃ img' g', img.addFiles fs = some img' ∧ AddsFiles fs img g img' g') ∨
      img.addFiles fs = none ∧ ((∃ f ∈ fs, f.Bad) ∨
        fsSize + blocksOf (direntSize * img.freeinode) < nMeta + total g +
          blocksOf (direntSize * (img.freeinode + fs.length)) + filesBlocks fs) := by
  induction fs generalizing img g with
  | nil =>
      refine .inl ⟨img, g, rfl, h, rfl, (appendNode_nil _).symm, fun k f hk => ?_,
        fun _ _ _ _ => rfl⟩
      simp only [List.getElem?_nil, reduceCtorEq] at hk
  | cons f fs ih =>
      rw [List.length_cons] at hroom
      have hlt : img.freeinode < wide.ninodes := by omega
      have hdir : (g rootIno).size + direntSize ≤ maxFile * bsize := by
        rw [hsize]
        have hbound : img.freeinode < 208 := hlt
        have hd : direntSize = 16 := rfl
        have hm : maxFile * bsize = 274432 := rfl
        rw [hd, hm]
        omega
      have hfiles : filesBlocks (f :: fs) = blocksOf f.content.length + filesBlocks fs := by
        rw [filesBlocks, List.map_cons, List.sum_cons]
        rfl
      have hmul : direntSize * img.freeinode + direntSize = direntSize * (img.freeinode + 1) :=
        (Nat.mul_succ _ _).symm
      rw [Image.addFiles]
      rcases addFile_spec h hlt hroot hdir f with ⟨img₁, g₁, hadd, hadds⟩ | ⟨hadd, hover⟩
      · rw [hadd, Option.bind_eq_bind, Option.bind_some]
        have hsize₁ : (g₁ rootIno).size = direntSize * img₁.freeinode := by
          have hnode : (g₁ rootIno).size = (g rootIno).size + _ := congrArg Node.size hadds.root
          rw [hnode, dirent_length, hsize, hadds.inode, hmul]
        have hroot₁ : rootIno < img₁.freeinode := by
          rw [hadds.inode]
          exact Nat.lt_succ_of_lt hroot
        rcases ih hadds.built hroot₁ (by rw [hadds.inode]; omega) hsize₁ with
          ⟨img₂, g₂, hrest, hadds'⟩ | ⟨hrest, hover⟩
        · exact .inl ⟨img₂, g₂, hrest, hadds'.cons hroot hlt hadds⟩
        · refine .inr ⟨hrest, hover.imp (fun hx => ?_) fun hx => ?_⟩
          · obtain ⟨f', hf', hbad⟩ := hx
            exact ⟨f', List.mem_cons_of_mem f hf', hbad⟩
          · have htotal := hadds.total
            rw [hsize, hmul] at htotal
            rw [hadds.inode] at hx
            have hcomm : img.freeinode + 1 + fs.length = img.freeinode + (fs.length + 1) := by
              omega
            rw [hcomm] at hx
            rw [hfiles, List.length_cons]
            omega
      · rw [hadd]
        refine .inr ⟨rfl, hover.imp (fun hx => ⟨f, List.mem_cons_self, hx⟩) fun hx => ?_⟩
        rw [hsize, hmul] at hx
        have hmono : blocksOf (direntSize * (img.freeinode + 1)) ≤
            blocksOf (direntSize * (img.freeinode + (f :: fs).length)) := by
          refine blocksOf_mono (Nat.mul_le_mul_left _ ?_)
          rw [List.length_cons]
          omega
        rw [hfiles]
        omega

/-! ## The whole run -/

theorem read_zeroes (o : Nat) : Dinode.read (fun _ => 0) o = Dinode.zero := by
  have hz : ∀ a k, getLE (fun _ => 0) a k = 0 := fun a k => getLE_eq_zero fun _ _ _ => rfl
  simp only [Dinode.read, hz]
  rfl

theorem blank_blocks {b : Nat} (hb : b ≠ 1) : blank.blocks b = fun _ => 0 := by
  show upd (fun _ _ => 0) 1 superBlock b = fun _ => 0
  rw [upd_other hb]

theorem blank_super : blank.blocks 1 = superBlock := by
  show upd (fun _ _ => 0) 1 superBlock 1 = superBlock
  rw [upd_same]

theorem total_zero : total (fun _ => Dinode.zero) = 0 := by
  have hz : blocksOf 0 = 0 := rfl
  exact Finset.sum_eq_zero fun _ _ => hz

theorem blank_core : Core (fun _ => False) wide blank.marked (fun _ => Dinode.zero) where
  sbOk := wide_ok
  low b hb := by
    have hb' : b < 46 := hb
    have hsize : b < fsSize := by
      show b < 2000
      omega
    rw [blank.bitOf_marked hsize]
    exact decide_eq_true hb'
  ledger := by
    have hunused : ∀ b, ¬ usedBlock wide blank.marked b := by
      intro b hb
      obtain ⟨hlow, hsize, hbit⟩ := hb
      rw [blank.bitOf_marked hsize, decide_eq_true_eq] at hbit
      exact absurd hlow (Nat.not_le.mpr hbit)
    have hnone : ∀ x, placeOf wide blank.marked (fun _ => Dinode.zero) x = none :=
      fun x => if_neg fun hx => hx.2.2.1 rfl
    refine ⟨fun x y r hx => ?_, fun x r hx => ?_, fun _ hr => hr.elim, fun r hr => ?_⟩
    · rw [hnone] at hx
      cases hx
    · rw [hnone] at hx
      cases hx
    · exact absurd hr (hunused r)
  fits _ _ := zero_fits 0 0

theorem blank_built : Built blank (fun _ => Dinode.zero) := by
  refine ⟨⟨blank_core, Nat.le_refl _, by decide, fun b hb => ?_, by decide, fun i hi => ?_,
    fun _ _ _ => rfl, fun w hw => absurd hw List.not_mem_nil, fun _ _ => rfl⟩,
      ⟨fun i _ ht => absurd rfl ht,
    fun i _ ht => absurd rfl ht, fun _ _ _ => Nat.zero_le _, ?_⟩, fun j hj => ?_⟩
  · have hb' : 46 ≤ b := hb
    exact blank_blocks (by omega)
  · refine iff_of_false (fun hx => hx rfl) fun hx => ?_
    have hlt : i < 1 := hx.2
    omega
  · rw [total_zero]
    rfl
  · have hge : 32 ≤ iblock sb j := (iblock_range hj).1
    rw [diskInode, blank_blocks (by omega)]
    exact read_zeroes _

def rootEntries : List UInt8 := Image.dirent dot rootIno ++ Image.dirent dotdot rootIno

theorem root_spec : ∃ img g, root = some img ∧ Built img g ∧ img.freeinode = 2 ∧
    nodeOf img.marked (g rootIno) = appendNode (emptyNode tDir) rootEntries ∧ total g = 1 := by
  have hr : rootIno < wide.ninodes := by decide
  obtain ⟨img₁, g₁, halloc, hadds⟩ := ialloc_spec blank_built (by decide)
    (show tDir ≠ 0 by decide)
  have hself : g₁ rootIno = newInode tDir := hadds.self
  have htype₁ : (g₁ rootIno).type ≠ 0 := by
    rw [hself]
    show tDir ≠ 0
    decide
  have hsize₁ : (g₁ rootIno).size = 0 := by
    rw [hself]
    rfl
  have htotal₁ : total g₁ = 0 := by
    rw [hadds.total, total_zero]
  -- neither entry can fail: the directory stays in its first block
  have hfits : ∀ n, n ≤ 32 → demand g₁ rootIno n ≤ 47 := by
    intro n hn
    have hupd : total (upd g₁ rootIno { g₁ rootIno with size := n }) +
        blocksOf (g₁ rootIno).size = total g₁ + blocksOf n :=
      total_upd hr { g₁ rootIno with size := n }
    have hmono : blocksOf n ≤ 1 := blocksOf_mono hn
    have hmeta : nMeta = 46 := rfl
    rw [htotal₁] at hupd
    rw [demand, hmeta]
    omega
  have happend : ∀ (img : Image) (g : Nat → Dinode) (p : List UInt8), Built img g →
      (∀ j < wide.ninodes, j ≠ rootIno → g j = g₁ j) → (g rootIno).type ≠ 0 →
      (g rootIno).size + p.length ≤ 32 →
      ∃ img' g', img.iappend rootIno p = some img' ∧ Extends rootIno p img g img' g' := by
    intro img g p hb hother ht hle
    rcases iappend_spec hb hr ht p with hok | ⟨_, hx | hx⟩
    · exact hok
    · have hmax : maxFile * bsize = 274432 := rfl
      omega
    · rw [demand_congr hother] at hx
      have hbound := hfits _ hle
      have hfs : fsSize = 2000 := rfl
      omega
  obtain ⟨img₂, g₂, happ₂, hext₂⟩ := happend img₁ g₁ (Image.dirent dot rootIno) hadds.built
    (fun _ _ _ => rfl) htype₁ (by rw [hsize₁, dirent_length]; decide)
  obtain ⟨img₃, g₃, happ₃, hext₃⟩ := happend img₂ g₂ (Image.dirent dotdot rootIno) hext₂.built
    hext₂.other (by rw [hext₂.type]; exact htype₁)
    (by rw [hext₂.size, hsize₁, dirent_length, dirent_length]; decide)
  have hext := hext₂.trans hext₃
  refine ⟨img₃, g₃, ?_, hext.built, ?_, ?_, ?_⟩
  · simp only [root, halloc, happ₂, happ₃, Option.bind_eq_bind, Option.bind_some]
  · rw [hext.inode, hadds.inode]
    rfl
  · rw [hext.node, hself, nodeOf_newInode, rootEntries]
  · have hupd : total (upd g₁ rootIno (g₃ rootIno)) + blocksOf (g₁ rootIno).size =
        total g₁ + blocksOf (g₃ rootIno).size := total_upd hr (g₃ rootIno)
    have hsame : total g₃ = total (upd g₁ rootIno (g₃ rootIno)) := by
      refine total_congr fun j hj => ?_
      by_cases hjr : j = rootIno
      · rw [hjr, upd_same]
      · rw [upd_other hjr, hext.other j hj hjr]
    have hlen : (Image.dirent dot rootIno ++ Image.dirent dotdot rootIno).length = 32 := by
      rw [List.length_append, dirent_length, dirent_length]
      rfl
    have h0 : blocksOf 0 = 0 := rfl
    have h32 : blocksOf 32 = 1 := rfl
    rw [hext.size, hsize₁, hlen, Nat.zero_add, h0, h32, htotal₁] at hupd
    omega

end Xv6.Mkfs
