import Xv6.Kernel.Fs.Truncate

/-! # The inode table

The invariant of the file system between the calls of `fs.c`: the disk, the copies
of inodes in the table, and the references to them. A reference is held by an open
file, by the list `L` (references to inodes known to be allocated: those of the
running code and the current directories), or by the list `U` (references just
returned by `iget`).
-/

namespace Xv6.Fs

open Lib

def FsMem.fileRefs (m : FsMem) (ip : Nat) : Nat :=
  (List.range nFile).countP fun f =>
    ((m.ftable f).type = .inode ∨ (m.ftable f).type = .device) ∧ (m.ftable f).ip = ip

def Node.free : Node := ⟨0, 0, 0, 0, 0, fun _ => 0⟩

def Store.node (s : Store) (i : Nat) : Node :=
  if (s.inodeOf i).type = 0 then Node.free else nodeOf s.blocks (s.inodeOf i)

/-- A directory consists of entries, and they name inodes that exist. -/
structure NodeOk (sb : Superblock) (n : Node) : Prop where
  names : DirOk sb n
  whole : n.type = tDir → n.size % direntSize = 0

/-- The state of the file system while references `L` and `U` are held. With `nt` every
reference is to an allocated inode. -/
structure Inv (st : Bool) (nt : Prop) (L U : List Nat) (s : Store) : Prop where
  disk : ∃ P, (st = true → ∀ b, ¬ P b) ∧ Disk st P s.mem.sb s.blocks s.inodeOf
  uniq : s.mem.Unique
  held : s.held = []
  touched : s.touched = []
  inum : ∀ ip < nInode, 0 < (s.mem.itable ip).ref → (s.mem.itable ip).inum < s.mem.sb.ninodes
  coh : ∀ ip i, s.mem.Holds ip i →
    Coherent st s.blocks (diskInode s.mem.sb s.blocks i) (s.mem.itable ip).din
  type : ∀ ip i, s.mem.Holds ip i → (s.mem.itable ip).din.type ≠ 0
  refs : ∀ ip < nInode,
    (s.mem.itable ip).ref = (s.mem.fileRefs ip + L.count ip + U.count ip : Nat)
  lt : ∀ ip, ip ∈ L ∨ ip ∈ U → ip < nInode
  alive : ∀ ip < nInode, 0 < s.mem.fileRefs ip ∨ ip ∈ L ∨ nt ∧ ip ∈ U →
    (s.inodeOf (s.mem.itable ip).inum).type ≠ 0
  idle : ∀ f < nFile, (s.mem.ftable f).ref = 0 → (s.mem.ftable f).type = .none
  files : ∀ f < nFile, (s.mem.ftable f).type = .inode ∨ (s.mem.ftable f).type = .device →
    (s.mem.ftable f).ip < nInode
  writers : ∀ f < nFile, (s.mem.ftable f).type = .inode → (s.mem.ftable f).writable = true →
    (s.inodeOf (s.mem.itable (s.mem.ftable f).ip).inum).type ≠ tDir
  fds : ∀ p fd f, (s.mem.proc p).ofile fd = some f → f < nFile
  dirs : ∀ i, (s.node i).type = tDir → (s.node i).size % direntSize = 0

/-- What the code of `fs.c` leaves alone outside the inode it works on. -/
structure Outline (s t : Store) : Prop where
  sb : t.mem.sb = s.mem.sb
  ftable : t.mem.ftable = s.mem.ftable
  proc : t.mem.proc = s.mem.proc
  outstanding : t.outstanding = s.outstanding
  entry : ∀ ip < nInode, 0 < (s.mem.itable ip).ref → 0 < (t.mem.itable ip).ref →
    (t.mem.itable ip).inum = (s.mem.itable ip).inum ∧
      ((s.mem.itable ip).valid = true → (t.mem.itable ip).valid = true)

/-- The same for code that releases no changed block without logging it. -/
structure Frame (s t : Store) : Prop extends Outline s t where
  broken : t.broken = s.broken

/-- The panics that say that the file system has gone wrong. Those in the second list can
happen when a file has a hole. -/
def fatal (st : Bool) : List String :=
  "freeing free block" ::
    if st then ["log_write outside of trans", "dirlookup read", "dirlink read",
      "isdirempty: readi", "unlink: writei"]
    else []

/-- Every stop is allowed but the fatal ones; that of `ilock` is allowed without `nt`. -/
structure Benign (st : Bool) (nt : Prop) (E : Stop → Store → Prop) : Prop where
  deadlock : ∀ t, E .deadlock t
  panic : ∀ msg, msg ∉ fatal st → msg ≠ "ilock: no type" → ∀ t, E (.panic msg) t
  noType : ¬ nt → ∀ t, E (.panic "ilock: no type") t

theorem benign_all {st : Bool} {nt : Prop} : Benign st nt fun _ _ => True :=
  ⟨fun _ => trivial, fun _ _ _ _ => trivial, fun _ _ => trivial⟩

section

variable {st : Bool} {nt : Prop} {L U : List Nat} {P : Nat → Prop} {s t u : Store} {ip i j : Nat}

theorem Outline.refl (s : Store) : Outline s s :=
  ⟨rfl, rfl, rfl, rfl, fun _ _ _ _ => ⟨rfl, id⟩⟩

/-- Entries in use must stay in use in between: a free one may get another inode. -/
theorem Outline.trans (h₁ : Outline s t) (h₂ : Outline t u)
    (hr : ∀ ip < nInode, 0 < (s.mem.itable ip).ref → 0 < (t.mem.itable ip).ref) :
    Outline s u where
  sb := h₂.sb.trans h₁.sb
  ftable := h₂.ftable.trans h₁.ftable
  proc := h₂.proc.trans h₁.proc
  outstanding := h₂.outstanding.trans h₁.outstanding
  entry jp hjp hpos hpos' := by
    obtain ⟨hi₁, hv₁⟩ := h₁.entry jp hjp hpos (hr jp hjp hpos)
    obtain ⟨hi₂, hv₂⟩ := h₂.entry jp hjp (hr jp hjp hpos) hpos'
    exact ⟨hi₂.trans hi₁, fun hv => hv₂ (hv₁ hv)⟩

/-- A read outside a transaction: with `st` it logs nothing. -/
theorem Benign.read {E : Stop → Store → Prop} (h : Benign st nt E) : st = true ∨ s.Trans E := by
  cases st with
  | true => exact .inl rfl
  | false => exact .inr (.inr (h.panic _ (by decide) (by decide)))

theorem Store.node_type (s : Store) (i : Nat) : (s.node i).type = (s.inodeOf i).type := by
  unfold Store.node
  split
  · exact (‹(s.inodeOf i).type = 0›).symm
  · rfl

theorem Store.node_of_type (h : (s.inodeOf i).type ≠ 0) :
    s.node i = nodeOf s.blocks (s.inodeOf i) :=
  if_neg h

theorem Store.node_eq_free (h : (s.inodeOf i).type = 0) : s.node i = Node.free := if_pos h

theorem Inv.ref_pos (h : Inv st nt L U s) (hip : ip ∈ L ∨ ip ∈ U) :
    0 < (s.mem.itable ip).ref := by
  rw [h.refs ip (h.lt ip hip)]
  have hc : 0 < L.count ip + U.count ip := by
    rcases hip with hm | hm
    · have := List.count_pos_iff.mpr hm
      omega
    · have := List.count_pos_iff.mpr hm
      omega
  omega

theorem Inv.active (h : Inv st nt L U s) (hd : Disk st P s.mem.sb s.blocks s.inodeOf)
    (hh : s.mem.Holds ip i) : Active P ip i s := by
  have hi : i < s.mem.sb.ninodes := hh.inum ▸ h.inum ip hh.lt hh.ref
  refine ⟨hd.core, h.uniq, hh, hi, ?_, h.held, h.touched⟩
  rw [inodeOf_of_holds h.uniq hi hh]
  exact h.type ip i hh

/-- An inode whose entries in the table are the same reads the same. -/
theorem inodeOf_eq (hus : s.mem.Unique) (hut : t.mem.Unique) (hsb : t.mem.sb = s.mem.sb)
    (hd : j < s.mem.sb.ninodes →
      diskInode s.mem.sb t.blocks j = diskInode s.mem.sb s.blocks j)
    (hh : ∀ jp, t.mem.Holds jp j ↔ s.mem.Holds jp j)
    (hdin : ∀ jp, s.mem.Holds jp j → (t.mem.itable jp).din = (s.mem.itable jp).din) :
    t.inodeOf j = s.inodeOf j := by
  by_cases hj : j < s.mem.sb.ninodes
  · have hj' : j < t.mem.sb.ninodes := hsb ▸ hj
    rcases s.inodeOf_cases hus hj with ⟨jp, hjp, heq⟩ | ⟨hn, heq⟩
    · rw [heq, inodeOf_of_holds hut hj' ((hh jp).mpr hjp), hdin jp hjp]
    · rw [heq, inodeOf_of_not_holds hj' fun jp hjp => hn jp ((hh jp).mp hjp), hsb, hd hj]
  · unfold Store.inodeOf
    rw [hsb, if_neg hj, if_neg hj]

/-! ## Work on one inode -/

theorem Edits.sb (he : Edits st P ip i s t) : t.mem.sb = s.mem.sb := by
  obtain ⟨x, hx⟩ := he.mem
  rw [hx, mapDin_sb]

theorem Edits.outline (he : Edits st P ip i s t) : Outline s t := by
  obtain ⟨x, hx⟩ := he.mem
  refine ⟨he.sb, by rw [hx]; rfl, by rw [hx]; rfl, he.shape.2.1, fun jp _ _ _ => ?_⟩
  obtain ⟨-, hvalid, hinum, -⟩ := mapDin_fields s.mem ip (fun _ => x) jp
  rw [hx, hvalid, hinum]
  exact ⟨rfl, id⟩

theorem Edits.node (he : Edits st P ip i s t) (j : Nat) (hji : j ≠ i) : t.node j = s.node j := by
  unfold Store.node
  rw [he.others j hji]
  split
  · rfl
  · rename_i ht
    refine he.nodes j ?_ hji ht
    by_contra hge
    apply ht
    unfold Store.inodeOf
    rw [if_neg hge]
    rfl

/-- An operation on one inode that keeps its type keeps the invariant. -/
theorem Inv.edits (h : Inv st nt L U s) (hP : st = true → ∀ b, ¬ P b)
    (hd : Disk st P s.mem.sb s.blocks s.inodeOf) (hh : s.mem.Holds ip i)
    (he : Edits st P ip i s t) (htype : (t.inodeOf i).type = (s.inodeOf i).type)
    (hdir : NodeOk s.mem.sb (t.node i)) : Inv st nt L U t := by
  obtain ⟨x, hx⟩ := he.mem
  have hs := h.active hd hh
  have hut : t.mem.Unique := hx ▸ h.uniq.mapDin
  have hht : t.mem.Holds ip i := hx ▸ mapDin_holds.mpr hh
  have htypes : ∀ j, (t.inodeOf j).type = (s.inodeOf j).type := by
    intro j
    by_cases hji : j = i
    · rw [hji, htype]
    · rw [he.others j hji]
  have hnt : (t.inodeOf i).type ≠ 0 := by
    rw [htype]
    exact hs.type
  have hinode : t.inodeOf i = (t.mem.itable ip).din :=
    inodeOf_of_holds hut (he.sb ▸ hs.lt) hht
  have hfields := mapDin_fields s.mem ip fun _ => x
  rw [← hx] at hfields
  have hheld : ∀ jp j, t.mem.Holds jp j → s.mem.Holds jp j := fun jp j hj =>
    mapDin_holds.mp (hx ▸ hj)
  have hother : ∀ jp, jp ≠ ip → t.mem.itable jp = s.mem.itable jp := fun jp hne => by
    rw [hx, mapDin_other hne]
  have hne : ∀ jp j, s.mem.Holds jp j → jp ≠ ip → j ≠ i := by
    intro jp j hj hjp hji
    apply hjp
    exact h.uniq jp ip hj.lt hh.lt hj.ref hh.ref (hj.inum.trans (hji.trans hh.inum.symm))
  have hft : t.mem.ftable = s.mem.ftable := he.outline.ftable
  refine ⟨⟨P, hP, ?_, ?_⟩, hut, he.shape.1.trans h.held, he.shape.2.2.trans h.touched, ?_, ?_, ?_,
    ?_, h.lt, ?_, ?_, ?_, ?_, ?_, ?_⟩
  · rw [he.sb]
    exact he.core
  · intro j hj htj
    rw [he.sb] at hj ⊢
    by_cases hji : j = i
    · subst hji
      have hnames := hdir.names
      rw [Store.node_of_type hnt] at hnames
      exact he.ok hnt hnames
    · rw [he.others j hji] at htj ⊢
      refine (hd.ok j hj htj).congr (he.nodes j hj hji htj) fun k hk hk0 => ?_
      rw [he.slots j hj hji htj k hk hk0]
      exact hk0
  · intro jp hjp
    rw [(hfields jp).1, (hfields jp).2.2.1, he.sb]
    exact h.inum jp hjp
  · intro jp j hj
    have hjs := hheld jp j hj
    rw [he.sb]
    by_cases hjp : jp = ip
    · subst hjp
      obtain rfl : j = i := hj.inj hht
      rw [← hinode]
      exact he.coh
    · have hji := hne jp j hjs hjp
      have hjlt : j < s.mem.sb.ninodes := hjs.inum ▸ h.inum jp hjs.lt hjs.ref
      have hc := h.coh jp j hjs
      have hxj := inodeOf_of_holds h.uniq hjlt hjs
      have htj : (s.inodeOf j).type ≠ 0 := by
        rw [hxj]
        exact h.type jp j hjs
      rw [hother jp hjp, he.disk j hjlt hji]
      rw [← hxj] at hc ⊢
      have hn := he.nodes j hjlt hji htj
      exact ⟨by rw [hc.frame hn (he.slots j hjlt hji htj), hc.node, hn], hc.addr⟩
  · intro jp j hj
    have hjs := hheld jp j hj
    by_cases hjp : jp = ip
    · subst hjp
      rw [← hinode]
      exact hnt
    · rw [hother jp hjp]
      exact h.type jp j hjs
  · intro jp hjp
    unfold FsMem.fileRefs
    rw [(hfields jp).1, hft]
    exact h.refs jp hjp
  · intro jp hjp hc
    unfold FsMem.fileRefs at hc
    rw [hft] at hc
    rw [htypes, (hfields jp).2.2.1]
    exact h.alive jp hjp hc
  · rw [hft]
    exact h.idle
  · rw [hft]
    exact h.files
  · intro f hf hty hw
    rw [hft] at hty hw ⊢
    rw [htypes, (hfields _).2.2.1]
    exact h.writers f hf hty hw
  · rw [he.outline.proc]
    exact h.fds
  · intro j
    by_cases hji : j = i
    · rw [hji]
      exact hdir.whole
    · rw [he.node j hji]
      exact h.dirs j

/-! ## Changes of the table -/

theorem Inv.ref_pos_of_file (h : Inv st nt L U s) {f : Nat} (hf : f < nFile)
    (ht : (s.mem.ftable f).type = .inode ∨ (s.mem.ftable f).type = .device) :
    0 < s.mem.fileRefs (s.mem.ftable f).ip ∧
      0 < (s.mem.itable (s.mem.ftable f).ip).ref := by
  have hpos : 0 < s.mem.fileRefs (s.mem.ftable f).ip := by
    unfold FsMem.fileRefs
    exact List.countP_pos_iff.mpr ⟨f, List.mem_range.mpr hf, by simp [ht]⟩
  rw [h.refs _ (h.files f hf ht)]
  exact ⟨hpos, by omega⟩

theorem Inv.retable {L' U' : List Nat} (h : Inv st nt L U s)
    (hm : t.mem = { s.mem with itable := t.mem.itable }) (hb : t.blocks = s.blocks)
    (hshape : t.held = s.held ∧ t.touched = s.touched) (hu : t.mem.Unique)
    (hdisk : ∃ P, (st = true → ∀ b, ¬ P b) ∧ Disk st P s.mem.sb s.blocks t.inodeOf)
    (htypes : ∀ j, (t.inodeOf j).type = (s.inodeOf j).type)
    (hinum : ∀ jp < nInode, 0 < (t.mem.itable jp).ref →
      (t.mem.itable jp).inum < s.mem.sb.ninodes)
    (hkeep : ∀ jp < nInode, 0 < (s.mem.itable jp).ref →
      (t.mem.itable jp).inum = (s.mem.itable jp).inum)
    (hholds : ∀ jp j, t.mem.Holds jp j →
      Coherent st s.blocks (diskInode s.mem.sb s.blocks j) (t.mem.itable jp).din ∧
        (t.mem.itable jp).din.type ≠ 0)
    (hrefs : ∀ jp < nInode,
      (t.mem.itable jp).ref = (s.mem.fileRefs jp + L'.count jp + U'.count jp : Nat))
    (hlt : ∀ jp, jp ∈ L' ∨ jp ∈ U' → jp < nInode)
    (halive : ∀ jp < nInode, jp ∈ L' ∨ nt ∧ jp ∈ U' →
      (s.inodeOf (t.mem.itable jp).inum).type ≠ 0) (hnode : t.node = s.node) :
    Inv st nt L' U' t := by
  have hsb : t.mem.sb = s.mem.sb := by rw [hm]
  have hft : t.mem.ftable = s.mem.ftable := by rw [hm]
  have hpr : t.mem.proc = s.mem.proc := by rw [hm]
  have hfr : ∀ jp, t.mem.fileRefs jp = s.mem.fileRefs jp := fun jp => by
    unfold FsMem.fileRefs
    rw [hft]
  refine ⟨?_, hu, hshape.1.trans h.held, hshape.2.trans h.touched, ?_, ?_, ?_, ?_, hlt, ?_, ?_, ?_,
    ?_, ?_, by rw [hnode]; exact h.dirs⟩
  · rw [hsb, hb]
    exact hdisk
  · rw [hsb]
    exact hinum
  · intro jp j hj
    rw [hsb, hb]
    exact (hholds jp j hj).1
  · exact fun jp j hj => (hholds jp j hj).2
  · intro jp hjp
    rw [hfr]
    exact hrefs jp hjp
  · intro jp hjp hc
    rw [hfr] at hc
    rw [htypes]
    rcases hc with hfile | hc
    · have hpos : 0 < (s.mem.itable jp).ref := by
        rw [h.refs jp hjp]
        omega
      rw [hkeep jp hjp hpos]
      exact h.alive jp hjp (.inl hfile)
    · exact halive jp hjp hc
  · rw [hft]
    exact h.idle
  · rw [hft]
    exact h.files
  · intro f hf hty hw
    rw [hft] at hty hw ⊢
    rw [htypes, hkeep _ (h.files f hf (.inl hty)) (h.ref_pos_of_file hf (.inl hty)).2]
    exact h.writers f hf hty hw
  · rw [hpr]
    exact h.fds

def FsMem.setEntry (m : FsMem) (ip : Nat) (x : Inode) : FsMem :=
  { m with itable := upd m.itable ip x }

@[simp] theorem setEntry_same (m : FsMem) (ip : Nat) (x : Inode) :
    (m.setEntry ip x).itable ip = x := upd_same _ _ _

theorem setEntry_other {m : FsMem} {jp : Nat} {x : Inode} (h : jp ≠ ip) :
    (m.setEntry ip x).itable jp = m.itable jp := upd_other h

@[simp] theorem wp_setInode {I : Store → Prop} {E : Stop → Store → Prop}
    {Q : Unit → Store → Prop} (ip : Nat) (g : Inode → Inode) :
    wp I (setInode ip g) Q E s ↔
      Q () { s with mem := s.mem.setEntry ip (g (s.mem.itable ip)) } := by
  simp [setInode, FsMem.setEntry]

/-- An entry in use stays in use: references to it come or go, or its lock changes. -/
theorem Inv.setEntry (h : Inv st nt L U s) (L' U' : List Nat) (x : Inode) (hip : ip < nInode)
    (hpos : 0 < (s.mem.itable ip).ref) (hpos' : 0 < x.ref)
    (hx : x.inum = (s.mem.itable ip).inum ∧ x.valid = (s.mem.itable ip).valid ∧
      x.din = (s.mem.itable ip).din)
    (hcount : ∀ jp, ((L'.count jp + U'.count jp : Nat) : Int) = (L.count jp + U.count jp : Nat) +
      if jp = ip then x.ref - (s.mem.itable ip).ref else 0)
    (halive : ∀ jp, jp ∈ L' ∨ nt ∧ jp ∈ U' → jp ∈ L ∨ (nt ∧ jp ∈ U) ∨
      jp = ip ∧ (s.inodeOf (s.mem.itable ip).inum).type ≠ 0)
    (ht : t = { s with mem := s.mem.setEntry ip x }) :
    Inv st nt L' U' t ∧ t.node = s.node ∧ Frame s t := by
  have hfields : ∀ jp, (t.mem.itable jp).inum = (s.mem.itable jp).inum ∧
      (t.mem.itable jp).valid = (s.mem.itable jp).valid ∧
      (t.mem.itable jp).din = (s.mem.itable jp).din ∧
      (0 < (t.mem.itable jp).ref ↔ 0 < (s.mem.itable jp).ref) := by
    intro jp
    rw [ht]
    by_cases hjp : jp = ip
    · subst hjp
      simp [hx, hpos, hpos']
    · simp [setEntry_other hjp]
  have hholds : ∀ jp j, t.mem.Holds jp j ↔ s.mem.Holds jp j := by
    intro jp j
    obtain ⟨h1, h2, -, h4⟩ := hfields jp
    constructor
    · intro hj
      exact ⟨hj.lt, h4.mp hj.ref, h2 ▸ hj.valid, h1 ▸ hj.inum⟩
    · intro hj
      exact ⟨hj.lt, h4.mpr hj.ref, by rw [h2]; exact hj.valid, by rw [h1]; exact hj.inum⟩
  have hu : t.mem.Unique := by
    intro jp kp hj hk hrj hrk heq
    rw [(hfields jp).1, (hfields kp).1] at heq
    exact h.uniq jp kp hj hk ((hfields jp).2.2.2.mp hrj) ((hfields kp).2.2.2.mp hrk) heq
  have hsame : t.inodeOf = s.inodeOf := by
    funext j
    exact inodeOf_eq h.uniq hu (by rw [ht]; rfl) (fun _ => by rw [ht]) (fun jp => hholds jp j)
      fun jp _ => (hfields jp).2.2.1
  have hlt : ∀ jp, jp ∈ L' ∨ jp ∈ U' → jp < nInode := by
    intro jp hjp
    by_cases heq : jp = ip
    · rw [heq]
      exact hip
    · have hc := hcount jp
      rw [if_neg heq] at hc
      have hpos : 0 < L'.count jp + U'.count jp := by
        rcases hjp with hm | hm
        · have := List.count_pos_iff.mpr hm
          omega
        · have := List.count_pos_iff.mpr hm
          omega
      rcases Nat.eq_zero_or_pos (L.count jp) with hz | hL
      · exact h.lt jp (.inr (List.count_pos_iff.mp (by omega)))
      · exact h.lt jp (.inl (List.count_pos_iff.mp hL))
  have hnode : t.node = s.node := by
    funext j
    unfold Store.node
    rw [hsame, ht]
  refine ⟨?_, hnode, ?_⟩
  · refine h.retable (by rw [ht]; rfl) (by rw [ht]) (by rw [ht]; exact ⟨rfl, rfl⟩) hu
      (by rw [hsame]; exact h.disk) (fun j => by rw [hsame]) ?_ ?_ ?_ ?_ hlt ?_ hnode
    · intro jp hjp hr
      rw [(hfields jp).1]
      exact h.inum jp hjp ((hfields jp).2.2.2.mp hr)
    · exact fun jp _ _ => (hfields jp).1
    · intro jp j hj
      rw [(hfields jp).2.2.1]
      exact ⟨h.coh jp j ((hholds jp j).mp hj), h.type jp j ((hholds jp j).mp hj)⟩
    · intro jp hjp
      have hc := hcount jp
      have hr := h.refs jp hjp
      by_cases heq : jp = ip
      · subst heq
        rw [if_pos rfl] at hc
        rw [ht, setEntry_same]
        push_cast at hc hr ⊢
        omega
      · rw [if_neg heq] at hc
        rw [ht, setEntry_other heq, hr]
        push_cast at hc ⊢
        omega
    · intro jp hjp hc
      rw [(hfields jp).1]
      rcases halive jp hc with hL | hU | ⟨rfl, hty⟩
      · exact h.alive jp hjp (.inr (.inl hL))
      · exact h.alive jp hjp (.inr (.inr hU))
      · exact hty
  · refine ⟨⟨by rw [ht]; rfl, by rw [ht]; rfl, by rw [ht]; rfl, by rw [ht],
      fun jp _ _ _ => ⟨(hfields jp).1, fun hv => ?_⟩⟩, by rw [ht]⟩
    rw [(hfields jp).2.1]
    exact hv

/-- An unused entry is given to inode `i`. -/
theorem Inv.newEntry (h : Inv st nt L U s) (x : Inode) (hip : ip < nInode)
    (hzero : (s.mem.itable ip).ref = 0) (hi : i < s.mem.sb.ninodes)
    (hx : x.inum = i ∧ x.ref = 1 ∧ x.valid = false)
    (hnew : ∀ jp < nInode, 0 < (s.mem.itable jp).ref → (s.mem.itable jp).inum ≠ i)
    (hal : nt → (s.inodeOf i).type ≠ 0) (ht : t = { s with mem := s.mem.setEntry ip x }) :
    Inv st nt L (ip :: U) t ∧ t.node = s.node ∧ Frame s t := by
  obtain ⟨hxi, hxr, hxv⟩ := hx
  have hother : ∀ jp, jp ≠ ip → t.mem.itable jp = s.mem.itable jp := fun jp hjp => by
    rw [ht]
    exact setEntry_other hjp
  have hself : t.mem.itable ip = x := by
    rw [ht]
    exact setEntry_same _ _ _
  have hnot : ∀ jp, 0 < (s.mem.itable jp).ref → jp ≠ ip := by
    intro jp hpos heq
    rw [heq, hzero] at hpos
    exact absurd hpos (Int.lt_irrefl 0)
  have hholds : ∀ jp j, t.mem.Holds jp j ↔ s.mem.Holds jp j := by
    intro jp j
    by_cases hjp : jp = ip
    · subst hjp
      constructor
      · intro hj
        have hv := hj.valid
        rw [hself, hxv] at hv
        cases hv
      · intro hj
        exact absurd rfl (hnot jp hj.ref)
    · constructor
      · intro hj
        have heq := hother jp hjp
        exact ⟨hj.lt, heq ▸ hj.ref, heq ▸ hj.valid, heq ▸ hj.inum⟩
      · intro hj
        have heq := (hother jp hjp).symm
        exact ⟨hj.lt, heq ▸ hj.ref, heq ▸ hj.valid, heq ▸ hj.inum⟩
  have hu : t.mem.Unique := by
    intro jp kp hj hk hrj hrk heq
    by_cases hjp : jp = ip
    · by_cases hkp : kp = ip
      · rw [hjp, hkp]
      · rw [hjp, hself, hxi, hother kp hkp] at heq
        rw [hother kp hkp] at hrk
        exact absurd heq.symm (hnew kp hk hrk)
    · by_cases hkp : kp = ip
      · rw [hkp, hself, hxi, hother jp hjp] at heq
        rw [hother jp hjp] at hrj
        exact absurd heq (hnew jp hj hrj)
      · rw [hother jp hjp] at hrj heq
        rw [hother kp hkp] at hrk heq
        exact h.uniq jp kp hj hk hrj hrk heq
  have hsame : t.inodeOf = s.inodeOf := by
    funext j
    exact inodeOf_eq h.uniq hu (by rw [ht]; rfl) (fun _ => by rw [ht]) (fun jp => hholds jp j)
      fun jp hj => by rw [hother jp (hnot jp hj.ref)]
  have hfresh := h.refs ip hip
  rw [hzero] at hfresh
  have hnode : t.node = s.node := by
    funext j
    unfold Store.node
    rw [hsame, ht]
  refine ⟨?_, hnode, ?_⟩
  · refine h.retable (by rw [ht]; rfl) (by rw [ht]) (by rw [ht]; exact ⟨rfl, rfl⟩) hu
      (by rw [hsame]; exact h.disk) (fun j => by rw [hsame]) ?_ ?_ ?_ ?_ ?_ ?_ hnode
    · intro jp hjp hr
      by_cases heq : jp = ip
      · rw [heq, hself, hxi]
        exact hi
      · rw [hother jp heq] at hr ⊢
        exact h.inum jp hjp hr
    · intro jp hjp hpos
      rw [hother jp (hnot jp hpos)]
    · intro jp j hj
      have hjs := (hholds jp j).mp hj
      rw [hother jp (hnot jp hjs.ref)]
      exact ⟨h.coh jp j hjs, h.type jp j hjs⟩
    · intro jp hjp
      rw [List.count_cons]
      by_cases heq : jp = ip
      · subst heq
        rw [hself, hxr]
        simp only [beq_self_eq_true, if_true]
        omega
      · rw [hother jp heq, h.refs jp hjp, if_neg (by simpa using Ne.symm heq), Nat.add_zero]
    · intro jp hjp
      rcases hjp with hL | hU
      · exact h.lt jp (.inl hL)
      · rcases List.mem_cons.mp hU with rfl | hU
        · exact hip
        · exact h.lt jp (.inr hU)
    · intro jp hjp hc
      by_cases heq : jp = ip
      · subst heq
        rw [hself, hxi]
        rcases hc with hL | ⟨hn, -⟩
        · have := List.count_pos_iff.mpr hL
          omega
        · exact hal hn
      · rw [hother jp heq]
        refine h.alive jp hjp (.inr (hc.imp id fun hU => ⟨hU.1, ?_⟩))
        exact (List.mem_cons.mp hU.2).resolve_left heq
  · refine ⟨⟨by rw [ht]; rfl, by rw [ht]; rfl, by rw [ht]; rfl, by rw [ht], ?_⟩, by rw [ht]⟩
    intro jp _ hpos _
    rw [hother jp (hnot jp hpos)]
    exact ⟨rfl, id⟩

theorem Inv.load (h : Inv st nt L U s) (x : Inode) (hip : ip < nInode)
    (hpos : 0 < (s.mem.itable ip).ref) (hval : (s.mem.itable ip).valid = false)
    (hx : x.inum = (s.mem.itable ip).inum ∧ x.ref = (s.mem.itable ip).ref ∧ x.valid = true ∧
      x.din = diskInode s.mem.sb s.blocks (s.mem.itable ip).inum)
    (hty : x.din.type ≠ 0) (ht : t = { s with mem := s.mem.setEntry ip x }) :
    Inv st nt L U t ∧ t.node = s.node ∧ Frame s t ∧ t.inodeOf = s.inodeOf := by
  obtain ⟨hxi, hxr, hxv, hxd⟩ := hx
  have hother : ∀ jp, jp ≠ ip → t.mem.itable jp = s.mem.itable jp := fun jp hjp => by
    rw [ht]
    exact setEntry_other hjp
  have hself : t.mem.itable ip = x := by
    rw [ht]
    exact setEntry_same _ _ _
  have hfields : ∀ jp, (t.mem.itable jp).inum = (s.mem.itable jp).inum ∧
      (t.mem.itable jp).ref = (s.mem.itable jp).ref := by
    intro jp
    by_cases hjp : jp = ip
    · rw [hjp, hself]
      exact ⟨hxi, hxr⟩
    · rw [hother jp hjp]
      exact ⟨rfl, rfl⟩
  have hu : t.mem.Unique := by
    intro jp kp hj hk hrj hrk heq
    rw [(hfields jp).2] at hrj
    rw [(hfields kp).2] at hrk
    rw [(hfields jp).1, (hfields kp).1] at heq
    exact h.uniq jp kp hj hk hrj hrk heq
  have hsb : t.mem.sb = s.mem.sb := by
    rw [ht]
    rfl
  have hbl : t.blocks = s.blocks := by rw [ht]
  have hi : (s.mem.itable ip).inum < s.mem.sb.ninodes := h.inum ip hip hpos
  -- No other entry holds the inode, so its newest copy was the one on disk.
  have hnone : ∀ jp, ¬ s.mem.Holds jp (s.mem.itable ip).inum := by
    intro jp hj
    obtain rfl := h.uniq jp ip hj.lt hip hj.ref hpos hj.inum
    rw [hj.valid] at hval
    cases hval
  have hht : t.mem.Holds ip (s.mem.itable ip).inum :=
    ⟨hip, by rw [hself, hxr]; exact hpos, by rw [hself]; exact hxv, by rw [hself]; exact hxi⟩
  have hholds : ∀ jp j, j ≠ (s.mem.itable ip).inum → (t.mem.Holds jp j ↔ s.mem.Holds jp j) := by
    intro jp j hj
    by_cases hjp : jp = ip
    · subst hjp
      constructor
      · intro hh
        exact absurd (hh.inj hht) hj
      · intro hh
        exact absurd hh.inum.symm hj
    · have heq := hother jp hjp
      constructor
      · intro hh
        exact ⟨hh.lt, heq ▸ hh.ref, heq ▸ hh.valid, heq ▸ hh.inum⟩
      · intro hh
        exact ⟨hh.lt, heq.symm ▸ hh.ref, heq.symm ▸ hh.valid, heq.symm ▸ hh.inum⟩
  have hsame : t.inodeOf = s.inodeOf := by
    funext j
    by_cases hj : j = (s.mem.itable ip).inum
    · rw [hj, inodeOf_of_holds hu (hsb ▸ hi) hht, hself, hxd, inodeOf_of_not_holds hi hnone]
    · refine inodeOf_eq h.uniq hu hsb (fun _ => by rw [hbl]) (fun jp => hholds jp j hj)
        fun jp hh => ?_
      have hjp : jp ≠ ip := by
        intro heq
        rw [heq] at hh
        exact hj hh.inum.symm
      rw [hother jp hjp]
  have hnode : t.node = s.node := by
    funext j
    unfold Store.node
    rw [hsame, hbl]
  refine ⟨?_, hnode, ?_, hsame⟩
  · refine h.retable (by rw [ht]; rfl) hbl (by rw [ht]; exact ⟨rfl, rfl⟩) hu
      (by rw [hsame]; exact h.disk) (fun j => by rw [hsame]) ?_ ?_ ?_ ?_ h.lt ?_ hnode
    · intro jp hjp hr
      rw [(hfields jp).2] at hr
      rw [(hfields jp).1]
      exact h.inum jp hjp hr
    · exact fun jp _ _ => (hfields jp).1
    · intro jp j hh
      by_cases hj : j = (s.mem.itable ip).inum
      · subst hj
        obtain rfl := hu jp ip hh.lt hip hh.ref hht.ref (hh.inum.trans hht.inum.symm)
        rw [hself, hxd]
        rw [hxd] at hty
        exact ⟨Coherent.refl _ _ _, hty⟩
      · have hhs := (hholds jp j hj).mp hh
        have hjp : jp ≠ ip := by
          intro heq
          rw [heq] at hhs
          exact hj hhs.inum.symm
        rw [hother jp hjp]
        exact ⟨h.coh jp j hhs, h.type jp j hhs⟩
    · intro jp hjp
      rw [(hfields jp).2]
      exact h.refs jp hjp
    · intro jp hjp hc
      rw [(hfields jp).1]
      exact h.alive jp hjp (.inr hc)
  · refine ⟨⟨hsb, by rw [ht]; rfl, by rw [ht]; rfl, by rw [ht],
      fun jp _ _ _ => ⟨(hfields jp).1, fun hv => ?_⟩⟩, by rw [ht]⟩
    by_cases hjp : jp = ip
    · rw [hjp, hself, hxv]
    · rw [hother jp hjp]
      exact hv

/-- The copy on disk of an inode serves as the newest one; blocks that only the lost copy
had are loose from then on. -/
theorem Disk.dropCopy {sb : Superblock} {blocks : Nat → Block} {f : Nat → Dinode} {x₀ : Dinode}
    (hP : st = true → ∀ b, ¬ P b) (hd : Disk st P sb blocks f)
    (hc : Coherent st blocks x₀ (f i)) (hx : x₀.Fits) :
    ∃ P', (st = true → ∀ b, ¬ P' b) ∧ Disk st P' sb blocks (upd f i x₀) := by
  have htype : x₀.type = (f i).type := congrArg Node.type hc.node
  have hsize : x₀.size = (f i).size := congrArg Node.size hc.node
  refine ⟨fun b => P b ∨ ∃ k, slotAddr blocks x₀ k = 0 ∧ placeOf sb blocks f (i, k) = some b,
    ?_, ?_, ?_⟩
  · intro hst b hb
    subst hst
    rcases hb with hb | ⟨k, hz, hk⟩
    · exact hP rfl b hb
    · obtain ⟨-, -, -, hne, heq⟩ := placeOf_eq_some.mp hk
      rw [← hc.eq] at heq
      exact hne (heq.symm.trans hz)
  · refine hd.core.detach htype hx (fun k => slotAddr blocks x₀ k = 0) (fun k _ => ?_)
      fun _ => Iff.rfl
    split
    · exact ‹_›
    · exact (hc.slot k).resolve_left ‹_›
  · intro j hj htj
    by_cases hji : j = i
    · subst hji
      rw [upd_same] at htj ⊢
      have hok := hd.ok j hj (htype ▸ htj)
      refine ⟨by rw [hsize]; exact hok.size, ?_, by rw [hc.node]; exact hok.dirs⟩
      intro bn hbn hc'
      rw [hsize] at hbn
      have hne := hok.mapped bn hbn hc'
      cases st with
      | true =>
          rw [hc.eq]
          exact hne
      | false =>
          have hge : nDirect ≤ bn := hc'.resolve_right (by decide)
          have hind : x₀.addr nDirect = (f j).addr nDirect :=
            (hc.addr nDirect (Nat.le_refl _)).resolve_right fun h =>
              absurd h.2.1 (Nat.lt_irrefl _)
          rw [dataSlot_indirect hge] at hne ⊢
          unfold slotAddr at hne ⊢
          rw [if_neg (by omega)] at hne ⊢
          rwa [hind]
    · rw [upd_other hji] at htj ⊢
      exact hd.ok j hj htj

/-- The last reference to an entry goes. -/
theorem Inv.drop (h : Inv st nt L U s) (L' U' : List Nat) (x : Inode) (hip : ip < nInode)
    (hone : (s.mem.itable ip).ref = 1) (hx : x.inum = (s.mem.itable ip).inum ∧ x.ref = 0)
    (hcount : ∀ jp, L'.count jp + U'.count jp + (if jp = ip then 1 else 0) =
      L.count jp + U.count jp)
    (hsub : ∀ jp, (jp ∈ L' → jp ∈ L) ∧ (jp ∈ U' → jp ∈ U))
    (ht : t = { s with mem := s.mem.setEntry ip x }) :
    Inv st nt L' U' t ∧ t.node = s.node ∧ Frame s t := by
  obtain ⟨hxi, hxr⟩ := hx
  have hpos : 0 < (s.mem.itable ip).ref := by omega
  have hother : ∀ jp, jp ≠ ip → t.mem.itable jp = s.mem.itable jp := fun jp hjp => by
    rw [ht]
    exact setEntry_other hjp
  have hself : t.mem.itable ip = x := by
    rw [ht]
    exact setEntry_same _ _ _
  have hne : ∀ jp, 0 < (t.mem.itable jp).ref → jp ≠ ip := by
    intro jp hr heq
    rw [heq, hself, hxr] at hr
    exact absurd hr (Int.lt_irrefl 0)
  have hsb : t.mem.sb = s.mem.sb := by
    rw [ht]
    rfl
  have hbl : t.blocks = s.blocks := by rw [ht]
  have hinum : ∀ jp, (t.mem.itable jp).inum = (s.mem.itable jp).inum := by
    intro jp
    by_cases hjp : jp = ip
    · rw [hjp, hself, hxi]
    · rw [hother jp hjp]
  have hholds : ∀ jp j, t.mem.Holds jp j ↔ s.mem.Holds jp j ∧ jp ≠ ip := by
    intro jp j
    constructor
    · intro hh
      have hjp := hne jp hh.ref
      have heq := hother jp hjp
      exact ⟨⟨hh.lt, heq ▸ hh.ref, heq ▸ hh.valid, heq ▸ hh.inum⟩, hjp⟩
    · rintro ⟨hh, hjp⟩
      have heq := (hother jp hjp).symm
      exact ⟨hh.lt, heq ▸ hh.ref, heq ▸ hh.valid, heq ▸ hh.inum⟩
  have hu : t.mem.Unique := by
    intro jp kp hj hk hrj hrk heq
    have hjp := hother jp (hne jp hrj)
    have hkp := hother kp (hne kp hrk)
    rw [hjp] at hrj heq
    rw [hkp] at hrk heq
    exact h.uniq jp kp hj hk hrj hrk heq
  have hi : (s.mem.itable ip).inum < s.mem.sb.ninodes := h.inum ip hip hpos
  have hkeep : ∀ j, j ≠ (s.mem.itable ip).inum → t.inodeOf j = s.inodeOf j := by
    intro j hj
    refine inodeOf_eq h.uniq hu hsb (fun _ => by rw [hbl]) (fun jp => ?_) fun jp hh => ?_
    · rw [hholds]
      refine ⟨fun hh => hh.1, fun hh => ⟨hh, fun heq => ?_⟩⟩
      rw [heq] at hh
      exact hj hh.inum.symm
    · have hjp : jp ≠ ip := by
        intro heq
        rw [heq] at hh
        exact hj hh.inum.symm
      rw [hother jp hjp]
  -- The dropped inode now has its newest copy on disk.
  have hlost : t.inodeOf (s.mem.itable ip).inum =
      diskInode s.mem.sb s.blocks (s.mem.itable ip).inum := by
    rw [inodeOf_of_not_holds (hsb ▸ hi) fun jp hh => ?_, hsb, hbl]
    obtain ⟨hh, hjp⟩ := (hholds _ _).mp hh
    exact hjp (h.uniq jp ip hh.lt hip hh.ref hpos hh.inum)
  have hf : t.inodeOf = upd s.inodeOf (s.mem.itable ip).inum
      (diskInode s.mem.sb s.blocks (s.mem.itable ip).inum) := by
    funext j
    by_cases hj : j = (s.mem.itable ip).inum
    · rw [hj, hlost, upd_same]
    · rw [upd_other hj, hkeep j hj]
  have hcoh : Coherent st s.blocks (diskInode s.mem.sb s.blocks (s.mem.itable ip).inum)
      (s.inodeOf (s.mem.itable ip).inum) := by
    rcases s.inodeOf_cases h.uniq hi with ⟨jp, hh, heq⟩ | ⟨-, heq⟩
    · rw [heq]
      exact h.coh jp _ hh
    · rw [heq]
      exact Coherent.refl _ _ _
  have hnode : ∀ j, nodeOf s.blocks (t.inodeOf j) = nodeOf s.blocks (s.inodeOf j) := by
    intro j
    rw [hf]
    by_cases hj : j = (s.mem.itable ip).inum
    · rw [hj, upd_same, hcoh.node]
    · rw [upd_other hj]
  have htypes : ∀ j, (t.inodeOf j).type = (s.inodeOf j).type := fun j =>
    congrArg Node.type (hnode j)
  have hnodes : t.node = s.node := by
    funext j
    unfold Store.node
    rw [htypes, hbl, hnode]
  refine ⟨?_, hnodes, ?_⟩
  · refine h.retable (by rw [ht]; rfl) hbl (by rw [ht]; exact ⟨rfl, rfl⟩) hu ?_ htypes ?_ ?_ ?_ ?_
      ?_ ?_ hnodes
    · obtain ⟨P, hP, hd⟩ := h.disk
      rw [hf]
      exact Disk.dropCopy hP hd hcoh (Dinode.read_fits _ _)
    · intro jp hjp hr
      rw [hinum]
      rw [hother jp (hne jp hr)] at hr
      exact h.inum jp hjp hr
    · exact fun jp _ _ => hinum jp
    · intro jp j hh
      have hhs := ((hholds jp j).mp hh).1
      rw [hother jp (hne jp hh.ref)]
      exact ⟨h.coh jp j hhs, h.type jp j hhs⟩
    · intro jp hjp
      have hr := h.refs jp hjp
      have hc := hcount jp
      by_cases heq : jp = ip
      · subst heq
        rw [if_pos rfl] at hc
        rw [hself, hxr]
        omega
      · rw [if_neg heq] at hc
        rw [hother jp heq, hr]
        omega
    · exact fun jp hjp => h.lt jp (hjp.imp (hsub jp).1 (hsub jp).2)
    · intro jp hjp hc
      rw [hinum]
      exact h.alive jp hjp (.inr (hc.imp (hsub jp).1 fun hU => ⟨hU.1, (hsub jp).2 hU.2⟩))
  · refine ⟨⟨hsb, by rw [ht]; rfl, by rw [ht]; rfl, by rw [ht],
      fun jp _ _ hr => ⟨hinum jp, fun hv => ?_⟩⟩, by rw [ht]⟩
    rw [hother jp (hne jp hr)]
    exact hv

/-- Inode `i`, which no entry holds a copy of afterwards, is written to disk as `y`; references
to entries of other inodes may go. -/
theorem Inv.rewrite (h : Inv st nt L U s) (L' U' : List Nat) {y : Dinode}
    (hi : i < s.mem.sb.ninodes) (hfits : y.Fits)
    (hcore : ∀ P blocks, Core P s.mem.sb blocks s.inodeOf →
      Core P s.mem.sb blocks (upd s.inodeOf i y))
    (hok : y.type ≠ 0 → (∀ blocks, InodeOk st s.mem.sb blocks y) ∧ y.size % direntSize = 0)
    (hm : t.mem = { s.mem with itable := t.mem.itable })
    (hb : t.blocks = upd s.blocks (iblock s.mem.sb i)
      (y.write (s.blocks (iblock s.mem.sb i)) (ioff i)))
    (hshape : t.held = s.held ∧ t.touched = s.touched)
    (hinum : ∀ jp, (t.mem.itable jp).inum = (s.mem.itable jp).inum)
    (hpos : ∀ jp, 0 < (t.mem.itable jp).ref → 0 < (s.mem.itable jp).ref)
    (hholds : ∀ jp j, t.mem.Holds jp j ↔ s.mem.Holds jp j ∧ j ≠ i)
    (hdin : ∀ jp j, t.mem.Holds jp j → (t.mem.itable jp).din = (s.mem.itable jp).din)
    (hrefs : ∀ jp < nInode,
      (t.mem.itable jp).ref = (s.mem.fileRefs jp + L'.count jp + U'.count jp : Nat))
    (hlt : ∀ jp, jp ∈ L' ∨ jp ∈ U' → jp < nInode)
    (halive : ∀ jp < nInode, 0 < s.mem.fileRefs jp ∨ jp ∈ L' ∨ nt ∧ jp ∈ U' →
      (s.mem.itable jp).inum ≠ i ∧ (s.inodeOf (s.mem.itable jp).inum).type ≠ 0) :
    Inv st nt L' U' t ∧ t.inodeOf = upd s.inodeOf i y ∧
      ∀ j, j ≠ i → t.node j = s.node j := by
  obtain ⟨P, hP, hd⟩ := h.disk
  have hsb : t.mem.sb = s.mem.sb := by rw [hm]
  have hft : t.mem.ftable = s.mem.ftable := by rw [hm]
  have hfr : ∀ jp, t.mem.fileRefs jp = s.mem.fileRefs jp := fun jp => by
    unfold FsMem.fileRefs
    rw [hft]
  have hu : t.mem.Unique := by
    intro jp kp hj hk hrj hrk heq
    rw [hinum, hinum] at heq
    exact h.uniq jp kp hj hk (hpos jp hrj) (hpos kp hrk) heq
  have hdisk : ∀ j, j ≠ i →
      diskInode s.mem.sb t.blocks j = diskInode s.mem.sb s.blocks j := fun j hj => by
    rw [hb]
    exact diskInode_write_other hj
  have hf : t.inodeOf = upd s.inodeOf i y := by
    funext j
    by_cases hj : j = i
    · rw [hj, upd_same, inodeOf_of_not_holds (hsb ▸ hi) fun jp hhj => ((hholds jp i).mp hhj).2 rfl,
        hsb, hb, diskInode_write_same hfits]
    · rw [upd_other hj]
      refine inodeOf_eq h.uniq hu hsb (fun _ => hdisk j hj) (fun jp => ?_) fun jp hhj => ?_
      · rw [hholds]
        exact ⟨fun hhj => hhj.1, fun hhj => ⟨hhj, hj⟩⟩
      · exact hdin jp j ((hholds jp j).mpr ⟨hhj, hj⟩)
  have hhigh : ∀ b, s.mem.sb.bmapstart ≤ b → t.blocks b = s.blocks b := by
    intro b hge
    have := hd.core.sbOk.inodes i hi
    rw [hb]
    exact upd_other (by omega)
  have hdata : ∀ b, usedBlock s.mem.sb s.blocks b → t.blocks b = s.blocks b := by
    intro b hub
    have := hd.core.sbOk.bitmap_meta (by have := hub.2.1; omega)
    have := hub.1
    exact hhigh b (by omega)
  have hnodes : ∀ j < s.mem.sb.ninodes, (s.inodeOf j).type ≠ 0 →
      nodeOf t.blocks (s.inodeOf j) = nodeOf s.blocks (s.inodeOf j) := fun j hj htj =>
    hd.core.nodeOf_frame hj htj fun b hub _ => hdata b hub
  have hslots : ∀ j < s.mem.sb.ninodes, (s.inodeOf j).type ≠ 0 → ∀ k,
      slotAddr t.blocks (s.inodeOf j) k = slotAddr s.blocks (s.inodeOf j) k := fun j hj htj =>
    hd.core.slotAddr_frame hj htj fun b hub _ => hdata b hub
  have hkeep : ∀ j, j ≠ i → t.node j = s.node j := by
    intro j hj
    unfold Store.node
    rw [hf, upd_other hj]
    split
    · rfl
    · rename_i htj
      refine hnodes j ?_ htj
      by_contra hge
      apply htj
      unfold Store.inodeOf
      rw [if_neg hge]
      rfl
  refine ⟨⟨⟨P, hP, ?_, ?_⟩, hu, hshape.1.trans h.held, hshape.2.trans h.touched, ?_, ?_, ?_, ?_,
    hlt, ?_, ?_, ?_, ?_, ?_, ?_⟩, hf, hkeep⟩
  · rw [hsb, hf]
    exact hcore P _ (hd.core.low_frame hhigh)
  · intro j hj htj
    rw [hsb] at hj ⊢
    rw [hf] at htj ⊢
    by_cases hji : j = i
    · rw [hji, upd_same] at htj ⊢
      exact (hok htj).1 _
    · rw [upd_other hji] at htj ⊢
      refine (hd.ok j hj htj).congr (hnodes j hj htj) fun k _ hk => ?_
      rw [hslots j hj htj]
      exact hk
  · intro jp hjp hr
    rw [hsb, hinum]
    exact h.inum jp hjp (hpos jp hr)
  · intro jp j hhj
    obtain ⟨hhs, hji⟩ := (hholds jp j).mp hhj
    have hjlt : j < s.mem.sb.ninodes := hhs.inum ▸ h.inum jp hhs.lt hhs.ref
    have hc := h.coh jp j hhs
    have hxj := inodeOf_of_holds h.uniq hjlt hhs
    have htj : (s.inodeOf j).type ≠ 0 := by
      rw [hxj]
      exact h.type jp j hhs
    rw [hsb, hdin jp j hhj, hdisk j hji]
    rw [← hxj] at hc ⊢
    have hn := hnodes j hjlt htj
    exact ⟨by rw [hc.frame hn fun k _ _ => hslots j hjlt htj k, hc.node, hn], hc.addr⟩
  · intro jp j hhj
    rw [hdin jp j hhj]
    exact h.type jp j ((hholds jp j).mp hhj).1
  · intro jp hjp
    rw [hfr]
    exact hrefs jp hjp
  · intro jp hjp hc
    rw [hfr] at hc
    obtain ⟨hne, hty⟩ := halive jp hjp hc
    rw [hinum, hf, upd_other hne]
    exact hty
  · rw [hft]
    exact h.idle
  · rw [hft]
    exact h.files
  · intro f hfl hty hw
    rw [hft] at hty hw ⊢
    obtain ⟨hne, -⟩ := halive _ (h.files f hfl (.inl hty))
      (.inl (h.ref_pos_of_file hfl (.inl hty)).1)
    rw [hinum, hf, upd_other hne]
    exact h.writers f hfl hty hw
  · rw [hm]
    exact h.fds
  · intro j htj
    by_cases hji : j = i
    · subst hji
      have hty : (t.inodeOf j).type ≠ 0 := by
        rw [← t.node_type, htj]
        decide
      rw [Store.node_of_type hty, hf, upd_same]
      rw [hf, upd_same] at hty
      exact (hok hty).2
    · rw [hkeep j hji] at htj ⊢
      exact h.dirs j htj

/-- An empty inode is freed on disk and its entry holds no copy any more. -/
theorem Inv.emptied (h : Inv st nt L U s) (L' U' : List Nat) {x : Inode} {y : Dinode}
    (hh : s.mem.Holds ip i) (hzero : ∀ k ≤ nDirect, (s.inodeOf i).addr k = 0)
    (hx : x.inum = i ∧ (0 < x.ref → x.valid = false))
    (hy : y = { s.inodeOf i with type := 0 })
    (hcount : ∀ jp, ((L'.count jp + U'.count jp : Nat) : Int) = (L.count jp + U.count jp : Nat) +
      if jp = ip then x.ref - (s.mem.itable ip).ref else 0)
    (hsub : ∀ jp, (jp ∈ L' → jp ∈ L) ∧ (jp ∈ U' → jp ∈ U))
    (hlast : s.mem.fileRefs ip = 0 ∧ ip ∉ L' ∧ ¬ (nt ∧ ip ∈ U'))
    (hm : t.mem = s.mem.setEntry ip x)
    (hb : t.blocks = upd s.blocks (iblock s.mem.sb i)
      (y.write (s.blocks (iblock s.mem.sb i)) (ioff i)))
    (hshape : t.held = s.held ∧ t.touched = s.touched) :
    Inv st nt L' U' t ∧ t.node = upd s.node i Node.free := by
  obtain ⟨hxi, hxv⟩ := hx
  obtain ⟨P, hP, hd⟩ := h.disk
  have hs := h.active hd hh
  have hother : ∀ jp, jp ≠ ip → t.mem.itable jp = s.mem.itable jp := fun jp hjp => by
    rw [hm]
    exact setEntry_other hjp
  have hself : t.mem.itable ip = x := by
    rw [hm]
    exact setEntry_same _ _ _
  have hinum : ∀ jp, (t.mem.itable jp).inum = (s.mem.itable jp).inum := by
    intro jp
    by_cases hjp : jp = ip
    · rw [hjp, hself, hxi, hh.inum]
    · rw [hother jp hjp]
  have hne : ∀ jp j, t.mem.Holds jp j → jp ≠ ip := by
    intro jp j hhj heq
    have hr := hhj.ref
    have hv := hhj.valid
    rw [heq, hself] at hr hv
    rw [hxv hr] at hv
    cases hv
  have hholds : ∀ jp j, t.mem.Holds jp j ↔ s.mem.Holds jp j ∧ j ≠ i := by
    intro jp j
    constructor
    · intro hhj
      have hjp := hne jp j hhj
      have heq := hother jp hjp
      have hjs : s.mem.Holds jp j := ⟨hhj.lt, heq ▸ hhj.ref, heq ▸ hhj.valid, heq ▸ hhj.inum⟩
      refine ⟨hjs, fun hji => hjp ?_⟩
      exact h.uniq jp ip hhj.lt hh.lt hjs.ref hh.ref (hjs.inum.trans (hji.trans hh.inum.symm))
    · rintro ⟨hjs, hji⟩
      have hjp : jp ≠ ip := by
        intro heq
        rw [heq] at hjs
        exact hji (hjs.inj hh)
      have heq := (hother jp hjp).symm
      exact ⟨hjs.lt, heq ▸ hjs.ref, heq ▸ hjs.valid, heq ▸ hjs.inum⟩
  have hyfits : y.Fits := by
    rw [hy]
    exact hd.core.fits i hs.lt
  have hpos : ∀ jp, 0 < (t.mem.itable jp).ref → 0 < (s.mem.itable jp).ref := by
    intro jp hr
    by_cases hjp : jp = ip
    · rw [hjp]
      exact hh.ref
    · rw [← hother jp hjp]
      exact hr
  have hrefs : ∀ jp < nInode,
      (t.mem.itable jp).ref = (s.mem.fileRefs jp + L'.count jp + U'.count jp : Nat) := by
    intro jp hjp
    have hr := h.refs jp hjp
    have hc := hcount jp
    by_cases heq : jp = ip
    · subst heq
      rw [if_pos rfl] at hc
      rw [hself]
      push_cast at hc hr ⊢
      omega
    · rw [if_neg heq] at hc
      rw [hother jp heq, hr]
      push_cast at hc ⊢
      omega
  have halive : ∀ jp < nInode, 0 < s.mem.fileRefs jp ∨ jp ∈ L' ∨ nt ∧ jp ∈ U' →
      (s.mem.itable jp).inum ≠ i ∧ (s.inodeOf (s.mem.itable jp).inum).type ≠ 0 := by
    intro jp hjp hc
    have hjne : jp ≠ ip := by
      intro heq
      rw [heq] at hc
      rcases hc with hc | hc | hc
      · omega
      · exact hlast.2.1 hc
      · exact hlast.2.2 hc
    have hc' : 0 < s.mem.fileRefs jp ∨ jp ∈ L ∨ nt ∧ jp ∈ U :=
      hc.imp id (Or.imp (hsub jp).1 fun hU => ⟨hU.1, (hsub jp).2 hU.2⟩)
    have hused : 0 < (s.mem.itable jp).ref := by
      rcases hc' with hc | hc | hc
      · rw [h.refs jp hjp]
        omega
      · exact h.ref_pos (.inl hc)
      · exact h.ref_pos (.inr hc.2)
    refine ⟨fun heq => hjne ?_, h.alive jp hjp hc'⟩
    exact h.uniq jp ip hjp hh.lt hused hh.ref (heq.trans hh.inum.symm)
  obtain ⟨hinv, hf, hnode⟩ := h.rewrite L' U' hs.lt hyfits
    (fun P blocks hc => hc.setFields (fun k _ => by rw [hy]; rfl) hyfits.1
      (.inr fun k hk => by rw [hy]; exact hzero k hk) hs.lt)
    (fun hty => absurd (by rw [hy]) hty) (by rw [hm]; rfl) hb hshape hinum hpos hholds
    (fun jp j hhj => by rw [hother jp (hne jp j hhj)]) hrefs
    (fun jp hjp => h.lt jp (hjp.imp (hsub jp).1 (hsub jp).2)) halive
  refine ⟨hinv, ?_⟩
  funext j
  by_cases hj : j = i
  · rw [hj, upd_same, Store.node_eq_free]
    rw [hf, upd_same, hy]
  · rw [upd_other hj, hnode j hj]

theorem Inv.freed (h : Inv st nt L U s) (L' U' : List Nat) {x : Inode} {y : Dinode}
    (hh : s.mem.Holds ip i) (hone : (s.mem.itable ip).ref = 1)
    (hzero : ∀ k ≤ nDirect, (s.inodeOf i).addr k = 0) (hx : x.inum = i ∧ x.ref = 0)
    (hy : y = { s.inodeOf i with type := 0 })
    (hcount : ∀ jp, L'.count jp + U'.count jp + (if jp = ip then 1 else 0) =
      L.count jp + U.count jp)
    (hsub : ∀ jp, (jp ∈ L' → jp ∈ L) ∧ (jp ∈ U' → jp ∈ U))
    (hm : t.mem = s.mem.setEntry ip x)
    (hb : t.blocks = upd s.blocks (iblock s.mem.sb i)
      (y.write (s.blocks (iblock s.mem.sb i)) (ioff i)))
    (hshape : t.held = s.held ∧ t.touched = s.touched ∧ t.outstanding = s.outstanding ∧
      t.broken = s.broken) :
    Inv st nt L' U' t ∧ t.node = upd s.node i Node.free ∧ Frame s t := by
  obtain ⟨hxi, hxr⟩ := hx
  -- Nothing else refers to the entry.
  have hlast := h.refs ip hh.lt
  have hcip := hcount ip
  rw [if_pos rfl] at hcip
  rw [hone] at hlast
  have hint : ∀ jp, ((L'.count jp + U'.count jp : Nat) : Int) = (L.count jp + U.count jp : Nat) +
      if jp = ip then x.ref - (s.mem.itable ip).ref else 0 := by
    intro jp
    have hc := hcount jp
    rw [hxr, hone]
    split at hc <;> simp_all
    omega
  have hnoL : ip ∉ L' := by
    intro hL
    have := List.count_pos_iff.mpr hL
    omega
  have hnoU : ip ∉ U' := by
    intro hU
    have := List.count_pos_iff.mpr hU
    omega
  obtain ⟨hinv, hnode⟩ := h.emptied L' U' hh hzero ⟨hxi, fun hr => by omega⟩ hy hint hsub
    ⟨by omega, hnoL, fun hU => hnoU hU.2⟩ hm hb ⟨hshape.1, hshape.2.1⟩
  refine ⟨hinv, hnode, ⟨⟨by rw [hm]; rfl, by rw [hm]; rfl, by rw [hm]; rfl, hshape.2.2.1, ?_⟩,
    hshape.2.2.2⟩⟩
  intro jp _ _ hr
  have hjp : jp ≠ ip := by
    intro heq
    rw [heq, hm, setEntry_same, hxr] at hr
    exact absurd hr (Int.lt_irrefl 0)
  rw [hm, setEntry_other hjp]
  exact ⟨rfl, id⟩

theorem Inv.claimed (h : Inv st nt L U s) {y : Dinode} (hi : i < s.mem.sb.ninodes)
    (hfree : (diskInode s.mem.sb s.blocks i).type = 0) (hfits : y.Fits)
    (hzero : ∀ k ≤ nDirect, y.addr k = 0) (hsize : y.size = 0)
    (hm : t.mem = s.mem)
    (hb : t.blocks = upd s.blocks (iblock s.mem.sb i)
      (y.write (s.blocks (iblock s.mem.sb i)) (ioff i)))
    (hshape : t.held = s.held ∧ t.touched = s.touched) :
    (s.inodeOf i).type = 0 ∧ Inv st nt L U t ∧ t.inodeOf = upd s.inodeOf i y ∧
      ∀ j, j ≠ i → t.node j = s.node j := by
  have hnone : ∀ jp, ¬ s.mem.Holds jp i := by
    intro jp hj
    have hty := congrArg Node.type (h.coh jp i hj).node
    exact h.type jp i hj (hty.symm.trans hfree)
  have hdisk := inodeOf_of_not_holds hi hnone
  have hty : (s.inodeOf i).type = 0 := by rw [hdisk]; exact hfree
  refine ⟨hty, h.rewrite L U hi hfits (fun P blocks hc => hc.fresh hty hzero hfits) ?_
    (by rw [hm]) hb hshape (fun jp => by rw [hm]) (fun jp => by rw [hm]; exact id) ?_
    (fun jp j _ => by rw [hm]) (fun jp hjp => by rw [hm]; exact h.refs jp hjp) h.lt ?_⟩
  · intro _
    refine ⟨fun blocks => ⟨by rw [hsize]; exact Nat.zero_le _, fun bn hbn => ?_, fun _ j hj => ?_⟩,
      by rw [hsize, Nat.zero_mod]⟩
    · rw [hsize] at hbn
      exact absurd hbn (Nat.not_lt_zero _)
    · have hj : direntSize * j + direntSize ≤ y.size := hj
      rw [hsize] at hj
      exact absurd hj (by simp [direntSize])
  · intro jp j
    rw [hm]
    refine ⟨fun hj => ⟨hj, fun heq => ?_⟩, fun hj => hj.1⟩
    rw [heq] at hj
    exact hnone jp hj
  · intro jp hjp hc
    have hal := h.alive jp hjp hc
    refine ⟨fun heq => hal ?_, hal⟩
    rw [heq]
    exact hty

end

end Xv6.Fs
