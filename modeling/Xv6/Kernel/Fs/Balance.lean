import Xv6.Kernel.Fs.Sharing
import Xv6.Lib.Gather

/-! # References, locks and operations of running code

A `View` says which references running code holds, which inodes are locked and how
many operations are open; every function of `fs.c` and `file.c` moves the view in one
way, whatever is on the disk. A panic, or a wait for one's own lock, ends a run, and
nothing is said about it.
-/

namespace Xv6.Fs

open Lib

/-! ## The ends of `sys_unlink` and `create` -/

/-- `sys_unlink` once the entry is gone. -/
def unlinkDrop (dp ip : Nat) : FsProg Int := do
  iunlockput dp
  setDin ip fun x => { x with nlink := x.nlink - 1 }
  iupdate ip
  iunlockput ip
  endOp
  return 0

def unlinkErase (dp ip off : Nat) (isDir empty : Bool) : FsProg Int :=
  if !empty then do
    iunlockput ip
    unlinkBad dp
  else do
    let r ← writei dp (.kernel fun _ => 0) off direntSize
    if r ≠ direntSize then panic "unlink: writei"
    else if isDir then do
      setDin dp fun x => { x with nlink := x.nlink - 1 }
      iupdate dp
      unlinkDrop dp ip
    else unlinkDrop dp ip

theorem unlinkEntry_eq (dp ip off : Nat) :
    unlinkEntry dp ip off = (do
      ilock ip
      let i ← inode ip
      if i.din.nlink.toInt < 1 then panic "unlink: nlink < 1"
      else if i.din.type = tDir then isdirempty ip >>= unlinkErase dp ip off true
      else unlinkErase dp ip off false true) := by
  unfold unlinkEntry
  congr 1
  funext _
  congr 1
  funext i
  by_cases hty : i.din.type = tDir
  · simp only [hty, if_true]
    rfl
  · simp only [hty, if_false]
    rfl

def createDone (dp ip : Nat) : FsProg (Option Nat) := do
  iunlockput dp
  return some ip

def createLink (dp ip inum : Nat) (name : List UInt8) (isDir dots : Bool) :
    FsProg (Option Nat) :=
  if !dots then createFail dp ip
  else do
    let r ← dirlink dp name inum
    if r < 0 then createFail dp ip
    else if isDir then do
      setDin dp fun x => { x with nlink := x.nlink + 1 }
      iupdate dp
      createDone dp ip
    else createDone dp ip

theorem createNew_eq (dp ip : Nat) (name : List UInt8) (type major minor : BitVec 16) :
    createNew dp name type major minor ip = (do
      let d ← inode dp
      let i ← inode ip
      setDin ip fun x => { x with major := major, minor := minor, nlink := 1 }
      iupdate ip
      if type = tDir then do
        let r ← dirlink ip dot i.inum
        if r < 0 then createLink dp ip i.inum name true false
        else do
          let r ← dirlink ip dotdot d.inum
          createLink dp ip i.inum name true (0 ≤ r)
      else createLink dp ip i.inum name false true) := by
  unfold createNew
  by_cases hty : type = tDir
  · simp only [hty, if_true]
    rfl
  · simp only [hty, if_false]
    rfl

/-! ## Long-lived references -/

def File.refs (x : File) : List Nat :=
  if x.type = .inode ∨ x.type = .device then [x.ip] else []

def Proc.refs (x : Proc) : List Nat := if x.live then [x.cwd] else []

def openRefs (ft : Nat → File) : List Nat := gather nFile fun f => (ft f).refs

def cwds (pr : Nat → Proc) : List Nat := gather nProc fun p => (pr p).refs

theorem fileRefs_eq_count (m : FsMem) (ip : Nat) :
    m.fileRefs ip = (openRefs m.ftable).count ip := by
  unfold FsMem.fileRefs openRefs gather
  induction List.range nFile with
  | nil => rfl
  | cons f l ih =>
    rw [List.countP_cons, List.flatMap_cons, List.count_append, ih, File.refs]
    by_cases hty : (m.ftable f).type = .inode ∨ (m.ftable f).type = .device
    · simp only [hty, true_and, decide_eq_true_eq, if_true, List.count_singleton, beq_iff_eq]
      omega
    · simp only [hty, false_and, decide_false, Bool.false_eq_true, if_false, List.count_nil]
      omega

theorem openRefs_upd (ft : Nat → File) {f : Nat} (hf : f < nFile) :
    ∃ rest, ∀ x : File, (openRefs (upd ft f x)).Perm (x.refs ++ rest) := by
  obtain ⟨rest, hrest⟩ := gather_upd (fun f => (ft f).refs) hf
  refine ⟨rest, fun x => ?_⟩
  have hsame : (fun g => (upd ft f x g).refs) = upd (fun f => (ft f).refs) f x.refs := by
    funext g
    by_cases hg : g = f
    · rw [hg, upd_same, upd_same]
    · rw [upd_other hg, upd_other hg]
  rw [openRefs, hsame]
  exact hrest x.refs

theorem cwds_upd (pr : Nat → Proc) {p : Nat} (hp : p < nProc) :
    ∃ rest, ∀ x : Proc, (cwds (upd pr p x)).Perm (x.refs ++ rest) := by
  obtain ⟨rest, hrest⟩ := gather_upd (fun p => (pr p).refs) hp
  refine ⟨rest, fun x => ?_⟩
  have hsame : (fun q => (upd pr p x q).refs) = upd (fun p => (pr p).refs) p x.refs := by
    funext q
    by_cases hq : q = p
    · rw [hq, upd_same, upd_same]
    · rw [upd_other hq, upd_other hq]
  rw [cwds, hsame]
  exact hrest x.refs

theorem cwds_same {pr : Nat → Proc} {p : Nat} {x : Proc} (hx : x.refs = (pr p).refs) :
    cwds (upd pr p x) = cwds pr := by
  unfold cwds
  congr 1
  funext q
  by_cases hq : q = p
  · rw [hq, upd_same, hx]
  · rw [upd_other hq]

/-! ## Views -/

/-- The references that are not in open files, the locks held, the open operations, the open
files and the processes. -/
structure View where
  refs : List Nat
  locks : Nat → Bool
  ops : Int
  ftable : Nat → File
  proc : Nat → Proc

namespace View

def take (v : View) (ip : Nat) : View := { v with refs := ip :: v.refs }

/-- The reference in the answer of a search. -/
def took (v : View) : Option Nat → View
  | none => v
  | some ip => v.take ip

def lock (v : View) (ip : Nat) : View := { v with locks := upd v.locks ip true }

def begun (v : View) : View := { v with ops := v.ops + 1 }

end View

/-- The counts and locks in the store are those of the view. -/
structure At (v : View) (s : Store) : Prop where
  refs : ∀ ip < nInode, (s.use ip).1 = ((openRefs v.ftable ++ v.refs).count ip : Nat)
  locks : ∀ ip, (s.use ip).2 = v.locks ip
  ops : s.outstanding = v.ops
  ftable : s.mem.ftable = v.ftable
  proc : s.mem.proc = v.proc

/-- If the program returns, then with a value and a state in `Q`. -/
abbrev Ends {α : Type} (p : FsProg α) (Q : α → Store → Prop) (s : Store) : Prop :=
  wp (fun _ => True) p Q (fun _ _ => True) s

section

variable {α : Type} {v : View} {s t : Store} {ip i : Nat}

theorem At.perm (h : At v s) {l : List Nat} (hl : v.refs.Perm l) :
    At { v with refs := l } s := by
  refine ⟨fun jp hjp => ?_, h.locks, h.ops, h.ftable, h.proc⟩
  rw [h.refs jp hjp, List.count_append, List.count_append, hl.count_eq]

/-! ## Programs that leave files and processes alone -/

abbrev Steady (p : FsProg α) : Prop := Prog.Only Req.Steady p

/-- What steady programs leave alone. -/
def Store.rest (s : Store) : (Nat → File) × (Nat → Proc) × Int :=
  (s.mem.ftable, s.mem.proc, s.outstanding)

theorem Req.Steady.rest {r : Req} (hr : r.Steady) (s : Store) :
    (Store.handle r s).final.rest = s.rest := by
  refine Store.handle_final (P := fun t => t.rest = s.rest) rfl (fun _ => rfl) (fun _ _ => rfl)
    (fun _ => rfl) (fun _ => rfl) (fun f hf => ?_) (fun hb => ?_) fun he => ?_
  · subst hf
    simp only [Store.rest, (hr s.mem).1, (hr s.mem).2.1]
  · subst hb
    exact hr.elim
  · subst he
    exact hr.elim

theorem Steady.rest {p : FsProg α} (hp : Steady p) (s : Store) :
    Ends p (fun _ t => t.rest = s.rest) s := by
  have hrun := hp.final (R := fun s t : Store => t.rest = s.rest) (fun _ => rfl)
    (fun _ _ _ h h' => h'.trans h) (fun _ s hr => hr.rest s) s
  exact Comp.wp_mono ((Comp.wp_final (P := fun t : Store => t.rest = s.rest)).mpr hrun)
    (fun _ _ ht => ht) fun _ _ _ => trivial

theorem Still.steady {p : FsProg α} (hp : Still p) : Steady p := hp.mono fun _ hr => hr.2

/-- A program with a known effect on counts and locks that leaves the rest alone. -/
theorem Steady.with_use {p : FsProg α} {Q : α → Store → Prop} (hp : Steady p)
    (hu : Ends p Q s) : Ends p (fun a t => Q a t ∧ t.rest = s.rest) s :=
  wp_mono (Prog.wp_and hu (hp.rest s)) (fun _ _ ht => ht) fun _ _ _ => trivial

theorem At.next {w : View} (h : At v s) (hrest : t.rest = s.rest)
    (hw : w.ftable = v.ftable ∧ w.proc = v.proc ∧ w.ops = v.ops)
    (hrefs : ∀ jp < nInode, (t.use jp).1 = ((openRefs v.ftable ++ w.refs).count jp : Nat))
    (hlocks : ∀ jp, (t.use jp).2 = w.locks jp) : At w t := by
  obtain ⟨hft, hpr, hops⟩ := hw
  have hftable : t.mem.ftable = s.mem.ftable := congrArg Prod.fst hrest
  have hproc : t.mem.proc = s.mem.proc := congrArg (fun r => r.2.1) hrest
  have houts : t.outstanding = s.outstanding := congrArg (fun r => r.2.2) hrest
  refine ⟨?_, hlocks, ?_, ?_, ?_⟩
  · rw [hft]
    exact hrefs
  · rw [houts, hops, h.ops]
  · rw [hftable, hft, h.ftable]
  · rw [hproc, hpr, h.proc]

theorem Still.keeps {p : FsProg α} (hp : Still p) (h : At v s) : Ends p (fun _ => At v) s := by
  have huse : Ends p (fun _ t => t.use = s.use) s :=
    wp_mono (hp.calm.use s) (fun _ _ ht => ht) fun _ _ _ => trivial
  refine wp_mono (hp.steady.with_use huse) (fun _ t ht => ?_) fun _ _ _ => trivial
  obtain ⟨hu, hrest⟩ := ht
  refine h.next hrest ⟨rfl, rfl, rfl⟩ (fun jp hjp => ?_) fun jp => ?_
  · rw [hu, h.refs jp hjp]
  · rw [hu, h.locks jp]

theorem setInode_steady (ip : Nat) (g : Inode → Inode) : Steady (setInode ip g) :=
  .ask fun _ => ⟨rfl, rfl, rfl⟩

theorem iget_steady (i : Nat) : Steady (iget i) := by
  refine mem_still.steady.bind fun m => ?_
  split
  · exact (setInode_steady _ _).bind fun _ => .pure _
  · split
    · exact (setInode_steady _ _).bind fun _ => .pure _
    · exact (panic_still _).steady

theorem idup_steady (ip : Nat) : Steady (idup ip) := (setInode_steady _ _).bind fun _ => .pure _

theorem acquiresleep_steady (ip : Nat) : Steady (acquiresleep ip) :=
  (inode_still ip).steady.bind fun _ => .ite (.call trivial fun x => x.elim) (setInode_steady _ _)

theorem ilock_steady (ip : Nat) : Steady (ilock ip) := by
  refine superblock_still.steady.bind fun sb => (inode_still ip).steady.bind fun i => ?_
  refine .ite (panic_still _).steady ((acquiresleep_steady ip).bind fun _ => .ite (.pure _) ?_)
  exact (bread_still _).steady.bind fun _ => (load_still _).steady.bind fun d =>
    (setDin_still ip _).steady.bind fun _ => (brelse_still _).steady.bind fun _ =>
      (setInode_steady _ _).bind fun _ => .ite (panic_still _).steady (.pure _)

theorem iunlock_steady (ip : Nat) : Steady (iunlock ip) :=
  (inode_still ip).steady.bind fun _ => .ite (panic_still _).steady (setInode_steady _ _)

theorem ifree_steady (ip : Nat) : Steady (ifree ip) :=
  (acquiresleep_steady ip).bind fun _ => (itrunc_still ip).steady.bind fun _ =>
    (setDin_still ip _).steady.bind fun _ => (iupdate_still ip).steady.bind fun _ =>
      (setInode_steady _ _).bind fun _ => setInode_steady _ _

theorem iput_steady (ip : Nat) : Steady (iput ip) :=
  (inode_still ip).steady.bind fun _ => .ite
    ((ifree_steady ip).bind fun _ => setInode_steady _ _) (setInode_steady _ _)

/-- `iput` takes one from the count and leaves the lock as it was. -/
theorem iput_use : Ends (iput ip)
    (fun _ t => t.use = upd s.use ip ((s.use ip).1 - 1, (s.use ip).2)) s := by
  rw [iput_parts]
  refine wp_seq iputTest_use fun freeing t ht => ?_
  cases freeing with
  | false => exact (wp_pure _).mpr ht
  | true =>
    obtain ⟨hfree, hlocked⟩ := ht
    refine wp_seq iputFree_use fun _ u hu => wp_mono iputDrop_use (fun _ w hw => ?_) fun _ _ h => h
    rw [hw, hu, hlocked, upd_same, upd_upd, upd_same, upd_upd, hfree]

/-! ## Inodes -/

theorem take_count (v : View) (ip jp : Nat) :
    (openRefs v.ftable ++ (v.take ip).refs).count jp =
      (openRefs v.ftable ++ v.refs).count jp + if jp = ip then 1 else 0 := by
  simp only [View.take, List.count_append, List.count_cons, beq_iff_eq, eq_comm (a := ip)]
  omega

theorem At.taken (h : At v s) (hrest : t.rest = s.rest)
    (hu : t.use = upd s.use ip ((s.use ip).1 + 1, (s.use ip).2)) : At (v.take ip) t := by
  refine h.next hrest ⟨rfl, rfl, rfl⟩ (fun jp hjp => ?_) fun jp => ?_
  · have hcount := h.refs jp hjp
    rw [take_count, hu]
    by_cases heq : jp = ip
    · rw [heq] at hcount ⊢
      rw [upd_same, if_pos rfl]
      push_cast
      omega
    · rw [upd_other heq, if_neg heq, hcount, Nat.add_zero]
  · have hlock := h.locks jp
    rw [hu]
    by_cases heq : jp = ip
    · rw [heq] at hlock ⊢
      rw [upd_same]
      exact hlock
    · rw [upd_other heq]
      exact hlock

theorem iget_at (h : At v s) : Ends (iget i) (fun ip t => At (v.take ip) t) s :=
  wp_mono ((iget_steady i).with_use iget_use) (fun _ _ ht => h.taken ht.2 ht.1.2)
    fun _ _ _ => trivial

theorem idup_at (h : At v s) : Ends (idup ip) (fun jp t => At (v.take jp) t) s := by
  refine wp_mono ((idup_steady ip).with_use idup_use) (fun jp t ht => ?_) fun _ _ _ => trivial
  obtain ⟨⟨hjp, hu⟩, hrest⟩ := ht
  rw [hjp]
  exact h.taken hrest hu

theorem iput_at (h : At (v.take ip) s) : Ends (iput ip) (fun _ => At v) s := by
  refine wp_mono ((iput_steady ip).with_use iput_use) (fun _ t ht => ?_) fun _ _ _ => trivial
  obtain ⟨hu, hrest⟩ := ht
  refine h.next hrest ⟨rfl, rfl, rfl⟩ (fun jp hjp => ?_) fun jp => ?_
  · have hcount := h.refs jp hjp
    rw [show (v.take ip).ftable = v.ftable from rfl, take_count] at hcount
    rw [show (v.take ip).ftable = v.ftable from rfl, hu]
    by_cases heq : jp = ip
    · rw [heq, if_pos rfl] at hcount
      rw [heq, upd_same]
      push_cast at hcount
      omega
    · rw [if_neg heq, Nat.add_zero] at hcount
      rw [upd_other heq, hcount]
  · have hlock := h.locks jp
    rw [hu]
    by_cases heq : jp = ip
    · rw [heq] at hlock ⊢
      rw [upd_same]
      exact hlock
    · rw [upd_other heq]
      exact hlock

theorem At.relocked (h : At v s) (hrest : t.rest = s.rest) {b : Bool}
    (hu : t.use = upd s.use ip ((s.use ip).1, b)) :
    At { v with locks := upd v.locks ip b } t := by
  refine h.next hrest ⟨rfl, rfl, rfl⟩ (fun jp hjp => ?_) fun jp => ?_
  · rw [hu, ← h.refs jp hjp]
    by_cases heq : jp = ip
    · rw [heq, upd_same]
    · rw [upd_other heq]
  · show (t.use jp).2 = upd v.locks ip b jp
    rw [hu]
    by_cases heq : jp = ip
    · rw [heq, upd_same, upd_same]
    · rw [upd_other heq, upd_other heq, h.locks jp]

theorem ilock_at (h : At v s) :
    Ends (ilock ip) (fun _ t => v.locks ip = false ∧ At (v.lock ip) t) s := by
  refine wp_mono ((ilock_steady ip).with_use ilock_use) (fun _ t ht => ?_) fun _ _ _ => trivial
  obtain ⟨⟨hfree, hu⟩, hrest⟩ := ht
  exact ⟨(h.locks ip).symm.trans hfree, h.relocked hrest hu⟩

theorem iunlock_at (h : At (v.lock ip) s) (hfree : v.locks ip = false) :
    Ends (iunlock ip) (fun _ => At v) s := by
  refine wp_mono ((iunlock_steady ip).with_use iunlock_use) (fun _ t ht => ?_) fun _ _ _ => trivial
  have hback : upd (v.lock ip).locks ip false = v.locks := by
    rw [View.lock, upd_upd, ← hfree, upd_self]
  have hnext := h.relocked ht.2 ht.1
  rw [hback] at hnext
  exact hnext

theorem iunlockput_at (h : At ((v.take ip).lock ip) s) (hfree : v.locks ip = false) :
    Ends (iunlockput ip) (fun _ => At v) s :=
  wp_seq (iunlock_at h hfree) fun _ _ ht => iput_at ht

/-- An inode that could be locked is another one than the one locked before. -/
theorem unlocked_ne {K : Nat → Bool} {jp : Nat} (h : upd K ip true jp = false) :
    jp ≠ ip ∧ K jp = false := by
  have hne : jp ≠ ip := by
    intro heq
    rw [heq, upd_same] at h
    cases h
  exact ⟨hne, (upd_other hne).symm.trans h⟩

/-- Two inodes are locked, and the one locked first is looked at first. -/
theorem At.swap {jp : Nat} (h : At ((((v.take ip).lock ip).take jp).lock jp) s) :
    At ((((v.take jp).lock jp).take ip).lock ip) s := by
  have hlocks : upd (upd v.locks ip true) jp true = upd (upd v.locks jp true) ip true := by
    funext kp
    unfold upd
    split <;> split <;> rfl
  have hperm := h.perm (List.Perm.swap ip jp v.refs)
  have hview : ({ (((v.take ip).lock ip).take jp).lock jp with refs := ip :: jp ::
    v.refs } : View) =
      (((v.take jp).lock jp).take ip).lock ip := by
    simp only [View.take, View.lock, hlocks]
  rwa [hview] at hperm

theorem iallocFrom_at (sb : Superblock) (type : BitVec 16) (fuel inum : Nat) (h : At v s) :
    Ends (iallocFrom sb type fuel inum) (fun r => At (v.took r)) s := by
  induction fuel generalizing inum s with
  | zero => exact (wp_pure _).mpr h
  | succ fuel ih =>
    rw [iallocFrom_succ]
    refine wp_ite (fun _ => ?_) fun _ => (wp_pure _).mpr h
    refine wp_seq ((iclaim_still sb type inum).keeps h) fun free t ht => ?_
    cases free with
    | true => exact wp_map.mpr (iget_at ht)
    | false => exact ih (inum + 1) ht

theorem ialloc_at (type : BitVec 16) (h : At v s) :
    Ends (ialloc type) (fun r => At (v.took r)) s :=
  wp_seq (superblock_still.keeps h) fun sb _ ht => iallocFrom_at sb type _ _ ht

/-! ## Directories -/

theorem dirlookupFrom_at (dp : Nat) (name : List UInt8) (size fuel off : Nat) (h : At v s) :
    Ends (dirlookupFrom dp name size fuel off) (fun r => At (v.took (r.map Prod.fst))) s := by
  induction fuel generalizing off s with
  | zero => exact (wp_pure _).mpr h
  | succ fuel ih =>
    refine wp_ite (fun _ => ?_) fun _ => (wp_pure _).mpr h
    refine wp_seq ((readi_still dp _ _ _).keeps h) fun r t ht => ?_
    refine wp_ite (fun _ => (wp_panic _).mpr trivial) fun _ => wp_ite (fun _ => ?_) fun _ => ih _ ht
    exact wp_seq (iget_at ht) fun ip u hu => (wp_pure _).mpr hu

theorem dirlookup_at (dp : Nat) (name : List UInt8) (h : At v s) :
    Ends (dirlookup dp name) (fun r => At (v.took (r.map Prod.fst))) s := by
  refine wp_seq ((inode_still dp).keeps h) fun d t ht => ?_
  exact wp_ite (fun _ => (wp_panic _).mpr trivial) fun _ => dirlookupFrom_at dp name _ _ _ ht

theorem dirlinkOff_still (dp size fuel off : Nat) : Still (dirlinkOff dp size fuel off) := by
  induction fuel generalizing off with
  | zero => exact .pure _
  | succ fuel ih =>
    refine .ite ((readi_still dp _ _ _).bind fun r => ?_) (.pure _)
    exact .ite (panic_still _) (.ite (.pure _) (ih _))

theorem dirlink_at (dp : Nat) (name : List UInt8) (inum : Nat) (h : At v s) :
    Ends (dirlink dp name inum) (fun _ => At v) s := by
  refine wp_seq (dirlookup_at dp name h) fun r t ht => ?_
  cases r with
  | some e => exact wp_seq (iput_at ht) fun _ u hu => (wp_pure _).mpr hu
  | none =>
    have hstill : Still (do
        let d ← inode dp
        let off ← dirlinkOff dp d.din.size (d.din.size / direntSize + 1) 0
        let r ← writei dp (.kernel (direntBytes name inum)) off direntSize
        if r ≠ direntSize then return -1 else return 0 : FsProg Int) :=
      (inode_still dp).bind fun _ => (dirlinkOff_still _ _ _ _).bind fun _ =>
        (writei_still _ _ _ _).bind fun _ => .ite (.pure _) (.pure _)
    exact hstill.keeps ht

theorem isdiremptyFrom_still (dp size fuel off : Nat) :
    Still (isdiremptyFrom dp size fuel off) := by
  induction fuel generalizing off with
  | zero => exact .pure _
  | succ fuel ih =>
    refine .ite ((readi_still dp _ _ _).bind fun r => ?_) (.pure _)
    exact .ite (panic_still _) (.ite (.pure _) (ih _))

theorem isdirempty_still (dp : Nat) : Still (isdirempty dp) :=
  (inode_still dp).bind fun _ => isdiremptyFrom_still _ _ _ _

/-! ## Paths -/

theorem namexFrom_at (parent : Bool) (elems : List (List UInt8)) (h : At (v.take ip) s) :
    Ends (namexFrom parent ip elems) (fun r => At (v.took (r.map Prod.fst))) s := by
  induction elems generalizing ip s with
  | nil =>
    unfold namexFrom
    refine wp_ite (fun _ => ?_) fun _ => (wp_pure _).mpr h
    exact wp_seq (iput_at h) fun _ t ht => (wp_pure _).mpr ht
  | cons name rest ih =>
    unfold namexFrom
    refine wp_seq (ilock_at h) fun _ t ht => ?_
    obtain ⟨hfree, ht⟩ := ht
    refine wp_seq ((inode_still ip).keeps ht) fun i t ht => ?_
    refine wp_ite (fun _ => ?_) fun _ => wp_ite (fun _ => ?_) fun _ => ?_
    · exact wp_seq (iunlockput_at ht hfree) fun _ u hu => (wp_pure _).mpr hu
    · exact wp_seq (iunlock_at ht hfree) fun _ u hu => (wp_pure _).mpr hu
    · refine wp_seq (dirlookup_at ip name ht) fun r t ht => ?_
      cases r with
      | none => exact wp_seq (iunlockput_at ht hfree) fun _ u hu => (wp_pure _).mpr hu
      | some e =>
        -- the reference to the entry is on top; the directory goes first
        have hswap : At (((v.take e.1).take ip).lock ip) t :=
          ht.perm (List.Perm.swap ip e.1 v.refs)
        exact wp_seq (iunlockput_at hswap hfree) fun _ u hu => ih hu

theorem namex_at (cwd : Nat) (path : List UInt8) (parent : Bool) (h : At v s) :
    Ends (namex cwd path parent) (fun r => At (v.took (r.map Prod.fst))) s := by
  unfold namex
  refine wp_ite (fun _ => ?_) fun _ => ?_
  · exact wp_seq (iget_at h) fun ip t ht => namexFrom_at parent _ ht
  · exact wp_seq (idup_at h) fun ip t ht => namexFrom_at parent _ ht

theorem namei_at (cwd : Nat) (path : List UInt8) (h : At v s) :
    Ends (namei cwd path) (fun r => At (v.took r)) s :=
  wp_seq (namex_at cwd path false h) fun _ _ ht => (wp_pure _).mpr ht

/-! ## Open files -/

/-- A free file refers to nothing, and descriptors are indices into the file table. -/
structure Tables (ft : Nat → File) (pr : Nat → Proc) : Prop where
  idle : ∀ f < nFile, (ft f).ref = 0 → (ft f).type = .none
  fds : ∀ p fd f, (pr p).ofile fd = some f → f < nFile

/-- The references `L` are held besides those of open files. -/
structure Held (L : List Nat) (K : Nat → Bool) (o : Int) (s : Store) : Prop where
  at_view : At ⟨L, K, o, s.mem.ftable, s.mem.proc⟩ s
  tables : Tables s.mem.ftable s.mem.proc

variable {L : List Nat} {K : Nat → Bool} {o : Int} {p f : Nat}

theorem At.held (h : At v s) (ht : Tables v.ftable v.proc) : Held v.refs v.locks v.ops s := by
  obtain ⟨L, K, o, ft, pr⟩ := v
  have hft : s.mem.ftable = ft := h.ftable
  have hpr : s.mem.proc = pr := h.proc
  rw [← hft, ← hpr] at h ht
  exact ⟨h, ht⟩

theorem Held.perm {L' : List Nat} (h : Held L K o s) (hl : L.Perm L') : Held L' K o s :=
  ⟨h.at_view.perm hl, h.tables⟩

/-- One file changes; a reference may move between it and the running code. -/
theorem Held.setFile {L' : List Nat} {g : File → File} (h : Held L K o s) (hf : f < nFile)
    (hl : ((s.mem.ftable f).refs ++ L).Perm ((g (s.mem.ftable f)).refs ++ L'))
    (hidle : (g (s.mem.ftable f)).ref = 0 → (g (s.mem.ftable f)).type = .none) :
    Ends (setFile f g) (fun _ t => Held L' K o t ∧ t.mem.proc = s.mem.proc ∧
      t.mem.ftable = upd s.mem.ftable f (g (s.mem.ftable f))) s := by
  obtain ⟨rest, hrest⟩ := openRefs_upd s.mem.ftable hf
  have hold := hrest (s.mem.ftable f)
  rw [upd_self] at hold
  have hnew := hrest (g (s.mem.ftable f))
  rw [Ends, Fs.setFile, wp_setMem]
  refine ⟨⟨⟨fun jp hjp => ?_, h.at_view.locks, h.at_view.ops, rfl, rfl⟩, ?_,
    h.tables.fds⟩, rfl, rfl⟩
  · have hcount := h.at_view.refs jp hjp
    have hmove := hl.count_eq jp
    have hafter := hnew.count_eq jp
    have hbefore := hold.count_eq jp
    simp only [List.count_append] at hcount hmove hafter hbefore ⊢
    refine hcount.trans ?_
    rw [hbefore, hafter]
    congr 1
    omega
  · intro e he
    show (upd s.mem.ftable f _ e).ref = 0 → (upd s.mem.ftable f _ e).type = .none
    by_cases heq : e = f
    · rw [heq, upd_same]
      exact hidle
    · rw [upd_other heq]
      exact h.tables.idle e he

theorem Held.editFile {g : File → File} (h : Held L K o s) (hf : f < nFile)
    (hg : (g (s.mem.ftable f)).refs = (s.mem.ftable f).refs)
    (hidle : (g (s.mem.ftable f)).ref = 0 → (g (s.mem.ftable f)).type = .none) :
    Ends (Fs.setFile f g) (fun _ t => Held L K o t ∧ t.mem.proc = s.mem.proc ∧
      t.mem.ftable = upd s.mem.ftable f (g (s.mem.ftable f))) s :=
  h.setFile hf (by rw [hg]) hidle

theorem Held.setProc {g : Proc → Proc} (h : Held L K o s)
    (hfds : ∀ fd f, (g (s.mem.proc p)).ofile fd = some f → f < nFile) :
    Ends (setProc p g) (fun _ t => Held L K o t ∧ t.mem.ftable = s.mem.ftable ∧
      t.mem.proc = upd s.mem.proc p (g (s.mem.proc p))) s := by
  rw [Ends, Fs.setProc, wp_setMem]
  refine ⟨⟨⟨h.at_view.refs, h.at_view.locks, h.at_view.ops, rfl, rfl⟩, h.tables.idle, ?_⟩, rfl, rfl⟩
  intro q fd e he
  replace he : (upd s.mem.proc p (g (s.mem.proc p)) q).ofile fd = some e := he
  by_cases heq : q = p
  · rw [heq, upd_same] at he
    exact hfds fd e he
  · rw [upd_other heq] at he
    exact h.tables.fds q fd e he

theorem Held.reads {α : Type} {m : FsProg α} (h : Held L K o s) (hm : Still m) :
    Ends m (fun _ t => Held L K o t ∧ t.mem.ftable = s.mem.ftable ∧ t.mem.proc = s.mem.proc) s := by
  refine wp_mono (hm.keeps h.at_view) (fun _ t ht => ?_) fun _ _ _ => trivial
  exact ⟨ht.held h.tables, ht.ftable, ht.proc⟩

theorem begin_at (h : At v s) : Ends beginOp (fun _ => At v.begun) s := by
  rw [Ends, wp_beginOp]
  refine ⟨h.refs, h.locks, ?_, h.ftable, h.proc⟩
  show s.outstanding + 1 = v.ops + 1
  rw [h.ops]

theorem end_at (h : At v.begun s) : Ends endOp (fun _ => At v) s := by
  rw [Ends, wp_endOp]
  refine ⟨fun _ => trivial, h.refs, h.locks, ?_, h.ftable, h.proc⟩
  show s.outstanding - 1 = v.ops
  rw [h.ops]
  show v.ops + 1 - 1 = v.ops
  omega

theorem filealloc_held (h : Held L K o s) : Ends filealloc (fun r t => Held L K o t ∧
    t.mem.proc = s.mem.proc ∧ (∀ g, (t.mem.ftable g).refs = (s.mem.ftable g).refs ∧
      ((s.mem.ftable g).ref ≠ 0 → (t.mem.ftable g).ref ≠ 0)) ∧
    ∀ f ∈ r, f < nFile ∧ (t.mem.ftable f).refs = [] ∧ (t.mem.ftable f).ref ≠ 0) s := by
  unfold filealloc
  rw [Ends, wp_bind, wp_mem]
  split
  · rename_i f hfind
    have hf := List.mem_range.mp (List.mem_of_find?_eq_some hfind)
    have hzero := List.find?_some hfind
    simp only [decide_eq_true_eq] at hzero
    have hnone : (s.mem.ftable f).refs = [] := by
      rw [File.refs, h.tables.idle f hf hzero]
      rfl
    have hedit := h.editFile (g := fun f => { f with ref := 1 }) hf rfl
      fun hz => absurd hz Nat.one_ne_zero
    refine wp_seq hedit fun _ t ht => (wp_pure _).mpr ?_
    obtain ⟨hheld, hproc, hft⟩ := ht
    have hone : (t.mem.ftable f).ref ≠ 0 := by
      rw [hft, upd_same]
      exact Nat.one_ne_zero
    have hsame : ∀ g, (t.mem.ftable g).refs = (s.mem.ftable g).refs ∧
        ((s.mem.ftable g).ref ≠ 0 → (t.mem.ftable g).ref ≠ 0) := by
      intro g
      by_cases heq : g = f
      · rw [heq]
        refine ⟨?_, fun _ => hone⟩
        rw [hft, upd_same]
        rfl
      · rw [hft, upd_other heq]
        exact ⟨rfl, id⟩
    refine ⟨hheld, hproc, hsame, fun e he => ?_⟩
    cases he
    exact ⟨hf, (hsame f).1.trans hnone, hone⟩
  · exact (wp_pure _).mpr ⟨h, rfl, fun _ => ⟨rfl, id⟩, fun f hf => by cases hf⟩

theorem fileclose_held (h : Held L K o s) (hf : f < nFile) :
    Ends (fileclose f) (fun _ t => Held L K o t ∧ t.mem.proc = s.mem.proc) s := by
  unfold fileclose
  rw [Ends, wp_bind, wp_file]
  refine wp_ite (fun _ => (wp_panic _).mpr trivial) fun _ => wp_ite (fun hmore => ?_) fun _ => ?_
  · have hedit := h.editFile (g := fun x => { x with ref := x.ref - 1 }) hf rfl
      fun hz => absurd hz (Nat.ne_of_gt hmore)
    exact wp_mono hedit (fun _ t ht => ⟨ht.1, ht.2.1⟩) fun _ _ he => he
  · have hgone : File.refs { s.mem.ftable f with ref := 0, type := .none } = [] := rfl
    have hmove : ((s.mem.ftable f).refs ++ L).Perm
        (File.refs { s.mem.ftable f with ref := 0, type := .none } ++
          ((s.mem.ftable f).refs ++ L)) := by rw [hgone, List.nil_append]
    have hedit := h.setFile (g := fun x => { x with ref := 0, type := .none }) hf hmove fun _ => rfl
    refine wp_seq hedit fun _ t ht => ?_
    obtain ⟨hheld, hproc, -⟩ := ht
    refine wp_ite (fun hty => ?_) fun hty => ?_
    · rw [File.refs, if_pos hty] at hheld
      refine wp_seq (begin_at hheld.at_view) fun _ u hu => ?_
      refine wp_seq (iput_at (v := ⟨L, K, o + 1, t.mem.ftable, t.mem.proc⟩) hu) fun _ u hu => ?_
      refine wp_mono (end_at (v := ⟨L, K, o, t.mem.ftable, t.mem.proc⟩) hu) (fun _ w hw => ?_)
        fun _ _ he => he
      exact ⟨hw.held hheld.tables, hw.proc.trans hproc⟩
    · rw [File.refs, if_neg hty, List.nil_append] at hheld
      exact (wp_pure _).mpr ⟨hheld, hproc⟩

theorem filedup_held (h : Held L K o s) (hf : f < nFile) :
    Ends (filedup f) (fun _ t => Held L K o t ∧ t.mem.proc = s.mem.proc) s := by
  unfold filedup
  rw [Ends, wp_bind, wp_file]
  refine wp_ite (fun _ => (wp_panic _).mpr trivial) fun _ => ?_
  have hedit := h.editFile (g := fun x => { x with ref := x.ref + 1 }) hf rfl
    fun hz => absurd hz (Nat.succ_ne_zero _)
  exact wp_mono hedit (fun _ t ht => ⟨ht.1, ht.2.1⟩) fun _ _ he => he

theorem argfd_held (h : Held L K o s) (fd : Int) :
    Ends (argfd p fd) (fun r t => t = s ∧ ∀ f ∈ r, f < nFile) s := by
  unfold argfd
  rw [Ends, wp_bind, wp_proc]
  refine wp_ite (fun _ => (wp_pure _).mpr ⟨rfl, fun f hf => ?_⟩)
    fun _ => (wp_pure _).mpr ⟨rfl, fun f hf => by cases hf⟩
  exact h.tables.fds p fd.toNat f hf

theorem Held.setFd {x : Option Nat} (h : Held L K o s) (fd : Nat) (hx : ∀ f ∈ x, f < nFile) :
    Ends (Fs.setProc p fun pr => { pr with ofile := upd pr.ofile fd x }) (fun _ t => Held L K o t ∧
      t.mem.ftable = s.mem.ftable ∧ cwds t.mem.proc = cwds s.mem.proc ∧
      ∀ q, (t.mem.proc q).refs = (s.mem.proc q).refs) s := by
  have hfds : ∀ e f, upd (s.mem.proc p).ofile fd x e = some f → f < nFile := by
    intro e f he
    by_cases heq : e = fd
    · rw [heq, upd_same] at he
      exact hx f he
    · rw [upd_other heq] at he
      exact h.tables.fds p e f he
  refine wp_mono (h.setProc (g := fun pr => { pr with ofile := upd pr.ofile fd x }) hfds)
    (fun _ t ht => ?_) fun _ _ he => he
  obtain ⟨hheld, hft, hpr⟩ := ht
  refine ⟨hheld, hft, ?_, fun q => ?_⟩
  · rw [hpr]
    exact cwds_same rfl
  · rw [hpr]
    by_cases heq : q = p
    · rw [heq, upd_same]
      rfl
    · rw [upd_other heq]

theorem fdalloc_held (h : Held L K o s) (hf : f < nFile) :
    Ends (fdalloc p f) (fun _ t => Held L K o t ∧ t.mem.ftable = s.mem.ftable ∧
      cwds t.mem.proc = cwds s.mem.proc) s := by
  unfold fdalloc
  rw [Ends, wp_bind, wp_proc]
  split
  · rename_i fd _
    have hsome : ∀ e ∈ some f, e < nFile := fun e he => by
      cases he
      exact hf
    have hset := h.setFd fd (p := p) hsome
    exact wp_seq hset fun _ t ht => (wp_pure _).mpr ⟨ht.1, ht.2.1, ht.2.2.1⟩
  · exact (wp_pure _).mpr ⟨h, rfl, rfl⟩

end

end Xv6.Fs
