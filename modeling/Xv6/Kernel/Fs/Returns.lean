import Xv6.Kernel.Fs.Balance

/-! # System calls balance

Every path through a system call drops the references it took, releases the inode
locks it acquired and ends the operation it began. So whenever calls have returned, the
count of an entry of the inode table is the number of current directories and open
files that refer to it.
-/

namespace Xv6.Fs

open Lib

section

variable {v : View} {s t : Store} {L : List Nat} {K : Nat → Bool} {o : Int} {ip p f : Nat}

/-! ## Between system calls -/

/-- Between system calls the references are those of open files and current directories. -/
def Settled (K : Nat → Bool) (o : Int) (s : Store) : Prop := Held (cwds s.mem.proc) K o s

theorem Settled.of_held (h : Held L K o t) (hl : L.Perm (cwds t.mem.proc)) : Settled K o t :=
  h.perm hl

theorem Settled.begin_op (h : Settled K o s) : Ends beginOp (fun _ t =>
    At (View.begun ⟨cwds s.mem.proc, K, o, s.mem.ftable, s.mem.proc⟩) t) s :=
  begin_at h.at_view

theorem Settled.end_op (h : At v.begun t) (hs : Tables v.ftable v.proc)
    (hl : v.refs.Perm (cwds v.proc)) : Ends endOp (fun _ => Settled v.locks v.ops) t := by
  refine wp_mono (end_at h) (fun _ u hu => ?_) fun _ _ he => he
  refine Settled.of_held (hu.held hs) ?_
  rw [hu.proc]
  exact hl

section

variable (hs : Tables v.ftable v.proc) (hl : v.refs.Perm (cwds v.proc))

include hs hl

theorem giveUp_settled {r : Int} (h : At v.begun s) :
    Ends (endOp >>= fun _ => (pure r : FsProg Int)) (fun _ => Settled v.locks v.ops) s :=
  wp_seq (Settled.end_op h hs hl) fun _ _ ht => (wp_pure _).mpr ht

theorem linkBad_settled (h : At (v.begun.take ip) s) :
    Ends (linkBad ip) (fun _ => Settled v.locks v.ops) s := by
  unfold linkBad
  refine wp_seq (ilock_at h) fun _ t ht => ?_
  obtain ⟨hfree, ht⟩ := ht
  refine wp_seq ((setDin_still ip _).keeps ht) fun _ t ht => ?_
  refine wp_seq ((iupdate_still ip).keeps ht) fun _ t ht => ?_
  exact wp_seq (iunlockput_at ht hfree) fun _ t ht => giveUp_settled hs hl ht

theorem unlinkBad_settled {dp : Nat} (h : At ((v.begun.take dp).lock dp) s)
    (hfree : v.locks dp = false) :
    Ends (unlinkBad dp) (fun _ => Settled v.locks v.ops) s :=
  wp_seq (iunlockput_at (v := v.begun) h hfree) fun _ _ ht => giveUp_settled hs hl ht

theorem openBad_settled (h : At ((v.begun.take ip).lock ip) s) (hfree : v.locks ip = false) :
    Ends (openBad ip) (fun _ => Settled v.locks v.ops) s :=
  wp_seq (iunlockput_at (v := v.begun) h hfree) fun _ _ ht => giveUp_settled hs hl ht

theorem unlinkDrop_settled {dp : Nat} (h : At ((((v.begun.take dp).lock dp).take ip).lock ip) s)
    (hne : ip ≠ dp) (hdp : v.locks dp = false) (hip : v.locks ip = false) :
    Ends (unlinkDrop dp ip) (fun _ => Settled v.locks v.ops) s := by
  have hdp' : ((v.begun.take ip).lock ip).locks dp = false :=
    (upd_other (Ne.symm hne)).trans hdp
  refine wp_seq (iunlockput_at h.swap hdp') fun _ t ht => ?_
  refine wp_seq ((setDin_still ip _).keeps ht) fun _ t ht => ?_
  refine wp_seq ((iupdate_still ip).keeps ht) fun _ t ht => ?_
  exact wp_seq (iunlockput_at ht hip) fun _ t ht => giveUp_settled hs hl ht

theorem unlinkErase_settled {dp off : Nat} {isDir empty : Bool}
    (h : At ((((v.begun.take dp).lock dp).take ip).lock ip) s) (hne : ip ≠ dp)
    (hdp : v.locks dp = false) (hip : v.locks ip = false) :
    Ends (unlinkErase dp ip off isDir empty) (fun _ => Settled v.locks v.ops) s := by
  unfold unlinkErase
  refine wp_ite (fun _ => ?_) fun _ => ?_
  · have hip' : ((v.begun.take dp).lock dp).locks ip = false := (upd_other hne).trans hip
    exact wp_seq (iunlockput_at h hip') fun _ t ht => unlinkBad_settled hs hl ht hdp
  · refine wp_seq ((writei_still _ _ _ _).keeps h) fun r t ht => ?_
    refine wp_ite (fun _ => (wp_panic _).mpr trivial) fun _ => wp_ite (fun _ => ?_) fun _ => ?_
    · refine wp_seq ((setDin_still dp _).keeps ht) fun _ t ht => ?_
      refine wp_seq ((iupdate_still dp).keeps ht) fun _ t ht => ?_
      exact unlinkDrop_settled hs hl ht hne hdp hip
    · exact unlinkDrop_settled hs hl ht hne hdp hip

theorem unlinkEntry_settled {dp off : Nat} (h : At (((v.begun.take dp).lock dp).take ip) s)
    (hdp : v.locks dp = false) :
    Ends (unlinkEntry dp ip off) (fun _ => Settled v.locks v.ops) s := by
  rw [unlinkEntry_eq]
  refine wp_seq (ilock_at h) fun _ t ht => ?_
  obtain ⟨hip, ht⟩ := ht
  obtain ⟨hne, hfree⟩ := unlocked_ne hip
  refine wp_seq ((inode_still ip).keeps ht) fun i t ht => ?_
  refine wp_ite (fun _ => (wp_panic _).mpr trivial) fun _ => wp_ite (fun _ => ?_) fun _ => ?_
  · exact wp_seq ((isdirempty_still ip).keeps ht) fun empty t ht =>
      unlinkErase_settled hs hl ht hne hdp hfree
  · exact unlinkErase_settled hs hl ht hne hdp hfree

end

/-! ## Creating -/

theorem createFail_at {dp : Nat} (h : At ((((v.take dp).lock dp).take ip).lock ip) s)
    (hne : ip ≠ dp) (hdp : v.locks dp = false) (hip : v.locks ip = false) :
    Ends (createFail dp ip) (fun r t => r = none ∧ At v t) s := by
  have hip' : ((v.take dp).lock dp).locks ip = false := (upd_other hne).trans hip
  unfold createFail
  refine wp_seq ((setDin_still ip _).keeps h) fun _ t ht => ?_
  refine wp_seq ((iupdate_still ip).keeps ht) fun _ t ht => ?_
  refine wp_seq (iunlockput_at ht hip') fun _ t ht => ?_
  exact wp_seq (iunlockput_at ht hdp) fun _ t ht => (wp_pure _).mpr ⟨rfl, ht⟩

def Created (v : View) (r : Option Nat) (t : Store) : Prop :=
  match r with
  | none => At v t
  | some ip => v.locks ip = false ∧ At ((v.take ip).lock ip) t

theorem createLink_at {dp inum : Nat} {name : List UInt8} {isDir dots : Bool}
    (h : At ((((v.take dp).lock dp).take ip).lock ip) s)
    (hne : ip ≠ dp) (hdp : v.locks dp = false) (hip : v.locks ip = false) :
    Ends (createLink dp ip inum name isDir dots) (Created v) s := by
  have hfail : ∀ {t}, At ((((v.take dp).lock dp).take ip).lock ip) t →
      Ends (createFail dp ip) (Created v) t := by
    intro t ht
    refine wp_mono (createFail_at ht hne hdp hip) (fun r u hu => ?_) fun _ _ he => he
    rw [hu.1]
    exact hu.2
  have hdone : ∀ {t}, At ((((v.take dp).lock dp).take ip).lock ip) t →
      Ends (createDone dp ip) (Created v) t := by
    intro t ht
    have hdp' : ((v.take ip).lock ip).locks dp = false := (upd_other (Ne.symm hne)).trans hdp
    exact wp_seq (iunlockput_at ht.swap hdp') fun _ u hu => (wp_pure _).mpr ⟨hip, hu⟩
  unfold createLink
  refine wp_ite (fun _ => hfail h) fun _ => ?_
  refine wp_seq (dirlink_at dp name inum h) fun r t ht => ?_
  refine wp_ite (fun _ => hfail ht) fun _ => wp_ite (fun _ => ?_) fun _ => hdone ht
  refine wp_seq ((setDin_still dp _).keeps ht) fun _ t ht => ?_
  exact wp_seq ((iupdate_still dp).keeps ht) fun _ t ht => hdone ht

theorem createNew_at {dp : Nat} {name : List UInt8} {type major minor : BitVec 16}
    (h : At ((((v.take dp).lock dp).take ip).lock ip) s)
    (hne : ip ≠ dp) (hdp : v.locks dp = false) (hip : v.locks ip = false) :
    Ends (createNew dp name type major minor ip) (Created v) s := by
  rw [createNew_eq]
  refine wp_seq ((inode_still dp).keeps h) fun d t ht => ?_
  refine wp_seq ((inode_still ip).keeps ht) fun i t ht => ?_
  refine wp_seq ((setDin_still ip _).keeps ht) fun _ t ht => ?_
  refine wp_seq ((iupdate_still ip).keeps ht) fun _ t ht => ?_
  refine wp_ite (fun _ => ?_) fun _ => createLink_at ht hne hdp hip
  refine wp_seq (dirlink_at ip dot i.inum ht) fun r t ht => ?_
  refine wp_ite (fun _ => createLink_at ht hne hdp hip) fun _ => ?_
  exact wp_seq (dirlink_at ip dotdot d.inum ht) fun r t ht => createLink_at ht hne hdp hip

theorem create_at (cwd : Nat) (path : List UInt8) (type major minor : BitVec 16) (h : At v s) :
    Ends (create cwd path type major minor) (Created v) s := by
  unfold create
  refine wp_seq (namex_at cwd path true h) fun r t ht => ?_
  obtain _ | ⟨dp, name⟩ := r
  · exact (wp_pure _).mpr ht
  · refine wp_seq (ilock_at ht) fun _ t ht => ?_
    obtain ⟨hdp, ht⟩ := ht
    refine wp_seq (dirlookup_at dp name ht) fun r t ht => ?_
    obtain _ | ⟨ip, off⟩ := r
    · refine wp_seq (ialloc_at type ht) fun r t ht => ?_
      obtain _ | ip := r
      · exact wp_seq (iunlockput_at ht hdp) fun _ t ht => (wp_pure _).mpr ht
      · refine wp_seq (ilock_at ht) fun _ t ht => ?_
        obtain ⟨hip, ht⟩ := ht
        obtain ⟨hne, hfree⟩ := unlocked_ne hip
        exact createNew_at ht hne hdp hfree
    · have hswap : At (((v.take ip).take dp).lock dp) t := ht.perm (List.Perm.swap dp ip v.refs)
      refine wp_seq (iunlockput_at hswap hdp) fun _ t ht => ?_
      refine wp_seq (ilock_at ht) fun _ t ht => ?_
      obtain ⟨hip, ht⟩ := ht
      refine wp_seq ((inode_still ip).keeps ht) fun i t ht => ?_
      refine wp_ite (fun _ => (wp_pure _).mpr ⟨hip, ht⟩) fun _ => ?_
      exact wp_seq (iunlockput_at ht hip) fun _ t ht => (wp_pure _).mpr ht

/-! ## The calls about names -/

theorem sysLink_settled (old new : Option (List UInt8)) (h : Settled K o s) :
    Ends (sysLink p old new) (fun _ => Settled K o) s := by
  have hs := h.tables
  have hl := List.Perm.refl (cwds s.mem.proc)
  obtain _ | old := old
  · exact (wp_pure _).mpr h
  obtain _ | new := new
  · exact (wp_pure _).mpr h
  unfold sysLink
  refine wp_seq h.begin_op fun _ t ht => ?_
  rw [wp_bind, wp_proc]
  refine wp_seq (namei_at _ old ht) fun r t ht => ?_
  obtain _ | ip := r
  · exact giveUp_settled hs hl ht
  refine wp_seq (ilock_at ht) fun _ t ht => ?_
  obtain ⟨hip, ht⟩ := ht
  refine wp_seq ((inode_still ip).keeps ht) fun i t ht => wp_ite (fun _ => ?_) fun _ => ?_
  · exact wp_seq (iunlockput_at ht hip) fun _ t ht => giveUp_settled hs hl ht
  refine wp_seq ((setDin_still ip _).keeps ht) fun _ t ht => ?_
  refine wp_seq ((iupdate_still ip).keeps ht) fun _ t ht => ?_
  refine wp_seq (iunlock_at ht hip) fun _ t ht => ?_
  refine wp_seq (namex_at _ new true ht) fun r t ht => ?_
  obtain _ | ⟨dp, name⟩ := r
  · exact linkBad_settled hs hl ht
  refine wp_seq (ilock_at ht) fun _ t ht => ?_
  obtain ⟨hdp, ht⟩ := ht
  refine wp_seq ((inode_still ip).keeps ht) fun i t ht => ?_
  refine wp_seq (dirlink_at dp name i.inum ht) fun r t ht => wp_ite (fun _ => ?_) fun _ => ?_
  · exact wp_seq (iunlockput_at ht hdp) fun _ t ht => linkBad_settled hs hl ht
  · refine wp_seq (iunlockput_at ht hdp) fun _ t ht => ?_
    exact wp_seq (iput_at ht) fun _ t ht => giveUp_settled hs hl ht

theorem sysUnlink_settled (path : Option (List UInt8)) (h : Settled K o s) :
    Ends (sysUnlink p path) (fun _ => Settled K o) s := by
  have hs := h.tables
  have hl := List.Perm.refl (cwds s.mem.proc)
  obtain _ | path := path
  · exact (wp_pure _).mpr h
  unfold sysUnlink
  refine wp_seq h.begin_op fun _ t ht => ?_
  rw [wp_bind, wp_proc]
  refine wp_seq (namex_at _ path true ht) fun r t ht => ?_
  obtain _ | ⟨dp, name⟩ := r
  · exact giveUp_settled hs hl ht
  refine wp_seq (ilock_at ht) fun _ t ht => ?_
  obtain ⟨hdp, ht⟩ := ht
  refine wp_ite (fun _ => unlinkBad_settled hs hl ht hdp) fun _ => ?_
  refine wp_seq (dirlookup_at dp name ht) fun r t ht => ?_
  obtain _ | ⟨ip, off⟩ := r
  · exact unlinkBad_settled hs hl ht hdp
  · exact unlinkEntry_settled hs hl ht hdp

theorem sysCreate_settled (path : Option (List UInt8)) (type major minor : BitVec 16)
    (h : Settled K o s) : Ends (sysCreate p path type major minor) (fun _ => Settled K o) s := by
  have hs := h.tables
  have hl := List.Perm.refl (cwds s.mem.proc)
  unfold sysCreate
  refine wp_seq h.begin_op fun _ t ht => ?_
  rw [wp_bind, wp_proc]
  obtain _ | path := path
  · exact giveUp_settled hs hl ht
  refine wp_seq (create_at _ path type major minor ht) fun r t ht => ?_
  obtain _ | ip := r
  · exact giveUp_settled hs hl ht
  · obtain ⟨hip, ht⟩ := ht
    exact wp_seq (iunlockput_at ht hip) fun _ t ht => giveUp_settled hs hl ht

theorem execReads_still (ip : Nat) (reads : List (Nat × Nat)) : Still (execReads ip reads) := by
  induction reads with
  | nil => exact .pure _
  | cons r reads ih => exact (readi_still _ _ _ _).bind fun _ => ih

theorem sysExec_settled (path : Option (List UInt8)) (reads : List (Nat × Nat)) (ret : Int)
    (h : Settled K o s) : Ends (sysExec p path reads ret) (fun _ => Settled K o) s := by
  have hs := h.tables
  have hl := List.Perm.refl (cwds s.mem.proc)
  obtain _ | path := path
  · exact (wp_pure _).mpr h
  unfold sysExec
  refine wp_seq h.begin_op fun _ t ht => ?_
  rw [wp_bind, wp_proc]
  refine wp_seq (namei_at _ path ht) fun r t ht => ?_
  obtain _ | ip := r
  · exact giveUp_settled hs hl ht
  refine wp_seq (ilock_at ht) fun _ t ht => ?_
  obtain ⟨hip, ht⟩ := ht
  refine wp_seq ((execReads_still ip reads).keeps ht) fun _ t ht => ?_
  exact wp_seq (iunlockput_at ht hip) fun _ t ht => giveUp_settled hs hl ht

/-! ## `open` and `chdir` -/

theorem openFile_refs (x : File) (din : Dinode) (ip omode : Nat) :
    (openFile x din ip omode).refs = [ip] ∧ (openFile x din ip omode).ref = x.ref := by
  unfold openFile
  dsimp only
  split <;> exact ⟨rfl, rfl⟩

theorem openInode_settled {omode : Nat} (hs : Tables v.ftable v.proc)
    (hl : v.refs.Perm (cwds v.proc)) (h : At ((v.begun.take ip).lock ip) s)
    (hfree : v.locks ip = false) :
    Ends (openInode p ip omode) (fun _ => Settled v.locks v.ops) s := by
  have hbad : ∀ {t}, Held (ip :: v.refs) (upd v.locks ip true) (v.ops + 1) t →
      v.refs.Perm (cwds t.mem.proc) → Ends (openBad ip) (fun _ => Settled v.locks v.ops) t := by
    intro t ht hperm
    have hat : At ((View.begun ⟨v.refs, v.locks, v.ops, t.mem.ftable, t.mem.proc⟩ |>.take ip).lock
        ip) t := ht.at_view
    exact openBad_settled (v := ⟨v.refs, v.locks, v.ops, t.mem.ftable, t.mem.proc⟩) ht.tables hperm
      hat hfree
  unfold openInode
  refine wp_seq ((inode_still ip).keeps h) fun i t ht => ?_
  have hheld : Held (ip :: v.refs) (upd v.locks ip true) (v.ops + 1) t := ht.held hs
  have hproc : t.mem.proc = v.proc := ht.proc
  refine wp_ite (fun _ => hbad hheld (hproc ▸ hl)) fun _ => ?_
  refine wp_seq (filealloc_held hheld) fun r t ht => ?_
  obtain ⟨hheld, hproc', -, hfile⟩ := ht
  rw [hproc] at hproc'
  obtain _ | f := r
  · exact hbad hheld (hproc' ▸ hl)
  obtain ⟨hf, hnone, hused⟩ := hfile f rfl
  refine wp_seq (fdalloc_held hheld hf) fun r t₁ ht => ?_
  obtain ⟨hheld₁, hft, hcwds⟩ := ht
  have hperm : v.refs.Perm (cwds t₁.mem.proc) := by
    rw [hcwds, hproc']
    exact hl
  obtain _ | fd := r
  · refine wp_seq (fileclose_held hheld₁ hf) fun _ t₂ ht => ?_
    exact hbad ht.1 (ht.2 ▸ hperm)
  obtain ⟨hrefs, href⟩ := openFile_refs (t₁.mem.ftable f) i.din ip omode
  rw [← hft] at hnone hused
  have hmove : ((t₁.mem.ftable f).refs ++ ip :: v.refs).Perm
      ((openFile (t₁.mem.ftable f) i.din ip omode).refs ++ v.refs) := by
    rw [hnone, hrefs]
    exact .refl _
  have hset := hheld₁.setFile (g := fun x => openFile x i.din ip omode) hf hmove
    fun hz => absurd (href.symm.trans hz) hused
  refine wp_seq hset fun _ t₂ ht => ?_
  obtain ⟨hheld₂, hproc₂, -⟩ := ht
  have hrest : ∀ t, At (View.lock (View.begun ⟨v.refs, v.locks, v.ops, t₂.mem.ftable,
      t₂.mem.proc⟩) ip) t → Ends (do
        iunlock ip
        endOp
        return fd : FsProg Int) (fun _ => Settled v.locks v.ops) t := by
    intro t ht
    refine wp_seq (iunlock_at ht hfree) fun _ t ht => ?_
    exact giveUp_settled (v := ⟨v.refs, v.locks, v.ops, t₂.mem.ftable, t₂.mem.proc⟩)
      hheld₂.tables (hproc₂ ▸ hperm) ht
  refine wp_ite (fun _ => ?_) fun _ => hrest t₂ hheld₂.at_view
  exact wp_seq ((itrunc_still ip).keeps hheld₂.at_view) fun _ t ht => hrest t ht

theorem sysOpen_settled (path : Option (List UInt8)) (omode : Nat) (h : Settled K o s) :
    Ends (sysOpen p path omode) (fun _ => Settled K o) s := by
  have hs := h.tables
  have hl := List.Perm.refl (cwds s.mem.proc)
  obtain _ | path := path
  · exact (wp_pure _).mpr h
  unfold sysOpen
  refine wp_seq h.begin_op fun _ t ht => ?_
  rw [wp_bind, wp_proc]
  refine wp_ite (fun _ => ?_) fun _ => ?_
  · refine wp_seq (create_at _ path tFile 0 0 ht) fun r t ht => ?_
    obtain _ | ip := r
    · exact giveUp_settled hs hl ht
    · exact openInode_settled hs hl ht.2 ht.1
  · refine wp_seq (namei_at _ path ht) fun r t ht => ?_
    obtain _ | ip := r
    · exact giveUp_settled hs hl ht
    refine wp_seq (ilock_at ht) fun _ t ht => ?_
    obtain ⟨hip, ht⟩ := ht
    refine wp_seq ((inode_still ip).keeps ht) fun i t ht => ?_
    exact wp_ite (fun _ => openBad_settled hs hl ht hip) fun _ => openInode_settled hs hl ht hip

/-- The current directory of a live process is among the references. -/
theorem cwds_live {pr : Nat → Proc} (hp : p < nProc) (hlive : (pr p).live = true) :
    ∃ rest, (cwds pr).Perm ((pr p).cwd :: rest) ∧
      ∀ x : Proc, (cwds (upd pr p x)).Perm (x.refs ++ rest) := by
  obtain ⟨rest, hrest⟩ := cwds_upd pr hp
  refine ⟨rest, ?_, hrest⟩
  have hself := hrest (pr p)
  rwa [upd_self, Proc.refs, if_pos hlive] at hself

theorem sysChdir_settled (path : Option (List UInt8)) (hp : p < nProc)
    (hlive : (s.mem.proc p).live = true) (h : Settled K o s) :
    Ends (sysChdir p path) (fun _ => Settled K o) s := by
  have hs := h.tables
  have hl := List.Perm.refl (cwds s.mem.proc)
  obtain ⟨rest, hrest, hnew⟩ := cwds_live hp hlive
  unfold sysChdir
  refine wp_seq h.begin_op fun _ t ht => ?_
  rw [wp_bind, wp_proc]
  have hproc : t.mem.proc = s.mem.proc := ht.proc
  obtain _ | path := path
  · exact giveUp_settled hs hl ht
  refine wp_seq (namei_at _ path ht) fun r t₁ ht => ?_
  obtain _ | ip := r
  · exact giveUp_settled hs hl ht
  refine wp_seq (ilock_at ht) fun _ t₁ ht => ?_
  obtain ⟨hip, ht⟩ := ht
  refine wp_seq ((inode_still ip).keeps ht) fun i t₁ ht => wp_ite (fun _ => ?_) fun _ => ?_
  · exact wp_seq (iunlockput_at ht hip) fun _ t ht => giveUp_settled hs hl ht
  refine wp_seq (iunlock_at ht hip) fun _ t₁ ht => ?_
  rw [hproc]
  have hswap : (ip :: cwds s.mem.proc).Perm ((s.mem.proc p).cwd :: ip :: rest) :=
    (hrest.cons ip).trans (List.Perm.swap _ _ _)
  have hat : At (View.take (View.begun ⟨ip :: rest, K, o, s.mem.ftable, s.mem.proc⟩)
    (s.mem.proc p).cwd) t₁ := ht.perm hswap
  refine wp_seq (iput_at hat) fun _ t₁ ht => wp_seq (end_at ht) fun _ t₂ ht => ?_
  have hheld := ht.held hs
  have hproc₂ : t₂.mem.proc = s.mem.proc := ht.proc
  have hset := hheld.setProc (p := p) (g := fun pr => { pr with cwd := ip }) fun fd f hf =>
    hheld.tables.fds p fd f hf
  refine wp_seq hset fun _ t₃ ht => (wp_pure _).mpr ?_
  obtain ⟨hheld₃, -, hproc₃⟩ := ht
  refine Settled.of_held hheld₃ ?_
  rw [hproc₃, hproc₂]
  refine ((hnew { s.mem.proc p with cwd := ip }).trans ?_).symm
  rw [Proc.refs, if_pos hlive]
  exact .refl _

/-! ## Descriptors and processes -/

theorem sysDup_settled (fd : Int) (h : Settled K o s) :
    Ends (sysDup p fd) (fun _ => Settled K o) s := by
  unfold sysDup
  refine wp_seq (argfd_held h fd) fun r t ht => ?_
  obtain ⟨rfl, hr⟩ := ht
  obtain _ | f := r
  · exact (wp_pure _).mpr h
  have hf := hr f rfl
  refine wp_seq (fdalloc_held h hf) fun r u hu => ?_
  obtain ⟨hheld, -, hcwds⟩ := hu
  obtain _ | fd := r
  · exact (wp_pure _).mpr (.of_held hheld (hcwds ▸ .refl _))
  refine wp_seq (filedup_held hheld hf) fun _ w hw => (wp_pure _).mpr ?_
  refine .of_held hw.1 ?_
  rw [hw.2, hcwds]

theorem sysClose_settled (fd : Int) (h : Settled K o s) :
    Ends (sysClose p fd) (fun _ => Settled K o) s := by
  unfold sysClose
  refine wp_seq (argfd_held h fd) fun r t ht => ?_
  obtain ⟨rfl, hr⟩ := ht
  obtain _ | f := r
  · exact (wp_pure _).mpr h
  have hclear := Held.setFd (p := p) h fd.toNat fun f (hf : f ∈ none) => by cases hf
  refine wp_seq hclear fun _ u hu => ?_
  obtain ⟨hheld, -, hcwds, -⟩ := hu
  refine wp_seq (fileclose_held hheld (hr f rfl)) fun _ w hw => (wp_pure _).mpr ?_
  refine .of_held hw.1 ?_
  rw [hw.2, hcwds]

theorem ilock_held (h : Held L K o s) : Ends (ilock ip) (fun _ t => K ip = false ∧
    Held L (upd K ip true) o t ∧ t.mem.proc = s.mem.proc) s := by
  refine wp_mono (ilock_at h.at_view) (fun _ t ht => ?_) fun _ _ he => he
  exact ⟨ht.1, ht.2.held h.tables, ht.2.proc⟩

theorem iunlock_held (h : Held L (upd K ip true) o s) (hfree : K ip = false) :
    Ends (iunlock ip) (fun _ t => Held L K o t ∧ t.mem.proc = s.mem.proc) s := by
  have hat : At (View.lock ⟨L, K, o, s.mem.ftable, s.mem.proc⟩ ip) s := h.at_view
  refine wp_mono (iunlock_at hat hfree) (fun _ t ht => ?_) fun _ _ he => he
  exact ⟨ht.held h.tables, ht.proc⟩

theorem Held.moveOff (h : Held L K o s) (hf : f < nFile) (r : Int) :
    Ends (Fs.setFile f fun x => { x with off := (x.off + r.toNat) % 2 ^ 32 })
      (fun _ t => Held L K o t ∧ t.mem.proc = s.mem.proc) s := by
  have hedit := h.editFile (g := fun x => { x with off := (x.off + r.toNat) % 2 ^ 32 }) hf rfl
    fun hz => h.tables.idle f hf hz
  exact wp_mono hedit (fun _ t ht => ⟨ht.1, ht.2.1⟩) fun _ _ he => he

theorem filestat_held (h : Held L K o s) (copied : Bool) :
    Ends (filestat f copied) (fun _ t => Held L K o t ∧ t.mem.proc = s.mem.proc) s := by
  unfold filestat
  rw [Ends, wp_bind, wp_file]
  refine wp_ite (fun _ => ?_) fun _ => (wp_pure _).mpr ⟨h, rfl⟩
  refine wp_seq (ilock_held h) fun _ t ht => ?_
  obtain ⟨hfree, ht, hproc⟩ := ht
  refine wp_seq (iunlock_held ht hfree) fun _ u hu => ?_
  have hdone : Held L K o u ∧ u.mem.proc = s.mem.proc := ⟨hu.1, hu.2.trans hproc⟩
  exact wp_ite (fun _ => (wp_pure _).mpr hdone) fun _ => (wp_pure _).mpr hdone

theorem fileread_held (h : Held L K o s) (hf : f < nFile) (um : UserMem) (addr : Nat) (n : Int)
    (other : File → Int × List UInt8) : Ends (fileread f um addr n other)
      (fun _ t => Held L K o t ∧ t.mem.proc = s.mem.proc) s := by
  unfold fileread
  rw [Ends, wp_bind, wp_file]
  refine wp_ite (fun _ => (wp_pure _).mpr ⟨h, rfl⟩) fun _ => ?_
  split
  · exact (wp_pure _).mpr ⟨h, rfl⟩
  · exact (wp_pure _).mpr ⟨h, rfl⟩
  · refine wp_seq (ilock_held h) fun _ t ht => ?_
    obtain ⟨hfree, ht, hproc⟩ := ht
    refine wp_seq (ht.reads (readi_still _ _ _ _)) fun r u hu => ?_
    obtain ⟨hu, -, hproc'⟩ := hu
    refine wp_ite (fun _ => ?_) fun _ => ?_
    · refine wp_seq (hu.moveOff hf _) fun _ w hw => ?_
      refine wp_seq (iunlock_held hw.1 hfree) fun _ x hx => (wp_pure _).mpr ⟨hx.1, ?_⟩
      rw [hx.2, hw.2, hproc', hproc]
    · refine wp_seq (iunlock_held hu hfree) fun _ x hx => (wp_pure _).mpr ⟨hx.1, ?_⟩
      rw [hx.2, hproc', hproc]
  · exact (wp_panic _).mpr trivial

theorem filewriteFrom_held (hf : f < nFile) (um : UserMem) (addr n fuel i : Nat)
    (h : Held L K o s) : Ends (filewriteFrom f ip um addr n fuel i)
      (fun _ t => Held L K o t ∧ t.mem.proc = s.mem.proc) s := by
  induction fuel generalizing i s with
  | zero => exact (wp_pure _).mpr ⟨h, rfl⟩
  | succ fuel ih =>
    unfold filewriteFrom
    refine wp_ite (fun _ => ?_) fun _ => (wp_pure _).mpr ⟨h, rfl⟩
    refine wp_seq (begin_at h.at_view) fun _ t ht => ?_
    have hproc : t.mem.proc = s.mem.proc := ht.proc
    have hheld : Held L K (o + 1) t := ht.held h.tables
    refine wp_seq (ilock_held hheld) fun _ t₁ ht => ?_
    obtain ⟨hfree, hheld, hproc₁⟩ := ht
    rw [wp_bind, wp_file]
    refine wp_seq (hheld.reads (writei_still _ _ _ _)) fun r t₂ ht => ?_
    obtain ⟨hheld, -, hproc₂⟩ := ht
    have hrest : ∀ t₃, Held L (upd K ip true) (o + 1) t₃ → t₃.mem.proc = s.mem.proc →
        Ends (do
          iunlock ip
          endOp
          if r ≠ (min (n - i) maxWrite : Nat) then return i
          else filewriteFrom f ip um addr n fuel (i + min (n - i) maxWrite))
          (fun _ t => Held L K o t ∧ t.mem.proc = s.mem.proc) t₃ := by
      intro t₃ ht₃ hproc₃
      refine wp_seq (iunlock_held ht₃ hfree) fun _ t₄ ht => ?_
      obtain ⟨ht₄, hproc₄⟩ := ht
      have hat : At (View.begun ⟨L, K, o, t₄.mem.ftable, t₄.mem.proc⟩) t₄ := ht₄.at_view
      refine wp_seq (end_at hat) fun _ t₅ ht => ?_
      have hheld₅ : Held L K o t₅ := ht.held ht₄.tables
      have hproc₅ : t₅.mem.proc = s.mem.proc := ht.proc.trans (hproc₄.trans hproc₃)
      refine wp_ite (fun _ => (wp_pure _).mpr ⟨hheld₅, hproc₅⟩) fun _ => ?_
      exact wp_mono (ih _ hheld₅) (fun _ u hu => ⟨hu.1, hu.2.trans hproc₅⟩) fun _ _ he => he
    have hproc₂' : t₂.mem.proc = s.mem.proc := hproc₂.trans (hproc₁.trans hproc)
    refine wp_ite (fun _ => ?_) fun _ => hrest t₂ hheld hproc₂'
    exact wp_seq (hheld.moveOff hf _) fun _ t₃ ht => hrest t₃ ht.1 (ht.2.trans hproc₂')

theorem filewrite_held (h : Held L K o s) (hf : f < nFile) (um : UserMem) (addr : Nat) (n : Int)
    (other : File → Int) : Ends (filewrite f um addr n other)
      (fun _ t => Held L K o t ∧ t.mem.proc = s.mem.proc) s := by
  unfold filewrite
  rw [Ends, wp_bind, wp_file]
  refine wp_ite (fun _ => (wp_pure _).mpr ⟨h, rfl⟩) fun _ => ?_
  split
  · exact (wp_pure _).mpr ⟨h, rfl⟩
  · exact (wp_pure _).mpr ⟨h, rfl⟩
  · refine wp_seq (filewriteFrom_held hf um addr _ _ _ h) fun i t ht => ?_
    exact wp_ite (fun _ => (wp_pure _).mpr ht) fun _ => (wp_pure _).mpr ht
  · exact (wp_panic _).mpr trivial

theorem onFile_settled {m : Nat → FsProg Int} (fd : Int) (h : Settled K o s)
    (hm : ∀ f < nFile, Ends (m f) (fun _ t => Held (cwds s.mem.proc) K o t ∧
      t.mem.proc = s.mem.proc) s) :
    Ends (argfd p fd >>= fun r => match r with
      | none => (pure (-1) : FsProg Int)
      | some f => m f) (fun _ => Settled K o) s := by
  refine wp_seq (argfd_held h fd) fun r t ht => ?_
  obtain ⟨rfl, hr⟩ := ht
  obtain _ | f := r
  · exact (wp_pure _).mpr h
  · refine wp_mono (hm f (hr f rfl)) (fun _ u hu => .of_held hu.1 ?_) fun _ _ he => he
    rw [hu.2]

theorem Held.toPipe (h : Held L K o s) (hf : f < nFile) (hnone : (s.mem.ftable f).refs = [])
    (hused : (s.mem.ftable f).ref ≠ 0) (rd wr : Bool) :
    Ends (Fs.setFile f fun x => { x with type := .pipe, readable := rd, writable := wr })
      (fun _ t => Held L K o t ∧ t.mem.proc = s.mem.proc ∧
        ∀ g, (t.mem.ftable g).refs = (s.mem.ftable g).refs ∧
          (t.mem.ftable g).ref = (s.mem.ftable g).ref) s := by
  have hpipe : File.refs { s.mem.ftable f with type := .pipe, readable := rd, writable := wr } =
    (s.mem.ftable f).refs := hnone.symm
  refine wp_mono
    (h.editFile (g := fun x => { x with type := .pipe, readable := rd, writable := wr })
    hf hpipe fun hz => absurd hz hused) (fun _ t ht => ⟨ht.1, ht.2.1, fun g => ?_⟩) fun _ _ he => he
  rw [ht.2.2]
  by_cases heq : g = f
  · rw [heq, upd_same]
    exact ⟨hpipe, rfl⟩
  · rw [upd_other heq]
    exact ⟨rfl, rfl⟩

theorem clearFd_held (h : Held L K o s) (fd : Nat) : Ends (clearFd p fd) (fun _ t => Held L K o t ∧
    cwds t.mem.proc = cwds s.mem.proc ∧ ∀ q, (t.mem.proc q).refs = (s.mem.proc q).refs) s :=
  wp_mono (h.setFd fd fun f (hf : f ∈ none) => by cases hf)
    (fun _ _ ht => ⟨ht.1, ht.2.2⟩) fun _ _ he => he

theorem sysPipe_settled (mem copied : Bool) (h : Settled K o s) :
    Ends (sysPipe p mem copied) (fun _ => Settled K o) s := by
  have hclose : ∀ {rf wf : Nat} {t : Store}, rf < nFile → wf < nFile →
      Held (cwds s.mem.proc) K o t → cwds t.mem.proc = cwds s.mem.proc →
      Ends (do
        fileclose rf
        fileclose wf
        return -1 : FsProg Int) (fun _ => Settled K o) t := by
    intro rf wf t hrf hwf ht hcwds
    refine wp_seq (fileclose_held ht hrf) fun _ u hu => ?_
    refine wp_seq (fileclose_held hu.1 hwf) fun _ w hw => (wp_pure _).mpr (.of_held hw.1 ?_)
    rw [hw.2, hu.2, hcwds]
  unfold sysPipe
  refine wp_seq (filealloc_held h) fun r t ht => ?_
  obtain ⟨hheld, hproc, -, hr⟩ := ht
  obtain _ | rf := r
  · exact (wp_pure _).mpr (.of_held hheld (hproc ▸ .refl _))
  obtain ⟨hrf, hrnone, hrused⟩ := hr rf rfl
  refine wp_seq (filealloc_held hheld) fun r t₁ ht => ?_
  obtain ⟨hheld₁, hproc₁, hkeep, hw⟩ := ht
  have hsame₁ : t₁.mem.proc = s.mem.proc := hproc₁.trans hproc
  obtain _ | wf := r
  · refine wp_seq (fileclose_held hheld₁ hrf) fun _ u hu => (wp_pure _).mpr (.of_held hu.1 ?_)
    rw [hu.2, hsame₁]
  obtain ⟨hwf, hwnone, hwused⟩ := hw wf rfl
  refine wp_ite (fun _ => hclose hrf hwf hheld₁ (by rw [hsame₁])) fun _ => ?_
  refine wp_seq (hheld₁.toPipe hrf ((hkeep rf).1.trans hrnone) ((hkeep rf).2 hrused) true false)
    fun _ t₂ ht => ?_
  obtain ⟨hheld₂, hproc₂, hkeep₂⟩ := ht
  have hwused₂ : (t₂.mem.ftable wf).ref ≠ 0 := by
    rw [(hkeep₂ wf).2]
    exact hwused
  refine wp_seq (hheld₂.toPipe hwf ((hkeep₂ wf).1.trans hwnone) hwused₂ false true)
    fun _ t₃ ht => ?_
  obtain ⟨hheld₃, hproc₃, -⟩ := ht
  have hcwds₃ : cwds t₃.mem.proc = cwds s.mem.proc := by rw [hproc₃, hproc₂, hsame₁]
  refine wp_seq (fdalloc_held hheld₃ hrf) fun r t₄ ht => ?_
  obtain ⟨hheld₄, -, hcwds₄⟩ := ht
  obtain _ | fd0 := r
  · exact hclose hrf hwf hheld₄ (hcwds₄.trans hcwds₃)
  refine wp_seq (fdalloc_held hheld₄ hwf) fun r t₅ ht => ?_
  obtain ⟨hheld₅, -, hcwds₅⟩ := ht
  have hcwds₅' : cwds t₅.mem.proc = cwds s.mem.proc := hcwds₅.trans (hcwds₄.trans hcwds₃)
  obtain _ | fd1 := r
  · refine wp_seq (clearFd_held hheld₅ fd0) fun _ t₆ ht => ?_
    exact hclose hrf hwf ht.1 (ht.2.1.trans hcwds₅')
  refine wp_ite (fun _ => (wp_pure _).mpr (.of_held hheld₅ (hcwds₅' ▸ .refl _))) fun _ => ?_
  refine wp_seq (clearFd_held hheld₅ fd0) fun _ t₆ ht => ?_
  refine wp_seq (clearFd_held ht.1 fd1) fun _ t₇ ht₇ => ?_
  exact hclose hrf hwf ht₇.1 (ht₇.2.1.trans (ht.2.1.trans hcwds₅'))

theorem forkFd_settled {child fd : Nat} (h : Settled K o s) :
    Ends (forkFd p child fd) (fun _ t => Settled K o t ∧
      ∀ q, (t.mem.proc q).refs = (s.mem.proc q).refs) s := by
  unfold forkFd
  rw [Ends, wp_bind, wp_proc]
  cases hfd : (s.mem.proc p).ofile fd with
  | none => exact (wp_pure _).mpr ⟨h, fun _ => rfl⟩
  | some f =>
    have hf := h.tables.fds p fd f hfd
    refine wp_seq (filedup_held h hf) fun _ t ht => ?_
    obtain ⟨hheld, hproc⟩ := ht
    have hsome : ∀ e ∈ some f, e < nFile := fun e he => by
      cases he
      exact hf
    refine wp_mono (hheld.setFd (p := child) fd hsome) (fun _ u hu => ?_) fun _ _ he => he
    obtain ⟨hheld', -, hcwds, hrefs⟩ := hu
    rw [hproc] at hcwds hrefs
    exact ⟨.of_held hheld' (hcwds ▸ .refl _), hrefs⟩

theorem sysFork_settled {child : Nat} (h : Settled K o s) :
    Ends (sysFork p child) (fun _ => Settled K o) s := by
  unfold sysFork
  rw [Ends, wp_bind, wp_proc]
  refine wp_ite (fun _ => (wp_pure _).mpr h) fun hc => ?_
  have hdead : (s.mem.proc child).live = false := by
    simpa using fun hlive => hc (.inl hlive)
  have hchild : child < nProc := Nat.lt_of_not_le fun hle => hc (.inr hle)
  have hloop : Ends (Comp.loop (forkFd p child) 0 nOfile) (fun _ t => Settled K o t ∧
      (t.mem.proc child).refs = []) s := by
    refine wp_loop (J := fun _ t => Settled K o t ∧ (t.mem.proc child).refs = [])
      (fun fd _ _ t ht => ?_) ⟨h, by rw [Proc.refs, hdead]; rfl⟩
    refine wp_mono (forkFd_settled ht.1) (fun _ u hu => ⟨hu.1, ?_⟩) fun _ _ he => he
    rw [hu.2 child]
    exact ht.2
  refine wp_seq hloop fun _ t ht => ?_
  obtain ⟨hset, hnone⟩ := ht
  rw [wp_bind, wp_proc]
  refine wp_seq (idup_at hset.at_view) fun cwd u hu => ?_
  have hheld := hu.held hset.tables
  have hproc : u.mem.proc = t.mem.proc := hu.proc
  have hstore := hheld.setProc (p := child) (g := fun c => { c with cwd := cwd, live := true })
    fun fd f hf => hheld.tables.fds child fd f hf
  refine wp_seq hstore fun _ w hw => (wp_pure _).mpr ?_
  obtain ⟨hheld', -, hproc'⟩ := hw
  refine .of_held hheld' ?_
  rw [hproc', hproc]
  obtain ⟨rest, hrest⟩ := cwds_upd t.mem.proc hchild
  have hold := hrest (t.mem.proc child)
  rw [upd_self, hnone, List.nil_append] at hold
  have hnew := hrest { t.mem.proc child with cwd := cwd, live := true }
  exact (hold.cons cwd).trans hnew.symm

theorem exitFd_settled {fd : Nat} (h : Settled K o s) :
    Ends (exitFd p fd) (fun _ t => Settled K o t ∧
      ∀ q, (t.mem.proc q).refs = (s.mem.proc q).refs) s := by
  unfold exitFd
  rw [Ends, wp_bind, wp_proc]
  cases hfd : (s.mem.proc p).ofile fd with
  | none => exact (wp_pure _).mpr ⟨h, fun _ => rfl⟩
  | some f =>
    refine wp_seq (fileclose_held h (h.tables.fds p fd f hfd)) fun _ t ht => ?_
    obtain ⟨hheld, hproc⟩ := ht
    refine wp_mono (clearFd_held hheld fd) (fun _ u hu => ?_) fun _ _ he => he
    obtain ⟨hheld', hcwds, hrefs⟩ := hu
    rw [hproc] at hcwds hrefs
    exact ⟨.of_held hheld' (hcwds ▸ .refl _), hrefs⟩

theorem sysExit_settled (hp : p < nProc) (hlive : (s.mem.proc p).live = true)
    (h : Settled K o s) : Ends (sysExit p) (fun _ => Settled K o) s := by
  unfold sysExit
  refine wp_ite (fun _ => (wp_panic _).mpr trivial) fun _ => ?_
  have hloop : Ends (Comp.loop (exitFd p) 0 nOfile) (fun _ t => Settled K o t ∧
      (t.mem.proc p).refs = (s.mem.proc p).refs) s := by
    refine wp_loop (J := fun _ t => Settled K o t ∧ (t.mem.proc p).refs = (s.mem.proc p).refs)
      (fun fd _ _ t ht => ?_) ⟨h, rfl⟩
    refine wp_mono (exitFd_settled ht.1) (fun _ u hu => ⟨hu.1, ?_⟩) fun _ _ he => he
    rw [hu.2 p]
    exact ht.2
  refine wp_seq hloop fun _ t ht => ?_
  obtain ⟨hset, hrefs⟩ := ht
  rw [wp_bind, wp_proc]
  obtain ⟨rest, hrest⟩ := cwds_upd t.mem.proc hp
  have hlive' : (t.mem.proc p).live = true := by
    rw [Proc.refs, Proc.refs, if_pos hlive] at hrefs
    by_contra hdead
    rw [if_neg hdead] at hrefs
    cases hrefs
  have hold := hrest (t.mem.proc p)
  rw [upd_self, Proc.refs, if_pos hlive'] at hold
  refine wp_seq hset.begin_op fun _ u hu => ?_
  have hat : At (View.take (View.begun ⟨rest, K, o, t.mem.ftable, t.mem.proc⟩)
    (t.mem.proc p).cwd) u := hu.perm hold
  refine wp_seq (iput_at hat) fun _ u hu => wp_seq (end_at hu) fun _ u hu => ?_
  have hheld := hu.held hset.tables
  have hproc : u.mem.proc = t.mem.proc := hu.proc
  have hstore := hheld.setProc (p := p) (g := fun pr => { pr with live := false })
    fun fd f hf => hheld.tables.fds p fd f hf
  refine wp_seq hstore fun _ w hw => (wp_pure _).mpr ?_
  obtain ⟨hheld', -, hproc'⟩ := hw
  refine .of_held hheld' ?_
  rw [hproc', hproc]
  exact (hrest { t.mem.proc p with live := false }).symm

theorem syscall_settled (c : Syscall) (h : Settled K o s) :
    Ends (syscall p c) (fun _ => Settled K o) s := by
  unfold syscall
  rw [Ends, wp_bind, wp_proc]
  refine wp_ite (fun _ => (wp_pure _).mpr h) fun hp => ?_
  have hlive : (s.mem.proc p).live = true := by
    by_contra hdead
    exact hp (.inl (by simpa using hdead))
  have hlt : p < nProc := Nat.lt_of_not_le fun hle => hp (.inr hle)
  cases c with
  | «open» path omode => exact sysOpen_settled path omode h
  | mkdir path => exact sysCreate_settled path _ _ _ h
  | mknod path major minor => exact sysCreate_settled path _ _ _ h
  | link old new => exact sysLink_settled old new h
  | unlink path => exact sysUnlink_settled path h
  | chdir path => exact sysChdir_settled path hlt hlive h
  | close fd => exact sysClose_settled fd h
  | dup fd => exact sysDup_settled fd h
  | read fd um addr n other =>
    exact onFile_settled fd h fun f hf => wp_map.mpr (fileread_held h hf um addr n other)
  | write fd um addr n other =>
    exact onFile_settled fd h fun f hf => filewrite_held h hf um addr n other
  | fstat fd copied => exact onFile_settled fd h fun f _ => filestat_held h copied
  | pipe mem copied => exact sysPipe_settled mem copied h
  | fork child => exact sysFork_settled h
  | exit => exact sysExit_settled hlt hlive h
  | exec path reads ret => exact sysExec_settled path reads ret h

/-! ## Runs of system calls -/

def Store.call (s : Store) (e : Nat × Syscall) : Option Store :=
  (Prog.returns Store.handle (syscall e.1 e.2) s).map Prod.snd

/-- The count of every entry of the inode table is the number of open files and current
directories that refer to it. -/
def Balanced (s : Store) : Prop :=
  ∀ ip < nInode, (s.mem.itable ip).ref = (s.mem.fileRefs ip + (cwds s.mem.proc).count ip : Nat)

theorem settled_iff : Settled (fun ip => (s.mem.itable ip).locked) s.outstanding s ↔
    Balanced s ∧ Tables s.mem.ftable s.mem.proc := by
  constructor
  · intro h
    refine ⟨fun ip hip => ?_, h.tables⟩
    rw [fileRefs_eq_count, ← List.count_append]
    exact h.at_view.refs ip hip
  · intro h
    refine ⟨⟨fun ip hip => ?_, fun _ => rfl, rfl, rfl, rfl⟩, h.2⟩
    have href := h.1 ip hip
    rw [fileRefs_eq_count, ← List.count_append] at href
    exact href

theorem Settled.call {e : Nat × Syscall} (h : Settled K o s) (hc : s.call e = some t) :
    Settled K o t := by
  obtain ⟨r, hr, rfl⟩ := Option.map_eq_some_iff.mp hc
  exact Prog.wp_returns (Q := fun _ => Settled K o) (syscall_settled e.2 h) hr

/-- System calls balance: after any calls, made with any arguments by any processes, whatever
is on the disk, the counts in the inode table are those of open files and current directories,
and the locks and the number of open operations are as they were. -/
theorem system_calls_balance {calls : List (Nat × Syscall)} (hs : Balanced s)
    (htab : Tables s.mem.ftable s.mem.proc)
    (hrun : Run Store.call (fun _ _ => True) s calls t) :
    Balanced t ∧ (∀ ip, (t.mem.itable ip).locked = (s.mem.itable ip).locked) ∧
      t.outstanding = s.outstanding := by
  have hset : Settled (fun ip => (s.mem.itable ip).locked) s.outstanding t :=
    hrun.invariant (settled_iff.mpr ⟨hs, htab⟩) fun _ _ _ h _ hc => h.call hc
  refine ⟨fun ip hip => ?_, fun ip => hset.at_view.locks ip, hset.at_view.ops⟩
  rw [fileRefs_eq_count, ← List.count_append]
  exact hset.at_view.refs ip hip

end

/-- An empty root directory, and one process, whose current directory it is. -/
def bare : Store where
  blocks b := if b = 3 then fun k => if k = 64 then 1 else 0 else fun _ => 0
  held := []
  outstanding := 0
  logged := []
  touched := []
  broken := false
  mem :=
    { sb := ⟨6, 1, 2, 1, 2, 3, 4⟩
      itable := fun ip => ⟨rootIno, if ip = 0 then 1 else 0, false, false, Dinode.zero⟩
      ftable := fun _ => ⟨.none, 0, false, false, 0, 0, 0⟩
      proc := fun p => ⟨p = 0, 0, fun _ => none⟩ }

/-- The root directory is opened twice, and one of the descriptors is closed. -/
def bareCalls : List (Nat × Syscall) :=
  [(0, .open (some [slash]) 0), (0, .chdir (some [slash])), (0, .open (some [slash]) 0),
    (0, .close 0)]

theorem system_calls_balance_bare :
    ∃ t, Run Store.call (fun _ _ => True) bare bareCalls t ∧ Balanced t ∧ t.outstanding = 0 ∧
      ∀ ip, (t.mem.itable ip).locked = false := by
  have hbal : Balanced bare := by
    unfold Balanced
    decide +kernel
  have htab : Tables bare.mem.ftable bare.mem.proc :=
    ⟨fun _ _ _ => rfl, fun _ _ _ h => by cases h⟩
  have hsome : (runTest Store.call (fun _ _ => true) bare bareCalls).isSome := by decide +kernel
  obtain ⟨t, ht⟩ := Option.isSome_iff_exists.mp hsome
  have hrun : Run Store.call (fun _ _ => True) bare bareCalls t :=
    .of_runTest (fun _ _ _ => trivial) ht
  obtain ⟨hbal', hlocks, hops⟩ := system_calls_balance hbal htab hrun
  exact ⟨t, hrun, hbal', hops, hlocks⟩

end Xv6.Fs
