import Xv6.Kernel.Fs.Dirs

/-! # Open files and descriptors

How a world follows the code of `file.c`: a reference moves between the running code
and an open file, a descriptor is set or cleared, and the contents of a file are read
and written through the entry of the inode table that the file refers to.
-/

namespace Xv6.Fs

open Lib

section

variable {I : Store → Prop} {E : Stop → Store → Prop} {m : Mode} {w : World} {s t : Store}
  {ip i f p : Nat}

/-- What a change of one file needs to be a file the file system can have. -/
structure FileOk (s : Store) (x : File) : Prop where
  idle : x.ref = 0 → x.type = .none
  writer : x.type = .inode → x.writable = true →
    (s.inodeOf (s.mem.itable x.ip).inum).type ≠ tDir

theorem mem_refs {x : File} (hx : x.type = .inode ∨ x.type = .device) : x.ip ∈ x.refs := by
  rw [File.refs, if_pos hx]
  exact List.mem_singleton_self _

theorem FsMem.Holds.congr {m m' : FsMem} (h : m.Holds ip i) (hm : m'.itable = m.itable) :
    m'.Holds ip i :=
  ⟨h.lt, by rw [hm]; exact h.ref, by rw [hm]; exact h.valid, by rw [hm]; exact h.inum⟩

theorem Inv.setFile {st : Bool} {nt : Prop} {L L' U : List Nat} {x : File}
    (h : Inv st nt L U s) (hf : f < nFile)
    (ht : t = { s with mem := { s.mem with ftable := upd s.mem.ftable f x } })
    (hl : ((s.mem.ftable f).refs ++ L).Perm (x.refs ++ L')) (hx : FileOk s x) :
    Inv st nt L' U t := by
  obtain ⟨rest, hrest⟩ := openRefs_upd s.mem.ftable hf
  have hold := hrest (s.mem.ftable f)
  rw [upd_self] at hold
  have hnew := hrest x
  have hft : t.mem.ftable = upd s.mem.ftable f x := by rw [ht]
  have hcount : ∀ jp, t.mem.fileRefs jp + L'.count jp = s.mem.fileRefs jp + L.count jp := by
    intro jp
    have hmove := hl.count_eq jp
    rw [fileRefs_eq_count, fileRefs_eq_count, hft, hold.count_eq jp, hnew.count_eq jp]
    simp only [List.count_append] at hmove ⊢
    omega
  have hin : ∀ jp ∈ x.refs ++ L', jp < nInode := by
    intro jp hjp
    rcases List.mem_append.mp (hl.mem_iff.mpr hjp) with hmem | hmem
    · unfold File.refs at hmem
      split at hmem
      · rw [List.mem_singleton.mp hmem]
        exact h.files f hf ‹_›
      · cases hmem
    · exact h.lt jp (.inl hmem)
  have hfile : ∀ P : File → Prop, P x → (∀ e < nFile, P (s.mem.ftable e)) →
      ∀ e < nFile, P (t.mem.ftable e) := by
    intro P hP hall e he
    rw [hft]
    by_cases heq : e = f
    · rw [heq, upd_same]
      exact hP
    · rw [upd_other heq]
      exact hall e he
  subst ht
  refine ⟨h.disk, h.uniq, h.held, h.touched, h.inum,
    fun jp j hh => h.coh jp j (hh.congr rfl), fun jp j hh => h.type jp j (hh.congr rfl),
    fun jp hjp => ?_, fun jp hjp => ?_, fun jp hjp hc => ?_,
    hfile (fun y => y.ref = 0 → y.type = .none) hx.idle h.idle,
    hfile (fun y => y.type = .inode ∨ y.type = .device → y.ip < nInode) (fun hty => ?_) h.files,
    hfile (fun y => y.type = .inode → y.writable = true →
      (s.inodeOf (s.mem.itable y.ip).inum).type ≠ tDir) hx.writer h.writers, h.fds, h.dirs⟩
  · have href := h.refs jp hjp
    have hsum := hcount jp
    show (s.mem.itable jp).ref = _
    rw [href]
    congr 1
    omega
  · rcases hjp with hjp | hjp
    · exact hin jp (List.mem_append_right _ hjp)
    · exact h.lt jp (.inr hjp)
  · have hsum := hcount jp
    refine h.alive jp hjp ?_
    rcases hc with hc | hc | hc
    · by_cases hz : 0 < s.mem.fileRefs jp
      · exact .inl hz
      · exact .inr (.inl (List.count_pos_iff.mp (by omega)))
    · have hpos := List.count_pos_iff.mpr hc
      by_cases hz : 0 < s.mem.fileRefs jp
      · exact .inl hz
      · exact .inr (.inl (List.count_pos_iff.mp (by omega)))
    · exact .inr (.inr hc)
  · exact hin x.ip (List.mem_append_left _ (mem_refs hty))

theorem In.setFile {x : File} (h : In m w s) (w' : World) (hf : f < nFile)
    (ht : t = { s with mem := { s.mem with ftable := upd s.mem.ftable f x } })
    (hw : w' = { w with
      ftable := upd w.ftable f x, refs := w'.refs, valid := w'.valid, anchors := w'.anchors })
    (hl : ((w.ftable f).refs ++ w.held).Perm (x.refs ++ w'.held)) (hx : FileOk s x)
    (hnum : ∀ r ∈ w'.refs, r ∈ w.refs ∨ (s.mem.itable r.1).inum = r.2)
    (hvalid : ∀ jp ∈ w'.valid, jp ∈ w'.held ∧ jp ∈ w.valid)
    (hsub : ∀ jp ∈ w'.anchors, jp ∈ w'.held)
    (hanch : ∀ jp ∈ w.anchors, jp ∈ x.refs ∨ jp ∈ w'.anchors)
    (hopen : ∀ jp ∈ (w.ftable f).refs, jp ∈ x.refs ∨ jp ∈ w'.anchors) : In m w' t := by
  have hfresh : w'.fresh = w.fresh := by rw [hw]
  have hfts : w'.ftable = upd w.ftable f x := by rw [hw]
  rw [← h.ftable] at hl hopen hfts
  have hinv := h.inv.setFile hf ht hl hx
  have hin : t.mem.itable = s.mem.itable := by rw [ht]
  have hft : t.mem.ftable = upd s.mem.ftable f x := by rw [ht]
  have hnode : t.node = s.node := by rw [ht]; rfl
  obtain ⟨rest, hrest⟩ := openRefs_upd s.mem.ftable hf
  have hold := hrest (s.mem.ftable f)
  rw [upd_self] at hold
  have hcount : ∀ jp, jp ∈ x.refs → 0 < t.mem.fileRefs jp := by
    intro jp hjp
    rw [fileRefs_eq_count, hft, (hrest x).count_eq jp, List.count_append]
    have hpos := List.count_pos_iff.mpr hjp
    omega
  refine ⟨?_, ?_, ?_, ?_, ?_, fun r hr => ?_, fun jp hjp => ?_, hsub, fun hx' => ?_,
    fun hx' j htype hlink => ?_, fun hc => ?_⟩
  · rw [World.pending, hfresh]
    exact hinv
  · rw [hw, ht]
    exact h.sb
  · rw [hw, ht]
    exact h.ops
  · rw [hft, hfts]
  · rw [hw, ht]
    exact h.proc
  · rw [hin]
    rcases List.mem_append.mp hr with hr | hr
    · rcases hnum r hr with hr | hnum
      · exact h.num_refs hr
      · exact hnum
    · rw [hfresh] at hr
      exact h.num r (List.mem_append_right _ hr)
  · rw [hin]
    exact ⟨(hvalid jp hjp).1, (h.valid jp (hvalid jp hjp).2).2⟩
  · rw [hnode, hw]
    exact h.node hx'
  · rw [hnode] at htype hlink
    obtain ⟨jp, hh, hcase⟩ := h.anchored hx' j htype hlink
    refine ⟨jp, hh.congr hin, ?_⟩
    rcases hcase with hfile | hmem
    · rw [fileRefs_eq_count, hold.count_eq jp, List.count_append] at hfile
      by_cases hthis : jp ∈ (s.mem.ftable f).refs
      · exact (hopen jp hthis).imp (hcount jp) id
      · left
        rw [List.count_eq_zero_of_not_mem hthis] at hfile
        rw [fileRefs_eq_count, hft, (hrest x).count_eq jp, List.count_append]
        omega
    · exact (hanch jp hmem).imp (hcount jp) id
  · rw [ht]
    exact h.clean hc

theorem In.editFile {x : File} (h : In m w s) (hf : f < nFile)
    (ht : t = { s with mem := { s.mem with ftable := upd s.mem.ftable f x } })
    (hrefs : x.refs = (w.ftable f).refs) (hx : FileOk s x) :
    In m { w with ftable := upd w.ftable f x } t := by
  refine h.setFile { w with ftable := upd w.ftable f x } hf ht rfl (by rw [hrefs]; rfl) hx
    (fun _ hr => .inl hr) (fun jp hjp => ⟨(h.valid jp hjp).1, hjp⟩) h.sub (fun _ hjp => .inr hjp)
    fun _ hjp => .inl (hrefs ▸ hjp)

theorem In.setProc {x : Proc} (h : In m w s)
    (ht : t = { s with mem := { s.mem with proc := upd s.mem.proc p x } })
    (hfds : ∀ fd e, x.ofile fd = some e → e < nFile) :
    In m { w with proc := upd w.proc p x } t := by
  have hpr : t.mem.proc = upd s.mem.proc p x := by rw [ht]
  subst ht
  refine ⟨⟨h.inv.disk, h.inv.uniq, h.inv.held, h.inv.touched, h.inv.inum,
    fun jp j hh => h.inv.coh jp j (hh.congr rfl), fun jp j hh => h.inv.type jp j (hh.congr rfl),
    h.inv.refs, h.inv.lt, h.inv.alive, h.inv.idle, h.inv.files, h.inv.writers, fun q fd e he => ?_,
    h.inv.dirs⟩, h.sb, h.ops, h.ftable, ?_, h.num, h.valid, h.sub, h.node,
    fun hx j htype hlink => ?_, h.clean⟩
  · rw [hpr] at he
    by_cases heq : q = p
    · rw [heq, upd_same] at he
      exact hfds fd e he
    · rw [upd_other heq] at he
      exact h.inv.fds q fd e he
  · rw [hpr, h.proc]
  · obtain ⟨jp, hh, hcase⟩ := h.anchored hx j htype hlink
    exact ⟨jp, hh.congr rfl, hcase⟩

/-! ## The file table -/

theorem In.idle (h : In m w s) (hf : f < nFile) (hz : (w.ftable f).ref = 0) :
    (w.ftable f).type = .none := by
  rw [← h.ftable] at hz ⊢
  exact h.inv.idle f hf hz

theorem filealloc_in (h : In m w s) :
    wp I filealloc (fun r t => t.node = s.node ∧ match r with
      | none => t = s ∧ ∀ f < nFile, (w.ftable f).ref ≠ 0
      | some f => f < nFile ∧ (w.ftable f).ref = 0 ∧
          In m { w with ftable := upd w.ftable f { w.ftable f with ref := 1 } } t) E s := by
  unfold filealloc
  rw [wp_bind, wp_mem]
  split
  · rename_i f hfind
    have hf := List.mem_range.mp (List.mem_of_find?_eq_some hfind)
    have hzero := List.find?_some hfind
    rw [decide_eq_true_eq, h.ftable] at hzero
    rw [wp_bind, setFile, wp_setMem, wp_pure]
    refine ⟨rfl, hf, hzero, h.editFile hf (by rw [h.ftable]) rfl ⟨fun hz => ?_, fun hty => ?_⟩⟩
    · exact absurd hz Nat.one_ne_zero
    · rw [h.idle hf hzero] at hty
      cases hty
  · rename_i hnone
    refine (wp_pure _).mpr ⟨rfl, rfl, fun f hf hz => ?_⟩
    have hmiss := List.find?_eq_none.mp hnone f (List.mem_range.mpr hf)
    rw [h.ftable, decide_eq_true_eq] at hmiss
    exact hmiss hz

theorem In.recount {x : File} (h : In m w s) (hf : f < nFile)
    (ht : t = { s with mem := { s.mem with ftable := upd s.mem.ftable f x } })
    (hx : x = { w.ftable f with ref := x.ref, off := x.off }) (hpos : x.ref ≠ 0) :
    In m { w with ftable := upd w.ftable f x } t := by
  refine h.editFile hf ht (by rw [hx]; rfl) ⟨fun hz => absurd hz hpos, ?_⟩
  rw [hx]
  show (w.ftable f).type = .inode → (w.ftable f).writable = true → _
  rw [← h.ftable]
  exact h.inv.writers f hf

theorem filedup_in (hE : Benign m.strict m.sound E) (h : In m w s) (hf : f < nFile) :
    wp I (filedup f) (fun _ t => t.node = s.node ∧ In m { w with
      ftable := upd w.ftable f { w.ftable f with ref := (w.ftable f).ref + 1 } } t) E s := by
  unfold filedup
  rw [wp_bind, wp_file]
  refine wp_ite (fun _ => ?_) fun _ => ?_
  · exact hE.stops (by decide) (by decide)
  · rw [setFile, wp_setMem]
    exact ⟨rfl, h.recount hf (by rw [h.ftable]) rfl (Nat.succ_ne_zero _)⟩

def File.closed (x : File) : File :=
  if 0 < x.ref - 1 then { x with ref := x.ref - 1 } else { x with ref := 0, type := .none }

theorem fileclose_none (hE : Benign m.strict m.sound E) (h : In m w s) (hf : f < nFile)
    (hnone : (w.ftable f).refs = []) :
    wp I (fileclose f) (fun _ t => t.node = s.node ∧
      In m { w with ftable := upd w.ftable f (w.ftable f).closed } t) E s := by
  unfold fileclose File.closed
  rw [wp_bind, wp_file]
  refine wp_ite (fun _ => ?_) fun _ => wp_ite (fun hmore => ?_) fun hlast => ?_
  · exact hE.stops (by decide) (by decide)
  · rw [h.ftable] at hmore
    rw [if_pos hmore, setFile, wp_setMem]
    exact ⟨rfl, h.recount hf (by rw [h.ftable]) rfl (Nat.ne_of_gt hmore)⟩
  · rw [h.ftable] at hlast
    rw [if_neg hlast, wp_bind, setFile, wp_setMem, h.ftable]
    have hty : ¬ ((w.ftable f).type = .inode ∨ (w.ftable f).type = .device) := by
      intro hty
      rw [File.refs, if_pos hty] at hnone
      cases hnone
    rw [if_neg hty, wp_pure]
    refine ⟨rfl, h.editFile hf (by rw [h.ftable]) hnone.symm ⟨fun _ => rfl, fun hty => ?_⟩⟩
    cases hty

theorem Drop.freed {N N' : Nat → Node} (h : Drop i N N') : Freed N N' := by
  intro j
  rcases h with rfl | ⟨htype, hlink, rfl⟩
  · exact .inl rfl
  · by_cases hj : j = i
    · rw [hj, upd_same]
      exact .inr ⟨htype, hlink, rfl⟩
    · rw [upd_other hj]
      exact .inl rfl

/-- `fileclose` of any file: an inode without links may be freed. -/
theorem fileclose_in (hE : Benign m.strict m.sound E) (h : In m w s) (ho : 0 ≤ w.ops)
    (hf : f < nFile) (hfresh : w.fresh = [])
    (hI : ∀ v t, In m v t → v.sb = w.sb → Freed s.node t.node → I t) :
    wp I (fileclose f) (fun _ t => Freed s.node t.node ∧ In m { w with
      ftable := upd w.ftable f (w.ftable f).closed, node := t.node, anchors := w.held } t) E s := by
  have hold : w.ftable f = s.mem.ftable f := by rw [h.ftable]
  have hkeep : ∀ {x : File} {t : Store}, t.node = s.node →
      In m { w with ftable := upd w.ftable f x } t → Freed s.node t.node ∧ In m { w with
        ftable := upd w.ftable f x, node := t.node, anchors := w.held } t := by
    intro x t hnode hin
    rw [hnode]
    refine ⟨.refl _, ?_⟩
    have hmore := hin.forget (A := w.held) (fun _ hjp => hjp) h.sub fun _ hjp => hjp
    exact hmore.renode fun hx => (h.node hx).symm
  by_cases hty : (w.ftable f).type = .inode ∨ (w.ftable f).type = .device
  · unfold fileclose File.closed
    rw [wp_bind, wp_file, hold]
    rw [hold] at hty
    refine wp_ite (fun _ => ?_) fun _ => wp_ite (fun hmore => ?_) fun hlast => ?_
    · exact hE.stops (by decide) (by decide)
    · rw [if_pos hmore, setFile, wp_setMem]
      refine hkeep rfl (h.recount hf rfl ?_ (Nat.ne_of_gt hmore))
      rw [hold]
    · rw [if_neg hlast, wp_bind, setFile, wp_setMem, if_pos hty]
      have hrefs : (s.mem.ftable f).refs = [(s.mem.ftable f).ip] := by rw [File.refs, if_pos hty]
      -- the reference of the file goes to the running code, which gives it up
      have hin := h.setFile (x := { s.mem.ftable f with ref := 0, type := .none }) { w with
        ftable := upd w.ftable f { s.mem.ftable f with ref := 0, type := .none }
        refs := ((s.mem.ftable f).ip, (s.mem.itable (s.mem.ftable f).ip).inum) :: w.refs
        anchors := (s.mem.ftable f).ip :: w.held } hf rfl rfl
        (by rw [hold, hrefs]; exact .refl _) ⟨fun _ => rfl, fun hty => by cases hty⟩
        (fun r hr => (List.mem_cons.mp hr).elim (fun heq => .inr (by rw [heq])) .inl)
        (fun jp hjp => ⟨List.mem_cons_of_mem _ (h.valid jp hjp).1, hjp⟩)
        (fun _ hjp => hjp) (fun jp hjp => .inr (List.mem_cons_of_mem _ (h.sub jp hjp)))
        fun jp hjp => .inr (by
          rw [hold, hrefs] at hjp
          rw [List.mem_singleton.mp hjp]
          exact List.mem_cons_self)
      refine wp_seq (begin_in hin) fun _ t ht => ?_
      refine wp_seq (iput_last (V := w.valid) hE ht.1 ?_ rfl hfresh fun jp hjp =>
        ⟨hjp, (h.valid jp hjp).1⟩) fun _ u hu => ?_
      · show 1 ≤ w.ops + 1
        omega
      · have hfreed : Freed s.node u.node := by
          have hdrop := hu.2.freed
          rwa [ht.2.1] at hdrop
        refine wp_mono (end_in (w := { w with
            ftable := upd w.ftable f { s.mem.ftable f with ref := 0, type := .none }
            node := u.node, anchors := w.held }) hu.1 fun v hv hnode => ?_)
          (fun _ v hv => ?_) fun _ _ he => he
        · exact hI _ v hv rfl (hnode ▸ hfreed)
        · rw [hv.2.1]
          exact ⟨hfreed, hv.1⟩
  · exact wp_mono (fileclose_none hE h hf (by rw [File.refs, if_neg hty]))
      (fun _ t ht => hkeep ht.1 ht.2) fun _ _ he => he

/-! ## Descriptors -/

def World.setFd (w : World) (p fd : Nat) (x : Option Nat) : World :=
  { w with proc := upd w.proc p { w.proc p with ofile := upd (w.proc p).ofile fd x } }

theorem In.setFd {fd : Nat} {x : Option Nat} (h : In m w s)
    (ht : t = { s with mem := { s.mem with
      proc := upd s.mem.proc p { s.mem.proc p with ofile := upd (s.mem.proc p).ofile fd x } } })
    (hx : ∀ e ∈ x, e < nFile) : In m (w.setFd p fd x) t := by
  have hfds : ∀ fd' e, upd (s.mem.proc p).ofile fd x fd' = some e → e < nFile := by
    intro fd' e he
    by_cases heq : fd' = fd
    · rw [heq, upd_same] at he
      exact hx e he
    · rw [upd_other heq] at he
      exact h.inv.fds p fd' e he
  have hin := h.setProc ht hfds
  rw [World.setFd, ← h.proc]
  rw [← h.proc] at hin
  exact hin

theorem fdalloc_in (h : In m w s) (hf : f < nFile) :
    wp I (fdalloc p f) (fun r t => t.node = s.node ∧ match r with
      | none => t = s ∧ ∀ fd < nOfile, (w.proc p).ofile fd ≠ none
      | some fd => fd < nOfile ∧ (w.proc p).ofile fd = none ∧
          In m (w.setFd p fd (some f)) t) E s := by
  unfold fdalloc
  rw [wp_bind, wp_proc]
  split
  · rename_i fd hfind
    have hfd := List.mem_range.mp (List.mem_of_find?_eq_some hfind)
    have hzero := List.find?_some hfind
    rw [Option.isNone_iff_eq_none, h.proc] at hzero
    rw [wp_bind, setProc, wp_setMem, wp_pure]
    refine ⟨rfl, hfd, hzero, h.setFd rfl fun e he => ?_⟩
    cases he
    exact hf
  · rename_i hnone
    refine (wp_pure _).mpr ⟨rfl, rfl, fun fd hfd hz => ?_⟩
    have hmiss := List.find?_eq_none.mp hnone fd (List.mem_range.mpr hfd)
    rw [h.proc, hz] at hmiss
    exact hmiss rfl

theorem clearFd_in {fd : Nat} (h : In m w s) :
    wp I (clearFd p fd) (fun _ t => t.node = s.node ∧ In m (w.setFd p fd none) t) E s := by
  rw [clearFd, setProc, wp_setMem]
  exact ⟨rfl, h.setFd rfl fun e he => by cases he⟩

theorem argfd_in {fd : Int} (h : In m w s) :
    wp I (argfd p fd) (fun r t => t = s ∧ ∀ f ∈ r, f < nFile ∧ (0 ≤ fd ∧ fd < nOfile) ∧
      (w.proc p).ofile fd.toNat = some f) E s := by
  unfold argfd
  rw [wp_bind, wp_proc]
  refine wp_ite (fun hfd => (wp_pure _).mpr ⟨rfl, fun e he => ?_⟩)
    fun _ => (wp_pure _).mpr ⟨rfl, fun e he => by cases he⟩
  refine ⟨h.inv.fds p fd.toNat e he, hfd, ?_⟩
  rw [← h.proc]
  exact he

/-! ## Contents -/

theorem In.file_pos (h : In m w s) (hf : f < nFile)
    (hty : (w.ftable f).type = .inode ∨ (w.ftable f).type = .device) :
    0 < s.mem.fileRefs (w.ftable f).ip := by
  rw [← h.ftable] at hty ⊢
  exact List.countP_pos_iff.mpr ⟨f, List.mem_range.mpr hf, by simpa using hty⟩

theorem ilock_file (hE : Benign m.strict m.sound E) (h : In m w s) (hf : f < nFile)
    (hty : (w.ftable f).type = .inode ∨ (w.ftable f).type = .device) :
    wp I (ilock (w.ftable f).ip) (fun _ t => In m w t ∧ t.node = s.node ∧
      t.mem.Holds (w.ftable f).ip (s.mem.itable (w.ftable f).ip).inum) E s := by
  have hpos := h.file_pos hf hty
  have hip : (w.ftable f).ip < nInode := by
    rw [← h.ftable] at hty ⊢
    exact h.inv.files f hf hty
  have hinv := h.inv
  refine ilock_spec hE hinv hip ?_ (fun hz => ?_) fun t hinv hnode hf hh => ?_
  · rw [hinv.refs _ hip]
    omega
  · exact absurd hz (hinv.alive _ hip (.inl hpos))
  · exact ⟨h.quiet w hinv hnode hf ⟨rfl, rfl, rfl, rfl, rfl⟩ (fun r hr => .inl hr)
      (fun jp hjp => ⟨(h.valid jp hjp).1, .inl hjp⟩) h.sub fun _ hjp => hjp, hnode, hh⟩

theorem FsMem.Holds.stays (h : s.mem.Holds ip i) (ho : Outline s t) (ht : In m w t)
    (hf : f < nFile) (hty : (w.ftable f).type = .inode ∨ (w.ftable f).type = .device)
    (hip : (w.ftable f).ip = ip) : t.mem.Holds ip i := by
  have hpos : 0 < (t.mem.itable ip).ref := by
    have hfile := ht.file_pos hf hty
    rw [hip] at hfile
    rw [ht.inv.refs ip h.lt]
    omega
  obtain ⟨hnum, hv⟩ := ho.entry ip h.lt h.ref hpos
  exact ⟨h.lt, hpos, hv h.valid, hnum.trans h.inum⟩

theorem iunlock_file (hE : Benign m.strict m.sound E) (h : In m w s) (hf : f < nFile)
    (hty : (w.ftable f).type = .inode ∨ (w.ftable f).type = .device)
    (hip : (w.ftable f).ip = ip) (hh : s.mem.Holds ip i) :
    wp I (iunlock ip) (fun _ t => In m w t ∧ t.node = s.node ∧ t.mem.Holds ip i) E s := by
  refine iunlock_spec hE h.inv hh.lt hh.ref fun t hinv hnode hfr => ?_
  have ht : In m w t := h.quiet w hinv hnode hfr ⟨rfl, rfl, rfl, rfl, rfl⟩ (fun _ hr' => .inl hr')
    (fun kp hk => ⟨(h.valid kp hk).1, .inl hk⟩) h.sub fun _ hk => hk
  exact ⟨ht, hnode, hh.stays hfr.toOutline ht hf hty hip⟩

theorem filestat_in {ok : Bool} (hE : Benign m.strict m.sound E) (h : In m w s) (hf : f < nFile) :
    wp I (filestat f ok) (fun _ t => t.node = s.node ∧ In m w t) E s := by
  unfold filestat
  rw [wp_bind, wp_file, h.ftable]
  refine wp_ite (fun hty => ?_) fun _ => (wp_pure _).mpr ⟨rfl, h⟩
  refine wp_seq (ilock_file hE h hf hty) fun _ t ht => ?_
  obtain ⟨hin, hnode, hh⟩ := ht
  refine wp_seq (iunlock_file hE hin hf hty rfl hh) fun _ u hu => ?_
  exact wp_ite (fun _ => (wp_pure _).mpr ⟨hu.2.1.trans hnode, hu.1⟩)
    fun _ => (wp_pure _).mpr ⟨hu.2.1.trans hnode, hu.1⟩

def World.setOff (w : World) (f off : Nat) : World :=
  { w with ftable := upd w.ftable f { w.ftable f with off := off } }

theorem World.setOff_self (w : World) (f : Nat) : w.setOff f (w.ftable f).off = w := by
  unfold World.setOff
  rw [upd_self]

theorem World.setOff_setOff (w : World) (f o o' : Nat) :
    (w.setOff f o).setOff f o' = w.setOff f o' := by
  have hft : upd (w.setOff f o).ftable f { (w.setOff f o).ftable f with off := o' } =
      upd w.ftable f { w.ftable f with off := o' } := by
    show upd (upd w.ftable f _) f { upd w.ftable f _ f with off := o' } = _
    rw [upd_upd, upd_same]
  rw [World.setOff, hft]
  rfl

theorem setOff_in {k : Nat} (h : In m w s) (hf : f < nFile) (hty : (w.ftable f).type ≠ .none) :
    wp I (setFile f fun x => { x with off := (x.off + k) % 2 ^ 32 }) (fun _ t =>
      In m (w.setOff f (((w.ftable f).off + k) % 2 ^ 32)) t ∧ t.node = s.node ∧
        t.mem.itable = s.mem.itable) E s := by
  rw [setFile, wp_setMem]
  refine ⟨h.recount hf ?_ rfl fun hz => hty (h.idle hf hz), rfl, rfl⟩
  rw [h.ftable]

theorem fileread_in {um : UserMem} {addr : Nat} {n : Int} {other : File → Int × List UInt8}
    (hE : Benign m.strict m.sound E)
    (h : In m w s) (hf : f < nFile) :
    wp I (fileread f um addr n other)
      (fun _ t => t.node = s.node ∧ ∃ off, In m (w.setOff f off) t) E s := by
  have hsame : ∀ {t : Store}, In m w t → ∃ off, In m (w.setOff f off) t := fun hin =>
    ⟨(w.ftable f).off, by rw [w.setOff_self]; exact hin⟩
  unfold fileread
  rw [wp_bind, wp_file, h.ftable]
  refine wp_ite (fun _ => (wp_pure _).mpr ⟨rfl, hsame h⟩) fun _ => ?_
  split
  · exact (wp_pure _).mpr ⟨rfl, hsame h⟩
  · exact (wp_pure _).mpr ⟨rfl, hsame h⟩
  · rename_i hinode
    have hty : (w.ftable f).type = .inode ∨ (w.ftable f).type = .device := .inl hinode
    have hnone : (w.ftable f).type ≠ .none := by
      rw [hinode]
      decide
    refine wp_seq (ilock_file hE h hf hty) fun _ t ht => ?_
    obtain ⟨hin, hnode, hh⟩ := ht
    have hread : wp I (readi (w.ftable f).ip (.user um addr) (w.ftable f).off (toUint n))
        (fun r u => In m w u ∧ u.node = s.node ∧
          u.mem.Holds (w.ftable f).ip (s.mem.itable (w.ftable f).ip).inum) E t := by
      refine readi_inv hE.read hin.inv hh ?_ fun r u hd hbr _ _ => ?_
      · unfold toUint
        omega
      · obtain ⟨hin', hnode'⟩ := hin.did_same hd hbr
        exact ⟨hin', hnode'.trans hnode, hd.holds⟩
    refine wp_seq hread fun r u hu => ?_
    obtain ⟨hin', hnode', hh'⟩ := hu
    refine wp_ite (fun _ => ?_) fun _ => ?_
    · refine wp_seq (setOff_in hin' hf hnone) fun _ v hv => ?_
      obtain ⟨hin'', hnode'', hit⟩ := hv
      have hft : (w.setOff f (((w.ftable f).off + r.1.toNat) % 2 ^ 32)).ftable f =
        { w.ftable f with off := ((w.ftable f).off + r.1.toNat) % 2 ^ 32 } := upd_same _ _ _
      refine wp_seq (iunlock_file hE hin'' hf (by rw [hft]; exact hty) (by rw [hft])
        (hh'.congr hit)) fun _ v' hv' => (wp_pure _).mpr ?_
      exact ⟨hv'.2.1.trans (hnode''.trans hnode'), _, hv'.1⟩
    · refine wp_seq (iunlock_file hE hin' hf hty rfl hh') fun _ v hv => (wp_pure _).mpr ?_
      exact ⟨hv.2.1.trans hnode', hsame hv.1⟩
  · exact hE.stops (by decide) (by decide)

theorem Src.user_byte (um : UserMem) (va a : Nat) :
    (Src.user um ((va + a) % 2 ^ 64)).byte = fun j => (Src.user um va).byte (a + j) := by
  funext j
  simp only [Src.byte, Nat.mod_add_mod, Nat.add_assoc]

/-- Two writes one after the other are one write. -/
theorem Node.written_written (x : Node) (um : UserMem) (va off a b c : Nat) :
    (x.written (.user um va) off a 0).written (.user um ((va + a) % 2 ^ 64)) (off + a) b c =
      x.written (.user um va) off (a + b) c := by
  unfold Node.written
  dsimp only
  rw [Nat.add_zero, Src.user_byte, splice_splice, Nat.max_assoc,
    Nat.max_eq_right (Nat.le_add_right (off + a) b), Nat.add_assoc, Nat.add_assoc]

theorem UserMem.Maps.drop {um : UserMem} {va n k c : Nat} (h : um.Maps va n) (hk : k + c ≤ n) :
    um.Maps ((va + k) % 2 ^ 64) c := by
  intro j hj
  rw [Nat.mod_add_mod, Nat.add_assoc]
  exact h (k + j) (by omega)

/-- The whole chunks of a write before byte `k` are in the file. -/
def Chunked (i : Nat) (um : UserMem) (addr off k : Nat) (N N' : Nat → Node) : Prop :=
  k = 0 ∧ N' = N ∨ N' = upd N i ((N i).written (.user um addr) off k 0)

/-- Some of the `n` bytes of a write are in the file, and what was copied of the block in which
the copy failed, if it did. -/
def Content (i : Nat) (um : UserMem) (addr off n : Nat) (N N' : Nat → Node) : Prop :=
  N' = N ∨ ∃ tot cnt, tot + cnt ≤ n ∧ (um.Maps addr n → cnt = 0) ∧
    N' = upd N i ((N i).written (.user um addr) off tot cnt)

theorem Chunked.content {um : UserMem} {addr off k n : Nat} {N N' : Nat → Node}
    (h : Chunked i um addr off k N N') (hk : k ≤ n) : Content i um addr off n N N' := by
  rcases h with ⟨-, rfl⟩ | rfl
  · exact .inl rfl
  · exact .inr ⟨k, 0, hk, fun _ => rfl, rfl⟩

theorem Chunked.next {um : UserMem} {addr off k : Nat} {N N' : Nat → Node}
    (h : Chunked i um addr off k N N') (tot cnt : Nat) :
    upd N' i ((N' i).written (.user um ((addr + k) % 2 ^ 64)) (off + k) tot cnt) =
      upd N i ((N i).written (.user um addr) off (k + tot) cnt) := by
  rcases h with ⟨rfl, rfl⟩ | rfl
  · unfold Node.written
    rw [Src.user_byte]
    simp only [Nat.zero_add, Nat.add_zero]
  · rw [upd_same, upd_upd, Node.written_written]

/-- One chunk of a write through an open file. -/
theorem writei_file {src : Src} {off n : Nat} (h : In m w s) (ho : 1 ≤ w.ops)
    (hh : s.mem.Holds ip i) (hdir : (s.node i).type ≠ tDir) (hn : n < 2 ^ 32)
    (hclean : m.clean → NoTear s i src off n) :
    wp I (writei ip src off n) (fun r t => In m { w with node := t.node } t ∧ t.mem.Holds ip i ∧
      (r = -1 ∧ t.node = s.node ∨ ∃ tot cnt : Nat, r = tot ∧ tot + cnt ≤ n ∧
        (src.Whole n → cnt = 0) ∧ off + n < 2 ^ 32 ∧
        t.node = upd s.node i ((s.node i).written src off tot cnt))) E s := by
  refine writei_inv (h.trans' ho) h.inv hh hn (fun hd => absurd hd hdir) (fun _ => ?_)
    fun P tot cnt t hgood hw hd => ?_
  · exact ⟨h.renode fun hx => (h.node hx).symm, hh, .inl ⟨rfl, rfl⟩⟩
  · have hin := h.did hd (fun hc => hw.sound (hclean hc)) fun _ htype hzero => .inl ⟨htype, hzero⟩
    refine ⟨hin.renode fun hx => ?_, hd.holds,
      .inr ⟨tot, cnt, rfl, hw.le, hw.whole, ?_, hd.node⟩⟩
    · rw [hd.node]
      show upd w.node i _ = _
      rw [h.node hx]
    · unfold WriteBad at hgood
      omega

theorem maxWrite_eq : maxWrite = 3072 := rfl

/-- The bytes of a write to offset `off` of a file are copied in chunks; no copy stops inside
one. -/
def WholeChunks (um : UserMem) (addr off n : Nat) : Prop :=
  ∀ k < n, ∀ s i, NoTear s i (.user um ((addr + k) % 2 ^ 64)) (off + k) (min (n - k) maxWrite)

theorem filewriteFrom_in {um : UserMem} {addr n off : Nat} {N : Nat → Node}
    (hE : Benign m.strict m.sound E) (ho : 0 ≤ w.ops) (hf : f < nFile)
    (hip : (w.ftable f).ip = ip) (hty : (w.ftable f).type = .inode)
    (hwr : (w.ftable f).writable = true) (hclean : m.clean → WholeChunks um addr off n)
    (fuel k : Nat) (h : In m w s) (hk : k ≤ n) (hoff : (w.ftable f).off = off + k)
    (hnum : (s.mem.itable ip).inum = i) (hN : Chunked i um addr off k N s.node)
    (hI : ∀ v t, In m v t → v.sb = w.sb → Content i um addr off n N t.node → I t) :
    wp I (filewriteFrom f ip um addr n fuel k) (fun _ t => Content i um addr off n N t.node ∧
      ∃ off, In m { w.setOff f off with node := t.node } t) E s := by
  have hstay : Content i um addr off n N s.node ∧
      ∃ off, In m { w.setOff f off with node := s.node } s := by
    refine ⟨hN.content hk, (w.ftable f).off, ?_⟩
    rw [w.setOff_self]
    exact h.renode fun hx => (h.node hx).symm
  induction fuel generalizing k w s with
  | zero => exact (wp_pure _).mpr hstay
  | succ fuel ih =>
    unfold filewriteFrom
    refine wp_ite (fun hlt => ?_) fun _ => (wp_pure _).mpr hstay
    refine wp_seq (begin_in h) fun _ t₁ ht => ?_
    obtain ⟨hin₁, hnode₁, hmem₁⟩ := ht
    have hlock := ilock_file (I := I) (w := w.begun) hE hin₁ hf (.inl hty)
    rw [show (w.begun.ftable f).ip = ip from hip, hmem₁, hnum] at hlock
    refine wp_seq hlock fun _ t₂ ht => ?_
    obtain ⟨hin₂, hnode₂, hh₂⟩ := ht
    rw [wp_bind, wp_file, hin₂.ftable, show w.begun.ftable f = w.ftable f from rfl, hoff]
    have hdir : (t₂.node i).type ≠ tDir := by
      have hwriter := hin₂.inv.writers f hf
      rw [hin₂.ftable, show w.begun.ftable f = w.ftable f from rfl, hip, hh₂.inum,
        ← t₂.node_type] at hwriter
      exact hwriter hty hwr
    have hone : 1 ≤ w.begun.ops := by
      show 1 ≤ w.ops + 1
      omega
    have hpos : 0 < min (n - k) maxWrite := by
      rw [maxWrite_eq]
      omega
    refine wp_seq (writei_file hin₂ hone hh₂ hdir ?_ fun hc => hclean hc k hlt t₂ i)
      fun r t₃ ht => ?_
    · rw [maxWrite_eq]
      omega
    obtain ⟨hin₃, hh₃, hr⟩ := ht
    rw [hnode₂, hnode₁] at hr
    -- what the chunk leaves, and that it was a whole one if the loop goes on
    have hdone : Content i um addr off n N t₃.node ∧ (r = (min (n - k) maxWrite : Nat) →
        Chunked i um addr off (k + min (n - k) maxWrite) N t₃.node) := by
      rcases hr with ⟨rfl, hsame⟩ | ⟨tot, cnt, rfl, hle, hwhole, -, hnew⟩
      · rw [hsame]
        exact ⟨hN.content hk, fun heq => by omega⟩
      · rw [hnew, hN.next]
        refine ⟨.inr ⟨k + tot, cnt, by omega, fun hmap => hwhole (Src.Mapped.whole ?_), rfl⟩,
          fun heq => .inr ?_⟩
        · exact hmap.drop (by omega)
        · obtain rfl : tot = min (n - k) maxWrite := by omega
          rw [show cnt = 0 by omega]
    -- with the offset set, the inode is unlocked and the operation ends
    have hrest : ∀ {t₄ : Store} (o : Nat), In m { (w.setOff f o).begun with node := t₃.node } t₄ →
        t₄.node = t₃.node → t₄.mem.Holds ip i →
        (r = (min (n - k) maxWrite : Nat) → o = off + (k + min (n - k) maxWrite)) →
        wp I (do
          iunlock ip
          endOp
          if r ≠ (min (n - k) maxWrite : Nat) then return k
          else filewriteFrom f ip um addr n fuel (k + min (n - k) maxWrite))
          (fun _ t => Content i um addr off n N t.node ∧
            ∃ off, In m { w.setOff f off with node := t.node } t) E t₄ := by
      intro t₄ o hin₄ hnode₄ hh₄ ho'
      have hft : (w.setOff f o).ftable f = { w.ftable f with off := o } := upd_same _ _ _
      have hty₄ : ((w.setOff f o).ftable f).type = .inode := by
        rw [hft]
        exact hty
      have hip₄ : ((w.setOff f o).ftable f).ip = ip := by
        rw [hft]
        exact hip
      refine wp_seq (iunlock_file (w := { (w.setOff f o).begun with node := t₃.node }) hE hin₄ hf
        (.inl hty₄) hip₄ hh₄) fun _ t₅ ht => ?_
      obtain ⟨hin₅, hnode₅, hh₅⟩ := ht
      refine wp_seq (end_in (w := { w.setOff f o with node := t₃.node }) hin₅ fun t hin hnode =>
        hI _ t hin rfl (by rw [hnode, hnode₅, hnode₄]; exact hdone.1)) fun _ t₆ ht => ?_
      obtain ⟨hin₆, hnode₆, hmem₆⟩ := ht
      have hsame : t₆.node = t₃.node := hnode₆.trans (hnode₅.trans hnode₄)
      have hleft : Content i um addr off n N t₆.node ∧
          ∃ o', In m { (w.setOff f o).setOff f o' with node := t₆.node } t₆ := by
        rw [hsame]
        refine ⟨hdone.1, o, ?_⟩
        rw [w.setOff_setOff]
        exact hin₆
      refine wp_ite (fun _ => (wp_pure _).mpr ?_) fun heq => ?_
      · rw [hsame]
        exact ⟨hdone.1, o, hin₆⟩
      · have hwr₄ : ((w.setOff f o).ftable f).writable = true := by
          rw [hft]
          exact hwr
        have hoff₄ : ((w.setOff f o).ftable f).off = off + (k + min (n - k) maxWrite) := by
          rw [hft]
          exact ho' (not_not.mp heq)
        refine wp_mono (ih (w := { w.setOff f o with node := t₃.node }) ho hip₄ hty₄ hwr₄ _ hin₆
          (by omega) hoff₄ (by rw [hmem₆]; exact hh₅.inum)
          (by rw [hsame]; exact hdone.2 (not_not.mp heq)) hI hleft) (fun _ t ht => ?_)
          fun _ _ he => he
        obtain ⟨hc, o', hin⟩ := ht
        refine ⟨hc, o', ?_⟩
        rw [← w.setOff_setOff f o o']
        exact hin
    have hnone : (w.ftable f).type ≠ .none := by
      rw [hty]
      decide
    refine wp_ite (fun hr' => ?_) fun hr' => ?_
    · refine wp_seq (setOff_in (w := { w.begun with node := t₃.node }) hin₃ hf hnone)
        fun _ t₄ ht => ?_
      obtain ⟨hin₄, hnode₄, hit⟩ := ht
      refine hrest _ hin₄ hnode₄ (hh₃.congr hit) fun heq => ?_
      show ((w.ftable f).off + r.toNat) % 2 ^ 32 = _
      rcases hr with ⟨hr, -⟩ | ⟨tot, cnt, hr, hle, -, hlt, -⟩
      · omega
      · rw [hoff, heq, Int.toNat_natCast, Nat.mod_eq_of_lt hlt, Nat.add_assoc]
    · refine hrest (w.ftable f).off ?_ rfl hh₃ fun heq => ?_
      · rw [w.setOff_self]
        exact hin₃
      · omega

/-- A write through file `f` changes the contents of its inode, from the offset of the file on,
or nothing. -/
def Rewritten (s : Store) (f : Nat) (um : UserMem) (addr n : Nat) (N' : Nat → Node) : Prop :=
  N' = s.node ∨ (s.mem.ftable f).type = .inode ∧ (s.mem.ftable f).writable = true ∧
    ∃ i, (s.mem.itable (s.mem.ftable f).ip).inum = i ∧ (s.node i).type ≠ 0 ∧
      (s.node i).type ≠ tDir ∧ Content i um addr (s.mem.ftable f).off n s.node N'

theorem filewrite_in {um : UserMem} {addr : Nat} {n : Int} {other : File → Int}
    (hE : Benign m.strict m.sound E) (h : In m w s) (ho : 0 ≤ w.ops) (hf : f < nFile)
    (hclean : m.clean → WholeChunks um addr (w.ftable f).off n.toNat)
    (hI : ∀ v t, In m v t → v.sb = w.sb → Rewritten s f um addr n.toNat t.node → I t) :
    wp I (filewrite f um addr n other) (fun _ t => Rewritten s f um addr n.toNat t.node ∧
      ∃ off, In m { w.setOff f off with node := t.node } t) E s := by
  have hsame : Rewritten s f um addr n.toNat s.node ∧
      ∃ off, In m { w.setOff f off with node := s.node } s := by
    refine ⟨.inl rfl, (w.ftable f).off, ?_⟩
    rw [w.setOff_self]
    exact h.renode fun hx => (h.node hx).symm
  unfold filewrite
  rw [wp_bind, wp_file, h.ftable]
  refine wp_ite (fun _ => (wp_pure _).mpr hsame) fun hwr => ?_
  have hwr : (w.ftable f).writable = true := by simpa using hwr
  split
  · exact (wp_pure _).mpr hsame
  · exact (wp_pure _).mpr hsame
  · rename_i hty
    have hpos := h.file_pos hf (.inl hty)
    have hip : (w.ftable f).ip < nInode := by
      rw [← h.ftable] at hty ⊢
      exact h.inv.files f hf (.inl hty)
    have halive := h.inv.alive _ hip (.inl hpos)
    have hdir := h.inv.writers f hf
    rw [h.ftable] at hdir
    replace hdir := hdir hty hwr
    rw [← s.node_type] at halive hdir
    have hrewritten : ∀ {N' : Nat → Node}, Content (s.mem.itable (w.ftable f).ip).inum um addr
        (w.ftable f).off n.toNat s.node N' → Rewritten s f um addr n.toNat N' := by
      intro N' hc
      rw [Rewritten, h.ftable]
      exact .inr ⟨hty, hwr, _, rfl, halive, hdir, hc⟩
    refine wp_seq (filewriteFrom_in hE ho hf rfl hty hwr hclean _ 0 h (Nat.zero_le _) rfl rfl
      (.inl ⟨rfl, rfl⟩) fun v t hin hsb hc => hI v t hin hsb (hrewritten hc)) fun k t ht => ?_
    have hdone : Rewritten s f um addr n.toNat t.node ∧
        ∃ off, In m { w.setOff f off with node := t.node } t := ⟨hrewritten ht.1, ht.2⟩
    exact wp_ite (fun _ => (wp_pure _).mpr hdone) fun _ => (wp_pure _).mpr hdone
  · exact hE.stops (by decide) (by decide)

end

end Xv6.Fs
