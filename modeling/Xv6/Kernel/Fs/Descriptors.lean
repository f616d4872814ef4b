import Xv6.Kernel.Fs.Entry

/-! # Descriptors and processes

What the calls that go through descriptors do to the tree: reading does nothing, writing
changes the contents of one file, and closing may free an inode without links.
-/

namespace Xv6.Fs

open Lib

section

variable {I : Store → Prop} {E : Stop → Store → Prop} {m : Mode} {w : World} {s t : Store}
  {p c f : Nat} {R : Edit → Prop} {K : Prop}

/-- A process keeps its current directory when its descriptors change. -/
theorem cwds_setFd (w : World) (p fd : Nat) (x : Option Nat) :
    cwds (w.setFd p fd x).proc = cwds w.proc :=
  cwds_same rfl

/-! ## Calls on one file -/

theorem sysDup_in {fd : Int} (hE : Benign m.strict m.sound E) (h : Ready m w s p c) :
    wp I (sysDup p fd) (Ended m R K s) E s := by
  unfold sysDup
  refine wp_seq (argfd_in h.world) fun r t ht => ?_
  obtain ⟨rfl, hr⟩ := ht
  cases r with
  | none => exact (wp_pure _).mpr (.refl h)
  | some f =>
    obtain ⟨hf, -⟩ := hr f rfl
    refine wp_seq (fdalloc_in h.world hf) fun r u hu => ?_
    obtain ⟨hnode, hres⟩ := hu
    cases r with
    | none =>
      obtain ⟨rfl, -⟩ := hres
      exact (wp_pure _).mpr (.refl h)
    | some fd =>
      refine wp_seq (filedup_in hE hres.2.2 hf) fun _ v hv => (wp_pure _).mpr ?_
      refine .of_in h hv.2 ⟨rfl, h.fresh, rfl⟩ ?_ (fun _ => .same (hv.1.trans hnode)) fun hr => ?_
      · show w.held.Perm (cwds (w.setFd p fd (some f)).proc)
        rw [cwds_setFd]
        exact h.cwds
      · exact absurd hr (by omega)

theorem onFile_in {fd : Int} {k : Nat → FsProg Int} (h : Ready m w s p c)
    (hk : ∀ f < nFile, 0 ≤ fd ∧ fd < nOfile → (w.proc p).ofile fd.toNat = some f →
      wp I (k f) (Ended m R K s) E s) :
    wp I (argfd p fd >>= fun r => match r with
      | none => pure (-1)
      | some f => k f) (Ended m R K s) E s := by
  refine wp_seq (argfd_in h.world) fun r t ht => ?_
  obtain ⟨rfl, hr⟩ := ht
  cases r with
  | none => exact (wp_pure _).mpr (.refl h)
  | some f =>
    obtain ⟨hf, hfd, hfile⟩ := hr f rfl
    exact hk f hf hfd hfile

theorem fileread_ended {um : UserMem} {addr : Nat} {n : Int} {other : File → Int × List UInt8}
    (hE : Benign m.strict m.sound E) (h : Ready m w s p c) (hf : f < nFile) :
    wp I (Prod.fst <$> fileread f um addr n other) (Ended m R K s) E s := by
  refine wp_map.mpr (wp_mono (fileread_in hE h.world hf) (fun r t ht => ?_) fun _ _ he => he)
  obtain ⟨hnode, off, hin⟩ := ht
  exact .of_in h hin ⟨rfl, h.fresh, rfl⟩ h.cwds (fun _ => .same hnode) fun _ _ _ => ⟨hnode, rfl⟩

theorem filestat_ended {ok : Bool} (hE : Benign m.strict m.sound E) (h : Ready m w s p c)
    (hf : f < nFile) : wp I (filestat f ok) (Ended m R K s) E s := by
  refine wp_mono (filestat_in hE h.world hf) (fun r t ht => ?_) fun _ _ he => he
  exact .of_in h ht.2 ⟨rfl, h.fresh, rfl⟩ h.cwds (fun _ => .same ht.1) fun _ _ _ => ⟨ht.1, rfl⟩

/-- What a write of `n` bytes through file `f` makes of its inode `i`. -/
def Stored (s : Store) (f : Nat) (um : UserMem) (addr n i size : Nat) (byte : Nat → UInt8) : Prop :=
  (s.mem.ftable f).type = .inode ∧ (s.mem.ftable f).writable = true ∧
    (s.mem.itable (s.mem.ftable f).ip).inum = i ∧
    ∃ tot cnt, tot + cnt ≤ n ∧ (um.Maps addr n → cnt = 0) ∧
      size = max (s.node i).size ((s.mem.ftable f).off + tot) ∧
      byte = splice (s.node i).byte (s.mem.ftable f).off (tot + cnt) (Src.user um addr).byte

theorem Rewritten.effect {um : UserMem} {addr k n : Nat} {N' : Nat → Node}
    (h : Rewritten s f um addr k N')
    (hR : ∀ i size byte, Stored s f um addr k i size byte → R (.content i size byte)) :
    Effect n R s.node N' := by
  rcases h with rfl | ⟨hty, hwr, i, hi, htype, hdir, rfl | ⟨tot, cnt, hle, hmap, rfl⟩⟩
  · exact .same rfl
  · exact .same rfl
  · exact ⟨_, .inr ⟨.content i _ _, hR i _ _ ⟨hty, hwr, hi, tot, cnt, hle, hmap, rfl, rfl⟩,
      ⟨htype, hdir⟩, rfl⟩, .refl _⟩

theorem filewrite_ended {um : UserMem} {addr : Nat} {n : Int} {other : File → Int}
    (hE : Benign m.strict m.sound E) (h : Ready m w s p c) (hf : f < nFile)
    (hclean : m.clean → WholeChunks um addr (w.ftable f).off n.toNat)
    (hR : ∀ i size byte, Stored s f um addr n.toNat i size byte → R (.content i size byte))
    (hI : Shows m w R s I) :
    wp I (filewrite f um addr n other) (Ended m R False s) E s := by
  have hops : 0 ≤ w.ops := by rw [h.ops]
  refine wp_mono (filewrite_in hE h.world hops hf hclean fun v t hin hsb hw =>
    hI v t hin hsb fun _ => hw.effect hR) (fun r t ht => ?_) fun _ _ he => he
  obtain ⟨hw, off, hin⟩ := ht
  exact .of_in h hin ⟨rfl, h.fresh, rfl⟩ h.cwds (fun _ => hw.effect hR) fun _ _ hK => hK.elim

theorem sysClose_in {fd : Int} (hE : Benign m.strict m.sound E) (h : Ready m w s p c)
    (hI : Shows m w R s I) :
    wp I (sysClose p fd) (Ended m R K s) E s := by
  have hops : 0 ≤ w.ops := by rw [h.ops]
  unfold sysClose
  refine onFile_in h fun f hf _ _ => ?_
  refine wp_seq (clearFd_in h.world) fun _ t ht => ?_
  obtain ⟨hnode, hin⟩ := ht
  refine wp_seq (fileclose_in hE hin hops hf h.fresh fun v u hu hsb hfreed =>
    hI v u hu hsb fun _ => .none (hnode ▸ hfreed)) fun _ u hu => (wp_pure _).mpr ?_
  refine .of_in h hu.2 ⟨rfl, h.fresh, rfl⟩ ?_ (fun _ => .none (hnode ▸ hu.1)) fun hr => by cases hr
  show w.held.Perm (cwds (w.setFd p fd.toNat none).proc)
  rw [cwds_setFd]
  exact h.cwds

/-! ## Pipes -/

theorem File.closed_refs {x : File} (h : x.refs = []) : x.closed.refs = [] := by
  unfold File.closed
  split
  · exact h
  · rfl

theorem refs_upd {ft : Nat → File} {g : Nat} {x : File} (hg : (ft g).refs = []) (hx : x.refs = []) :
    (upd ft f x g).refs = [] := by
  by_cases heq : g = f
  · rw [heq, upd_same]
    exact hx
  · rw [upd_other heq]
    exact hg

theorem closeTwo_in {rf wf : Nat} {ft : Nat → File} (pr : Nat → Proc)
    (hE : Benign m.strict m.sound E) (h : Ready m w s p c)
    (hin : In m { w with ftable := ft, proc := pr } t) (hnode : t.node = s.node)
    (hcwds : cwds pr = cwds w.proc) (hrf : rf < nFile) (hwf : wf < nFile)
    (hr : (ft rf).refs = []) (hw : (ft wf).refs = []) :
    wp I (fileclose rf >>= fun _ => fileclose wf >>= fun _ => (pure (-1) : FsProg Int))
      (Ended m R False s) E t := by
  refine wp_seq (fileclose_none hE hin hrf hr) fun _ t₁ ht => ?_
  obtain ⟨hnode₁, hin₁⟩ := ht
  refine wp_seq (fileclose_none hE hin₁ hwf (refs_upd hw (File.closed_refs hr)))
    fun _ t₂ ht => (wp_pure _).mpr ?_
  exact .of_in h ht.2 ⟨rfl, h.fresh, rfl⟩ (hcwds ▸ h.cwds)
    (fun _ => .same (ht.1.trans (hnode₁.trans hnode))) fun _ _ hK => hK.elim

theorem toPipe_in {rd wr : Bool} (h : In m w s) (hf : f < nFile) (hnone : (w.ftable f).refs = [])
    (href : (w.ftable f).ref ≠ 0) :
    wp I (setFile f fun x => { x with type := .pipe, readable := rd, writable := wr }) (fun _ t =>
      t.node = s.node ∧ In m { w with ftable := upd w.ftable f { w.ftable f with
        type := .pipe, readable := rd, writable := wr } } t) E s := by
  rw [setFile, wp_setMem]
  refine ⟨rfl, h.editFile hf (by rw [h.ftable]) hnone.symm
    ⟨fun hz => absurd hz href, fun hty => ?_⟩⟩
  cases hty

theorem sysPipe_in {mem copied : Bool} (hE : Benign m.strict m.sound E) (h : Ready m w s p c) :
    wp I (sysPipe p mem copied) (Ended m R False s) E s := by
  have hnil : ∀ {v : World} {u : Store} {g : Nat}, In m v u → g < nFile → (v.ftable g).ref = 0 →
      ({ v.ftable g with ref := 1 } : File).refs = [] := by
    intro v u g hv hg hz
    rw [File.refs, if_neg]
    show ¬ ((v.ftable g).type = .inode ∨ (v.ftable g).type = .device)
    rw [hv.idle hg hz]
    decide
  unfold sysPipe
  refine wp_seq (filealloc_in h.world) fun r t₁ ht => ?_
  obtain ⟨hnode₁, hres⟩ := ht
  cases r with
  | none =>
    obtain ⟨rfl, -⟩ := hres
    exact (wp_pure _).mpr (.refl h)
  | some rf =>
    obtain ⟨hrf, hz, hin₁⟩ := hres
    have hr₁ := hnil h.world hrf hz
    refine wp_seq (filealloc_in hin₁) fun r t₂ ht => ?_
    obtain ⟨hnode₂, hres⟩ := ht
    cases r with
    | none =>
      obtain ⟨rfl, -⟩ := hres
      refine wp_seq (fileclose_none hE hin₁ hrf ((congrArg File.refs (upd_same _ _ _)).trans hr₁))
        fun _ t₃ ht =>
        (wp_pure _).mpr ?_
      exact .of_in h ht.2 ⟨rfl, h.fresh, rfl⟩ h.cwds (fun _ => .same (ht.1.trans hnode₁))
        fun _ _ hK => hK.elim
    | some wf =>
      obtain ⟨hwf, hz', hin₂⟩ := hres
      have hw₁ := hnil hin₁ hwf hz'
      generalize hft : upd (upd w.ftable rf { w.ftable rf with ref := 1 }) wf
        { upd w.ftable rf { w.ftable rf with ref := 1 } wf with ref := 1 } = ft at hin₂
      have hr₂ : (ft rf).refs = [] ∧ (ft rf).ref ≠ 0 := by
        rw [← hft]
        by_cases heq : wf = rf
        · rw [heq] at hw₁ ⊢
          rw [upd_same]
          exact ⟨hw₁, Nat.one_ne_zero⟩
        · rw [upd_other (Ne.symm heq), upd_same]
          exact ⟨hr₁, Nat.one_ne_zero⟩
      have hw₂ : (ft wf).refs = [] ∧ (ft wf).ref ≠ 0 := by
        rw [← hft, upd_same]
        exact ⟨hw₁, Nat.one_ne_zero⟩
      have hsame₂ : t₂.node = s.node := hnode₂.trans hnode₁
      refine wp_ite (fun _ => ?_) fun _ => ?_
      · exact closeTwo_in w.proc hE h hin₂ hsame₂ rfl hrf hwf hr₂.1 hw₂.1
      refine wp_seq (toPipe_in hin₂ hrf hr₂.1 hr₂.2) fun _ t₃ ht => ?_
      obtain ⟨hnode₃, hin₃⟩ := ht
      generalize hft' : upd ft rf { ft rf with
        type := .pipe, readable := true, writable := false } = ft' at hin₃
      have hr₃ : (ft' rf).refs = [] := by
        rw [← hft', upd_same]
        rfl
      have hw₃ : (ft' wf).refs = [] ∧ (ft' wf).ref ≠ 0 := by
        rw [← hft']
        by_cases heq : wf = rf
        · rw [heq, upd_same]
          exact ⟨rfl, hr₂.2⟩
        · rw [upd_other heq]
          exact hw₂
      refine wp_seq (toPipe_in hin₃ hwf hw₃.1 hw₃.2) fun _ t₄ ht => ?_
      obtain ⟨hnode₄, hin₄⟩ := ht
      generalize hft'' : upd ft' wf { ft' wf with
        type := .pipe, readable := false, writable := true } = ft'' at hin₄
      have hr₄ : (ft'' rf).refs = [] := by
        rw [← hft'']
        exact refs_upd hr₃ rfl
      have hw₄ : (ft'' wf).refs = [] := by
        rw [← hft'', upd_same]
        rfl
      have hsame₄ : t₄.node = s.node := hnode₄.trans (hnode₃.trans hsame₂)
      refine wp_seq (fdalloc_in hin₄ hrf) fun r t₅ ht => ?_
      obtain ⟨hnode₅, hres⟩ := ht
      cases r with
      | none =>
        obtain ⟨rfl, -⟩ := hres
        exact closeTwo_in w.proc hE h hin₄ hsame₄ rfl hrf hwf hr₄ hw₄
      | some fd₀ =>
        obtain ⟨-, -, hin₅⟩ := hres
        have hsame₅ : t₅.node = s.node := hnode₅.trans hsame₄
        refine wp_seq (fdalloc_in hin₅ hwf) fun r t₆ ht => ?_
        obtain ⟨hnode₆, hres⟩ := ht
        cases r with
        | none =>
          obtain ⟨rfl, -⟩ := hres
          refine wp_seq (clearFd_in hin₅) fun _ t₇ ht => ?_
          refine closeTwo_in _ hE h ht.2 (ht.1.trans hsame₅) ?_ hrf hwf hr₄ hw₄
          exact (cwds_setFd _ p fd₀ none).trans (cwds_setFd w p fd₀ (some rf))
        | some fd₁ =>
          obtain ⟨-, -, hin₆⟩ := hres
          have hcwds : cwds ((World.setFd { w with ftable := ft'' } p fd₀ (some rf)).setFd p fd₁
              (some wf)).proc = cwds w.proc :=
            (cwds_setFd _ p fd₁ (some wf)).trans (cwds_setFd w p fd₀ (some rf))
          refine wp_ite (fun _ => (wp_pure _).mpr ?_) fun _ => ?_
          · exact .of_in h hin₆ ⟨rfl, h.fresh, rfl⟩ (hcwds ▸ h.cwds)
              (fun _ => .same (hnode₆.trans hsame₅)) fun hr => by cases hr
          · refine wp_seq (clearFd_in hin₆) fun _ t₇ ht => ?_
            obtain ⟨hnode₇, hin₇⟩ := ht
            refine wp_seq (clearFd_in hin₇) fun _ t₈ ht => ?_
            refine closeTwo_in _ hE h ht.2 (ht.1.trans (hnode₇.trans (hnode₆.trans hsame₅))) ?_
              hrf hwf hr₄ hw₄
            exact (cwds_setFd _ p fd₁ none).trans ((cwds_setFd _ p fd₀ none).trans hcwds)

/-! ## Processes -/

def Alike (pr pr' : Nat → Proc) : Prop :=
  ∀ q, (pr' q).cwd = (pr q).cwd ∧ (pr' q).live = (pr q).live

theorem Alike.refs {pr pr' : Nat → Proc} (h : Alike pr pr') (q : Nat) :
    (pr' q).refs = (pr q).refs := by
  rw [Proc.refs, Proc.refs, (h q).1, (h q).2]

theorem Alike.cwds {pr pr' : Nat → Proc} (h : Alike pr pr') : Fs.cwds pr' = Fs.cwds pr := by
  unfold Fs.cwds
  congr 1
  funext q
  exact h.refs q

theorem Alike.setFd {pr pr' : Nat → Proc} (h : Alike pr pr') (q fd : Nat) (x : Option Nat) :
    Alike pr (upd pr' q { pr' q with ofile := upd (pr' q).ofile fd x }) := by
  intro r
  by_cases hr : r = q
  · rw [hr, upd_same]
    exact h q
  · rw [upd_other hr]
    exact h r

/-- Files and descriptors have changed since the call began, and no node. -/
def Copied (m : Mode) (w : World) (N : Nat → Node) (t : Store) : Prop :=
  ∃ ft pr, In m { w with ftable := ft, proc := pr } t ∧ t.node = N ∧ Alike w.proc pr

theorem forkFd_in {child fd : Nat} {N : Nat → Node} (hE : Benign m.strict m.sound E)
    (h : Copied m w N t) : wp I (forkFd p child fd) (fun _ => Copied m w N) E t := by
  obtain ⟨ft, pr, hin, hnode, hpr⟩ := h
  unfold forkFd
  rw [wp_bind, wp_proc, hin.proc]
  cases hfd : (pr p).ofile fd with
  | none => exact (wp_pure _).mpr ⟨ft, pr, hin, hnode, hpr⟩
  | some f =>
    have hf : f < nFile := hin.inv.fds p fd f (by rw [hin.proc]; exact hfd)
    refine wp_seq (filedup_in hE hin hf) fun _ u hu => ?_
    obtain ⟨hnode', hin'⟩ := hu
    rw [setProc, wp_setMem]
    exact ⟨_, _, hin'.setFd rfl fun e he => by cases he; exact hf, hnode'.trans hnode,
      hpr.setFd _ _ _⟩

theorem sysFork_in {child : Nat} (hE : Benign m.strict m.sound E) (h : Ready m w s p c) :
    wp I (sysFork p child) (Ended m R K s) E s := by
  unfold sysFork
  rw [wp_bind, wp_proc, h.world.proc]
  refine wp_ite (fun _ => (wp_pure _).mpr (.refl h)) fun hc => ?_
  have hdead : ¬ (w.proc child).live = true := fun hlive => hc (.inl hlive)
  have hchild : child < nProc := Nat.lt_of_not_le fun hle => hc (.inr hle)
  refine wp_seq (wp_loop (J := fun _ => Copied m w s.node) (fun fd _ _ t ht => forkFd_in hE ht)
    ⟨w.ftable, w.proc, h.world, rfl, fun _ => ⟨rfl, rfl⟩⟩) fun _ t ht => ?_
  obtain ⟨ft, pr, hin, hnode, hpr⟩ := ht
  rw [wp_bind, wp_proc, hin.proc, (hpr p).1]
  refine wp_seq (idup_in hin h.cwd) fun cwd u hu => ?_
  obtain ⟨rfl, hin', hnode'⟩ := hu
  rw [wp_bind, setProc, wp_setMem, wp_pure]
  have hdone := hin'.setProc (p := child)
    (x := { u.mem.proc child with cwd := (w.proc p).cwd, live := true }) rfl (hin'.inv.fds child)
  refine .of_in h hdone ⟨rfl, h.fresh, rfl⟩ ?_ (fun _ => .same (hnode'.trans hnode)) fun hr => ?_
  · obtain ⟨rest, hrest⟩ := cwds_upd pr hchild
    have hold := hrest (pr child)
    rw [upd_self, hpr.cwds, hpr.refs, Proc.refs, if_neg hdead, List.nil_append] at hold
    have hproc : u.mem.proc = pr := hin'.proc
    have hnew := hrest { pr child with cwd := (w.proc p).cwd, live := true }
    rw [hproc]
    exact ((h.cwds.trans hold).cons _).trans hnew.symm
  · exact absurd hr (by omega)

/-- Files have been closed since the call began. -/
def Shed (m : Mode) (w : World) (N : Nat → Node) (t : Store) : Prop :=
  ∃ ft pr, In m { w with ftable := ft, proc := pr, node := t.node, anchors := w.held } t ∧
    Freed N t.node ∧ Alike w.proc pr

theorem exitFd_in {fd : Nat} {N : Nat → Node} (hE : Benign m.strict m.sound E) (ho : 0 ≤ w.ops)
    (hfresh : w.fresh = []) (hI : ∀ v t, In m v t → v.sb = w.sb → Freed N t.node → I t)
    (h : Shed m w N t) :
    wp I (exitFd p fd) (fun _ => Shed m w N) E t := by
  obtain ⟨ft, pr, hin, hfreed, hpr⟩ := h
  unfold exitFd
  rw [wp_bind, wp_proc, hin.proc]
  cases hfd : (pr p).ofile fd with
  | none => exact (wp_pure _).mpr ⟨ft, pr, hin, hfreed, hpr⟩
  | some f =>
    have hf : f < nFile := hin.inv.fds p fd f (by rw [hin.proc]; exact hfd)
    refine wp_seq (fileclose_in hE hin ho hf hfresh fun v u hu hsb hmore =>
      hI v u hu hsb (hfreed.trans hmore)) fun _ u hu => ?_
    obtain ⟨hmore, hin'⟩ := hu
    refine wp_mono (clearFd_in hin') (fun _ u' hu' => ?_) fun _ _ he => he
    obtain ⟨hnode, hin''⟩ := hu'
    refine ⟨upd ft f (ft f).closed, _, ?_, by rw [hnode]; exact hfreed.trans hmore,
      hpr.setFd p fd none⟩
    rw [hnode]
    exact hin''

theorem sysExit_in (hE : Benign m.strict m.sound E) (h : Ready m w s p c) (hp : p < nProc)
    (hlive : (w.proc p).live = true)
    (hI : Shows m w R s I) :
    wp I (sysExit p) (Ended m R K s) E s := by
  have hops : 0 ≤ w.ops := by rw [h.ops]
  unfold sysExit
  refine wp_ite (fun _ => hE.stops (by decide) (by decide)) fun _ => ?_
  have hstart : Shed m w s.node s :=
    ⟨w.ftable, w.proc, (h.world.forget (V := w.valid) (A := w.held) (fun _ hjp => hjp) h.world.sub
      fun _ hjp => hjp).renode fun hx => (h.world.node hx).symm, .refl _, fun _ => ⟨rfl, rfl⟩⟩
  refine wp_seq (wp_loop (J := fun _ => Shed m w s.node) (fun fd _ _ t ht =>
    exitFd_in hE hops h.fresh (fun v t hin hsb hf => hI v t hin hsb fun _ => .none hf) ht) hstart)
    fun _ t ht => ?_
  obtain ⟨ft, pr, hin, hfreed, hpr⟩ := ht
  rw [wp_bind, wp_proc, hin.proc, (hpr p).1]
  refine wp_seq (begin_in hin) fun _ t₁ ht => ?_
  obtain ⟨hin₁, hnode₁, -⟩ := ht
  have hperm := List.perm_cons_erase h.cwd
  refine wp_seq (iput_last (V := []) hE (hin₁.reorder hperm) ?_ rfl h.fresh fun _ hjp => by
    cases hjp) fun _ t₂ ht => ?_
  · show 1 ≤ w.ops + 1
    omega
  obtain ⟨hin₂, hdrop⟩ := ht
  have heff : m.exact → Effect w.sb.ninodes R s.node t₂.node := fun _ => .none
    (hfreed.trans (hnode₁ ▸ hdrop.freed))
  generalize hrest : w.refs.erase ((w.proc p).cwd, c) = rest at hin₂ hperm
  have hin₂ : In m (World.begun { w with
      ftable := ft, proc := pr, node := t₂.node, refs := rest, valid := []
      anchors := rest.map Prod.fst }) t₂ := hin₂
  refine wp_seq (end_in hin₂ fun u hu hun => hI _ u hu rfl fun hx => hun ▸ heff hx)
    fun _ t₃ ht => ?_
  obtain ⟨hin₃, hnode₃, -⟩ := ht
  rw [wp_bind, setProc, wp_setMem, wp_pure]
  have hdone := hin₃.setProc (p := p) (x := { t₃.mem.proc p with live := false }) rfl
    (hin₃.inv.fds p)
  refine .of_in h hdone ⟨rfl, h.fresh, rfl⟩ ?_ (fun hx => ?_) fun hr => by cases hr
  · obtain ⟨others, hothers⟩ := cwds_upd pr hp
    have hold := hothers (pr p)
    rw [upd_self, hpr.cwds, hpr.refs, Proc.refs, if_pos hlive] at hold
    have hproc : t₃.mem.proc = pr := hin₃.proc
    have hnew := hothers { pr p with live := false }
    have hrefs : w.held.Perm ((w.proc p).cwd :: rest.map Prod.fst) := hperm.map Prod.fst
    rw [hproc]
    exact (hrefs.symm.trans (h.cwds.trans hold)).cons_inv.trans hnew.symm
  · show Effect w.sb.ninodes R s.node t₃.node
    rw [hnode₃]
    exact heff hx

/-! ## All calls -/

/-- The lengths that `exec` passes to `readi` are of type `uint`. -/
def Syscall.Typed : Syscall → Prop
  | .exec _ reads _ => ∀ r ∈ reads, r.2 < 2 ^ 32
  | _ => True

/-- No copy of a `write` stops inside a block. -/
def Syscall.Whole (s : Store) (p : Nat) : Syscall → Prop
  | .write fd um addr n _ => ∀ f, (s.mem.proc p).ofile fd.toNat = some f →
      WholeChunks um addr (s.mem.ftable f).off n.toNat
  | _ => True

/-- The edit that a system call of process `p` asks for in state `s`. -/
def Syscall.Asks (s : Store) (p : Nat) : Syscall → Edit → Prop
  | .open (some path) omode, .make d _ _ name type major minor =>
      omode &&& oCreate ≠ 0 ∧ resolve s.node (s.cwdOf p) path true = some (d, name) ∧
        type = tFile ∧ major = 0 ∧ minor = 0
  | .open (some path) omode, .content i size byte =>
      omode &&& oTrunc ≠ 0 ∧ (s.node i).type = tFile ∧
        (resolve s.node (s.cwdOf p) path false).map Prod.fst = some i ∧
        size = 0 ∧ byte = fun _ => 0
  | .mkdir (some path), .make d _ _ name type major minor =>
      resolve s.node (s.cwdOf p) path true = some (d, name) ∧ type = tDir ∧ major = 0 ∧ minor = 0
  | .mknod (some path) maj min, .make d _ _ name type major minor =>
      resolve s.node (s.cwdOf p) path true = some (d, name) ∧ type = tDevice ∧
        major = .ofInt 16 maj ∧ minor = .ofInt 16 min
  | .link (some old) (some new), .link d _ i name =>
      (resolve s.node (s.cwdOf p) old false).map Prod.fst = some i ∧
        resolve s.node (s.cwdOf p) new true = some (d, name)
  | .unlink (some path), .unlink d _ _ name =>
      resolve s.node (s.cwdOf p) path true = some (d, name)
  | .write fd um addr n _, .content i size byte =>
      ∃ f, 0 ≤ fd ∧ fd < nOfile ∧ (s.mem.proc p).ofile fd.toNat = some f ∧
        Stored s f um addr n.toNat i size byte
  | _, _ => False

/-- The calls that leave everything as it was if they fail. -/
def Syscall.Safe (s : Store) (p c : Nat) : Syscall → Prop
  | .open path omode => OpenSafe s.mem s.node p c path omode
  | .mkdir _ => True
  | .mknod _ _ _ => True
  | .link _ _ => True
  | .unlink _ => True
  | .chdir _ => True
  | _ => False

/-- What a system call needs: the root directory is there, inode numbers fit in an entry, and
with sound references every entry names an allocated inode. -/
structure Fit (m : Mode) (s : Store) : Prop where
  idle : Idle m s
  root : rootIno < s.mem.sb.ninodes
  small : m.exact → s.mem.sb.ninodes ≤ 65536
  rooted : m.sound → m.exact ∧ Rooted s.node

/-- A system call makes one edit that its arguments ask for, or none, and frees inodes
without links; so does what it commits before it returns. -/
theorem syscall_in (call : Syscall) (hE : Benign m.strict m.sound E) (h : Fit m s)
    (htyped : call.Typed) (hwhole : m.clean → call.Whole s p)
    (hI : ∀ v t, In m v t → v.sb = s.mem.sb → (m.exact →
      Effect s.mem.sb.ninodes (call.Asks s p) s.node t.node) → I t) :
    wp I (syscall p call) (Ended m (call.Asks s p) (call.Safe s p (s.cwdOf p)) s) E s := by
  unfold syscall
  rw [wp_bind, wp_proc]
  refine wp_ite (fun _ => (wp_pure _).mpr ?_) fun hp => ?_
  · exact ⟨⟨h.idle, rfl, fun _ => .same rfl⟩, fun _ _ _ => .refl s⟩
  have hlt : p < nProc := Nat.lt_of_not_le fun hle => hp (.inr hle)
  have hlive : (s.mem.proc p).live = true := by
    by_contra hdead
    exact hp (.inl (by simpa using hdead))
  obtain ⟨w, c, hr, hsb, hft, hpr, -⟩ := h.idle.ready hlt hlive h.root h.small h.rooted
  have hcwd : s.cwdOf p = c := by
    have hnum := hr.world.num_refs hr.cwd
    rw [hpr] at hnum
    exact hnum
  rw [← hsb] at hI
  rw [hcwd]
  rw [← hpr] at hlive
  cases call with
  | «open» path omode =>
    refine sysOpen_in hE hr (fun path' d k i name hpath hcreate hres => ?_)
      (fun path' i hpath htrunc htype hres => ?_) (fun _ hK => hK) hI
    · rw [hpath]
      exact ⟨hcreate, hcwd ▸ hres, rfl, rfl, rfl⟩
    · rw [hpath]
      exact ⟨htrunc, htype, hcwd ▸ hres, rfl, rfl⟩
  | mkdir path =>
    refine sysCreate_in hE hr (by decide) (fun path' d k i name hpath hres => ?_) hI
    rw [hpath]
    exact ⟨hcwd ▸ hres, rfl, rfl, rfl⟩
  | mknod path major minor =>
    refine sysCreate_in hE hr (by decide) (fun path' d k i name hpath hres => ?_) hI
    rw [hpath]
    exact ⟨hcwd ▸ hres, rfl, rfl, rfl⟩
  | link old new =>
    refine sysLink_in hE hr (fun path path' d k i name hold hnew hres hres' => ?_) hI
    rw [hold, hnew]
    exact ⟨hcwd ▸ hres, hcwd ▸ hres'⟩
  | unlink path =>
    refine sysUnlink_in hE hr (fun path' d k i name hpath hres => ?_) hI
    rw [hpath]
    show resolve s.node (s.cwdOf p) path' true = some (d, name)
    rw [hcwd]
    exact hres
  | chdir path => exact sysChdir_in hE hr hlt hlive hI
  | close fd => exact sysClose_in hE hr hI
  | dup fd => exact sysDup_in hE hr
  | read fd um addr n other => exact onFile_in hr fun f hf _ _ => fileread_ended hE hr hf
  | write fd um addr n other =>
    refine onFile_in hr fun f hf hfd hfile => ?_
    rw [hpr] at hfile
    refine filewrite_ended hE hr hf (fun hc => ?_)
      (fun i size byte hstored => ⟨f, hfd.1, hfd.2, hfile, hstored⟩) hI
    rw [hft]
    exact hwhole hc f hfile
  | fstat fd copied => exact onFile_in hr fun f hf _ _ => filestat_ended hE hr hf
  | pipe mem copied => exact sysPipe_in hE hr
  | fork child => exact sysFork_in hE hr
  | exit => exact sysExit_in hE hr hlt hlive hI
  | exec path reads ret => exact sysExec_in hE hr htyped hI

end

end Xv6.Fs
