import Xv6.Kernel.Fs.Effects
import Xv6.Kernel.Fs.Returns

/-! # Opening, making and entering

What `open`, `mkdir`, `mknod`, `chdir` and `exec` do to the tree. The reference of a path
goes to the open file or becomes the current directory, or it is given up.
-/

namespace Xv6.Fs

open Lib

section

variable {I : Store → Prop} {E : Stop → Store → Prop} {m : Mode} {w : World} {s t : Store}
  {p c ip i : Nat} {R : Edit → Prop} {K : Prop}

/-! ## Open files -/

/-- There is a file structure and a descriptor for one more open file. -/
def Spare (ft : Nat → File) (pr : Proc) : Prop :=
  (∃ f < nFile, (ft f).ref = 0) ∧ ∃ fd < nOfile, pr.ofile fd = none

/-- What `sys_open` has when it comes to open inode `i`: the tree as it was, or with a new
empty file. -/
def Opens (m : Mode) (R : Edit → Prop) (ninodes i : Nat) (N N' : Nat → Node) : Prop :=
  m.exact → N' = N ∨ (∃ e, R e ∧ e.Ok ninodes N ∧ Freed (e.apply N) N') ∧
    N' i = Node.new tFile 0 0

theorem Opens.effect {n : Nat} {N N' : Nat → Node} (h : Opens m R n i N N') (hx : m.exact) :
    Effect n R N N' := by
  rcases h hx with rfl | ⟨⟨e, hR, hok, hfreed⟩, -⟩
  · exact .same rfl
  · exact ⟨_, .inr ⟨e, hR, hok, rfl⟩, hfreed⟩

/-- Truncating a new file does nothing. -/
theorem Opens.truncate {n : Nat} {N N' : Nat → Node} (h : Opens m R n i N N') (hx : m.exact)
    (hR : N' = N → R (.content i 0 fun _ => 0)) (htype : (N' i).type = tFile) :
    Effect n R N (upd N' i { N' i with size := 0, byte := fun _ => 0 }) := by
  rcases h hx with rfl | ⟨⟨e, hR, hok, hfreed⟩, hnew⟩
  · refine ⟨_, .inr ⟨_, hR rfl, ⟨?_, ?_⟩, rfl⟩, .refl _⟩
    · rw [htype]
      decide
    · rw [htype]
      decide
  · have hsame : ({ N' i with size := 0, byte := fun _ => 0 } : Node) = N' i := by rw [hnew]; rfl
    rw [hsame, upd_self]
    exact ⟨_, .inr ⟨e, hR, hok, rfl⟩, hfreed⟩

theorem openBad_in {N : Nat → Node} (ft : Nat → File) (hE : Benign m.strict m.sound E)
    (h : Ready m w s p c) (hin : In m (World.lock { w.begun with node := N, ftable := ft } ip i) t)
    (heff : m.exact → Effect w.sb.ninodes R s.node t.node)
    (hfail : m.exact → K → t.node = s.node)
    (hI : Shows m w R s I) :
    wp I (openBad ip) (Ended m R K s) E t := by
  have hb := h.base (t := s) rfl
  refine wp_seq (iunlockput_in hE hin hb.ops ⟨hb.closed.valid, hb.closed.anchors⟩) fun _ u hu => ?_
  refine finish_in (v := { w with node := N, ftable := ft }) h hu.1 ⟨rfl, h.fresh, rfl⟩ h.cwds
    (fun hx => ?_) (fun _ hx hK => ⟨(hu.2 hx).trans (hfail hx hK), rfl⟩) hI
  rw [hu.2 hx]
  exact heff hx

theorem openFile_ip (x : File) (din : Dinode) (ip omode : Nat) :
    (openFile x din ip omode).ip = ip := by
  unfold openFile
  dsimp only
  split <;> rfl

theorem openFile_writer {x : File} {din : Dinode} {omode : Nat}
    (hty : (openFile x din ip omode).type = .inode)
    (hwr : (openFile x din ip omode).writable = true) : omode ≠ 0 := by
  rintro rfl
  unfold openFile at hty hwr
  dsimp only at hty hwr
  split at hwr <;> simp at hwr

theorem openDone_in {f fd omode : Nat} {N : Nat → Node} {x : File} (hE : Benign m.strict m.sound E)
    (h : Ready m w s p c) (hf : f < nFile) (hx : x.refs = [ip])
    (hin : In m (World.setFd { w.begun with node := N, ftable := upd w.ftable f x } p
      fd (some f)) t)
    (hh : t.mem.Holds ip i) (hopens : Opens m R w.sb.ninodes i s.node t.node)
    (hR : m.exact → omode &&& oTrunc ≠ 0 → (s.node i).type = tFile → t.node = s.node →
      R (.content i 0 fun _ => 0)) {din : Dinode} (hdin : din.type = (t.node i).type)
    (hI : Shows m w R s I) :
    wp I (do
      if omode &&& oTrunc ≠ 0 ∧ din.type = tFile then itrunc ip else pure ()
      iunlock ip
      endOp
      return (fd : Int)) (Ended m R K s) E t := by
  have hty : x.type = .inode ∨ x.type = .device := by
    by_contra hno
    rw [File.refs, if_neg hno] at hx
    cases hx
  have hip : x.ip = ip := by
    rw [File.refs, if_pos hty] at hx
    exact (List.cons.inj hx).1
  have hone : 1 ≤ w.ops + 1 := by
    rw [h.ops]
    decide
  -- with the tree settled, the inode is unlocked and the operation ends
  have hrest : ∀ {u : Store} {M : Nat → Node}, In m (World.setFd { w.begun with
        node := M, ftable := upd w.ftable f x } p fd (some f)) u → u.mem.Holds ip i →
      (m.exact → Effect w.sb.ninodes R s.node u.node) →
      wp I (iunlock ip >>= fun _ => endOp >>= fun _ => (pure (fd : Int) : FsProg Int))
        (Ended m R K s) E u := by
    intro u M hu hhu heff
    have hfile : (upd w.ftable f x) f = x := upd_same _ _ _
    refine wp_seq (iunlock_file hE hu hf (by rw [← hfile] at hty; exact hty)
      (by rw [← hfile] at hip; exact hip) hhu) fun _ u' hu' => ?_
    refine finish_in (v := World.setFd { w with
      node := M, ftable := upd w.ftable f x } p fd (some f)) h hu'.1 ⟨rfl, h.fresh, rfl⟩ ?_
      (fun hx => ?_) (fun hr => absurd hr (by omega)) hI
    · have hcwds : Fs.cwds (upd w.proc p { w.proc p with
          ofile := upd (w.proc p).ofile fd (some f) }) = Fs.cwds w.proc := cwds_same rfl
      show w.held.Perm (Fs.cwds (upd w.proc p _))
      rw [hcwds]
      exact h.cwds
    · rw [hu'.2.1]
      exact heff hx
  refine wp_ite (fun htrunc => wp_bind.mpr ?_) fun _ => ?_
  · refine itrunc_inv (hin.trans' hone) hin.inv hh fun u hd hbr _ => ?_
    have hu := hin.did hd (fun _ => hbr) fun _ htype hzero => .inl ⟨htype, hzero⟩
    refine hrest (M := upd N i _) hu hd.holds fun hx => ?_
    rw [hd.node]
    have htype := hdin.symm.trans htrunc.2
    exact hopens.truncate hx (fun hsame => hR hx htrunc.1 (hsame ▸ htype) hsame) htype
  · exact hrest hin hh fun hx => hopens.effect hx

theorem openInode_in {omode : Nat} {N : Nat → Node} (hE : Benign m.strict m.sound E)
    (h : Ready m w s p c) (hin : In m (World.lock { w.begun with node := N } ip i) t)
    (hdir : (t.node i).type = tDir → omode = 0)
    (hopens : Opens m R w.sb.ninodes i s.node t.node)
    (hR : m.exact → omode &&& oTrunc ≠ 0 → (s.node i).type = tFile → t.node = s.node →
      R (.content i 0 fun _ => 0))
    (hK : m.exact → K → t.node = s.node ∨ Spare w.ftable (w.proc p))
    (hI : Shows m w R s I) :
    wp I (openInode p ip omode) (Ended m R K s) E t := by
  have hr : (ip, i) ∈ (World.lock { w.begun with node := N } ip i).refs := List.mem_cons_self
  have hv : ip ∈ (World.lock { w.begun with node := N } ip i).valid := List.mem_cons_self
  have hd := hin.din hr hv
  have hdin : (t.mem.itable ip).din.type = (t.node i).type := by
    rw [hd]
    rfl
  unfold openInode
  rw [wp_bind, wp_inode]
  refine wp_ite (fun hdev => ?_) fun _ => ?_
  · refine openBad_in w.ftable hE h hin (fun hx => hopens.effect hx) (fun hx _ => ?_) hI
    rcases hopens hx with hsame | ⟨-, hnew⟩
    · exact hsame
    · rw [hdin, hnew] at hdev
      exact absurd hdev.1 (by decide)
  refine wp_seq (filealloc_in hin) fun r t₁ ht => ?_
  obtain ⟨hnode₁, hres⟩ := ht
  cases r with
  | none =>
    obtain ⟨rfl, hfull⟩ := hres
    refine openBad_in w.ftable hE h hin (fun hx => hopens.effect hx) (fun hx hk => ?_) hI
    rcases hK hx hk with hsame | ⟨⟨f, hf, hz⟩, -⟩
    · exact hsame
    · exact absurd hz (hfull f hf)
  | some f =>
    obtain ⟨hf, hz, hin₁⟩ := hres
    have htype : (w.ftable f).type = .none := hin.idle hf hz
    have hnone : (w.ftable f).refs = [] := by
      rw [File.refs, htype]
      rfl
    refine wp_seq (fdalloc_in hin₁ hf) fun r t₂ ht => ?_
    obtain ⟨hnode₂, hres⟩ := ht
    cases r with
    | none =>
      obtain ⟨rfl, hfull⟩ := hres
      refine wp_seq (fileclose_none hE hin₁ hf ?_) fun _ t₃ ht => ?_
      · show (upd w.ftable f { w.ftable f with ref := 1 } f).refs = []
        rw [upd_same]
        exact hnone
      · have hsame : t₃.node = t.node := ht.1.trans hnode₁
        refine openBad_in _ hE h ht.2 (fun hx => ?_) (fun hx hk => ?_) hI
        · rw [hsame]
          exact hopens.effect hx
        · rw [hsame]
          rcases hK hx hk with hsame | ⟨-, fd, hfd, hz⟩
          · exact hsame
          · exact absurd hz (hfull fd hfd)
    | some fd =>
      obtain ⟨-, -, hin₂⟩ := hres
      have hsame : t₂.node = t.node := hnode₂.trans hnode₁
      have hfile : t₂.mem.ftable f = { w.ftable f with ref := 1 } := by
        rw [hin₂.ftable]
        exact upd_same _ _ _
      have hh := hin₂.holds hr hv
      rw [wp_bind, setFile, wp_setMem, hfile]
      obtain ⟨hrefs, href⟩ := openFile_refs { w.ftable f with ref := 1 }
        (t.mem.itable ip).din ip omode
      have hmoved := hin₂.setFile (f := f)
        (x := openFile { w.ftable f with ref := 1 } (t.mem.itable ip).din ip omode)
        (World.setFd { w.begun with
          node := N
          ftable := upd w.ftable f (openFile { w.ftable f with ref := 1 } (t.mem.itable ip).din ip
            omode) } p fd (some f)) hf rfl ?_ ?_ ⟨fun hz => ?_, fun hty hwr => ?_⟩
        (fun r hr => .inl (List.mem_cons_of_mem _ hr))
        (fun jp hjp => ⟨h.world.closed.valid jp hjp, List.mem_cons_of_mem _ hjp⟩)
        h.world.closed.anchors (fun _ hjp => .inr hjp) fun jp hjp => ?_
      · refine openDone_in hE h hf hrefs hmoved (hh.congr rfl) ?_
          (fun hx htr hty heq => hR hx htr hty (hsame.symm.trans heq)) ?_ hI
        · show Opens m R w.sb.ninodes i s.node t₂.node
          rw [hsame]
          exact hopens
        · show (t.mem.itable ip).din.type = (t₂.node i).type
          rw [hsame]
          exact hdin
      · simp only [World.setFd, World.lock, World.begun, upd_upd]
      · show ((upd w.ftable f { w.ftable f with ref := 1 } f).refs ++ ip :: w.held).Perm _
        rw [upd_same, hrefs]
        show ((w.ftable f).refs ++ ip :: w.held).Perm _
        rw [hnone]
        exact .refl _
      · rw [href] at hz
        exact absurd hz Nat.one_ne_zero
      · rw [openFile_ip, hh.inum, ← t₂.node_type, hsame]
        exact fun hty' => openFile_writer hty hwr (hdir hty')
      · have hnil : (upd w.ftable f { w.ftable f with ref := 1 } f).refs = [] := by
          rw [upd_same]
          exact hnone
        have hmem : jp ∈ (upd w.ftable f { w.ftable f with ref := 1 } f).refs := hjp
        rw [hnil] at hmem
        cases hmem

theorem Edit.make_new {n d k : Nat} {name : List UInt8} {type major minor : BitVec 16}
    {N N' : Nat → Node} (hok : (Edit.make d k i name type major minor).Ok n N)
    (hfreed : Freed ((Edit.make d k i name type major minor).apply N) N') :
    N' i = Node.made d i type major minor := by
  obtain ⟨hdir, hfree, -⟩ := hok
  have hdi : i ≠ d := by
    rintro rfl
    rw [hfree] at hdir
    cases hdir
  have happ : (Edit.make d k i name type major minor).apply N i =
      Node.made d i type major minor := by
    unfold Edit.apply
    dsimp only
    split
    · rw [upd_other hdi, upd_other hdi, upd_same]
    · rw [upd_other hdi, upd_same]
  rcases hfreed i with hsame | ⟨-, hlink, -⟩
  · exact hsame.trans happ
  · rw [happ, Node.made_nlink] at hlink
    cases hlink

/-- An `open` that fails changes nothing if it need not make the file, or if there is a file
structure and a descriptor for it. -/
def OpenSafe (m : FsMem) (N : Nat → Node) (p c : Nat) (path : Option (List UInt8)) (omode : Nat) :
    Prop :=
  Spare m.ftable (m.proc p) ∨ omode &&& oCreate = 0 ∨ ∀ path' d name, path = some path' →
    resolve N c path' true = some (d, name) → (N d).lookup name ≠ none

theorem sysOpen_in {path : Option (List UInt8)} {omode : Nat} (hE : Benign m.strict m.sound E)
    (h : Ready m w s p c)
    (hR : ∀ path' d k i name, path = some path' → omode &&& oCreate ≠ 0 →
      resolve s.node c path' true = some (d, name) → R (.make d k i name tFile 0 0))
    (hC : ∀ path' i, path = some path' → omode &&& oTrunc ≠ 0 → (s.node i).type = tFile →
      (resolve s.node c path' false).map Prod.fst = some i → R (.content i 0 fun _ => 0))
    (hK : m.exact → K → OpenSafe s.mem s.node p c path omode)
    (hI : Shows m w R s I) :
    wp I (sysOpen p path omode) (Ended m R K s) E s := by
  cases path with
  | none => exact (wp_pure _).mpr (.refl h)
  | some path =>
    unfold sysOpen
    refine wp_seq (begin_in h.world) fun _ t₁ ht => ?_
    obtain ⟨hin₁, hnode₁, -⟩ := ht
    have hb := h.base hnode₁
    rw [wp_bind, wp_proc, hin₁.proc]
    refine wp_ite (fun hcreate => ?_) fun hcreate => ?_
    · refine wp_seq (create_in hE hin₁ hb h.cwd (by decide)) fun r t₂ ht => ?_
      rw [hnode₁] at ht
      cases r with
      | none => exact giveUp_in (v := w) h ht.1 rfl ht.2 hI
      | some ip =>
        obtain ⟨i, hin₂, hkind, hres⟩ := ht
        refine openInode_in hE h hin₂ (fun hdir => ?_) (fun hx => ?_)
          (fun hx htr hty heq => hC path i rfl htr hty ?_) (fun hx hk => ?_) hI
        · rw [hdir] at hkind
          exact absurd hkind (by decide)
        · obtain ⟨d, name, hpath, ⟨hsame, -⟩ | ⟨k, hok, hfreed⟩⟩ := hres hx
          · exact .inl hsame
          · refine .inr ⟨⟨_, hR path d k i name rfl hcreate hpath, hok, hfreed⟩, ?_⟩
            rw [Edit.make_new hok hfreed, Node.made, if_neg (by decide)]
        · obtain ⟨d, name, hpath, ⟨-, k, hfound⟩ | ⟨k, hok, -⟩⟩ := hres hx
          · unfold resolve at hpath ⊢
            rw [walk_last hpath hfound]
            rfl
          · rw [hok.2.1] at hty
            cases hty
        · obtain ⟨d, name, hpath, ⟨hsame, -⟩ | ⟨k, hok, -⟩⟩ := hres hx
          · exact .inl hsame
          · rcases hK hx hk with hspare | hno | hexists
            · rw [h.world.ftable, h.world.proc] at hspare
              exact .inr hspare
            · exact absurd hno hcreate
            · exact absurd hok.2.2.2.2.2.2.1 (hexists path d name rfl hpath)
    · refine wp_seq (namei_in hE hin₁ hb.ops hb.rooted hb.root h.cwd) fun r t₂ ht => ?_
      rw [hnode₁] at ht
      obtain ⟨hsame₂, hres⟩ := ht
      cases r with
      | none => exact giveUp_in (v := w) h hres.1 rfl (fun hx => (hsame₂ hx).trans hnode₁) hI
      | some ip =>
        obtain ⟨i, known, hin₂, hwalk⟩ := hres
        refine wp_seq (ilock_take hE hin₂) fun _ t₃ ht => ?_
        obtain ⟨hin₃, hnode₃⟩ := ht
        have hsame₃ : m.exact → t₃.node = s.node := fun hx =>
          hnode₃.trans ((hsame₂ hx).trans hnode₁)
        have hin₃ : In m (World.lock { w.begun with node := w.node } ip i) t₃ := hin₃
        have hdin : (t₃.mem.itable ip).din.type = (t₃.node i).type := by
          rw [hin₃.din List.mem_cons_self List.mem_cons_self]
          rfl
        rw [wp_bind, wp_inode, hdin]
        refine wp_ite (fun _ => ?_) fun hmode => ?_
        · exact openBad_in w.ftable hE h hin₃ (fun hx => .same (hsame₃ hx))
            (fun hx _ => hsame₃ hx) hI
        · exact openInode_in hE h hin₃ (fun hdir => by_contra fun hne => hmode ⟨hdir, hne⟩)
            (fun hx => .inl (hsame₃ hx)) (fun hx htr hty _ => hC path i rfl htr hty (hwalk hx))
            (fun hx _ => .inl (hsame₃ hx)) hI

/-! ## New directories and devices -/

theorem sysCreate_in {path : Option (List UInt8)} {type major minor : BitVec 16}
    (hE : Benign m.strict m.sound E) (h : Ready m w s p c) (htype : type ≠ 0)
    (hR : ∀ path' d k i name, path = some path' →
      resolve s.node c path' true = some (d, name) → R (.make d k i name type major minor))
    (hI : Shows m w R s I) :
    wp I (sysCreate p path type major minor) (Ended m R K s) E s := by
  unfold sysCreate
  refine wp_seq (begin_in h.world) fun _ t₁ ht => ?_
  obtain ⟨hin₁, hnode₁, -⟩ := ht
  have hb := h.base hnode₁
  rw [wp_bind, wp_proc, hin₁.proc]
  cases path with
  | none => exact giveUp_in (v := w) h hin₁ rfl (fun _ => hnode₁) hI
  | some path =>
    refine wp_seq (create_in hE hin₁ hb h.cwd htype) fun r t₂ ht => ?_
    rw [hnode₁] at ht
    cases r with
    | none => exact giveUp_in (v := w) h ht.1 rfl ht.2 hI
    | some ip =>
      obtain ⟨i, hin₂, -, hres⟩ := ht
      refine wp_seq (iunlockput_in hE hin₂ hb.ops ⟨hb.closed.valid, hb.closed.anchors⟩)
        fun _ t₃ ht => ?_
      refine finish_in (v := { w with node := t₂.node }) h ht.1 ⟨rfl, h.fresh, rfl⟩ h.cwds
        (fun hx => ?_) (fun hr => by cases hr) hI
      rw [ht.2 hx]
      obtain ⟨d, name, hpath, ⟨hsame, -⟩ | ⟨k, hok, hfreed⟩⟩ := hres hx
      · exact .same hsame
      · exact ⟨_, .inr ⟨_, hR path d k i name rfl hpath, hok, rfl⟩, hfreed⟩

/-! ## Current directories and programs -/

theorem sysChdir_in {path : Option (List UInt8)} (hE : Benign m.strict m.sound E)
    (h : Ready m w s p c) (hp : p < nProc) (hlive : (w.proc p).live = true)
    (hI : Shows m w R s I) :
    wp I (sysChdir p path) (Ended m R K s) E s := by
  unfold sysChdir
  refine wp_seq (begin_in h.world) fun _ t₁ ht => ?_
  obtain ⟨hin₁, hnode₁, -⟩ := ht
  have hb := h.base hnode₁
  rw [wp_bind, wp_proc, hin₁.proc]
  cases path with
  | none => exact giveUp_in (v := w) h hin₁ rfl (fun _ => hnode₁) hI
  | some path =>
    refine wp_seq (namei_in hE hin₁ hb.ops hb.rooted hb.root h.cwd) fun r t₂ ht => ?_
    rw [hnode₁] at ht
    obtain ⟨hsame₂, hres⟩ := ht
    cases r with
    | none => exact giveUp_in (v := w) h hres.1 rfl (fun hx => (hsame₂ hx).trans hnode₁) hI
    | some ip =>
      obtain ⟨i, known, hin₂, -⟩ := hres
      refine wp_seq (ilock_take hE hin₂) fun _ t₃ ht => ?_
      obtain ⟨hin₃, hnode₃⟩ := ht
      have hsame₃ : m.exact → t₃.node = s.node := fun hx =>
        hnode₃.trans ((hsame₂ hx).trans hnode₁)
      have hr : (ip, i) ∈ (w.begun.lock ip i).refs := List.mem_cons_self
      rw [wp_bind, wp_inode]
      refine wp_ite (fun _ => ?_) fun _ => ?_
      · refine wp_seq (iunlockput_in hE hin₃ hb.ops hb.closed) fun _ t₄ ht => ?_
        exact giveUp_in (v := w) h ht.1 rfl (fun hx => (ht.2 hx).trans (hsame₃ hx)) hI
      refine wp_seq (iunlock_in hE hin₃ hr) fun _ t₄ ht => ?_
      obtain ⟨hin₄, hnode₄⟩ := ht
      -- the reference to the old directory is given up
      have hperm : ((ip, i) :: w.refs).Perm
          (((w.proc p).cwd, c) :: (ip, i) :: w.refs.erase ((w.proc p).cwd, c)) :=
        ((List.perm_cons_erase h.cwd).cons _).trans (.swap _ _ _)
      refine wp_seq (iput_last (V := []) hE (hin₄.reorder hperm) hb.ops rfl h.fresh fun _ hjp => by
        cases hjp) fun _ t₅ ht => ?_
      obtain ⟨hin₅, hdrop⟩ := ht
      have heff : m.exact → Effect w.sb.ninodes R s.node t₅.node := fun hx => .none (by
        rw [← hsame₃ hx, ← hnode₄]
        exact hdrop.freed)
      generalize hrest : w.refs.erase ((w.proc p).cwd, c) = rest at hin₅ hperm
      have hin₅ : In m (World.begun { w with
          node := t₅.node, refs := (ip, i) :: rest, valid := [],
            anchors := ip :: rest.map Prod.fst }) t₅ :=
        hin₅
      refine wp_seq (end_in hin₅ fun u hu hun => hI _ u hu rfl fun hx => hun ▸ heff hx)
        fun _ t₆ ht => ?_
      obtain ⟨hin₆, hnode₆, -⟩ := ht
      rw [wp_bind, setProc, wp_setMem, wp_pure]
      have hdone := hin₆.setProc (p := p) (x := { t₆.mem.proc p with cwd := ip }) rfl
        (hin₆.inv.fds p)
      refine ⟨⟨.of_in hdone h.ops h.fresh ?_, ?_, fun hx => ?_⟩, fun hr => by cases hr⟩
      · obtain ⟨others, hothers⟩ := cwds_upd w.proc hp
        have hold := hothers (w.proc p)
        rw [upd_self, Proc.refs, if_pos hlive] at hold
        have hproc : t₆.mem.proc = w.proc := hin₆.proc
        have hnew := hothers { w.proc p with cwd := ip }
        rw [Proc.refs, if_pos (by exact hlive)] at hnew
        have hrefs : w.held.Perm ((w.proc p).cwd :: rest.map Prod.fst) := by
          rw [← hrest]
          exact (List.perm_cons_erase h.cwd).map Prod.fst
        have hsame : (rest.map Prod.fst).Perm others :=
          (hrefs.symm.trans (h.cwds.trans hold)).cons_inv
        rw [hproc]
        exact (hsame.cons ip).trans hnew.symm
      · show t₆.mem.sb = s.mem.sb
        rw [hin₆.sb, h.world.sb]
      · show Effect s.mem.sb.ninodes R s.node t₆.node
        rw [hnode₆, h.world.sb]
        exact heff hx

theorem execReads_in (h : In m w s) (ho : 1 ≤ w.ops)
    (hr : (ip, i) ∈ w.refs) (hv : ip ∈ w.valid) (reads : List (Nat × Nat))
    (hreads : ∀ r ∈ reads, r.2 < 2 ^ 32) :
    wp I (execReads ip reads) (fun _ t => In m w t ∧ t.node = s.node) E s := by
  induction reads generalizing s with
  | nil => exact (wp_pure _).mpr ⟨h, rfl⟩
  | cons r reads ih =>
    refine wp_seq (readi_in (.inr (h.trans' ho)) h hr hv (hreads r List.mem_cons_self))
      fun _ t ht => ?_
    refine wp_mono (ih ht.1 fun r hr => hreads r (List.mem_cons_of_mem _ hr))
      (fun _ u hu => ⟨hu.1, hu.2.trans ht.2.1⟩) fun _ _ he => he

theorem sysExec_in {path : Option (List UInt8)} {reads : List (Nat × Nat)} {ret : Int}
    (hE : Benign m.strict m.sound E) (h : Ready m w s p c) (hreads : ∀ r ∈ reads, r.2 < 2 ^ 32)
    (hI : Shows m w R s I) :
    wp I (sysExec p path reads ret) (Ended m R K s) E s := by
  cases path with
  | none => exact (wp_pure _).mpr (.refl h)
  | some path =>
    unfold sysExec
    refine wp_seq (begin_in h.world) fun _ t₁ ht => ?_
    obtain ⟨hin₁, hnode₁, -⟩ := ht
    have hb := h.base hnode₁
    rw [wp_bind, wp_proc, hin₁.proc]
    refine wp_seq (namei_in hE hin₁ hb.ops hb.rooted hb.root h.cwd) fun r t₂ ht => ?_
    rw [hnode₁] at ht
    obtain ⟨hsame₂, hres⟩ := ht
    cases r with
    | none => exact giveUp_in (v := w) h hres.1 rfl (fun hx => (hsame₂ hx).trans hnode₁) hI
    | some ip =>
      obtain ⟨i, known, hin₂, -⟩ := hres
      refine wp_seq (ilock_take hE hin₂) fun _ t₃ ht => ?_
      refine wp_seq (execReads_in ht.1 hb.ops List.mem_cons_self List.mem_cons_self reads hreads)
        fun _ t₄ ht' => ?_
      refine wp_seq (iunlockput_in hE ht'.1 hb.ops hb.closed) fun _ t₅ ht'' => ?_
      exact giveUp_in (v := w) h ht''.1 rfl (fun hx => (ht''.2 hx).trans (ht'.2.trans
        (ht.2.trans ((hsame₂ hx).trans hnode₁)))) hI

end

end Xv6.Fs
