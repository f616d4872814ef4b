import Xv6.Kernel.Fs.Names

/-! # What system calls do to the tree

Every system call makes at most one edit of the tree of nodes and frees inodes without
links; between system calls the only references outside open files are the current
directories. A call that fails leaves the tree, the descriptors and the current
directory as they were, except an `open` that made a file and then found no free file
structure or descriptor.
-/

namespace Xv6.Fs

open Lib

/-! ## Between system calls -/

/-- The references outside open files are the current directories, and no operation is open. -/
def Idle (m : Mode) (s : Store) : Prop :=
  ∃ R, In m ⟨s.mem.sb, 0, s.mem.ftable, s.mem.proc, s.node, R, [], [], R.map Prod.fst⟩ s ∧
    (R.map Prod.fst).Perm (cwds s.mem.proc)

/-- The world in which process `p`, whose current directory is inode `c`, makes a call. -/
structure Ready (m : Mode) (w : World) (s : Store) (p c : Nat) : Prop where
  world : In m w s
  ops : w.ops = 0
  all : w.anchors = w.held
  fresh : w.fresh = []
  cwds : w.held.Perm (cwds w.proc)
  cwd : ((w.proc p).cwd, c) ∈ w.refs
  root : rootIno < w.sb.ninodes
  small : m.exact → w.sb.ninodes ≤ 65536
  rooted : m.sound → m.exact ∧ Rooted s.node

structure Outcome (m : Mode) (R : Edit → Prop) (s t : Store) : Prop where
  idle : Idle m t
  sb : t.mem.sb = s.mem.sb
  effect : m.exact → Effect s.mem.sb.ninodes R s.node t.node

def Store.cwdOf (s : Store) (p : Nat) : Nat := (s.mem.itable (s.mem.proc p).cwd).inum

/-- The tree, the descriptors and the current directories are the same. -/
structure Same (s t : Store) : Prop where
  node : t.node = s.node
  proc : t.mem.proc = s.mem.proc
  cwd : ∀ p < nProc, (s.mem.proc p).live = true → t.cwdOf p = s.cwdOf p

theorem Same.refl (s : Store) : Same s s := ⟨rfl, rfl, fun _ _ _ => rfl⟩

/-- Every state that the call commits, with one edit that it asks for or none, meets `I`. -/
abbrev Shows (m : Mode) (w : World) (R : Edit → Prop) (s : Store) (I : Store → Prop) : Prop :=
  ∀ v t, In m v t → v.sb = w.sb → (m.exact → Effect w.sb.ninodes R s.node t.node) → I t

/-- What a system call returns; if it fails in a case of `K`, nothing has changed. -/
def Ended (m : Mode) (R : Edit → Prop) (K : Prop) (s : Store) (r : Int) (t : Store) : Prop :=
  Outcome m R s t ∧ (r = -1 → m.exact → K → Same s t)

section

variable {I : Store → Prop} {E : Stop → Store → Prop} {m : Mode} {w : World} {s t : Store}
  {p c ip i dp d : Nat} {R : Edit → Prop} {K : Prop} {r : Int}

theorem Idle.of_in (h : In m w t) (ho : w.ops = 0) (hfresh : w.fresh = [])
    (hcwd : w.held.Perm (cwds w.proc)) : Idle m t := by
  refine ⟨w.refs, ?_, ?_⟩
  · have hrest := (h.forget (V := []) (A := w.held) (fun _ hjp => by cases hjp) h.sub
      fun _ hjp => hjp).renode (N := t.node) fun hx => (h.node hx).symm
    rw [h.sb, h.ftable, h.proc, ← ho, ← hfresh]
    exact hrest
  · rw [h.proc]
    exact hcwd

theorem Idle.ready (h : Idle m s) (hp : p < nProc) (hlive : (s.mem.proc p).live = true)
    (hroot : rootIno < s.mem.sb.ninodes) (hsmall : m.exact → s.mem.sb.ninodes ≤ 65536)
    (hrooted : m.sound → m.exact ∧ Rooted s.node) :
    ∃ w c, Ready m w s p c ∧ w.sb = s.mem.sb ∧ w.ftable = s.mem.ftable ∧ w.proc = s.mem.proc ∧
      w.node = s.node := by
  obtain ⟨refs, hin, hperm⟩ := h
  have hmem : (s.mem.proc p).cwd ∈ cwds s.mem.proc := by
    refine List.mem_flatMap.mpr ⟨p, List.mem_range.mpr hp, ?_⟩
    rw [Proc.refs, if_pos hlive]
    exact List.mem_singleton_self _
  obtain ⟨⟨jp, c⟩, hjp, heq⟩ := List.mem_map.mp (hperm.mem_iff.mpr hmem)
  obtain rfl : jp = (s.mem.proc p).cwd := heq
  exact ⟨_, c, ⟨hin, rfl, rfl, rfl, hperm, hjp, hroot, hsmall, hrooted⟩, rfl, rfl, rfl, rfl⟩

theorem Ready.base (h : Ready m w s p c) (ht : t.node = s.node) : Base m w.begun t.node where
  ops := by
    show 1 ≤ w.ops + 1
    rw [h.ops]
    decide
  closed := ⟨h.world.closed.valid, h.world.closed.anchors⟩
  all := h.all
  fresh := h.fresh
  root := h.root
  small := h.small
  rooted := ht ▸ h.rooted

theorem Effect.none {n : Nat} {N N' : Nat → Node} (h : Freed N N') : Effect n R N N' :=
  ⟨N, .inl rfl, h⟩

theorem Effect.same {n : Nat} {N N' : Nat → Node} (h : N' = N) : Effect n R N N' := by
  rw [h]
  exact .none (.refl N)

theorem Ended.of_in {v : World} (h : Ready m w s p c) (hin : In m v t)
    (hv : v.ops = w.ops ∧ v.fresh = [] ∧ v.sb = w.sb) (hcwd : v.held.Perm (Fs.cwds v.proc))
    (heff : m.exact → Effect w.sb.ninodes R s.node t.node)
    (hfail : r = -1 → m.exact → K → t.node = s.node ∧ (v.proc, v.refs) = (w.proc, w.refs)) :
      Ended m R K s r t := by
  obtain ⟨hops, hfresh, hsb⟩ := hv
  refine ⟨⟨.of_in hin (hops.trans h.ops) hfresh hcwd, ?_, fun hx => ?_⟩, fun hr hx hK => ?_⟩
  · rw [hin.sb, hsb, h.world.sb]
  · rw [h.world.sb]
    exact heff hx
  · obtain ⟨hnode, heq⟩ := hfail hr hx hK
    obtain ⟨hproc, hrefs⟩ := Prod.mk.inj heq
    have hsame : t.mem.proc = s.mem.proc := by rw [hin.proc, hproc, h.world.proc]
    refine ⟨hnode, hsame, fun q hq hlive => ?_⟩
    -- the current directory of every process is among the references
    have hmem : (s.mem.proc q).cwd ∈ w.held := by
      refine h.cwds.mem_iff.mpr (List.mem_flatMap.mpr ⟨q, List.mem_range.mpr hq, ?_⟩)
      rw [← h.world.proc, Proc.refs, if_pos hlive]
      exact List.mem_singleton_self _
    obtain ⟨r, hr, hcwd⟩ := List.mem_map.mp hmem
    have hnew := hin.num_refs (hrefs ▸ hr)
    rw [Store.cwdOf, Store.cwdOf, hsame, ← hcwd, hnew, h.world.num_refs hr]

theorem finish_in {v : World} (h : Ready m w s p c) (hin : In m v.begun t)
    (hv : v.ops = w.ops ∧ v.fresh = [] ∧ v.sb = w.sb) (hcwd : v.held.Perm (Fs.cwds v.proc))
    (heff : m.exact → Effect w.sb.ninodes R s.node t.node)
    (hfail : r = -1 → m.exact → K → t.node = s.node ∧ (v.proc, v.refs) = (w.proc, w.refs))
    (hI : Shows m w R s I) :
    wp I (endOp >>= fun _ => (pure r : FsProg Int)) (Ended m R K s) E t := by
  refine wp_seq (end_in hin fun u hu hun => hI v u hu hv.2.2 fun hx => hun ▸ heff hx) fun _ u hu =>
    (wp_pure _).mpr (.of_in h hu.1 hv hcwd (fun hx => ?_) fun hr hx hK => ?_)
  · rw [hu.2.1]
    exact heff hx
  · rw [hu.2.1]
    exact hfail hr hx hK

theorem Ended.refl (h : Ready m w s p c) : Ended m R K s r s :=
  .of_in h h.world ⟨rfl, h.fresh, rfl⟩ h.cwds (fun _ => .same rfl) fun _ _ _ => ⟨rfl, rfl⟩

/-- A call gives up with everything as it was. -/
theorem giveUp_in {v : World} (h : Ready m w s p c) (hin : In m v.begun t)
    (hv : v = { w with node := v.node }) (hsame : m.exact → t.node = s.node)
    (hI : Shows m w R s I) :
    wp I (endOp >>= fun _ => (pure r : FsProg Int)) (Ended m R K s) E t := by
  refine finish_in h hin ?_ ?_ (fun hx => .same (hsame hx)) (fun _ hx _ => ⟨hsame hx, ?_⟩) hI
  · rw [hv]
    exact ⟨rfl, h.fresh, rfl⟩
  · rw [hv]
    exact h.cwds
  · rw [hv]

/-! ## Links -/

def World.linking (w : World) (ip i : Nat) (N : Nat → Node) : World :=
  { w.begun.lock ip i with node := N, anchors := ip :: w.held }

theorem Ready.linking_closed (h : Ready m w s p c) {N : Nat → Node} :
    (w.linking ip i N).Closed where
  valid jp hjp := by
    rcases List.mem_cons.mp hjp with rfl | hjp
    · exact List.mem_cons_self
    · exact List.mem_cons_of_mem _ (h.world.closed.valid jp hjp)
  anchors _ hjp := hjp

/-- The exit `bad` of `sys_link` takes the link back. -/
theorem linkBad_in {N : Nat → Node} (hE : Benign m.strict m.sound E) (h : Ready m w s p c)
    (hin : In m (w.linking ip i N) t)
    (hnode : m.exact → t.node = upd s.node i (s.node i).addLink)
    (hneed : m.exact → (s.node i).nlink = 0 → 0 < (openRefs w.ftable).count ip ∨ ip ∈ w.held)
    (hI : Shows m w R s I) :
    wp I (linkBad ip) (Ended m R K s) E t := by
  have hr : (ip, i) ∈ (w.linking ip i N).refs := List.mem_cons_self
  have hops : 1 ≤ w.ops + 1 := by
    rw [h.ops]
    decide
  unfold linkBad
  refine wp_seq (ilock_in hE hin hr) fun _ t₁ ht => ?_
  obtain ⟨hin₁, hnode₁⟩ := ht
  refine relink_then (g := fun l => l - 1) hin₁ hops hr List.mem_cons_self
    (fun _ _ => .inr List.mem_cons_self) fun t₂ hin₂ hnode₂ => ?_
  have hback : m.exact → t₂.node = s.node := fun hx => by
    have hti : t₁.node i = (s.node i).addLink := by rw [hnode₁, hnode hx, upd_same]
    have hsub : ({ t₁.node i with nlink := (t₁.node i).nlink - 1 } : Node) = s.node i := by
      rw [hti, Node.addLink, BitVec.add_sub_cancel]
    rw [hnode₂, hsub, hnode₁, hnode hx, upd_upd, upd_self]
  have hlock : In m (World.lock { w.begun with node := s.node } ip i) t₂ := by
    have hfew := (hin₂.unanchor (A := w.held) hr (fun jp hjp => List.mem_cons.mp hjp)
      (fun jp hjp => List.mem_cons_of_mem _ hjp) fun hx hz =>
        hneed hx (by rw [hback hx] at hz; exact hz)).forget (V := ip :: w.valid) (A := w.held)
      (fun jp hjp => List.mem_cons_of_mem _ hjp) (fun _ hjp => hjp)
      fun jp hjp => List.mem_cons_of_mem _ hjp
    have hnamed := hfew.renode (N := s.node) fun hx => (hfew.node hx).symm.trans (hback hx)
    rw [← h.all] at hnamed
    exact hnamed
  refine wp_seq (iunlockput_in hE hlock hops ⟨h.world.closed.valid, h.world.closed.anchors⟩)
    fun _ t₃ ht => ?_
  exact giveUp_in (v := { w with node := s.node }) h ht.1 rfl
    (fun hx => (ht.2 hx).trans (hback hx)) hI

theorem upd_nlink {N : Nat → Node} {l : BitVec 16} (j : Nat) :
    (upd N i { N i with nlink := l } j).type = (N j).type ∧
      (upd N i { N i with nlink := l } j).size = (N j).size ∧
      (upd N i { N i with nlink := l } j).byte = (N j).byte := by
  by_cases hj : j = i
  · rw [hj, upd_same]
    exact ⟨rfl, rfl, rfl⟩
  · rw [upd_other hj]
    exact ⟨rfl, rfl, rfl⟩

theorem lookup_congr {n n' : Node} (hsize : n'.size = n.size) (hbyte : n'.byte = n.byte)
    (name : List UInt8) : n'.lookup name = n.lookup name := by
  have hnum : ∀ j, entryInum n' j = entryInum n j := fun j => by
    unfold entryInum
    rw [hbyte]
  have hname : ∀ j, entryName n' j = entryName n j := fun j => by
    unfold entryName Node.slice
    rw [hbyte]
  have hmatch : entryMatches n' name = entryMatches n name := by
    funext j
    unfold entryMatches
    rw [hnum, hname]
  unfold Node.lookup
  rw [hsize, hmatch]
  congr 1
  funext j
  rw [hnum]

theorem Rooted.congr {N N' : Nat → Node} (h : Rooted N) (hN : ∀ j, (N' j).type = (N j).type ∧
    (N' j).size = (N j).size ∧ (N' j).byte = (N j).byte) : Rooted N' := by
  refine ⟨?_, fun d hd j hend hne => ?_⟩
  · rw [(hN rootIno).1]
    exact h.1
  · have hnum : entryInum (N' d) j = entryInum (N d) j := by
      unfold entryInum
      rw [(hN d).2.2]
    rw [(hN d).1] at hd
    rw [(hN d).2.1] at hend
    rw [hnum] at hne ⊢
    rw [(hN _).1]
    exact h.2 d hd j hend hne

theorem resolve_congr {N N' : Nat → Node} (hN : ∀ j, (N' j).type = (N j).type ∧
    (N' j).size = (N j).size ∧ (N' j).byte = (N j).byte) (path : List UInt8) (parent : Bool) :
    resolve N' c path parent = resolve N c path parent :=
  walk_congr (fun j => (hN j).1) (fun j name => lookup_congr (hN j).2.1 (hN j).2.2 name) _ _ _

theorem sysLink_in {old new : Option (List UInt8)} (hE : Benign m.strict m.sound E)
    (h : Ready m w s p c)
    (hR : ∀ path path' d k i name, old = some path → new = some path' →
      (resolve s.node c path false).map Prod.fst = some i →
      resolve s.node c path' true = some (d, name) → R (.link d k i name))
    (hI : Shows m w R s I) :
    wp I (sysLink p old new) (Ended m R K s) E s := by
  cases old with
  | none => exact (wp_pure _).mpr (.refl h)
  | some old =>
  cases new with
  | none => exact (wp_pure _).mpr (.refl h)
  | some new =>
    unfold sysLink
    refine wp_seq (begin_in h.world) fun _ t₁ ht => ?_
    obtain ⟨hin₁, hnode₁, hmem₁⟩ := ht
    have hb := h.base hnode₁
    rw [wp_bind, wp_proc, hin₁.proc]
    refine wp_seq (namei_in hE hin₁ hb.ops hb.rooted hb.root h.cwd) fun r t₂ ht => ?_
    rw [hnode₁] at ht
    obtain ⟨hsame₂, hres⟩ := ht
    cases r with
    | none => exact giveUp_in (v := w) h hres.1 rfl (fun hx => (hsame₂ hx).trans hnode₁) hI
    | some ip =>
      obtain ⟨i, known, hin₂, hold⟩ := hres
      refine wp_seq (ilock_take hE hin₂) fun _ t₃ ht => ?_
      obtain ⟨hin₃, hnode₃⟩ := ht
      have hsame₃ : m.exact → t₃.node = s.node := fun hx =>
        hnode₃.trans ((hsame₂ hx).trans hnode₁)
      have hr : (ip, i) ∈ (w.begun.lock ip i).refs := List.mem_cons_self
      have hv : ip ∈ (w.begun.lock ip i).valid := List.mem_cons_self
      have hdin : (t₃.mem.itable ip).din.type = (t₃.node i).type := by
        rw [hin₃.din hr hv]
        rfl
      rw [wp_bind, wp_inode, hdin]
      refine wp_ite (fun _ => ?_) fun hndir => ?_
      · refine wp_seq (iunlockput_in hE hin₃ hb.ops hb.closed) fun _ t₄ ht => ?_
        exact giveUp_in (v := w) h ht.1 rfl (fun hx => (ht.2 hx).trans (hsame₃ hx)) hI
      have hneed : m.exact → (s.node i).nlink = 0 →
          0 < (openRefs w.ftable).count ip ∨ ip ∈ w.held := fun hx hz => by
        rw [← hsame₃ hx] at hz
        rw [← h.all]
        exact hin₃.anchor_of hx hr hz
      have hall : In m (w.linking ip i w.node) t₃ :=
        hin₃.forget (fun _ hjp => hjp) (fun jp hjp => List.mem_cons_of_mem _ (h.all ▸ hjp))
          fun _ hjp => hjp
      refine relink_then (g := fun l => l + 1) hall hb.ops hr hv
        (fun _ _ => .inr List.mem_cons_self) fun t₄ hin₄ hnode₄ => ?_
      refine wp_seq (iunlock_in hE hin₄ hr) fun _ t₅ ht => ?_
      obtain ⟨hin₅, hnode₅⟩ := ht
      rw [hnode₄] at hnode₅
      have hsame₅ : m.exact → t₅.node = upd s.node i (s.node i).addLink := fun hx => by
        rw [hnode₅, hsame₃ hx]
        rfl
      have hrooted₅ : m.sound → m.exact ∧ Rooted t₅.node := fun hsd => by
        obtain ⟨hx, hroot⟩ := h.rooted hsd
        rw [hsame₅ hx]
        exact ⟨hx, hroot.congr upd_nlink⟩
      refine wp_seq (nameiparent_in hE hin₅ hb.ops hrooted₅ hb.root
        (List.mem_cons_of_mem _ h.cwd)) fun r t₆ ht => ?_
      obtain ⟨hsame₆, hres⟩ := ht
      cases r with
      | none => exact linkBad_in hE h hres.1 (fun hx => (hsame₆ hx).trans (hsame₅ hx)) hneed hI
      | some e =>
        obtain ⟨dp, name⟩ := e
        obtain ⟨d, known, hin₆, -, hpath⟩ := hres
        refine wp_seq (ilock_take hE hin₆) fun _ t₇ ht => ?_
        obtain ⟨hin₇, hnode₇⟩ := ht
        have hsame₇ : m.exact → t₇.node = upd s.node i (s.node i).addLink := fun hx =>
          hnode₇.trans ((hsame₆ hx).trans (hsame₅ hx))
        rw [wp_bind, wp_inode, hin₇.num_refs (List.mem_cons_of_mem _ hr)]
        have hlt : i < w.sb.ninodes := hin₃.num_lt (List.mem_append_left _ hr)
        refine wp_seq (dirlink_in hE hin₇ hb.ops List.mem_cons_self List.mem_cons_self
          (fun hsd hdir => ?_) (Nat.lt_of_le_of_lt (Nat.mod_le _ _) hlt)) fun r t₈ ht => ?_
        · obtain ⟨hx, hroot⟩ := hrooted₅ hsd
          rw [hsame₅ hx, ← hsame₇ hx] at hroot
          exact hroot.2 d hdir
        obtain ⟨hdir, ⟨rfl, hin₈, hsame₈, -⟩ | ⟨rfl, hlook, k, hfirst, hin₈, hnode₈⟩⟩ := ht
        · rw [if_pos (by decide)]
          refine wp_seq (iunlockput_in hE hin₈ hb.ops h.linking_closed) fun _ t₉ ht => ?_
          exact linkBad_in hE h ht.1 (fun hx => (ht.2 hx).trans ((hsame₈ hx).trans (hsame₇ hx)))
            hneed hI
        · rw [if_neg (by decide)]
          have hin₈ : In m (World.lock (w.linking ip i (upd (upd w.node i
              { t₃.node i with nlink := (t₃.node i).nlink + 1 }) d
              ((t₇.node d).setEntry k (direntBytes name i)))) dp d) t₈ := hin₈
          refine wp_seq (iunlockput_in hE hin₈ hb.ops h.linking_closed) fun _ t₉ ht => ?_
          refine wp_seq (iput_last (V := w.valid) hE ht.1 hb.ops rfl h.fresh fun jp hjp =>
            ⟨List.mem_cons_of_mem _ hjp, h.world.closed.valid jp hjp⟩) fun _ t₁₀ ht' => ?_
          refine finish_in (v := { w with node := t₁₀.node, anchors := w.held }) h ht'.1
            ⟨rfl, h.fresh, rfl⟩ h.cwds (fun hx => ⟨_, .inr ⟨.link d k i name, ?_, ?_, rfl⟩, ?_⟩)
            (fun hr => by cases hr) hI
          · have hnew : resolve s.node c new true = some (d, name) := by
              rw [← hpath hx, hsame₅ hx]
              exact (resolve_congr upd_nlink _ _).symm
            exact hR old new d k i name rfl rfl (hold hx) hnew
          · rw [hsame₇ hx] at hdir hlook hfirst
            have hndir : (s.node i).type ≠ tDir := by
              rw [← hsame₃ hx]
              exact hndir
            have hdi : d ≠ i := by
              rintro rfl
              rw [upd_same] at hdir
              exact hndir hdir
            rw [upd_other hdi] at hdir hlook hfirst
            refine ⟨hdir, ?_, hndir, hlt, hin₇.num_lt List.mem_cons_self, hlook, hfirst.1⟩
            rw [← hsame₃ hx]
            exact hin₃.alive hr
          · have hdrop := ht'.2.freed
            rw [ht.2 hx, hnode₈, hsame₇ hx] at hdrop
            exact hdrop

/-! ## Unlinking -/

theorem unlinkBad_in (hE : Benign m.strict m.sound E) (h : Ready m w s p c)
    (hin : In m (w.begun.lock dp d) t) (hsame : m.exact → t.node = s.node)
    (hI : Shows m w R s I) :
    wp I (unlinkBad dp) (Ended m R K s) E t := by
  have hb := h.base (t := s) rfl
  refine wp_seq (iunlockput_in hE hin hb.ops hb.closed) fun _ u hu => ?_
  exact giveUp_in (v := w) h hu.1 rfl (fun hx => (hu.2 hx).trans (hsame hx)) hI

def World.unlinking (w : World) (dp d ip i : Nat) (N : Nat → Node) : World :=
  { (w.begun.lock dp d).lock ip i with node := N, anchors := ip :: dp :: w.held }

/-- The directory may go before the link is taken away. -/
theorem Freed.sub {N N' : Nat → Node} (h : Drop d N N') (hi : (N' i).type ≠ 0) :
    Freed (upd N i (N i).subLink) (upd N' i (N' i).subLink) := by
  rcases h with rfl | ⟨htype, hlink, rfl⟩
  · exact .refl _
  have hdi : i ≠ d := by
    rintro rfl
    rw [upd_same] at hi
    exact hi rfl
  intro j
  by_cases hj : j = i
  · rw [hj, upd_same, upd_same, upd_other hdi]
    exact .inl rfl
  · rw [upd_other hj, upd_other hj]
    by_cases hjd : j = d
    · rw [hjd, upd_same]
      exact .inr ⟨htype, hlink, rfl⟩
    · rw [upd_other hjd]
      exact .inl rfl

theorem unlinkDrop_in {N : Nat → Node} (hE : Benign m.strict m.sound E) (h : Ready m w s p c)
    (hin : In m (w.unlinking dp d ip i N) t)
    (heff : m.exact → ∀ N', Freed (upd t.node i (t.node i).subLink) N' →
      Effect w.sb.ninodes R s.node N')
    (hI : Shows m w R s I) :
    wp I (unlinkDrop dp ip) (Ended m R K s) E t := by
  have hb := h.base (t := s) rfl
  have hswap := hin.reorder (List.Perm.swap (dp, d) (ip, i) w.refs)
  unfold unlinkDrop
  refine wp_seq (iunlockput_of (P := Drop d) hE hswap List.mem_cons_self fun t ht _ =>
    iput_last (V := ip :: w.valid) hE ht hb.ops rfl h.fresh fun jp hjp => ?_) fun _ t₁ ht => ?_
  · rcases List.mem_cons.mp hjp with rfl | hjp
    · exact ⟨List.mem_cons_self, List.mem_cons_self⟩
    · exact ⟨List.mem_cons_of_mem _ (List.mem_cons_of_mem _ hjp),
        List.mem_cons_of_mem _ (h.world.closed.valid jp hjp)⟩
  obtain ⟨hin₁, hdrop₁⟩ := ht
  refine relink_then (g := fun l => l - 1) hin₁ hb.ops (List.mem_cons_self (a := (ip, i)))
    List.mem_cons_self (fun _ _ => .inr List.mem_cons_self) fun t₂ hin₂ hnode₂ => ?_
  refine wp_seq (iunlockput_of (P := Drop i) hE hin₂ (List.mem_cons_self (a := (ip, i)))
    fun t ht _ => iput_last (V := w.valid) hE ht hb.ops rfl h.fresh fun jp hjp =>
      ⟨List.mem_cons_of_mem _ hjp, h.world.closed.valid jp hjp⟩) fun _ t₃ ht => ?_
  obtain ⟨hin₃, hdrop₃⟩ := ht
  refine finish_in (v := { w with node := t₃.node, anchors := w.held }) h hin₃
    ⟨rfl, h.fresh, rfl⟩ h.cwds (fun hx => heff hx _ ?_) (fun hr => by cases hr) hI
  have hfreed := Freed.sub (i := i) hdrop₁ (hin₁.alive (List.mem_cons_self (a := (ip, i))))
  have hlast := hdrop₃.freed
  rw [hnode₂] at hlast
  exact hfreed.trans hlast

theorem lookup_entry {n : Node} {name : List UInt8} {k : Nat} (h : n.lookup name = some (i, k)) :
    entryInum n k = i ∧ entryMatches n name k = true ∧ k < n.size / direntSize := by
  unfold Node.lookup at h
  obtain ⟨j, hfind, heq⟩ := Option.map_eq_some_iff.mp h
  obtain ⟨rfl, rfl⟩ := Prod.mk.inj heq
  exact ⟨rfl, List.find?_some hfind, List.mem_range.mp (List.mem_of_find?_eq_some hfind)⟩

theorem unlinkErase_in {isDir empty : Bool} {name : List UInt8} {k : Nat}
    (hE : Benign m.strict m.sound E) (h : Ready m w s p c)
    (hin : In m ((w.begun.lock dp d).lock ip i) t) (hsame : m.exact → t.node = s.node)
    (hisDir : isDir = true ↔ (t.node i).type = tDir)
    (hend : direntSize * k + direntSize ≤ (t.node d).size)
    (hok : empty = true → (Edit.unlink d k i name).Ok w.sb.ninodes t.node)
    (hR : m.exact → R (.unlink d k i name))
    (hI : Shows m w R s I) :
    wp I (unlinkErase dp ip (direntSize * k) isDir empty) (Ended m R K s) E t := by
  have hb := h.base (t := s) rfl
  have hr : (dp, d) ∈ ((w.begun.lock dp d).lock ip i).refs :=
    List.mem_cons_of_mem _ List.mem_cons_self
  have hv : dp ∈ ((w.begun.lock dp d).lock ip i).valid :=
    List.mem_cons_of_mem _ List.mem_cons_self
  have hclosed : (w.begun.lock dp d).Closed := by
    refine ⟨fun jp hjp => ?_, fun jp hjp => List.mem_cons_of_mem _ (h.world.closed.anchors jp hjp)⟩
    rcases List.mem_cons.mp hjp with rfl | hjp
    · exact List.mem_cons_self
    · exact List.mem_cons_of_mem _ (h.world.closed.valid jp hjp)
  unfold unlinkErase
  refine wp_ite (fun _ => ?_) fun hempty => ?_
  · refine wp_seq (iunlockput_in hE hin hb.ops hclosed) fun _ t₁ ht => ?_
    exact unlinkBad_in hE h ht.1 (fun hx => (ht.2 hx).trans (hsame hx)) hI
  replace hok := hok (by simpa using hempty)
  have hzero : numberOf (fun _ => (0 : UInt8)) < w.sb.ninodes :=
    Nat.lt_of_le_of_lt (Nat.zero_le _) h.root
  refine wp_seq (writeEntry_in hin hb.ops hr hv hzero (by omega)) fun r t₁ ht => ?_
  rcases ht with ⟨hne, -, -, hroom⟩ | ⟨rfl, hin₁, hnode₁⟩
  · rw [if_pos hne, wp_panic]
    cases hst : m.strict with
    | true => exact absurd hroom (hin.room hst hr hv hend)
    | false => exact hE.panic _ (by rw [hst]; decide) (by decide) _
  rw [if_neg (not_not.mpr rfl)]
  have hall : In m (w.unlinking dp d ip i (upd w.node d ((t.node d).setEntry k fun _ => 0))) t₁ :=
    hin₁.forget (fun _ hjp => hjp) (fun jp hjp => ?_) fun _ hjp => hjp
  · have heff : ∀ {u : Store}, (m.exact → upd u.node i (u.node i).subLink =
          (Edit.unlink d k i name).apply s.node) → m.exact → ∀ N',
        Freed (upd u.node i (u.node i).subLink) N' → Effect w.sb.ninodes R s.node N' := by
      intro u happly hx N' hfreed
      refine ⟨_, .inr ⟨.unlink d k i name, hR hx, hsame hx ▸ hok, rfl⟩, ?_⟩
      rw [← happly hx]
      exact hfreed
    refine wp_ite (fun hdir => ?_) fun hdir => ?_
    · refine relink_then (g := fun l => l - 1) hall hb.ops hr hv (fun _ _ => .inr ?_)
        fun t₂ hin₂ hnode₂ => unlinkDrop_in hE h hin₂ (heff fun hx => ?_) hI
      · exact List.mem_cons_of_mem _ List.mem_cons_self
      · rw [hisDir, hsame hx] at hdir
        rw [hnode₂, hnode₁, hsame hx, Edit.apply]
        simp only [if_pos hdir]
        rfl
    · refine unlinkDrop_in hE h hall (heff fun hx => ?_) hI
      rw [hisDir, hsame hx] at hdir
      rw [hnode₁, hsame hx, Edit.apply]
      simp only [if_neg hdir]
  · exact List.mem_cons_of_mem _ (List.mem_cons_of_mem _ (h.all ▸ hjp))

theorem sysUnlink_in {path : Option (List UInt8)} (hE : Benign m.strict m.sound E)
    (h : Ready m w s p c)
    (hR : ∀ path' d k i name, path = some path' →
      resolve s.node c path' true = some (d, name) → R (.unlink d k i name))
    (hI : Shows m w R s I) :
    wp I (sysUnlink p path) (Ended m R K s) E s := by
  cases path with
  | none => exact (wp_pure _).mpr (.refl h)
  | some path =>
    unfold sysUnlink
    refine wp_seq (begin_in h.world) fun _ t₁ ht => ?_
    obtain ⟨hin₁, hnode₁, -⟩ := ht
    have hb := h.base hnode₁
    rw [wp_bind, wp_proc, hin₁.proc]
    refine wp_seq (nameiparent_in hE hin₁ hb.ops hb.rooted hb.root h.cwd) fun r t₂ ht => ?_
    rw [hnode₁] at ht
    obtain ⟨hsame₂, hres⟩ := ht
    cases r with
    | none => exact giveUp_in (v := w) h hres.1 rfl (fun hx => (hsame₂ hx).trans hnode₁) hI
    | some e =>
      obtain ⟨dp, name⟩ := e
      obtain ⟨d, known, hin₂, -, hpath⟩ := hres
      refine wp_seq (ilock_take hE hin₂) fun _ t₃ ht => ?_
      obtain ⟨hin₃, hnode₃⟩ := ht
      have hsame₃ : m.exact → t₃.node = s.node := fun hx =>
        hnode₃.trans ((hsame₂ hx).trans hnode₁)
      refine wp_ite (fun _ => unlinkBad_in hE h hin₃ hsame₃ hI) fun hdots => ?_
      have hr : (dp, d) ∈ (w.begun.lock dp d).refs := List.mem_cons_self
      have hv : dp ∈ (w.begun.lock dp d).valid := List.mem_cons_self
      refine wp_seq (dirlookup_in hE (.inr (hin₃.trans' hb.ops)) hin₃ hr hv fun hsd hdir => ?_)
        fun r t₄ ht => ?_
      · obtain ⟨hx, hroot⟩ := h.rooted hsd
        rw [← hsame₃ hx] at hroot
        exact hroot.2 d hdir
      obtain ⟨hdir, hnode₄, hfound⟩ := ht
      have hsame₄ : m.exact → t₄.node = s.node := fun hx => hnode₄.trans (hsame₃ hx)
      cases r with
      | none => exact unlinkBad_in hE h hfound.1 hsame₄ hI
      | some e =>
        obtain ⟨ip, off⟩ := e
        obtain ⟨i, k, hlook, rfl, hin₄⟩ := hfound
        have hin₄ : In m ((w.begun.lock dp d).take false ip i) t₄ := hin₄
        show wp I (unlinkEntry dp ip (direntSize * k)) (Ended m R K s) E t₄
        rw [unlinkEntry_eq]
        refine wp_seq (ilock_take hE hin₄) fun _ t₅ ht => ?_
        obtain ⟨hin₅, hnode₅⟩ := ht
        have hsame₅ : m.exact → t₅.node = s.node := fun hx => hnode₅.trans (hsame₄ hx)
        rw [← hnode₄, ← hnode₅] at hlook hdir
        have hri : (ip, i) ∈ ((w.begun.lock dp d).lock ip i).refs := List.mem_cons_self
        have hvi : ip ∈ ((w.begun.lock dp d).lock ip i).valid := List.mem_cons_self
        have hrd : (dp, d) ∈ ((w.begun.lock dp d).lock ip i).refs := List.mem_cons_of_mem _ hr
        have hvd : dp ∈ ((w.begun.lock dp d).lock ip i).valid := List.mem_cons_of_mem _ hv
        have hdin : (t₅.mem.itable ip).din.type = (t₅.node i).type ∧
            (t₅.mem.itable ip).din.nlink = (t₅.node i).nlink := by
          rw [hin₅.din hri hvi]
          exact ⟨rfl, rfl⟩
        have hi : i < w.sb.ninodes := hin₅.num_lt (List.mem_append_left _ hri)
        have hd : d < w.sb.ninodes := hin₅.num_lt (List.mem_append_left _ hrd)
        obtain ⟨hdot, hdotdot⟩ := not_or.mp hdots
        simp only [Bool.not_eq_true] at hdot hdotdot
        rw [wp_bind, wp_inode, hdin.1, hdin.2]
        refine wp_ite (fun _ => ?_) fun hpos => ?_
        · exact hE.stops (by decide) (by decide)
        have hend : direntSize * k + direntSize ≤ (t₅.node d).size := by
          have hwhole := (hin₅.nodeOk hrd hvd).whole hdir
          exact (entry_end hwhole).mp ((entry_lt hwhole).mpr (lookup_entry hlook).2.2)
        have hok : ∀ u : Store, u.node = t₅.node →
            ((u.node i).type = tDir → (u.node i).Empty) →
            (Edit.unlink d k i name).Ok w.sb.ninodes u.node := fun u hu hempty => by
          rw [hu] at hempty ⊢
          exact ⟨hdir, hin₅.alive hri, hi, hd, by omega, hdot, hdotdot, hlook, hempty⟩
        have hedit : m.exact → R (.unlink d k i name) := fun hx =>
          hR path d k i name rfl (hpath hx)
        refine wp_ite (fun hty => ?_) fun hty => ?_
        · refine wp_seq (isdirempty_in hE (.inr (hin₅.trans' hb.ops)) hin₅ hri hvi hty)
            fun empty t₆ ht => ?_
          obtain ⟨hin₆, hnode₆, hempty⟩ := ht
          refine unlinkErase_in hE h hin₆ (fun hx => hnode₆.trans (hsame₅ hx)) ?_
            (by rw [hnode₆]; exact hend) (fun he => hok t₆ hnode₆ fun _ => ?_) hedit hI
          · rw [hnode₆]
            exact iff_of_true rfl hty
          · rw [hnode₆]
            exact hempty.mp he
        · exact unlinkErase_in hE h hin₅ hsame₅ (iff_of_false Bool.false_ne_true hty) hend
            (fun _ => hok t₅ rfl fun hdir => absurd hdir hty) hedit hI

end

end Xv6.Fs
