import Xv6.Kernel.Fs.Balance

/-! # What running code knows about the file system

The invariant of the file system speaks about counts of references; code that runs
knows more: which inodes its references are to, which of their copies are valid, and
what the nodes are. A `World` holds this, and every function of `fs.c` has one
statement about how it moves the world. A `Mode` says how much is claimed.

An inode without links is kept only by the references to it. In the exact mode every
such inode has a reference of an open file or one in the list `anchors`, so that giving
up any other reference frees nothing.
-/

namespace Xv6.Fs

open Lib

/-- How much is claimed: no file has a hole (`strict`); references are to allocated inodes
(`sound`); the nodes are known (`exact`); no changed block is released without being logged
(`clean`). -/
structure Mode where
  strict : Bool
  sound : Prop
  exact : Prop
  clean : Prop

/-- References are pairs of an entry of the inode table and the number of its inode; those in
`refs` are known to be to allocated inodes. -/
structure World where
  sb : Superblock
  ops : Int
  ftable : Nat → File
  proc : Nat → Proc
  node : Nat → Node
  refs : List (Nat × Nat)
  fresh : List (Nat × Nat)
  valid : List Nat
  anchors : List Nat

namespace World

def held (w : World) : List Nat := w.refs.map Prod.fst

def pending (w : World) : List Nat := w.fresh.map Prod.fst

end World

structure In (m : Mode) (w : World) (s : Store) : Prop where
  inv : Inv m.strict m.sound w.held w.pending s
  sb : s.mem.sb = w.sb
  ops : s.outstanding = w.ops
  ftable : s.mem.ftable = w.ftable
  proc : s.mem.proc = w.proc
  num : ∀ r ∈ w.refs ++ w.fresh, (s.mem.itable r.1).inum = r.2
  valid : ∀ ip ∈ w.valid, ip ∈ w.held ∧ (s.mem.itable ip).valid = true
  sub : ∀ ip ∈ w.anchors, ip ∈ w.held
  node : m.exact → s.node = w.node
  anchored : m.exact → ∀ i, (s.node i).type ≠ 0 → (s.node i).nlink = 0 →
    ∃ ip, s.mem.Holds ip i ∧ (0 < s.mem.fileRefs ip ∨ ip ∈ w.anchors)
  clean : m.clean → s.broken = false

section

variable {I : Store → Prop} {E : Stop → Store → Prop} {m : Mode} {w : World} {s t : Store}
  {ip i : Nat}

/-- A panic that can happen to any caller. -/
theorem Benign.stops {st : Bool} {nt : Prop} {α : Type} {Q : α → Store → Prop} {msg : String}
    (h : Benign st nt E) (hm : msg ∉ fatal true) (hn : msg ≠ "ilock: no type") :
    wp I (Fs.panic msg : FsProg α) Q E s := by
  rw [wp_panic]
  refine h.panic msg (fun hin => hm ?_) hn s
  cases st with
  | true => exact hin
  | false => exact List.mem_cons.mpr ((List.mem_cons.mp hin).imp id fun hnil => by cases hnil)

/-- The table of inodes may be full. -/
theorem Benign.full {st : Bool} {nt : Prop} (h : Benign st nt E) (t : Store) :
    E (.panic "iget: no inodes") t :=
  h.panic _ (by cases st <;> decide) (by decide) t

theorem In.trans' (h : In m w s) (ho : 1 ≤ w.ops) : s.Trans E := by
  left
  rw [h.ops]
  exact ho

theorem mem_held {r : Nat × Nat} (hr : r ∈ w.refs) : r.1 ∈ w.held := List.mem_map_of_mem hr

theorem In.ref_pos (h : In m w s) {r : Nat × Nat} (hr : r ∈ w.refs ++ w.fresh) :
    0 < (s.mem.itable r.1).ref := by
  apply h.inv.ref_pos
  rcases List.mem_append.mp hr with hr | hr
  · exact .inl (List.mem_map_of_mem hr)
  · exact .inr (List.mem_map_of_mem hr)

theorem In.num_refs (h : In m w s) {r : Nat × Nat} (hr : r ∈ w.refs) :
    (s.mem.itable r.1).inum = r.2 :=
  h.num r (List.mem_append_left _ hr)

theorem In.lt (h : In m w s) {r : Nat × Nat} (hr : r ∈ w.refs) : r.1 < nInode :=
  h.inv.lt r.1 (.inl (mem_held hr))

theorem In.holds (h : In m w s) (hr : (ip, i) ∈ w.refs) (hv : ip ∈ w.valid) :
    s.mem.Holds ip i :=
  ⟨h.lt hr, h.ref_pos (List.mem_append_left _ hr), (h.valid ip hv).2, h.num_refs hr⟩

theorem In.alive (h : In m w s) (hr : (ip, i) ∈ w.refs) : (s.node i).type ≠ 0 := by
  have halive := h.inv.alive ip (h.lt hr) (.inr (.inl (mem_held hr)))
  rw [h.num_refs hr] at halive
  rwa [s.node_type]

theorem In.num_lt (h : In m w s) {r : Nat × Nat} (hr : r ∈ w.refs ++ w.fresh) :
    r.2 < w.sb.ninodes := by
  have hlt : r.1 < nInode := by
    apply h.inv.lt
    rcases List.mem_append.mp hr with hr | hr
    · exact .inl (List.mem_map_of_mem hr)
    · exact .inr (List.mem_map_of_mem hr)
  have hnum := h.inv.inum r.1 hlt (h.ref_pos hr)
  rwa [h.num r hr, h.sb] at hnum

theorem fileRefs_congr {m m' : FsMem} (h : m'.ftable = m.ftable) (ip : Nat) :
    m'.fileRefs ip = m.fileRefs ip := by
  unfold FsMem.fileRefs
  rw [h]

/-- How a world follows a step of the store that leaves files and processes alone. -/
theorem In.next (h : In m w s) (w' : World)
    (hinv : Inv m.strict m.sound w'.held w'.pending t)
    (ho : Outline s t)
    (hconst : w'.sb = w.sb ∧ w'.ops = w.ops ∧ w'.ftable = w.ftable ∧ w'.proc = w.proc)
    (hnum : ∀ r ∈ w'.refs ++ w'.fresh, r ∈ w.refs ++ w.fresh ∨ (t.mem.itable r.1).inum = r.2)
    (hvalid : ∀ jp ∈ w'.valid, jp ∈ w'.held ∧ (jp ∈ w.valid ∨ (t.mem.itable jp).valid = true))
    (hsub : ∀ jp ∈ w'.anchors, jp ∈ w'.held) (hnode : m.exact → t.node = w'.node)
    (hanch : m.exact → ∀ j, (t.node j).type ≠ 0 → (t.node j).nlink = 0 →
      (∃ jp, s.mem.Holds jp j ∧ (0 < s.mem.fileRefs jp ∨ jp ∈ w'.anchors)) ∨
        ∃ jp, t.mem.Holds jp j ∧ (0 < t.mem.fileRefs jp ∨ jp ∈ w'.anchors))
    (hclean : m.clean → t.broken = false) : In m w' t := by
  obtain ⟨hsb, hops, hft, hpr⟩ := hconst
  have hpos : ∀ jp, jp ∈ w'.held ∨ jp ∈ w'.pending → 0 < (t.mem.itable jp).ref := fun jp hjp =>
    hinv.ref_pos hjp
  refine ⟨hinv, ?_, ?_, ?_, ?_, ?_, ?_, hsub, hnode, ?_, hclean⟩
  · rw [ho.sb, hsb, h.sb]
  · rw [ho.outstanding, hops, h.ops]
  · rw [ho.ftable, hft, h.ftable]
  · rw [ho.proc, hpr, h.proc]
  · intro r hr
    rcases hnum r hr with hold | hnew
    · have hin : r.1 ∈ w'.held ∨ r.1 ∈ w'.pending := by
        rcases List.mem_append.mp hr with hr | hr
        · exact .inl (List.mem_map_of_mem hr)
        · exact .inr (List.mem_map_of_mem hr)
      rw [(ho.entry r.1 (hinv.lt r.1 hin) (h.ref_pos hold) (hpos r.1 hin)).1]
      exact h.num r hold
    · exact hnew
  · intro jp hjp
    obtain ⟨hheld, hcase⟩ := hvalid jp hjp
    refine ⟨hheld, ?_⟩
    rcases hcase with hold | hnew
    · obtain ⟨hin, hv⟩ := h.valid jp hold
      have hs : 0 < (s.mem.itable jp).ref := h.inv.ref_pos (.inl hin)
      exact (ho.entry jp (hinv.lt jp (.inl hheld)) hs (hpos jp (.inl hheld))).2 hv
    · exact hnew
  · intro hx j htype hlink
    rcases hanch hx j htype hlink with ⟨jp, hh, hcase⟩ | hdone
    · have href : 0 < (t.mem.itable jp).ref := by
        rcases hcase with hfile | hmem
        · rw [hinv.refs jp hh.lt, fileRefs_congr ho.ftable]
          omega
        · exact hpos jp (.inl (hsub jp hmem))
      obtain ⟨hi, hv⟩ := ho.entry jp hh.lt hh.ref href
      refine ⟨jp, ⟨hh.lt, href, hv hh.valid, hi.trans hh.inum⟩, ?_⟩
      rw [fileRefs_congr ho.ftable]
      exact hcase
    · exact hdone

/-- A step that changes no node, in which no anchor goes. -/
theorem In.quiet (h : In m w s) (w' : World)
    (hinv : Inv m.strict m.sound w'.held w'.pending t)
    (hnode : t.node = s.node) (hf : Frame s t)
    (hconst : w'.sb = w.sb ∧ w'.ops = w.ops ∧ w'.ftable = w.ftable ∧ w'.proc = w.proc ∧
      w'.node = w.node)
    (hnum : ∀ r ∈ w'.refs ++ w'.fresh, r ∈ w.refs ++ w.fresh ∨ (t.mem.itable r.1).inum = r.2)
    (hvalid : ∀ jp ∈ w'.valid, jp ∈ w'.held ∧ (jp ∈ w.valid ∨ (t.mem.itable jp).valid = true))
    (hsub : ∀ jp ∈ w'.anchors, jp ∈ w'.held) (hanch : ∀ jp ∈ w.anchors, jp ∈ w'.anchors) :
    In m w' t := by
  obtain ⟨hsb, hops, hft, hpr, hn⟩ := hconst
  refine h.next w' hinv hf.toOutline ⟨hsb, hops, hft, hpr⟩ hnum hvalid hsub (fun hx => ?_)
    (fun hx j htype hlink => ?_) fun hc => ?_
  · rw [hnode, hn, h.node hx]
  · rw [hnode] at htype hlink
    obtain ⟨jp, hh, hcase⟩ := h.anchored hx j htype hlink
    exact .inl ⟨jp, hh, hcase.imp id (hanch jp)⟩
  · rw [hf.broken]
    exact h.clean hc

/-! ## References -/

theorem iget_in (hfull : s.mem.NoEntry → E (.panic "iget: no inodes") s) (h : In m w s)
    (hi : i < w.sb.ninodes) (hal : m.sound → (s.node i).type ≠ 0) :
    wp I (iget i) (fun jp t => In m { w with fresh := (jp, i) :: w.fresh } t ∧ t.node = s.node)
      E s := by
  refine iget_spec hfull h.inv (h.sb ▸ hi) (fun hs => by rw [← s.node_type]; exact hal hs)
    fun jp t hinv hnode hf hnum => ⟨?_, hnode⟩
  refine h.quiet { w with fresh := (jp, i) :: w.fresh } hinv hnode hf
    ⟨rfl, rfl, rfl, rfl, rfl⟩ (fun r hr => ?_) (fun kp hk => ⟨(h.valid kp hk).1, .inl hk⟩) h.sub
    fun _ hk => hk
  rcases List.mem_append.mp hr with hr | hr
  · exact .inl (List.mem_append_left _ hr)
  · rcases List.mem_cons.mp hr with rfl | hr
    · exact .inr hnum
    · exact .inl (List.mem_append_right _ hr)

theorem idup_in (h : In m w s) (hr : (ip, i) ∈ w.refs) :
    wp I (idup ip) (fun jp t => jp = ip ∧ In m { w with refs := (ip, i) :: w.refs } t ∧
      t.node = s.node) E s := by
  refine idup_spec h.inv (mem_held hr) fun t hinv hnode hf => ⟨rfl, ?_, hnode⟩
  refine h.quiet { w with refs := (ip, i) :: w.refs } hinv hnode hf
    ⟨rfl, rfl, rfl, rfl, rfl⟩ (fun r hr' => .inl ?_)
    (fun kp hk => ⟨List.mem_cons_of_mem _ (h.valid kp hk).1, .inl hk⟩)
    (fun kp hk => List.mem_cons_of_mem _ (h.sub kp hk)) fun _ hk => hk
  rcases List.mem_append.mp hr' with hr' | hr'
  · rcases List.mem_cons.mp hr' with rfl | hr'
    · exact List.mem_append_left _ hr
    · exact List.mem_append_left _ hr'
  · exact List.mem_append_right _ hr'

/-- `ilock` of an inode that is known to be allocated. -/
theorem ilock_in (hE : Benign m.strict m.sound E) (h : In m w s) (hr : (ip, i) ∈ w.refs) :
    wp I (ilock ip) (fun _ t => In m { w with valid := ip :: w.valid } t ∧
      t.node = s.node) E s := by
  have halive := h.alive hr
  rw [s.node_type] at halive
  have hnum : (s.mem.itable ip).inum = i := h.num_refs hr
  refine ilock_spec hE h.inv (h.lt hr) (h.ref_pos (List.mem_append_left _ hr))
    (fun hz => absurd (hnum ▸ hz) halive) fun t hinv hnode hf hh => ⟨?_, hnode⟩
  refine h.quiet { w with valid := ip :: w.valid } hinv hnode hf
    ⟨rfl, rfl, rfl, rfl, rfl⟩ (fun r hr' => .inl hr') (fun kp hk => ?_) h.sub fun _ hk => hk
  rcases List.mem_cons.mp hk with rfl | hk
  · exact ⟨mem_held hr, .inr hh.valid⟩
  · exact ⟨(h.valid kp hk).1, .inl hk⟩

/-- `ilock` of an inode that may be free: it is not, or the kernel panics. -/
theorem ilock_fresh {U : List (Nat × Nat)} (hE : Benign m.strict m.sound E) (h : In m w s)
    (hw : w.fresh = (ip, i) :: U) :
    wp I (ilock ip) (fun _ t => In m { w with
      refs := (ip, i) :: w.refs, fresh := U, valid := ip :: w.valid } t ∧ t.node = s.node) E s := by
  have hmem : (ip, i) ∈ w.refs ++ w.fresh := by
    rw [hw]
    exact List.mem_append_right _ List.mem_cons_self
  have hpend : w.pending = ip :: U.map Prod.fst := by
    rw [World.pending, hw]
    rfl
  have hinum := h.num _ hmem
  have hip : ip < nInode := h.inv.lt ip (.inr (by rw [hpend]; exact List.mem_cons_self))
  have hpos := h.ref_pos hmem
  dsimp only at hinum hpos
  refine ilock_spec hE h.inv hip hpos (fun hz => ?_) fun t hinv hnode hf hh => ?_
  · refine hE.noType fun hs => h.inv.alive ip hip (.inr (.inr ⟨hs, ?_⟩)) hz
    rw [hpend]
    exact List.mem_cons_self
  · rw [hpend] at hinv
    rw [hinum] at hh
    have htype : (t.inodeOf (t.mem.itable ip).inum).type ≠ 0 := by
      rw [hh.inum, ← t.node_type]
      exact (hinv.node_holds hh).2.1
    refine ⟨h.quiet { w with
      refs := (ip, i) :: w.refs, fresh := U, valid := ip :: w.valid } (hinv.promote htype) hnode hf
      ⟨rfl, rfl, rfl, rfl, rfl⟩ (fun r hr => .inl ?_) (fun kp hk => ?_)
      (fun kp hk => List.mem_cons_of_mem _ (h.sub kp hk)) fun _ hk => hk, hnode⟩
    · rcases List.mem_append.mp hr with hr | hr
      · rcases List.mem_cons.mp hr with rfl | hr
        · exact hmem
        · exact List.mem_append_left _ hr
      · rw [hw]
        exact List.mem_append_right _ (List.mem_cons_of_mem _ hr)
    · rcases List.mem_cons.mp hk with rfl | hk
      · exact ⟨List.mem_cons_self, .inr hh.valid⟩
      · exact ⟨List.mem_cons_of_mem _ (h.valid kp hk).1, .inl hk⟩

theorem iunlock_in (hE : Benign m.strict m.sound E) (h : In m w s) (hr : (ip, i) ∈ w.refs) :
    wp I (iunlock ip) (fun _ t => In m w t ∧ t.node = s.node) E s :=
  iunlock_spec hE h.inv (h.lt hr) (h.ref_pos (List.mem_append_left _ hr))
    fun _ hinv hnode hf => ⟨h.quiet w hinv hnode hf ⟨rfl, rfl, rfl, rfl, rfl⟩
      (fun _ hr' => .inl hr')
      (fun kp hk => ⟨(h.valid kp hk).1, .inl hk⟩) h.sub fun _ hk => hk, hnode⟩

theorem Inv.perm {st : Bool} {nt : Prop} {L L' U : List Nat} (h : Inv st nt L U s)
    (hl : L.Perm L') : Inv st nt L' U s := by
  refine ⟨h.disk, h.uniq, h.held, h.touched, h.inum, h.coh, h.type,
    fun jp hjp => ?_, fun jp hjp => ?_,
    fun jp hjp hc => ?_, h.idle, h.files, h.writers, h.fds, h.dirs⟩
  · rw [h.refs jp hjp, hl.count_eq]
  · exact h.lt jp (hjp.imp hl.mem_iff.mpr id)
  · exact h.alive jp hjp (hc.imp id (Or.imp hl.mem_iff.mpr id))

theorem In.reorder (h : In m w s) {R : List (Nat × Nat)} (hr : w.refs.Perm R) :
    In m { w with refs := R } s := by
  have hheld : w.held.Perm (R.map Prod.fst) := hr.map Prod.fst
  refine ⟨h.inv.perm hheld, h.sb, h.ops, h.ftable, h.proc, fun r hr' => ?_, fun jp hjp => ?_,
    fun jp hjp => hheld.mem_iff.mp (h.sub jp hjp), h.node, h.anchored, h.clean⟩
  · apply h.num
    rcases List.mem_append.mp hr' with hr' | hr'
    · exact List.mem_append_left _ (hr.mem_iff.mpr hr')
    · exact List.mem_append_right _ hr'
  · exact ⟨hheld.mem_iff.mp (h.valid jp hjp).1, (h.valid jp hjp).2⟩

/-- Less is remembered about copies, and more references count as anchors. -/
theorem In.forget (h : In m w s) {V A : List Nat} (hV : ∀ jp ∈ V, jp ∈ w.valid)
    (hA : ∀ jp ∈ w.anchors, jp ∈ A) (hsub : ∀ jp ∈ A, jp ∈ w.held) :
    In m { w with valid := V, anchors := A } s := by
  refine ⟨h.inv, h.sb, h.ops, h.ftable, h.proc, h.num, fun jp hjp => h.valid jp (hV jp hjp), hsub,
    h.node, fun hx i htype hlink => ?_, h.clean⟩
  obtain ⟨jp, hh, hcase⟩ := h.anchored hx i htype hlink
  exact ⟨jp, hh, hcase.imp id (hA jp)⟩

/-- A reference that is not the last one, because of an anchor, frees nothing. -/
theorem In.put_keeps {L' U' : List Nat} (h : In m w s) (hx : m.exact)
    (hnum : (s.mem.itable ip).inum = i) (hl : OneLess ip w.held w.pending L' U')
    (hsub : ∀ jp ∈ w.anchors, jp ∈ L') (hput : Put ip i s t) : t.node = s.node := by
  rcases hput with ⟨-, hsame⟩ | ⟨hone, htype, hlink, -⟩
  · exact hsame
  · exfalso
    obtain ⟨jp, hh, hcase⟩ := h.anchored hx i htype hlink
    obtain ⟨hip, hpos⟩ := h.inv.one_ref hl
    obtain rfl := h.inv.uniq jp ip hh.lt hip hh.ref hpos (hh.inum.trans hnum.symm)
    have href := h.inv.refs jp hip
    have hcount := hl.count jp
    rw [if_pos rfl] at hcount
    rw [hone] at href
    rcases hcase with hfile | hmem
    · omega
    · have hmore := List.count_pos_iff.mpr (hsub jp hmem)
      omega

theorem In.putNext {v : World} (h : In m w s) (hnum : (s.mem.itable ip).inum = i)
    (hl : OneLess ip w.held w.pending v.held v.pending)
      (hinv : Inv m.strict m.sound v.held v.pending t)
    (hf : Frame s t) (hput : Put ip i s t)
    (hv : v = { w with refs := v.refs, fresh := v.fresh, valid := v.valid })
    (hmem : ∀ r ∈ v.refs ++ v.fresh, r ∈ w.refs ++ w.fresh)
    (hvalid : ∀ jp ∈ v.valid, jp ∈ w.valid ∧ jp ∈ v.held)
    (hsub : ∀ jp ∈ w.anchors, jp ∈ v.held) : In m v t ∧ (m.exact → t.node = s.node) := by
  have hsame : m.exact → t.node = s.node := fun hx => h.put_keeps hx hnum hl hsub hput
  have hnode : v.node = w.node := by rw [hv]
  have hanch : v.anchors = w.anchors := by rw [hv]
  refine ⟨h.next v hinv hf.toOutline ⟨by rw [hv], by rw [hv], by rw [hv], by rw [hv]⟩
    (fun r hr => .inl (hmem r hr)) (fun jp hjp => ⟨(hvalid jp hjp).2, .inl (hvalid jp hjp).1⟩)
    (fun jp hjp => hsub jp (hanch ▸ hjp)) (fun hx => ?_) (fun hx j htype hlink => ?_) fun hc => ?_,
    hsame⟩
  · rw [hsame hx, hnode, h.node hx]
  · rw [hsame hx] at htype hlink
    rw [hanch]
    exact .inl (h.anchored hx j htype hlink)
  · rw [hf.broken]
    exact h.clean hc

theorem oneLess_refs {R : List (Nat × Nat)} (hw : w.refs = (ip, i) :: R) :
    OneLess ip w.held w.pending (R.map Prod.fst) w.pending := by
  have hheld : w.held = ip :: R.map Prod.fst := by
    rw [World.held, hw]
    rfl
  refine ⟨fun jp => ?_, fun jp => ⟨fun hjp => ?_, id⟩⟩
  · rw [hheld, List.count_cons]
    by_cases heq : jp = ip
    · rw [heq, beq_self_eq_true, if_pos rfl, if_pos rfl]
      omega
    · rw [if_neg heq, if_neg (by simpa using Ne.symm heq)]
      omega
  · rw [hheld]
    exact List.mem_cons_of_mem _ hjp

theorem oneLess_fresh {U : List (Nat × Nat)} (hw : w.fresh = (ip, i) :: U) :
    OneLess ip w.held w.pending w.held (U.map Prod.fst) := by
  have hpend : w.pending = ip :: U.map Prod.fst := by
    rw [World.pending, hw]
    rfl
  refine ⟨fun jp => ?_, fun jp => ⟨id, fun hjp => ?_⟩⟩
  · rw [hpend, List.count_cons]
    by_cases heq : jp = ip
    · rw [heq, beq_self_eq_true, if_pos rfl, if_pos rfl]
      omega
    · rw [if_neg heq, if_neg (by simpa using Ne.symm heq)]
      omega
  · rw [hpend]
    exact List.mem_cons_of_mem _ hjp

/-- `iput` of a reference while the anchors stay. -/
theorem iput_in {R : List (Nat × Nat)} {V : List Nat} (hE : Benign m.strict m.sound E)
    (h : In m w s) (ho : 1 ≤ w.ops) (hw : w.refs = (ip, i) :: R)
    (hsub : ∀ jp ∈ w.anchors, jp ∈ R.map Prod.fst)
    (hV : ∀ jp ∈ V, jp ∈ w.valid ∧ jp ∈ R.map Prod.fst) :
    wp I (iput ip) (fun _ t => In m { w with refs := R, valid := V } t ∧
      (m.exact → t.node = s.node)) E s := by
  have hnum : (s.mem.itable ip).inum = i :=
    h.num_refs (r := (ip, i)) (by rw [hw]; exact List.mem_cons_self)
  refine iput_gen (fun _ => hE.deadlock s) (h.trans' ho) h.inv (oneLess_refs hw)
    fun t hinv hf hput => ?_
  rw [hnum] at hput
  refine h.putNext (v := { w with refs := R, valid := V }) hnum (oneLess_refs hw) hinv hf hput rfl
    (fun r hr => ?_) hV hsub
  rw [hw]
  rcases List.mem_append.mp hr with hr | hr
  · exact List.mem_append_left _ (List.mem_cons_of_mem _ hr)
  · exact List.mem_append_right _ hr

/-- `iput` of a reference that was just looked up. -/
theorem iput_fresh {U : List (Nat × Nat)} (hE : Benign m.strict m.sound E)
    (h : In m w s) (ho : 1 ≤ w.ops) (hw : w.fresh = (ip, i) :: U) :
    wp I (iput ip) (fun _ t => In m { w with fresh := U } t ∧ (m.exact → t.node = s.node)) E s := by
  have hmem : (ip, i) ∈ w.refs ++ w.fresh := by
    rw [hw]
    exact List.mem_append_right _ List.mem_cons_self
  have hnum : (s.mem.itable ip).inum = i := h.num _ hmem
  refine iput_gen (fun _ => hE.deadlock s) (h.trans' ho) h.inv (oneLess_fresh hw)
    fun t hinv hf hput => ?_
  rw [hnum] at hput
  refine h.putNext (v := { w with fresh := U }) hnum (oneLess_fresh hw) hinv hf hput rfl
    (fun r hr => ?_) (fun jp hjp => ⟨hjp, (h.valid jp hjp).1⟩) h.sub
  rw [hw]
  rcases List.mem_append.mp hr with hr | hr
  · exact List.mem_append_left _ hr
  · exact List.mem_append_right _ (List.mem_cons_of_mem _ hr)

/-- The inode is freed, if it has no links, or nothing happens. -/
def Drop (i : Nat) (N N' : Nat → Node) : Prop :=
  N' = N ∨ (N i).type ≠ 0 ∧ (N i).nlink = 0 ∧ N' = upd N i Node.free

/-- `iput` of a reference that may be the last one. -/
theorem iput_last {R : List (Nat × Nat)} {V : List Nat} (hE : Benign m.strict m.sound E)
    (h : In m w s) (ho : 1 ≤ w.ops) (hw : w.refs = (ip, i) :: R) (hfresh : w.fresh = [])
    (hV : ∀ jp ∈ V, jp ∈ w.valid ∧ jp ∈ R.map Prod.fst) :
    wp I (iput ip) (fun _ t => In m { w with
      refs := R, valid := V, node := t.node, anchors := R.map Prod.fst } t ∧
      Drop i s.node t.node) E s := by
  have hmem : (ip, i) ∈ w.refs := by
    rw [hw]
    exact List.mem_cons_self
  have hnum : (s.mem.itable ip).inum = i := h.num_refs hmem
  have hheld : w.held = ip :: R.map Prod.fst := by
    rw [World.held, hw]
    rfl
  refine iput_gen (fun _ => hE.deadlock s) (h.trans' ho) h.inv (oneLess_refs hw)
    fun t hinv hf hput => ?_
  rw [hnum] at hput
  refine ⟨h.next { w with refs := R, valid := V, node := t.node, anchors := R.map Prod.fst } hinv
    hf.toOutline ⟨rfl, rfl, rfl, rfl⟩ (fun r hr => .inl ?_)
    (fun jp hjp => ⟨(hV jp hjp).2, .inl (hV jp hjp).1⟩) (fun _ hjp => hjp) (fun _ => rfl)
    (fun hx j htype hlink => .inl ?_) fun hc => ?_, ?_⟩
  · rw [hw]
    rcases List.mem_append.mp hr with hr | hr
    · exact List.mem_append_left _ (List.mem_cons_of_mem _ hr)
    · exact List.mem_append_right _ hr
  · rcases hput with ⟨hnot, hsame⟩ | ⟨-, -, -, hfreed⟩
    · rw [hsame] at htype hlink
      obtain ⟨jp, hh, hcase⟩ := h.anchored hx j htype hlink
      refine ⟨jp, hh, ?_⟩
      rcases hcase with hfile | hin
      · exact .inl hfile
      · have hin := h.sub jp hin
        rw [hheld] at hin
        rcases List.mem_cons.mp hin with rfl | hin
        · -- a valid inode without links that was not freed has another reference
          obtain rfl : j = i := hh.inum.symm.trans hnum
          have hdin : (s.mem.itable jp).din.nlink = 0 := by
            obtain ⟨hn, -, hd⟩ := h.inv.node_holds hh
            rw [hd]
            rw [hn] at hlink
            exact hlink
          have hmany : (s.mem.itable jp).ref ≠ 1 := fun hone => hnot ⟨hone, hh.valid, hdin⟩
          by_contra hout
          obtain ⟨hfile, hout⟩ := not_or.mp hout
          have href := h.inv.refs jp hh.lt
          have hpend : w.pending = [] := by
            rw [World.pending, hfresh]
            rfl
          rw [hheld, hpend, List.count_cons_self, List.count_eq_zero_of_not_mem hout,
            List.count_nil] at href
          omega
        · exact .inr hin
    · rw [hfreed] at htype hlink
      have hj : j ≠ i := by
        rintro rfl
        rw [upd_same] at htype
        exact htype rfl
      rw [upd_other hj] at htype hlink
      obtain ⟨jp, hh, hcase⟩ := h.anchored hx j htype hlink
      refine ⟨jp, hh, hcase.imp id fun hin => ?_⟩
      have hin := h.sub jp hin
      rw [hheld] at hin
      rcases List.mem_cons.mp hin with rfl | hin
      · exact absurd (hh.inum.symm.trans hnum) hj
      · exact hin
  · rw [hf.broken]
    exact h.clean hc
  · rcases hput with ⟨-, hsame⟩ | ⟨-, htype, hlink, hfreed⟩
    · exact .inl hsame
    · exact .inr ⟨htype, hlink, hfreed⟩

/-- An inode without links that the code refers to is kept by an open file or an anchor. -/
theorem In.anchor_of (h : In m w s) (hx : m.exact) (hr : (ip, i) ∈ w.refs)
    (hlink : (s.node i).nlink = 0) : 0 < (openRefs w.ftable).count ip ∨ ip ∈ w.anchors := by
  obtain ⟨jp, hh, hcase⟩ := h.anchored hx i (h.alive hr) hlink
  have hpos := h.ref_pos (List.mem_append_left _ hr)
  obtain rfl := h.inv.uniq jp ip hh.lt (h.lt hr) hh.ref hpos (hh.inum.trans (h.num_refs hr).symm)
  rwa [fileRefs_eq_count, h.ftable] at hcase

/-- An anchor that is not needed is let go. -/
theorem In.unanchor {A : List Nat} (h : In m w s) (hr : (ip, i) ∈ w.refs)
    (hA : ∀ jp ∈ w.anchors, jp = ip ∨ jp ∈ A) (hsub : ∀ jp ∈ A, jp ∈ w.held)
    (hneed : m.exact → (s.node i).nlink = 0 → 0 < (openRefs w.ftable).count ip ∨ ip ∈ A) :
    In m { w with anchors := A } s := by
  refine ⟨h.inv, h.sb, h.ops, h.ftable, h.proc, h.num, h.valid, hsub, h.node,
    fun hx j htype hlink => ?_, h.clean⟩
  obtain ⟨jp, hh, hcase⟩ := h.anchored hx j htype hlink
  refine ⟨jp, hh, ?_⟩
  rcases hcase with hfile | hmem
  · exact .inl hfile
  rcases hA jp hmem with rfl | hmem
  · obtain rfl : j = i := hh.inum.symm.trans (h.num_refs hr)
    rw [fileRefs_eq_count, h.ftable]
    exact hneed hx hlink
  · exact .inr hmem

/-- `iput` of the only reference to an inode without links frees it. -/
theorem iput_free {R : List (Nat × Nat)} {V A : List Nat} (hE : Benign m.strict m.sound E)
    (h : In m w s) (ho : 1 ≤ w.ops) (hw : w.refs = (ip, i) :: R) (hv : ip ∈ w.valid)
    (hlink : (s.node i).nlink = 0) (hfresh : w.fresh = []) (hR : ip ∉ R.map Prod.fst)
    (hfile : (openRefs w.ftable).count ip = 0)
    (hV : ∀ jp ∈ V, jp ∈ w.valid ∧ jp ∈ R.map Prod.fst)
    (hA : ∀ jp ∈ w.anchors, jp = ip ∨ jp ∈ A) (hsub : ∀ jp ∈ A, jp ∈ R.map Prod.fst) :
    wp I (iput ip) (fun _ t => In m { w with
      refs := R, valid := V, node := upd w.node i Node.free, anchors := A } t ∧
      t.node = upd s.node i Node.free) E s := by
  have hmem : (ip, i) ∈ w.refs := by
    rw [hw]
    exact List.mem_cons_self
  have hnum : (s.mem.itable ip).inum = i := h.num_refs hmem
  have hh := h.holds hmem hv
  have hlast : s.mem.LastRef ip := by
    have href := h.inv.refs ip hh.lt
    have hheld : w.held = ip :: R.map Prod.fst := by
      rw [World.held, hw]
      rfl
    have hpend : w.pending = [] := by
      rw [World.pending, hfresh]
      rfl
    rw [fileRefs_eq_count, h.ftable, hfile, hheld, hpend, List.count_cons_self,
      List.count_eq_zero_of_not_mem hR, List.count_nil] at href
    refine ⟨by omega, hh.valid, ?_⟩
    obtain ⟨hn, -, hd⟩ := h.inv.node_holds hh
    rw [hd]
    rw [hn] at hlink
    exact hlink
  refine iput_gen (fun _ => hE.deadlock s) (h.trans' ho) h.inv (oneLess_refs hw)
    fun t hinv hf hput => ?_
  rw [hnum] at hput
  obtain ⟨-, -, -, hfreed⟩ := hput.resolve_left fun hkeep => hkeep.1 hlast
  refine ⟨h.next { w with refs := R, valid := V, node := upd w.node i Node.free, anchors := A } hinv
    hf.toOutline ⟨rfl, rfl, rfl, rfl⟩ (fun r hr => .inl ?_)
    (fun jp hjp => ⟨(hV jp hjp).2, .inl (hV jp hjp).1⟩) hsub (fun hx => ?_)
    (fun hx j htype hzero => .inl ?_) fun hc => ?_, hfreed⟩
  · rw [hw]
    rcases List.mem_append.mp hr with hr | hr
    · exact List.mem_append_left _ (List.mem_cons_of_mem _ hr)
    · exact List.mem_append_right _ hr
  · rw [hfreed, h.node hx]
  · rw [hfreed] at htype hzero
    have hj : j ≠ i := by
      rintro rfl
      rw [upd_same] at htype
      exact htype rfl
    rw [upd_other hj] at htype hzero
    obtain ⟨jp, hjp, hcase⟩ := h.anchored hx j htype hzero
    refine ⟨jp, hjp, hcase.imp id fun hin => (hA jp hin).resolve_left ?_⟩
    rintro rfl
    exact hj (hjp.inum.symm.trans hnum)
  · rw [hf.broken]
    exact h.clean hc

/-! ## Work on one inode -/

def World.setNode (w : World) (i : Nat) (n : Node) : World := { w with node := upd w.node i n }

/-- How a world follows work on one inode. -/
theorem In.did {n : Node} (h : In m w s) (hd : Did m.strict m.sound w.held w.pending ip i n s t)
    (hbr : m.clean → t.broken = s.broken)
    (hlink : m.exact → n.type ≠ 0 → n.nlink = 0 →
      (s.node i).type ≠ 0 ∧ (s.node i).nlink = 0 ∨ ip ∈ w.anchors) : In m (w.setNode i n) t := by
  refine h.next (w.setNode i n) hd.inv hd.outline ⟨rfl, rfl, rfl, rfl⟩ (fun r hr => .inl hr)
    (fun jp hjp => ⟨(h.valid jp hjp).1, .inl hjp⟩) h.sub (fun hx => ?_)
    (fun hx j htype hzero => ?_) fun hc => ?_
  · rw [hd.node, h.node hx]
    rfl
  · rw [hd.node] at htype hzero
    by_cases hj : j = i
    · rw [hj, upd_same] at htype hzero
      rcases hlink hx htype hzero with ⟨htype', hzero'⟩ | hin
      · left
        rw [hj]
        exact h.anchored hx i htype' hzero'
      · right
        rw [hj]
        exact ⟨ip, hd.holds, .inr hin⟩
    · rw [upd_other hj] at htype hzero
      exact .inl (h.anchored hx j htype hzero)
  · rw [hbr hc]
    exact h.clean hc

theorem In.did_same (h : In m w s)
    (hd : Did m.strict m.sound w.held w.pending ip i (s.node i) s t)
    (hbr : t.broken = s.broken) : In m w t ∧ t.node = s.node := by
  have hnode : t.node = s.node := by rw [hd.node, upd_self]
  refine ⟨h.quiet w hd.inv hnode ⟨hd.outline, hbr⟩ ⟨rfl, rfl, rfl, rfl, rfl⟩ (fun r hr => .inl hr)
    (fun jp hjp => ⟨(h.valid jp hjp).1, .inl hjp⟩) h.sub fun _ hjp => hjp, hnode⟩

theorem readi_in {dst : Dst} {off n : Nat} (ho : m.strict = true ∨ s.Trans E) (h : In m w s)
    (hr : (ip, i) ∈ w.refs) (hv : ip ∈ w.valid) (hn : n < 2 ^ 32) :
    wp I (readi ip dst off n) (fun r t => In m w t ∧ t.node = s.node ∧ (m.strict = true → t = s) ∧
      ReadBytes m.strict dst (s.node i) off (readLen (s.node i).size off n) r t) E s := by
  refine readi_inv ho h.inv (h.holds hr hv) hn fun r t hd hbr hsame hb => ?_
  obtain ⟨hin, hnode⟩ := h.did_same hd hbr
  exact ⟨hin, hnode, hsame, hb⟩

theorem update_in {g : Dinode → Dinode} (h : In m w s) (ho : 1 ≤ w.ops) (hr : (ip, i) ∈ w.refs)
    (hv : ip ∈ w.valid)
    (hg : ∀ x, (g x).addrs = x.addrs ∧ (g x).type = x.type ∧ (g x).size = x.size) {n : Node}
    (hn : n = { s.node i with
      major := (g (s.inodeOf i)).major, minor := (g (s.inodeOf i)).minor
      nlink := (g (s.inodeOf i)).nlink })
    (hlink : m.exact → n.nlink = 0 → (s.node i).nlink = 0 ∨ ip ∈ w.anchors) :
    wp I (setDin ip g) (fun _ t => wp I (iupdate ip)
      (fun _ t => In m (w.setNode i n) t ∧ t.node = upd s.node i n) E t) E s := by
  refine update_inv (h.trans' ho) h.inv (h.holds hr hv) hg fun t hd hbr => ?_
  rw [← hn] at hd
  refine ⟨h.did hd (fun _ => hbr) fun hx _ hzero => ?_, hd.node⟩
  exact (hlink hx hzero).imp (fun hold => ⟨h.alive hr, hold⟩) id

/-- What a write leaves: `tot` bytes are in the file, and `cnt` more of a block that could not
be copied as a whole. -/
def Node.written (n : Node) (src : Src) (off tot cnt : Nat) : Node :=
  { n with
    size := max n.size (off + tot)
    byte := splice n.byte off (tot + cnt) src.byte }

theorem writei_in {src : Src} {off n : Nat} (h : In m w s) (ho : 1 ≤ w.ops)
    (hr : (ip, i) ∈ w.refs) (hv : ip ∈ w.valid) (hn : n < 2 ^ 32)
    (hdir : (s.node i).type = tDir → entryWrite w.sb.ninodes src off n)
    (hclean : m.clean → NoTear s i src off n) :
    wp I (writei ip src off n) (fun r t =>
      (WriteBad (s.node i).size off n ∧ r = -1 ∧ t = s) ∨
      (¬ WriteBad (s.node i).size off n ∧ ∃ P tot cnt, r = (tot : Nat) ∧
        Written m.strict P ip i src off n s tot cnt t ∧
        In m (w.setNode i ((s.node i).written src off tot cnt)) t ∧
        t.node = upd s.node i ((s.node i).written src off tot cnt))) E s := by
  rw [← h.sb] at hdir
  refine writei_inv (h.trans' ho) h.inv (h.holds hr hv) hn hdir (fun hbad => .inl ⟨hbad, rfl, rfl⟩)
    fun P tot cnt t hgood hw hd => .inr ⟨hgood, P, tot, cnt, rfl, hw, ?_, hd.node⟩
  exact h.did hd (fun hc => hw.sound (hclean hc)) fun _ htype hzero => .inl ⟨htype, hzero⟩

/-! ## Allocation -/

/-- `ialloc` has taken inode `i`, which has no valid copy in its entry yet. -/
structure Claimed (m : Mode) (w : World) (type : BitVec 16) (ip i : Nat) (s t : Store) : Prop where
  pos : 0 < i
  lt : i < w.sb.ninodes
  free : s.node i = Node.free
  inv : Inv m.strict m.sound w.held (ip :: w.pending) t
  outline : Outline s t
  more : ∀ jp < nInode, 0 < (s.mem.itable jp).ref → 0 < (t.mem.itable jp).ref
  node : t.node = upd s.node i (Node.blank type)
  num : (t.mem.itable ip).inum = i
  broken : t.broken = s.broken

theorem iallocFrom_in {type : BitVec 16} (hE : Benign m.strict m.sound E) (h : In m w s)
    (ho : 1 ≤ w.ops) (htype : type ≠ 0) (fuel inum : Nat) (hpos : 0 < inum) :
    wp I (iallocFrom w.sb type fuel inum) (fun r t => match r with
      | none => t = s
      | some jp => ∃ j, Claimed m w type jp j s t) E s := by
  induction fuel generalizing inum with
  | zero => exact (wp_pure _).mpr rfl
  | succ fuel ih =>
    rw [iallocFrom_succ]
    refine wp_ite (fun hlt => ?_) fun _ => (wp_pure _).mpr rfl
    rw [← h.sb] at hlt ⊢
    rw [wp_bind]
    refine iclaim_spec (h.trans' ho) h.inv (fun _ => ?_) fun hfree => ?_
    · rw [h.sb]
      exact ih (inum + 1) (Nat.succ_pos inum)
    · obtain ⟨hinv, hold, hnew⟩ := h.inv.claim hlt hfree type
      obtain ⟨hnode, hty⟩ := hnew htype
      refine wp_map.mpr (iget_spec (fun _ => hE.full _) hinv hlt (fun _ => hty)
        fun jp t hinv' hnode' hf hnum => ?_)
      refine ⟨inum, hpos, h.sb ▸ hlt, hold, hinv',
        ⟨hf.sb, hf.ftable, hf.proc, hf.outstanding, hf.entry⟩,
        fun kp hkp hpos => ?_, by rw [hnode', hnode], hnum, hf.broken⟩
      have hold := h.inv.refs kp hkp
      have hnow := hinv'.refs kp hkp
      have hfiles : t.mem.fileRefs kp = s.mem.fileRefs kp := fileRefs_congr hf.ftable kp
      have hcount : w.pending.count kp ≤ (jp :: w.pending).count kp := List.count_le_count_cons
      omega

theorem ialloc_in {type : BitVec 16} (hE : Benign m.strict m.sound E) (h : In m w s)
    (ho : 1 ≤ w.ops) (htype : type ≠ 0) :
    wp I (ialloc type) (fun r t => match r with
      | none => t = s
      | some jp => ∃ j, Claimed m w type jp j s t) E s := by
  unfold ialloc
  rw [wp_bind, wp_superblock, h.sb]
  exact iallocFrom_in hE h ho htype _ _ Nat.one_pos

theorem Claimed.alone {type : BitVec 16} (h : In m w s) (hc : Claimed m w type ip i s t) :
    ip ∉ w.held ∧ (openRefs w.ftable).count ip = 0 := by
  have hip : ip < nInode := hc.inv.lt ip (.inr List.mem_cons_self)
  have hnone : ¬ (0 < s.mem.fileRefs ip ∨ ip ∈ w.held) := by
    intro huse
    have hpos : 0 < (s.mem.itable ip).ref := by
      rcases huse with hfile | hheld
      · rw [h.inv.refs ip hip]
        omega
      · exact h.inv.ref_pos (.inl hheld)
    have hsame := (hc.outline.entry ip hip hpos (hc.more ip hip hpos)).1
    have halive := h.inv.alive ip hip (huse.imp id .inl)
    rw [← hsame, hc.num, ← s.node_type, hc.free] at halive
    exact halive rfl
  obtain ⟨hfile, hheld⟩ := not_or.mp hnone
  rw [fileRefs_eq_count, h.ftable] at hfile
  exact ⟨hheld, Nat.eq_zero_of_not_pos hfile⟩

theorem ilock_claimed {type : BitVec 16} (hE : Benign m.strict m.sound E) (h : In m w s)
    (hc : Claimed m w type ip i s t) (htype : type ≠ 0) :
    wp I (ilock ip) (fun _ u => In m { w.setNode i (Node.blank type) with
      refs := (ip, i) :: w.refs, valid := ip :: w.valid, anchors := ip :: w.anchors } u ∧
      u.node = upd s.node i (Node.blank type)) E t := by
  have hip : ip < nInode := hc.inv.lt ip (.inr List.mem_cons_self)
  have hty : (t.inodeOf i).type ≠ 0 := by
    rw [← t.node_type, hc.node, upd_same]
    exact htype
  refine ilock_spec hE hc.inv hip (hc.inv.ref_pos (.inr List.mem_cons_self))
    (fun hz => absurd (hc.num ▸ hz) hty) fun u hinv hnode hf hh => ?_
  rw [hc.num] at hh
  have hu : u.node = upd s.node i (Node.blank type) := hnode.trans hc.node
  have htu : (u.inodeOf (u.mem.itable ip).inum).type ≠ 0 := by
    rw [hh.inum, ← u.node_type, hu, upd_same]
    exact htype
  refine ⟨h.next { w.setNode i (Node.blank type) with
    refs := (ip, i) :: w.refs, valid := ip :: w.valid, anchors := ip :: w.anchors }
    (hinv.promote htu) (hc.outline.trans hf.toOutline hc.more) ⟨rfl, rfl, rfl, rfl⟩ (fun r hr => ?_)
    (fun jp hjp => ?_) (fun jp hjp => ?_) (fun hx => ?_)
      (fun hx j htj hzero => ?_) fun hcl => ?_, hu⟩
  · rcases List.mem_append.mp hr with hr | hr
    · rcases List.mem_cons.mp hr with rfl | hr
      · exact .inr hh.inum
      · exact .inl (List.mem_append_left _ hr)
    · exact .inl (List.mem_append_right _ hr)
  · rcases List.mem_cons.mp hjp with rfl | hjp
    · exact ⟨List.mem_cons_self, .inr hh.valid⟩
    · exact ⟨List.mem_cons_of_mem _ (h.valid jp hjp).1, .inl hjp⟩
  · rcases List.mem_cons.mp hjp with rfl | hjp
    · exact List.mem_cons_self
    · exact List.mem_cons_of_mem _ (h.sub jp hjp)
  · rw [hu, h.node hx]
    rfl
  · by_cases hj : j = i
    · rw [hj]
      exact .inr ⟨ip, hh, .inr List.mem_cons_self⟩
    · rw [hu, upd_other hj] at htj hzero
      obtain ⟨jp, hold, hcase⟩ := h.anchored hx j htj hzero
      exact .inl ⟨jp, hold, hcase.imp id (List.mem_cons_of_mem _)⟩
  · rw [hf.broken, hc.broken]
    exact h.clean hcl

/-! ## Transactions -/

/-- The world with one more operation open. -/
def World.begun (w : World) : World := { w with ops := w.ops + 1 }

theorem begin_in (h : In m w s) :
    wp I beginOp (fun _ t => In m w.begun t ∧ t.node = s.node ∧ t.mem = s.mem) E s := by
  rw [wp_beginOp]
  refine ⟨⟨h.inv.relog _ _ _ rfl, h.sb, ?_, h.ftable, h.proc, h.num, h.valid, h.sub, h.node,
    h.anchored, h.clean⟩, rfl, rfl⟩
  show s.outstanding + 1 = w.ops + 1
  rw [h.ops]

/-- The last operation commits what the blocks hold then. -/
theorem end_in (h : In m w.begun s) (hI : ∀ t, In m w t → t.node = s.node → I t) :
    wp I endOp (fun _ t => In m w t ∧ t.node = s.node ∧ t.mem = s.mem) E s := by
  have hleave : In m w s.leave := by
    refine ⟨h.inv.relog _ _ _ rfl, h.sb, ?_, h.ftable, h.proc, h.num, h.valid, h.sub, h.node,
      h.anchored, fun hc => ?_⟩
    · show s.outstanding - 1 = w.ops
      rw [h.ops]
      show w.ops + 1 - 1 = w.ops
      omega
    · have hheld : s.held = [] := h.inv.held
      show (s.broken || (s.outstanding - 1 = 0 ∧ s.held ≠ [] : Bool)) = false
      rw [h.clean hc, hheld]
      simp
  rw [wp_endOp]
  exact ⟨fun _ => hI _ hleave rfl, hleave, rfl, rfl⟩

end

end Xv6.Fs
