import Xv6.Kernel.Fs.Opened

/-! # Making and removing names

What `create`, `sys_link` and `sys_unlink` do to the nodes. A call that gives up undoes
what it has done: a new inode is freed again, a link count is restored.
-/

namespace Xv6.Fs

open Lib

section

variable {I : Store → Prop} {E : Stop → Store → Prop} {m : Mode} {w : World} {s t : Store}
  {ip i dp d : Nat} {name : List UInt8} {α : Type}

/-- A change of the links or device numbers of an inode, and what follows it. -/
theorem update_then {g : Dinode → Dinode} {n : Node} {k : FsProg α} {Q : α → Store → Prop}
    (h : In m w s) (ho : 1 ≤ w.ops) (hr : (ip, i) ∈ w.refs) (hv : ip ∈ w.valid)
    (hg : ∀ x, (g x).addrs = x.addrs ∧ (g x).type = x.type ∧ (g x).size = x.size)
    (hn : n = { s.node i with
      major := (g (s.inodeOf i)).major, minor := (g (s.inodeOf i)).minor
      nlink := (g (s.inodeOf i)).nlink })
    (hlink : m.exact → n.nlink = 0 → (s.node i).nlink = 0 ∨ ip ∈ w.anchors)
    (hk : ∀ t, In m (w.setNode i n) t → t.node = upd s.node i n → wp I k Q E t) :
    wp I (setDin ip g >>= fun _ => iupdate ip >>= fun _ => k) Q E s :=
  wp_seq (update_in h ho hr hv hg hn hlink) fun _ _ ht => wp_seq ht fun _ u hu => hk u hu.1 hu.2

/-- The fields of an inode that is referenced are those of its node. -/
theorem In.fields (h : In m w s) (hr : (ip, i) ∈ w.refs) :
    s.node i = nodeOf s.blocks (s.inodeOf i) := by
  have halive := h.alive hr
  rw [s.node_type] at halive
  exact Store.node_of_type halive

theorem relink_then {g : BitVec 16 → BitVec 16} {k : FsProg α} {Q : α → Store → Prop}
    (h : In m w s) (ho : 1 ≤ w.ops) (hr : (ip, i) ∈ w.refs) (hv : ip ∈ w.valid)
    (hlink : m.exact → g (s.node i).nlink = 0 → (s.node i).nlink = 0 ∨ ip ∈ w.anchors)
    (hk : ∀ t, In m (w.setNode i { s.node i with nlink := g (s.node i).nlink }) t →
      t.node = upd s.node i { s.node i with nlink := g (s.node i).nlink } → wp I k Q E t) :
    wp I (setDin ip (fun x => { x with nlink := g x.nlink }) >>= fun _ => iupdate ip >>= fun _ => k)
      Q E s := by
  refine update_then h ho hr hv (fun _ => ⟨rfl, rfl, rfl⟩) ?_ hlink hk
  rw [h.fields hr]
  rfl

theorem iunlockput_of {v : Store → World} {P : (Nat → Node) → (Nat → Node) → Prop}
    (hE : Benign m.strict m.sound E) (h : In m w s) (hr : (ip, i) ∈ w.refs)
    (hput : ∀ t, In m w t → t.node = s.node →
      wp I (iput ip) (fun _ u => In m (v u) u ∧ P t.node u.node) E t) :
    wp I (iunlockput ip) (fun _ u => In m (v u) u ∧ P s.node u.node) E s := by
  refine wp_seq (iunlock_in hE h hr) fun _ t ht => ?_
  have hu := hput t ht.1 ht.2
  rw [ht.2] at hu
  exact hu

/-! ## A new inode -/

def World.making (w : World) (dp d ip i : Nat) (N : Nat → Node) : World :=
  { (w.lock dp d).lock ip i with node := N, anchors := ip :: w.anchors }

def World.Alone (w : World) (dp ip : Nat) : Prop :=
  ip ∉ dp :: w.held ∧ (openRefs w.ftable).count ip = 0

/-- The exit `fail` of `create` frees the new inode. -/
theorem createFail_in {N : Nat → Node} (hE : Benign m.strict m.sound E)
    (h : In m (w.making dp d ip i N) s) (ho : 1 ≤ w.ops) (hw : w.Closed) (hfresh : w.fresh = [])
    (halone : w.Alone dp ip) (hN : m.exact → upd s.node i Node.free = w.node) :
    wp I (createFail dp ip) (fun r t => r = none ∧ In m w t ∧ (m.exact → t.node = w.node)) E s := by
  have hr : (ip, i) ∈ (w.making dp d ip i N).refs := List.mem_cons_self
  have hv : ip ∈ (w.making dp d ip i N).valid := List.mem_cons_self
  unfold createFail
  refine relink_then (g := fun _ => 0) h ho hr hv (fun _ _ => .inr List.mem_cons_self)
    fun t ht htn => ?_
  have hfree : wp I (iunlockput ip) (fun _ u => In m { w.lock dp d with
      node := upd (upd N i { s.node i with nlink := 0 }) i Node.free } u ∧
      u.node = upd t.node i Node.free) E t := by
    refine iunlockput_of (P := fun M M' => M' = upd M i Node.free) hE ht hr fun u hu hun => ?_
    refine iput_free hE hu ho rfl hv ?_ hfresh halone.1 halone.2 (fun jp hjp => ?_)
      (fun jp hjp => List.mem_cons.mp hjp) fun jp hjp => List.mem_cons_of_mem _ (hw.anchors jp hjp)
    · rw [hun, htn, upd_same]
    · refine ⟨List.mem_cons_of_mem _ hjp, ?_⟩
      rcases List.mem_cons.mp hjp with rfl | hjp
      · exact List.mem_cons_self
      · exact List.mem_cons_of_mem _ (hw.valid jp hjp)
  refine wp_seq hfree fun _ u hu => ?_
  have hback : m.exact → u.node = w.node := fun hx => by
    rw [hu.2, htn, upd_upd, hN hx]
  have hlock : In m (w.lock dp d) u := hu.1.renode fun hx => (hu.1.node hx).symm.trans (hback hx)
  refine wp_seq (iunlockput_in hE hlock ho hw) fun _ v hv => (wp_pure _).mpr ?_
  exact ⟨rfl, hv.1, fun hx => (hv.2 hx).trans (hback hx)⟩

/-- The parent is let go, and the new inode is kept, locked. -/
theorem createDone_in {N : Nat → Node} (hE : Benign m.strict m.sound E)
    (h : In m { (w.lock dp d).lock ip i with node := N, anchors := ip :: dp :: w.held } s)
    (ho : 1 ≤ w.ops) (hw : w.Closed) (hall : w.anchors = w.held) (hfresh : w.fresh = [])
    (hdi : d ≠ i) (hlink : (s.node i).nlink ≠ 0) :
    wp I (createDone dp ip) (fun r t => r = some ip ∧
      In m (World.lock { w with node := t.node } ip i) t ∧ Drop d s.node t.node) E s := by
  have hswap := h.reorder (List.Perm.swap (dp, d) (ip, i) w.refs)
  refine wp_seq (iunlockput_of (P := Drop d) hE hswap List.mem_cons_self fun t ht _ =>
    iput_last (V := ip :: w.valid) hE ht ho rfl hfresh fun jp hjp => ?_) fun _ u hu =>
      (wp_pure _).mpr ⟨rfl, ?_, hu.2⟩
  · rcases List.mem_cons.mp hjp with rfl | hjp
    · exact ⟨List.mem_cons_self, List.mem_cons_self⟩
    · exact ⟨List.mem_cons_of_mem _ (List.mem_cons_of_mem _ hjp),
        List.mem_cons_of_mem _ (hw.valid jp hjp)⟩
  · obtain ⟨hin, hdrop⟩ := hu
    have hkeep : u.node i = s.node i := by
      rcases hdrop with hsame | ⟨-, -, hfreed⟩
      · rw [hsame]
      · rw [hfreed, upd_other (Ne.symm hdi)]
    have hfinal := hin.unanchor (A := w.held) (List.mem_cons_self (a := (ip, i)))
      (fun jp hjp => List.mem_cons.mp hjp) (fun jp hjp => List.mem_cons_of_mem _ hjp)
      fun _ hz => absurd (hkeep ▸ hz) hlink
    rw [← hall] at hfinal
    exact hfinal

structure New (m : Mode) (w : World) (N : Nat → Node) (d : Nat) (name : List UInt8)
    (type major minor : BitVec 16) (ip i : Nat) (t : Store) : Prop where
  world : In m (World.lock { w with node := t.node } ip i) t
  kind : (t.node i).type = type
  edit : m.exact → ∃ k, (Edit.make d k i name type major minor).Ok w.sb.ninodes N ∧
    Freed ((Edit.make d k i name type major minor).apply N) t.node

/-- What `create` knows when it makes inode `i` in directory `d`; the nodes were `N`. -/
structure Making (m : Mode) (w : World) (N : Nat → Node) (dp d ip i : Nat) (name : List UInt8)
    (type : BitVec 16) : Prop where
  ops : 1 ≤ w.ops
  closed : w.Closed
  all : w.anchors = w.held
  fresh : w.fresh = []
  alone : w.Alone dp ip
  nodes : m.exact → N = w.node
  free : N i = Node.free
  pos : 0 < i
  lt : i < w.sb.ninodes
  dir : (N d).type = tDir
  dlt : d < w.sb.ninodes
  missing : (N d).lookup name = none
  kind : type ≠ 0
  small : m.exact → w.sb.ninodes ≤ 65536
  rooted : m.sound → m.exact ∧ Rooted N

theorem Making.ne {N : Nat → Node} {type : BitVec 16} (h : Making m w N dp d ip i name type) :
    d ≠ i := by
  rintro rfl
  have hdir := h.dir
  rw [h.free] at hdir
  cases hdir

theorem Making.fail {N M : Nat → Node} {type : BitVec 16} {n : Node}
    (h : Making m w N dp d ip i name type) (hE : Benign m.strict m.sound E)
    (hin : In m (w.making dp d ip i M) s) (hs : m.exact → s.node = upd N i n) :
    wp I (createFail dp ip) (fun r t => r = none ∧ In m w t ∧ (m.exact → t.node = N)) E s := by
  refine wp_mono (createFail_in hE hin h.ops h.closed h.fresh h.alone fun hx => ?_)
    (fun r t ht => ⟨ht.1, ht.2.1, fun hx => (ht.2.2 hx).trans (h.nodes hx).symm⟩) fun _ _ he => he
  rw [hs hx, upd_upd, ← h.free, upd_self, h.nodes hx]

def Outcomes (m : Mode) (w : World) (N : Nat → Node) (d : Nat) (name : List UInt8)
    (type major minor : BitVec 16) (ip i : Nat) (r : Option Nat) (t : Store) : Prop :=
  r = none ∧ In m w t ∧ (m.exact → t.node = N) ∨
    r = some ip ∧ New m w N d name type major minor ip i t

theorem Solid.made {N N' : Nat → Node} {n : Node} (h : Solid N d) (hd : N' d = N d)
    (hN : N' = upd N i n) (hn : n.type ≠ 0) : Solid N' d := by
  intro j hend hne
  rw [hd] at hend hne ⊢
  rw [hN]
  by_cases heq : entryInum (N d) j = i
  · rw [heq, upd_same]
    exact hn
  · rw [upd_other heq]
    exact h j hend hne

theorem Node.made_nlink (d i : Nat) (type major minor : BitVec 16) :
    (Node.made d i type major minor).nlink = 1 := by
  unfold Node.made
  split <;> rfl

theorem createLink_in {N M : Nat → Node} {type major minor : BitVec 16} {isDir dots : Bool}
    {n : Node} (hE : Benign m.strict m.sound E) (h : Making m w N dp d ip i name type)
    (hisDir : isDir = true ↔ type = tDir)
    (hin : In m (w.making dp d ip i M) s) (hs : m.exact → s.node = upd N i n)
    (hn : dots = true → s.node = upd N i n ∧ n.type = type ∧ n.nlink = 1 ∧
      (m.exact → n = Node.made d i type major minor)) :
    wp I (createLink dp ip i name isDir dots) (Outcomes m w N d name type major minor ip i)
      E s := by
  have hfail : ∀ {t : Store} {M' : Nat → Node}, In m (w.making dp d ip i M') t →
      (m.exact → t.node = upd N i n) →
      wp I (createFail dp ip) (Outcomes m w N d name type major minor ip i) E t := by
    intro t M' ht htn
    exact wp_mono (h.fail hE ht htn) (fun _ _ hu => .inl hu) fun _ _ he => he
  unfold createLink
  refine wp_ite (fun _ => hfail hin hs) fun hdots => ?_
  obtain ⟨hnode, hty, hone, hmade⟩ := hn (by simpa using hdots)
  have hdn : s.node d = N d := by rw [hnode, upd_other h.ne]
  have hr : (dp, d) ∈ (w.making dp d ip i M).refs := List.mem_cons_of_mem _ List.mem_cons_self
  have hv : dp ∈ (w.making dp d ip i M).valid := List.mem_cons_of_mem _ List.mem_cons_self
  refine wp_seq (dirlink_in hE hin h.ops hr hv (fun hsd _ => ?_) ?_) fun r t ht => ?_
  · exact ((h.rooted hsd).2.2 d h.dir).made hdn hnode (by rw [hty]; exact h.kind)
  · exact Nat.lt_of_le_of_lt (Nat.mod_le _ _) h.lt
  obtain ⟨-, ⟨rfl, hin', hsame, -⟩ | ⟨rfl, hlook, k, hfirst, hin', hnode'⟩⟩ := ht
  · rw [if_pos (by decide)]
    exact hfail hin' fun hx => (hsame hx).trans (hs hx)
  rw [if_neg (by decide)]
  have hall : In m { (w.lock dp d).lock ip i with
      node := upd M d ((s.node d).setEntry k (direntBytes name i))
      anchors := ip :: dp :: w.held } t :=
    hin'.forget (fun _ hjp => hjp) (fun jp hjp => ?_) fun _ hjp => hjp
  · have hni : t.node i = n := by rw [hnode', upd_other (Ne.symm h.ne), hnode, upd_same]
    -- with the parent's links set, the parent is let go
    have hdone : ∀ {u : Store} {M' : Nat → Node}, In m { (w.lock dp d).lock ip i with
          node := M', anchors := ip :: dp :: w.held } u → u.node i = n →
        (m.exact → u.node = (Edit.make d k i name type major minor).apply N) →
        wp I (createDone dp ip) (Outcomes m w N d name type major minor ip i) E u := by
      intro u M' hu hui happ
      refine wp_mono (createDone_in hE hu h.ops h.closed h.all h.fresh h.ne ?_)
        (fun r v hv => .inr ⟨hv.1, hv.2.1, ?_, fun hx => ⟨k, ?_, ?_⟩⟩) fun _ _ he => he
      · rw [hui, hone]
        decide
      · rcases hv.2.2 with hsame | ⟨-, -, hfreed⟩
        · rw [hsame, hui, hty]
        · rw [hfreed, upd_other (Ne.symm h.ne), hui, hty]
      · exact ⟨h.dir, h.free, h.pos, h.lt, h.kind, h.dlt, h.missing, hdn ▸ hfirst.1⟩
      · rw [← happ hx]
        exact hv.2.2.freed
    have hnew : m.exact → t.node = upd (upd N i (Node.made d i type major minor)) d
        ((upd N i (Node.made d i type major minor) d).setEntry k (direntBytes name i)) := by
      intro hx
      rw [hnode', hnode, hmade hx]
    refine wp_ite (fun hdir => ?_) fun hdir => ?_
    · have hdir : type = tDir := hisDir.mp hdir
      refine relink_then (g := fun l => l + 1) hall h.ops hr hv (fun _ _ => .inr ?_)
        fun u hu hun => hdone hu ?_ fun hx => ?_
      · exact List.mem_cons_of_mem _ List.mem_cons_self
      · rw [hun, upd_other (Ne.symm h.ne), hni]
      · rw [hun, hnew hx, Edit.apply, if_pos hdir]
        rfl
    · have hdir : type ≠ tDir := fun hty => hdir (hisDir.mpr hty)
      refine hdone hall hni fun hx => ?_
      rw [hnew hx, Edit.apply, if_neg hdir]
  · rcases List.mem_cons.mp hjp with rfl | hjp
    · exact List.mem_cons_self
    · rw [h.all] at hjp
      exact List.mem_cons_of_mem _ (List.mem_cons_of_mem _ hjp)

theorem FirstFree.empty {n : Node} {k : Nat} (h : n.FirstFree k) (hn : n.size = 0) : k = 0 := by
  have hfree := h.1
  unfold Node.FreeSlot at hfree
  rw [hn, direntSize_eq] at hfree
  omega

theorem entryInum_setEntry {n : Node} {de : Nat → UInt8} (j k : Nat) :
    entryInum (n.setEntry k de) j = if j = k then numberOf de else entryInum n j := by
  have hoff : direntSize * k % direntSize = 0 := Nat.mul_mod_right _ _
  have hnum : entryInum (n.setEntry k de) j =
      if direntSize * j = direntSize * k then numberOf de else entryInum n j :=
    entryInum_splice hoff rfl j
  rw [hnum]
  by_cases hj : j = k
  · rw [if_pos hj, if_pos (by rw [hj])]
  · rw [if_neg hj, if_neg fun heq => hj (Nat.eq_of_mul_eq_mul_left (by decide) heq)]

theorem FirstFree.second {n : Node} {k : Nat} {de : Nat → UInt8} (hn : n.size = 0)
    (hde : numberOf de ≠ 0) (h : (n.setEntry 0 de).FirstFree k) : k = 1 := by
  have hsize : (n.setEntry 0 de).size = 16 := by
    show max n.size (direntSize * 0 + direntSize) = 16
    rw [hn]
    rfl
  have hfree := h.1
  unfold Node.FreeSlot at hfree
  rw [hsize, entryInum_setEntry, direntSize_eq] at hfree
  rcases hfree with ⟨hend, hzero⟩ | hend
  · rw [if_pos (by omega)] at hzero
    exact absurd hzero hde
  · omega

theorem createNew_in {N M : Nat → Node} {type : BitVec 16} (major minor : BitVec 16)
    (hE : Benign m.strict m.sound E) (h : Making m w N dp d ip i name type)
    (hin : In m (w.making dp d ip i M) s) (hs : s.node = upd N i (Node.blank type)) :
    wp I (createNew dp name type major minor ip) (Outcomes m w N d name type major minor ip i)
      E s := by
  have hr : (ip, i) ∈ (w.making dp d ip i M).refs := List.mem_cons_self
  have hv : ip ∈ (w.making dp d ip i M).valid := List.mem_cons_self
  have hrd : (dp, d) ∈ (w.making dp d ip i M).refs := List.mem_cons_of_mem _ List.mem_cons_self
  have hsi : s.node i = Node.blank type := by rw [hs, upd_same]
  rw [createNew_eq, wp_bind, wp_inode, wp_bind, wp_inode, hin.num_refs hr, hin.num_refs hrd]
  refine update_then (n := Node.new type major minor) hin h.ops hr hv (fun _ => ⟨rfl, rfl, rfl⟩) ?_
    (fun _ _ => .inr List.mem_cons_self) fun t ht htn => ?_
  · rw [hsi]
    rfl
  rw [hs, upd_upd] at htn
  have hti : t.node i = Node.new type major minor := by rw [htn, upd_same]
  have hnum : ∀ j < w.sb.ninodes, j % 65536 < w.sb.ninodes := fun j hj =>
    Nat.lt_of_le_of_lt (Nat.mod_le _ _) hj
  by_cases hty : type = tDir
  · have hisDir : true = true ↔ type = tDir := iff_of_true rfl hty
    rw [if_pos hty]
    refine wp_seq (dirlink_in hE ht h.ops hr hv (fun _ _ j hend _ => ?_) (hnum i h.lt))
      fun r t₁ hl => ?_
    · rw [hti, direntSize_eq] at hend
      exact absurd hend (Nat.not_succ_le_zero _)
    obtain ⟨-, ⟨rfl, hin₁, hsame₁, -⟩ | ⟨rfl, -, k, hfirst, hin₁, hnode₁⟩⟩ := hl
    · rw [if_pos (by decide)]
      exact createLink_in hE h hisDir hin₁ (fun hx => (hsame₁ hx).trans htn) fun hno => by cases hno
    rw [if_neg (by decide)]
    rw [hti] at hfirst hnode₁
    obtain rfl := FirstFree.empty hfirst rfl
    rw [htn, upd_upd] at hnode₁
    generalize hn₁ : (Node.new type major minor).setEntry 0 (direntBytes dot i) = n₁ at hnode₁
    have hfields : n₁.type = type ∧ n₁.nlink = 1 := by
      rw [← hn₁]
      exact ⟨rfl, rfl⟩
    have ht₁i : t₁.node i = n₁ := by rw [hnode₁, upd_same]
    have hself : m.exact → numberOf (direntBytes dot i) = i := fun hx => by
      have hsmall := h.small hx
      have hlt := h.lt
      rw [numberOf_direntBytes, Nat.mod_eq_of_lt (by omega)]
    refine wp_seq (dirlink_in hE hin₁ h.ops hr hv (fun hsd _ j hend hne => ?_) (hnum d h.dlt))
      fun r t₂ hl => ?_
    · -- the only entry is the directory itself
      rw [ht₁i, ← hn₁, entryInum_setEntry] at hne ⊢
      split at hne
      · rw [if_pos ‹_›, hself (h.rooted hsd).1, ht₁i, hfields.1]
        exact h.kind
      · exact absurd rfl hne
    obtain ⟨-, ⟨rfl, hin₂, hsame₂, -⟩ | ⟨rfl, -, k, hfirst, hin₂, hnode₂⟩⟩ := hl
    · exact createLink_in hE h hisDir hin₂ (fun hx => (hsame₂ hx).trans hnode₁)
        fun hno => by cases hno
    · rw [ht₁i, hnode₁, upd_upd] at hnode₂
      refine createLink_in hE h hisDir hin₂ (fun _ => hnode₂) fun _ =>
        ⟨hnode₂, hfields.1, hfields.2,
        fun hx => ?_⟩
      rw [ht₁i, ← hn₁] at hfirst
      have hone : k = 1 := by
        refine FirstFree.second rfl ?_ hfirst
        rw [hself hx]
        exact Nat.ne_of_gt h.pos
      rw [hone, ← hn₁, Node.made, if_pos hty]
  · rw [if_neg hty]
    refine createLink_in hE h (iff_of_false Bool.false_ne_true hty) ht (fun _ => htn) fun _ =>
      ⟨htn, rfl, rfl, fun _ => ?_⟩
    rw [Node.made, if_neg hty]

/-- What the calls below are made in: the references are the current directories, and they
keep what has no links. -/
structure Base (m : Mode) (w : World) (N : Nat → Node) : Prop where
  ops : 1 ≤ w.ops
  closed : w.Closed
  all : w.anchors = w.held
  fresh : w.fresh = []
  root : rootIno < w.sb.ninodes
  small : m.exact → w.sb.ninodes ≤ 65536
  rooted : m.sound → m.exact ∧ Rooted N

/-- What `create` returns: the inode that has the name already, or a new one. -/
def CreateEnds (m : Mode) (w : World) (N : Nat → Node) (c : Nat) (path : List UInt8)
    (type major minor : BitVec 16) : Option Nat → Store → Prop
  | none, t => In m w t ∧ (m.exact → t.node = N)
  | some ip, t => ∃ i, In m (World.lock { w with node := t.node } ip i) t ∧
      ((t.node i).type = type ∨
        type = tFile ∧ ((t.node i).type = tFile ∨ (t.node i).type = tDevice)) ∧
      (m.exact → ∃ d name, resolve N c path true = some (d, name) ∧
        (t.node = N ∧ (∃ k, (N d).lookup name = some (i, k)) ∨
          ∃ k, (Edit.make d k i name type major minor).Ok w.sb.ninodes N ∧
            Freed ((Edit.make d k i name type major minor).apply N) t.node))

theorem create_in {cwd c : Nat} {path : List UInt8} {type major minor : BitVec 16}
    (hE : Benign m.strict m.sound E) (h : In m w s) (hb : Base m w s.node)
    (hc : (cwd, c) ∈ w.refs) (htype : type ≠ 0) :
    wp I (create cwd path type major minor)
      (CreateEnds m w s.node c path type major minor) E s := by
  unfold create
  refine wp_seq (nameiparent_in hE h hb.ops hb.rooted hb.root hc) fun r t₁ ht => ?_
  obtain ⟨hsame₁, hres⟩ := ht
  cases r with
  | none => exact (wp_pure _).mpr ⟨hres.1, hsame₁⟩
  | some r =>
    obtain ⟨dp, name⟩ := r
    obtain ⟨d, known, hin₁, -, hpath⟩ := hres
    refine wp_seq (ilock_take hE hin₁) fun _ t₂ ht => ?_
    obtain ⟨hin₂, hnode₂⟩ := ht
    have hsame₂ : m.exact → t₂.node = s.node := fun hx => hnode₂.trans (hsame₁ hx)
    have hrooted : m.sound → m.exact ∧ Rooted t₂.node := fun hsd => by
      rw [hsame₂ (hb.rooted hsd).1]
      exact hb.rooted hsd
    have hr : (dp, d) ∈ (w.lock dp d).refs := List.mem_cons_self
    refine wp_seq (dirlookup_in hE (.inr (hin₂.trans' hb.ops)) hin₂ hr List.mem_cons_self
      fun hsd hdir => (hrooted hsd).2.2 d hdir) fun r t₃ ht => ?_
    obtain ⟨hdir, hnode₃, hfound⟩ := ht
    have hsame₃ : m.exact → t₃.node = s.node := fun hx => hnode₃.trans (hsame₂ hx)
    cases r with
    | some e =>
      obtain ⟨i, k, hlook, -, hin₃⟩ := hfound
      have hin₃ : In m ((w.take false e.1 i).lock dp d) t₃ := hin₃
      refine wp_seq (iunlockput_in hE hin₃ hb.ops ⟨hb.closed.valid, hb.closed.anchors⟩)
        fun _ t₄ ht => ?_
      obtain ⟨hin₄, hnode₄⟩ := ht
      refine wp_seq (ilock_take hE hin₄) fun _ t₅ ht => ?_
      obtain ⟨hin₅, hnode₅⟩ := ht
      have hsame₅ : m.exact → t₅.node = s.node := fun hx =>
        hnode₅.trans ((hnode₄ hx).trans (hsame₃ hx))
      have hdin : (t₅.mem.itable e.1).din.type = (t₅.node i).type := by
        rw [hin₅.din List.mem_cons_self List.mem_cons_self]
        rfl
      rw [wp_bind, wp_inode, hdin]
      refine wp_ite (fun hkind => (wp_pure _).mpr ⟨i, ?_, .inr hkind, fun hx => ?_⟩) fun _ => ?_
      · exact hin₅.renode (N := t₅.node) fun hx => (hin₅.node hx).symm
      · rw [hsame₂ hx] at hlook
        exact ⟨d, name, hpath hx, .inl ⟨hsame₅ hx, k, hlook⟩⟩
      · refine wp_seq (iunlockput_in hE hin₅ hb.ops hb.closed) fun _ u hu => (wp_pure _).mpr ?_
        exact ⟨hu.1, fun hx => (hu.2 hx).trans (hsame₅ hx)⟩
    | none =>
      obtain ⟨hin₃, -, hlook⟩ := hfound
      refine wp_seq (ialloc_in hE hin₃ hb.ops htype) fun r t₄ ht => ?_
      cases r with
      | none =>
        obtain rfl := ht
        refine wp_seq (iunlockput_in hE hin₃ hb.ops hb.closed) fun _ u hu => (wp_pure _).mpr ?_
        exact ⟨hu.1, fun hx => (hu.2 hx).trans (hsame₃ hx)⟩
      | some ip =>
        obtain ⟨i, hclaim⟩ := ht
        refine wp_seq (ilock_claimed hE hin₃ hclaim htype) fun _ t₅ ht => ?_
        obtain ⟨hin₅, hnode₅⟩ := ht
        have hmaking : Making m w t₃.node dp d ip i name type := {
          ops := hb.ops
          closed := hb.closed
          all := hb.all
          fresh := hb.fresh
          alone := hclaim.alone hin₃
          nodes := hin₃.node
          free := hclaim.free
          pos := hclaim.pos
          lt := hclaim.lt
          dir := hnode₃ ▸ hdir
          dlt := hin₃.num_lt (List.mem_append_left _ hr)
          missing := hnode₃ ▸ hlook
          kind := htype
          small := hb.small
          rooted := hnode₃ ▸ hrooted }
        refine wp_mono (createNew_in major minor hE hmaking hin₅ hnode₅)
          (fun r u hu => ?_) fun _ _ he => he
        rcases hu with ⟨rfl, hin, hback⟩ | ⟨rfl, hnew⟩
        · exact ⟨hin, fun hx => (hback hx).trans (hsame₃ hx)⟩
        · refine ⟨i, hnew.world, .inl hnew.kind, fun hx => ⟨d, name, hpath hx, .inr ?_⟩⟩
          have hedit := hnew.edit hx
          rw [hsame₃ hx] at hedit
          exact hedit

end

end Xv6.Fs
