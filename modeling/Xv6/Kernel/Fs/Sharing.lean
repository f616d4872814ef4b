import Xv6.Kernel.Fs.Ops
import Xv6.Lib.Run

/-! # Inodes shared by processes

Any number of processes work on the inode table. What runs without interruption is
what the code does under `itable.lock`, or under the sleep-lock of one inode: `iput`
is in three parts, since it gives up `itable.lock` to free an inode and takes it back
to drop its reference. A process locks, unlocks and puts an inode through a reference
it owns, and does not put an inode it has locked.
-/

namespace Xv6.Fs

open Lib

/-! ## The parts of `iput` -/

/-- `iput` up to the point where it gives up `itable.lock`: the answer is whether the inode is
to be freed. -/
def iputTest (ip : Nat) : FsProg Bool := do
  let i ← inode ip
  if i.ref = 1 ∧ i.valid ∧ i.din.nlink = 0 then do
    acquiresleep ip
    return true
  else do
    setInode ip fun i => { i with ref := i.ref - 1 }
    return false

def iputFree (ip : Nat) : FsProg Unit := do
  itrunc ip
  setDin ip fun x => { x with type := 0 }
  iupdate ip
  setInode ip fun i => { i with valid := false }
  releasesleep ip

/-- `iput` once it has `itable.lock` again. -/
def iputDrop (ip : Nat) : FsProg Unit :=
  setInode ip fun i => { i with ref := i.ref - 1 }

theorem iput_parts (ip : Nat) :
    iput ip = iputTest ip >>= fun freeing =>
      if freeing then iputFree ip >>= fun _ => iputDrop ip else pure () := by
  unfold iput iputTest ifree iputFree iputDrop
  simp only [bind_assoc]
  congr 1
  funext i
  split <;> simp

/-! ## The machine -/

/-- Where a process is in `iput` when it does not hold `itable.lock`. -/
inductive Putting where
  | freeing (ip : Nat)
  | dropping (ip : Nat)
deriving DecidableEq

/-- The store, the references as pairs of a process and an entry, the process that holds the
lock of each entry, and the processes that are inside `iput`. -/
structure Shared where
  store : Store
  refs : List (Nat × Nat)
  holder : Nat → Option Nat
  putting : Nat → Option Putting

inductive Work where
  | read (dst : Dst) (off n : BitVec 32)
  | write (src : Src) (off n : BitVec 32)
  | trunc
  -- `create`, `sys_link` and `sys_unlink` store some of these fields and call `iupdate`.
  | fields (major minor nlink : BitVec 16)

def Work.prog (ip : Nat) : Work → FsProg Unit
  | .read dst off n => do
      let _ ← readi ip dst off.toNat n.toNat
  | .write src off n => do
      let _ ← writei ip src off.toNat n.toNat
  | .trunc => itrunc ip
  | .fields major minor nlink => do
      setDin ip fun x => { x with major := major, minor := minor, nlink := nlink }
      iupdate ip

/-- The kernel writes to a directory one entry at a time. -/
def Work.fits (ninodes : Nat) (type : BitVec 16) : Work → Bool
  | .write src off n => type ≠ tDir ∨ entryWrite ninodes src off.toNat n.toNat
  | _ => true

inductive Event where
  | beginOp (p : Nat)
  | endOp (p : Nat)
  | iget (p i : Nat)
  | idup (p ip : Nat)
  | ilock (p ip : Nat)
  | iunlock (p ip : Nat)
  -- One round of the loop of `ialloc`; `iget` follows.
  | ialloc (p : Nat) (type : BitVec 16) (i : Nat)
  | work (p ip : Nat) (w : Work)
  | iput (p ip : Nat)
  | iputFree (p : Nat)
  | iputDrop (p : Nat)

namespace Shared

/-- The program runs, and `f` records what it means for the processes; nothing happens after
a panic. -/
def run {α : Type} (s : Shared) (prog : FsProg α) (f : α → Shared → Shared) : Option Shared :=
  (Prog.returns Store.handle prog s.store).map fun r => f r.1 { s with store := r.2 }

def idle (s : Shared) (p : Nat) : Bool := (s.putting p).isNone

def owns (s : Shared) (p ip : Nat) : Bool := (p, ip) ∈ s.refs

def addRef (p : Nat) (ip : Nat) (s : Shared) : Shared := { s with refs := (p, ip) :: s.refs }

def delRef (p ip : Nat) (s : Shared) : Shared := { s with refs := s.refs.erase (p, ip) }

def setHolder (ip : Nat) (q : Option Nat) (s : Shared) : Shared :=
  { s with holder := upd s.holder ip q }

def setPutting (p : Nat) (x : Option Putting) (s : Shared) : Shared :=
  { s with putting := upd s.putting p x }

/-- A step of a process, if it can be made: `ilock` waits while the inode is locked. -/
def step (s : Shared) : Event → Option Shared
  | .beginOp p => if s.idle p then s.run Fs.beginOp fun _ t => t else none
  | .endOp p => if s.idle p then s.run Fs.endOp fun _ t => t else none
  | .iget p i =>
      if s.idle p ∧ i < s.store.mem.sb.ninodes then s.run (Fs.iget i) (addRef p) else none
  | .idup p ip => if s.idle p ∧ s.owns p ip then s.run (Fs.idup ip) (addRef p) else none
  | .ilock p ip =>
      if s.idle p ∧ s.owns p ip ∧ (s.store.mem.itable ip).locked = false then
        s.run (Fs.ilock ip) fun _ => setHolder ip (some p)
      else none
  | .iunlock p ip =>
      if s.idle p ∧ s.holder ip = some p then
        s.run (Fs.iunlock ip) fun _ => setHolder ip none
      else none
  | .ialloc p type i =>
      if s.idle p ∧ i < s.store.mem.sb.ninodes then
        s.run (iclaim s.store.mem.sb type i) fun _ t => t
      else none
  | .work p ip w =>
      if s.idle p ∧ s.holder ip = some p ∧
          w.fits s.store.mem.sb.ninodes (s.store.mem.itable ip).din.type then
        s.run (w.prog ip) fun _ t => t
      else none
  | .iput p ip =>
      if s.idle p ∧ s.owns p ip ∧ s.holder ip ≠ some p then
        s.run (iputTest ip) fun freeing t =>
          if freeing then setPutting p (some (.freeing ip)) (setHolder ip (some p) t)
          else delRef p ip t
      else none
  | .iputFree p =>
      match s.putting p with
      | some (.freeing ip) =>
          s.run (Fs.iputFree ip) fun _ t =>
            setPutting p (some (.dropping ip)) (setHolder ip none t)
      | _ => none
  | .iputDrop p =>
      match s.putting p with
      | some (.dropping ip) =>
          s.run (Fs.iputDrop ip) fun _ t => setPutting p none (delRef p ip t)
      | _ => none

structure Boot (s : Shared) : Prop where
  table : ∀ ip < nInode, (s.store.mem.itable ip).ref = 0 ∧ (s.store.mem.itable ip).locked = false
  refs : s.refs = []
  holder : ∀ ip, s.holder ip = none
  putting : ∀ p, s.putting p = none

end Shared

/-! ## Programs that leave references and locks alone -/

def Store.use (s : Store) (ip : Nat) : Int × Bool :=
  ((s.mem.itable ip).ref, (s.mem.itable ip).locked)

def Req.Quiet : Req → Prop
  | .setMem f => ∀ m ip, ((f m).itable ip).ref = (m.itable ip).ref ∧
      ((f m).itable ip).locked = (m.itable ip).locked
  | _ => True

abbrev Calm {α : Type} (p : FsProg α) : Prop := Prog.Only Req.Quiet p

theorem Req.Quiet.use {r : Req} (hr : r.Quiet) (s : Store) :
    (Store.handle r s).final.use = s.use := by
  refine Store.handle_final (P := fun t => t.use = s.use) rfl (fun _ => rfl) (fun _ _ => rfl)
    (fun _ => rfl) (fun _ => rfl) (fun f hf => ?_) (fun _ => rfl) fun _ => rfl
  subst hf
  funext ip
  exact Prod.ext (hr s.mem ip).1 (hr s.mem ip).2

theorem Calm.use {α : Type} {p : FsProg α} (hp : Calm p) (s : Store) :
    wp (fun _ => True) p (fun _ t => t.use = s.use) (fun _ t => t.use = s.use) s := by
  have hend := hp.final (R := fun s t : Store => t.use = s.use) (fun _ => rfl)
    (fun _ _ _ h h' => h'.trans h) (fun _ s hr => hr.use s) s
  exact (Comp.wp_final (P := fun t : Store => t.use = s.use)).mpr hend

/-- The request leaves the open files, the processes and the open operations alone. -/
def Req.Steady : Req → Prop
  | .setMem f => ∀ m, (f m).ftable = m.ftable ∧ (f m).proc = m.proc ∧ (f m).sb = m.sb
  | .beginOp | .endOp => False
  | _ => True

/-- The program works on blocks and on copies of inodes only. -/
abbrev Still {α : Type} (p : FsProg α) : Prop := Prog.Only (fun r => r.Quiet ∧ r.Steady) p

theorem Still.calm {α : Type} {p : FsProg α} (hp : Still p) : Calm p :=
  hp.mono fun _ hr => hr.1

section

variable {ip : Nat}

theorem ask_still {r : Req} (hr : r.Quiet ∧ r.Steady) : Still (Prog.ask r : FsProg (Ans r)) :=
  .ask hr

theorem bread_still (b : Nat) : Still (bread b) := ask_still ⟨trivial, trivial⟩

theorem load_still (b : Nat) : Still (load b) := ask_still ⟨trivial, trivial⟩

theorem store_still (b : Nat) (f : Block → Block) : Still (store b f) :=
    ask_still ⟨trivial, trivial⟩

theorem logWrite_still (b : Nat) : Still (logWrite b) := ask_still ⟨trivial, trivial⟩

theorem brelse_still (b : Nat) : Still (brelse b) := ask_still ⟨trivial, trivial⟩

theorem mem_still : Still mem := ask_still ⟨trivial, trivial⟩

theorem panic_still {α : Type} (msg : String) : Still (panic msg : FsProg α) :=
  .call ⟨trivial, trivial⟩ fun x => x.elim

theorem superblock_still : Still superblock := mem_still.bind fun _ => .pure _

theorem inode_still (ip : Nat) : Still (inode ip) := mem_still.bind fun _ => .pure _

theorem setDin_still (ip : Nat) (g : Dinode → Dinode) : Still (setDin ip g) := by
  refine ask_still ⟨fun m jp => ?_, fun m => ⟨rfl, rfl, rfl⟩⟩
  by_cases hjp : jp = ip
  · subst hjp
    simp
  · simp [upd_other hjp]

theorem put_still {α : Type} (b : Nat) (f : Block → Block) {p : FsProg α} (hp : Still p) :
    Still (store b f >>= fun _ => logWrite b >>= fun _ => brelse b >>= fun _ => p) :=
  (store_still b f).bind fun _ => (logWrite_still b).bind fun _ => (brelse_still b).bind fun _ => hp

theorem bzero_still (b : Nat) : Still (bzero b) :=
  (bread_still b).bind fun _ => (store_still b _).bind fun _ => (logWrite_still b).bind fun _ =>
    brelse_still b

theorem ballocFrom_still (sb : Superblock) (fuel b : Nat) : Still (ballocFrom sb fuel b) := by
  induction fuel generalizing b with
  | zero => exact .pure _
  | succ fuel ih =>
      refine .ite ((bread_still _).bind fun _ => (load_still _).bind fun d => ?_) (.pure _)
      split
      · exact put_still _ _ ((bzero_still _).bind fun _ => .pure _)
      · exact (brelse_still _).bind fun _ => ih _

theorem balloc_still : Still balloc := superblock_still.bind fun _ => ballocFrom_still _ _ _

theorem bfree_still (b : Nat) : Still (bfree b) :=
  superblock_still.bind fun _ => (bread_still _).bind fun _ => (load_still _).bind fun _ =>
    .ite ((store_still _ _).bind fun _ => (logWrite_still _).bind fun _ => brelse_still _)
      (panic_still _)

theorem iupdate_still (ip : Nat) : Still (iupdate ip) :=
  superblock_still.bind fun _ => (inode_still ip).bind fun _ => (bread_still _).bind fun _ =>
    (store_still _ _).bind fun _ => (logWrite_still _).bind fun _ => brelse_still _

theorem bmapAddr_still (ip k : Nat) : Still (bmapAddr ip k) :=
  (inode_still ip).bind fun _ => .ite
    (balloc_still.bind fun _ => .ite (.pure _)
      ((setDin_still ip _).bind fun _ => .pure _)) (.pure _)

theorem bmapEntry_still (ind k : Nat) : Still (bmapEntry ind k) := by
  refine (bread_still _).bind fun _ => (load_still _).bind fun _ => .ite ?_ ?_
  · exact balloc_still.bind fun _ => .ite ((brelse_still _).bind fun _ => .pure _)
      (put_still _ _ (.pure _))
  · exact (brelse_still _).bind fun _ => .pure _

theorem bmap_still (ip bn : Nat) : Still (bmap ip bn) :=
  .ite (bmapAddr_still ip bn) (.ite
    ((bmapAddr_still ip nDirect).bind fun _ => .ite (.pure _) (bmapEntry_still _ _))
      (panic_still _))

theorem itrunc_still (ip : Nat) : Still (itrunc ip) := by
  have hdirect : ∀ k, Still (itruncDirect ip k) := fun k =>
    (inode_still ip).bind fun _ =>
      .ite (.pure _) ((bfree_still _).bind fun _ => setDin_still ip _)
  have hindirect : ∀ d j, Still (itruncIndirect d j) := fun d j => .ite (.pure _) (bfree_still _)
  refine (Prog.Only.loop hdirect _ _).bind fun _ => (inode_still ip).bind fun i => ?_
  refine Prog.Only.bind (.ite (.pure _) ?_) fun _ => (setDin_still ip _).bind fun _ =>
    iupdate_still ip
  exact (bread_still _).bind fun _ => (load_still _).bind fun d =>
    (Prog.Only.loop (hindirect d) _ _).bind fun _ => (brelse_still _).bind fun _ =>
      (bfree_still _).bind fun _ => setDin_still ip _

theorem readLoop_still (ip : Nat) (dst : Dst) (n fuel tot off : Nat) (out : List UInt8) :
    Still (readLoop ip dst n fuel tot off out) := by
  induction fuel generalizing tot off out with
  | zero => exact .pure _
  | succ fuel ih =>
      refine .ite ((bmap_still ip _).bind fun a => .ite (.pure _) ?_) (.pure _)
      exact (bread_still a).bind fun _ => (load_still a).bind fun d =>
        (brelse_still a).bind fun _ =>
        .ite (ih _ _ _) (.pure _)

theorem readi_still (ip : Nat) (dst : Dst) (off n : Nat) : Still (readi ip dst off n) :=
  (inode_still ip).bind fun _ => .ite (.pure _) (readLoop_still _ _ _ _ _ _ _)

theorem writeLoop_still (ip : Nat) (src : Src) (n fuel tot off : Nat) :
    Still (writeLoop ip src n fuel tot off) := by
  induction fuel generalizing tot off with
  | zero => exact .pure _
  | succ fuel ih =>
      refine .ite ((bmap_still ip _).bind fun a => .ite (.pure _) ?_) (.pure _)
      refine (bread_still a).bind fun _ => Prog.Only.bind
        (.ite (.pure _) (store_still a _)) fun _ => ?_
      exact .ite ((logWrite_still a).bind fun _ => (brelse_still a).bind fun _ => ih _ _)
        ((brelse_still a).bind fun _ => .pure _)

theorem writei_still (ip : Nat) (src : Src) (off n : Nat) : Still (writei ip src off n) :=
  (inode_still ip).bind fun _ => .ite (.pure _) (.ite (.pure _)
    ((writeLoop_still _ _ _ _ _ _).bind fun _ => (setDin_still ip _).bind fun _ =>
      (iupdate_still ip).bind fun _ => .pure _))

theorem Work.prog_still (ip : Nat) (w : Work) : Still (w.prog ip) := by
  cases w with
  | read dst off n => exact (readi_still _ _ _ _).bind fun _ => .pure _
  | write src off n => exact (writei_still _ _ _ _).bind fun _ => .pure _
  | trunc => exact itrunc_still ip
  | fields major minor nlink => exact (setDin_still ip _).bind fun _ => iupdate_still ip

theorem iclaim_still (sb : Superblock) (type : BitVec 16) (i : Nat) : Still (iclaim sb type i) :=
  (bread_still _).bind fun _ => (load_still _).bind fun _ =>
    .ite (put_still _ _ (.pure _)) ((brelse_still _).bind fun _ => .pure _)

end

/-! ## What the steps do to references and locks -/

section

variable {s t : Store} {ip i : Nat}

theorem use_setEntry (s : Store) (ip : Nat) (x : Inode) :
    Store.use { s with mem := s.mem.setEntry ip x } = upd s.use ip (x.ref, x.locked) := by
  funext jp
  by_cases hjp : jp = ip
  · subst hjp
    simp [Store.use]
  · simp [Store.use, setEntry_other hjp, upd_other hjp]

theorem iget_use : wp (fun _ => True) (iget i) (fun ip t => ip < nInode ∧
    t.use = upd s.use ip ((s.use ip).1 + 1, (s.use ip).2)) (fun _ _ => True) s := by
  simp only [iget, wp_bind, wp_mem]
  split
  · rename_i ip hf
    simp only [wp_bind, wp_setInode, wp_pure]
    exact ⟨List.mem_range.mp (List.mem_of_find?_eq_some hf), use_setEntry _ _ _⟩
  · split
    · rename_i ip hf
      have href := List.find?_some hf
      simp only [decide_eq_true_eq] at href
      simp only [wp_bind, wp_setInode, wp_pure]
      refine ⟨List.mem_range.mp (List.mem_of_find?_eq_some hf), ?_⟩
      rw [use_setEntry]
      simp [Store.use, href]
    · exact (wp_panic _).mpr trivial

theorem idup_use : wp (fun _ => True) (idup ip) (fun jp t => jp = ip ∧
    t.use = upd s.use ip ((s.use ip).1 + 1, (s.use ip).2)) (fun _ _ => True) s := by
  simp only [idup, wp_bind, wp_setInode, wp_pure]
  exact ⟨trivial, use_setEntry _ _ _⟩

theorem acquiresleep_use : wp (fun _ => True) (acquiresleep ip) (fun _ t => (s.use ip).2 = false ∧
    t.use = upd s.use ip ((s.use ip).1, true)) (fun _ _ => True) s := by
  simp only [acquiresleep, wp_bind, wp_inode]
  refine wp_ite (fun _ => (wp_stop _).mpr trivial) fun hfree => ?_
  rw [wp_setInode]
  exact ⟨Bool.eq_false_iff.mpr hfree, use_setEntry _ _ _⟩

theorem ilock_use : wp (fun _ => True) (ilock ip) (fun _ t => (s.use ip).2 = false ∧
    t.use = upd s.use ip ((s.use ip).1, true)) (fun _ _ => True) s := by
  simp only [ilock, wp_bind, wp_superblock, wp_inode]
  refine wp_ite (fun _ => (wp_panic _).mpr trivial) fun _ => wp_seq
    acquiresleep_use fun _ t ht => ?_
  refine wp_ite (fun _ => (wp_pure _).mpr ht) fun _ => ?_
  have hload : Still (do
      bread (iblock s.mem.sb (s.mem.itable ip).inum)
      let d ← load (iblock s.mem.sb (s.mem.itable ip).inum)
      setDin ip fun _ => Dinode.read d (ioff (s.mem.itable ip).inum)
      brelse (iblock s.mem.sb (s.mem.itable ip).inum)
      setInode ip fun i => { i with valid := true }
      if (Dinode.read d (ioff (s.mem.itable ip).inum)).type = 0 then panic "ilock: no type"
      else pure ()) := by
    refine (bread_still _).bind fun _ => (load_still _).bind fun _ =>
      (setDin_still ip _).bind fun _ =>
      (brelse_still _).bind fun _ => Prog.Only.bind
        (ask_still ⟨fun m jp => ?_, fun m => ⟨rfl, rfl, rfl⟩⟩) fun _ =>
      .ite (panic_still _) (.pure _)
    by_cases hjp : jp = ip
    · subst hjp
      simp
    · simp [upd_other hjp]
  exact wp_mono (hload.calm.use t) (fun _ u hu => ⟨ht.1, hu.trans ht.2⟩) fun _ _ _ => trivial

theorem iunlock_use : wp (fun _ => True) (iunlock ip)
    (fun _ t => t.use = upd s.use ip ((s.use ip).1, false)) (fun _ _ => True) s := by
  simp only [iunlock, releasesleep, wp_bind, wp_inode]
  refine wp_ite (fun _ => (wp_panic _).mpr trivial) fun _ => ?_
  rw [wp_setInode]
  exact use_setEntry _ _ _

theorem iputDrop_use : wp (fun _ => True) (iputDrop ip)
    (fun _ t => t.use = upd s.use ip ((s.use ip).1 - 1, (s.use ip).2)) (fun _ _ => True) s := by
  rw [iputDrop, wp_setInode]
  exact use_setEntry _ _ _

theorem iputTest_use : wp (fun _ => True) (iputTest ip) (fun freeing t =>
    if freeing then (s.use ip).2 = false ∧ t.use = upd s.use ip ((s.use ip).1, true)
    else t.use = upd s.use ip ((s.use ip).1 - 1, (s.use ip).2)) (fun _ _ => True) s := by
  simp only [iputTest, wp_bind, wp_inode]
  refine wp_ite (fun _ => ?_) fun _ => ?_
  · exact wp_seq acquiresleep_use fun _ t ht => (wp_pure _).mpr ht
  · simp only [wp_bind, wp_setInode, wp_pure]
    exact use_setEntry _ _ _

theorem iputFree_use : wp (fun _ => True) (iputFree ip)
    (fun _ t => t.use = upd s.use ip ((s.use ip).1, false)) (fun _ _ => True) s := by
  have hstill : Still (do
      itrunc ip
      setDin ip fun x => { x with type := 0 }
      iupdate ip) :=
    (itrunc_still ip).bind fun _ => (setDin_still ip _).bind fun _ => iupdate_still ip
  have hw := wp_mono (hstill.calm.use s) (fun _ t ht => ht) fun _ _ _ => trivial
  simp only [wp_bind] at hw
  simp only [iputFree, releasesleep, wp_bind]
  refine wp_mono hw (fun _ t ht => wp_mono ht (fun _ u hu => wp_mono hu (fun _ v hv => ?_)
    fun _ _ h => h) fun _ _ h => h) fun _ _ h => h
  rw [wp_setInode, wp_setInode, use_setEntry, use_setEntry, setEntry_same, hv, upd_upd]
  have hip : ((v.mem.itable ip).ref) = (s.use ip).1 := congrArg Prod.fst (congrFun hv ip)
  rw [hip]

end

inductive Move (s t : Shared) : Prop where
  | none (huse : t.store.use = s.store.use) (hrefs : t.refs = s.refs)
      (hholder : t.holder = s.holder) (hput : t.putting = s.putting)
  | take (p ip : Nat) (hip : ip < nInode)
      (huse : t.store.use = upd s.store.use ip ((s.store.use ip).1 + 1, (s.store.use ip).2))
      (hrefs : t.refs = (p, ip) :: s.refs) (hholder : t.holder = s.holder)
      (hput : t.putting = s.putting)
  | drop (p ip : Nat) (howns : (p, ip) ∈ s.refs) (hnot : s.holder ip ≠ some p)
      (hput : t.putting = upd s.putting p none)
      (huse : t.store.use = upd s.store.use ip ((s.store.use ip).1 - 1, (s.store.use ip).2))
      (hrefs : t.refs = s.refs.erase (p, ip)) (hholder : t.holder = s.holder)
  | lock (p ip : Nat) (howns : (p, ip) ∈ s.refs) (hfree : (s.store.use ip).2 = false)
      (huse : t.store.use = upd s.store.use ip ((s.store.use ip).1, true)) (hrefs : t.refs = s.refs)
      (hholder : t.holder = upd s.holder ip (some p)) (hidle : s.putting p = none)
      (hput : t.putting = s.putting ∨ t.putting = upd s.putting p (some (.freeing ip)))
  | unlock (p ip : Nat) (hlocked : s.holder ip = some p)
      (huse : t.store.use = upd s.store.use ip ((s.store.use ip).1, false))
      (hrefs : t.refs = s.refs) (hholder : t.holder = upd s.holder ip none)
      (hput : s.putting p = none ∧ t.putting = s.putting ∨
        t.putting = upd s.putting p (some (.dropping ip)))

/-- How references, locks and processes fit together. -/
structure Owned (s : Shared) : Prop where
  ref : ∀ ip < nInode, (s.store.use ip).1 = ((s.refs.map Prod.snd).count ip : Nat)
  locked : ∀ ip < nInode, (s.store.use ip).2 = (s.holder ip).isSome
  lt : ∀ r ∈ s.refs, r.2 < nInode
  owner : ∀ ip q, s.holder ip = some q → (q, ip) ∈ s.refs
  freeing : ∀ p ip, s.putting p = some (.freeing ip) → s.holder ip = some p
  dropping : ∀ p ip, s.putting p = some (.dropping ip) → (p, ip) ∈ s.refs ∧ s.holder ip ≠ some p

namespace Shared

theorem run_spec {α : Type} {s t : Shared} {prog : FsProg α} {f : α → Shared → Shared}
    {I : Store → Prop} {Q : α → Store → Prop} {E : Stop → Store → Prop}
    (h : s.run prog f = some t) (hp : wp I prog Q E s.store) :
    ∃ a u, Q a u ∧ t = f a { s with store := u } := by
  obtain ⟨⟨a, u⟩, hr, rfl⟩ := Option.map_eq_some_iff.mp h
  exact ⟨a, u, Prog.wp_returns hp hr, rfl⟩

theorem run_calm {α : Type} {s t : Shared} {prog : FsProg α}
    (h : (s.run prog fun _ t => t) = some t)
    (hp : Calm prog) : Move s t := by
  obtain ⟨a, u, hu, rfl⟩ := run_spec h (hp.use s.store)
  exact .none hu rfl rfl rfl

theorem step_move {s t : Shared} {e : Event} (ho : Owned s) (h : s.step e = some t) :
    Move s t := by
  cases e with
  | beginOp p =>
      simp only [step, Option.ite_none_right_eq_some] at h
      exact run_calm h.2 (.ask trivial)
  | endOp p =>
      simp only [step, Option.ite_none_right_eq_some] at h
      exact run_calm h.2 (.ask trivial)
  | iget p i =>
      simp only [step, Option.ite_none_right_eq_some] at h
      obtain ⟨ip, u, ⟨hip, hu⟩, rfl⟩ := run_spec h.2 iget_use
      exact .take p ip hip hu rfl rfl rfl
  | idup p ip =>
      simp only [step, Option.ite_none_right_eq_some] at h
      obtain ⟨⟨-, howns⟩, h⟩ := h
      have howns : (p, ip) ∈ s.refs := of_decide_eq_true howns
      obtain ⟨_, u, ⟨rfl, hu⟩, rfl⟩ := run_spec h idup_use
      exact .take p _ (ho.lt _ howns) hu rfl rfl rfl
  | ilock p ip =>
      simp only [step, Option.ite_none_right_eq_some] at h
      obtain ⟨⟨hidle, howns, -⟩, h⟩ := h
      obtain ⟨_, u, ⟨hfree, hu⟩, rfl⟩ := run_spec h ilock_use
      exact .lock p ip (of_decide_eq_true howns) hfree hu rfl rfl
        (Option.isNone_iff_eq_none.mp hidle) (.inl rfl)
  | iunlock p ip =>
      simp only [step, Option.ite_none_right_eq_some] at h
      obtain ⟨⟨hidle, hlocked⟩, h⟩ := h
      obtain ⟨_, u, hu, rfl⟩ := run_spec h iunlock_use
      exact .unlock p ip hlocked hu rfl rfl (.inl ⟨Option.isNone_iff_eq_none.mp hidle, rfl⟩)
  | ialloc p type i =>
      simp only [step, Option.ite_none_right_eq_some] at h
      exact run_calm h.2 (iclaim_still _ _ _).calm
  | work p ip w =>
      simp only [step, Option.ite_none_right_eq_some] at h
      exact run_calm h.2 (w.prog_still ip).calm
  | iput p ip =>
      simp only [step, Option.ite_none_right_eq_some] at h
      obtain ⟨⟨hidle, howns, hnot⟩, h⟩ := h
      have hidle := Option.isNone_iff_eq_none.mp hidle
      have howns : (p, ip) ∈ s.refs := of_decide_eq_true howns
      obtain ⟨freeing, u, hu, rfl⟩ := run_spec h iputTest_use
      cases freeing with
      | true => exact .lock p ip howns hu.1 hu.2 rfl rfl hidle (.inr rfl)
      | false =>
          refine .drop p ip howns hnot ?_ hu rfl rfl
          rw [← hidle, upd_self]
          rfl
  | iputFree p =>
      simp only [step] at h
      split at h
      · rename_i ip hput
        obtain ⟨_, u, hu, rfl⟩ := run_spec h iputFree_use
        exact .unlock p ip (ho.freeing p ip hput) hu rfl rfl (.inr rfl)
      · cases h
  | iputDrop p =>
      simp only [step] at h
      split at h
      · rename_i ip hput
        obtain ⟨_, u, hu, rfl⟩ := run_spec h iputDrop_use
        obtain ⟨howns, hnot⟩ := ho.dropping p ip hput
        exact .drop p ip howns hnot rfl hu rfl rfl
      · cases h

end Shared

theorem count_map_erase {l : List (Nat × Nat)} {x : Nat × Nat} (hx : x ∈ l) (jp : Nat) :
    ((l.erase x).map Prod.snd).count jp + (if jp = x.2 then 1 else 0) =
      (l.map Prod.snd).count jp := by
  rw [((List.perm_cons_erase hx).map Prod.snd).count_eq, List.map_cons, List.count_cons]
  by_cases heq : jp = x.2
  · rw [if_pos heq, if_pos (by simpa using heq.symm)]
  · rw [if_neg heq, if_neg (by simpa using Ne.symm heq)]

theorem Owned.move {s t : Shared} (h : Owned s) (m : Move s t) : Owned t := by
  cases m with
  | none huse hrefs hholder hput =>
      refine ⟨?_, ?_, ?_, ?_, ?_, ?_⟩
      · rw [huse, hrefs]
        exact h.ref
      · rw [huse, hholder]
        exact h.locked
      · rw [hrefs]
        exact h.lt
      · rw [hholder, hrefs]
        exact h.owner
      · rw [hput, hholder]
        exact h.freeing
      · rw [hput, hholder, hrefs]
        exact h.dropping
  | take p ip hip huse hrefs hholder hput =>
      refine ⟨?_, ?_, ?_, ?_, ?_, ?_⟩
      · intro jp hjp
        rw [huse, hrefs, List.map_cons, List.count_cons]
        by_cases heq : jp = ip
        · subst heq
          rw [upd_same, h.ref jp hjp]
          simp
        · rw [upd_other heq, h.ref jp hjp, if_neg (by simpa using Ne.symm heq), Nat.add_zero]
      · intro jp hjp
        rw [huse, hholder, ← h.locked jp hjp]
        by_cases heq : jp = ip
        · rw [heq, upd_same]
        · rw [upd_other heq]
      · intro r hr
        rw [hrefs] at hr
        rcases List.mem_cons.mp hr with rfl | hr
        · exact hip
        · exact h.lt r hr
      · intro jp q hq
        rw [hholder] at hq
        rw [hrefs]
        exact List.mem_cons_of_mem _ (h.owner jp q hq)
      · rw [hput, hholder]
        exact h.freeing
      · intro q jp hq
        rw [hput] at hq
        rw [hholder, hrefs]
        exact ⟨List.mem_cons_of_mem _ (h.dropping q jp hq).1, (h.dropping q jp hq).2⟩
  | drop p ip howns hnot hput huse hrefs hholder =>
      have hother : ∀ q jp, (q, jp) ∈ s.refs → q ≠ p → (q, jp) ∈ t.refs := by
        intro q jp hq hne
        rw [hrefs]
        exact (List.mem_erase_of_ne fun heq => hne (congrArg Prod.fst heq)).mpr hq
      refine ⟨?_, ?_, ?_, ?_, ?_, ?_⟩
      · intro jp hjp
        have hc := count_map_erase howns jp
        rw [huse, hrefs]
        by_cases heq : jp = ip
        · subst heq
          rw [if_pos rfl] at hc
          rw [upd_same, h.ref jp hjp]
          omega
        · rw [if_neg heq] at hc
          rw [upd_other heq, h.ref jp hjp]
          omega
      · intro jp hjp
        rw [huse, hholder, ← h.locked jp hjp]
        by_cases heq : jp = ip
        · rw [heq, upd_same]
        · rw [upd_other heq]
      · intro r hr
        rw [hrefs] at hr
        exact h.lt r (List.mem_of_mem_erase hr)
      · intro jp q hq
        rw [hholder] at hq
        by_cases heq : (q, jp) = (p, ip)
        · cases heq
          exact absurd hq hnot
        · rw [hrefs]
          exact (List.mem_erase_of_ne heq).mpr (h.owner jp q hq)
      · intro q jp hq
        rw [hput] at hq
        rw [hholder]
        by_cases heq : q = p
        · rw [heq, upd_same] at hq
          cases hq
        · rw [upd_other heq] at hq
          exact h.freeing q jp hq
      · intro q jp hq
        rw [hput] at hq
        rw [hholder]
        by_cases heq : q = p
        · rw [heq, upd_same] at hq
          cases hq
        · rw [upd_other heq] at hq
          obtain ⟨hmem, hne⟩ := h.dropping q jp hq
          exact ⟨hother q jp hmem heq, hne⟩
  | lock p ip howns hfree huse hrefs hholder hidle hput =>
      have hnone : s.holder ip = none := by
        have hl := h.locked ip (h.lt _ howns)
        rw [hfree] at hl
        exact Option.not_isSome_iff_eq_none.mp (by rw [← hl]; decide)
      have hne : ∀ jp q, s.holder jp = some q → jp ≠ ip := by
        intro jp q hq heq
        rw [heq, hnone] at hq
        cases hq
      refine ⟨?_, ?_, by rw [hrefs]; exact h.lt, ?_, ?_, ?_⟩
      · intro jp hjp
        rw [huse, hrefs, ← h.ref jp hjp]
        by_cases heq : jp = ip
        · rw [heq, upd_same]
        · rw [upd_other heq]
      · intro jp hjp
        rw [huse, hholder]
        by_cases heq : jp = ip
        · rw [heq, upd_same, upd_same]
          rfl
        · rw [upd_other heq, upd_other heq, h.locked jp hjp]
      · intro jp q hq
        rw [hholder] at hq
        rw [hrefs]
        by_cases heq : jp = ip
        · rw [heq, upd_same] at hq
          cases hq
          rw [heq]
          exact howns
        · rw [upd_other heq] at hq
          exact h.owner jp q hq
      · intro q jp hq
        rw [hholder]
        rcases hput with hput | hput
        · rw [hput] at hq
          have hf := h.freeing q jp hq
          rw [upd_other (hne jp q hf), hf]
        · rw [hput] at hq
          by_cases heq : q = p
          · rw [heq, upd_same] at hq
            cases hq
            rw [heq, upd_same]
          · rw [upd_other heq] at hq
            have hf := h.freeing q jp hq
            rw [upd_other (hne jp q hf), hf]
      · intro q jp hq
        have hq' : s.putting q = some (.dropping jp) ∧ q ≠ p := by
          have hqp : s.putting q = some (.dropping jp) → q ≠ p := by
            intro hs heq
            rw [heq, hidle] at hs
            cases hs
          rcases hput with hput | hput
          · rw [hput] at hq
            exact ⟨hq, hqp hq⟩
          · rw [hput] at hq
            by_cases heq : q = p
            · rw [heq, upd_same] at hq
              cases hq
            · rw [upd_other heq] at hq
              exact ⟨hq, heq⟩
        obtain ⟨hmem, hnot⟩ := h.dropping q jp hq'.1
        rw [hrefs, hholder]
        refine ⟨hmem, ?_⟩
        by_cases heq : jp = ip
        · rw [heq, upd_same]
          exact fun hs => hq'.2 (Option.some.inj hs).symm
        · rw [upd_other heq]
          exact hnot
  | unlock p ip hlocked huse hrefs hholder hput =>
      have howns := h.owner ip p hlocked
      refine ⟨?_, ?_, by rw [hrefs]; exact h.lt, ?_, ?_, ?_⟩
      · intro jp hjp
        rw [huse, hrefs, ← h.ref jp hjp]
        by_cases heq : jp = ip
        · rw [heq, upd_same]
        · rw [upd_other heq]
      · intro jp hjp
        rw [huse, hholder]
        by_cases heq : jp = ip
        · rw [heq, upd_same, upd_same]
          rfl
        · rw [upd_other heq, upd_other heq, h.locked jp hjp]
      · intro jp q hq
        rw [hholder] at hq
        rw [hrefs]
        by_cases heq : jp = ip
        · rw [heq, upd_same] at hq
          cases hq
        · rw [upd_other heq] at hq
          exact h.owner jp q hq
      · intro q jp hq
        have hq' : s.putting q = some (.freeing jp) ∧ q ≠ p := by
          rcases hput with ⟨hidle, hput⟩ | hput
          · rw [hput] at hq
            refine ⟨hq, fun heq => ?_⟩
            rw [heq, hidle] at hq
            cases hq
          · rw [hput] at hq
            by_cases heq : q = p
            · rw [heq, upd_same] at hq
              cases hq
            · rw [upd_other heq] at hq
              exact ⟨hq, heq⟩
        have hf := h.freeing q jp hq'.1
        rw [hholder, upd_other, hf]
        intro heq
        rw [heq, hlocked] at hf
        exact hq'.2 (Option.some.inj hf).symm
      · intro q jp hq
        rw [hrefs, hholder]
        have hdrop : ∀ jp, s.putting q = some (.dropping jp) →
            (q, jp) ∈ s.refs ∧ upd s.holder ip none jp ≠ some q := by
          intro jp hs
          obtain ⟨hmem, hnot⟩ := h.dropping q jp hs
          refine ⟨hmem, ?_⟩
          by_cases heq : jp = ip
          · rw [heq, upd_same]
            exact nofun
          · rw [upd_other heq]
            exact hnot
        rcases hput with ⟨-, hput⟩ | hput
        · rw [hput] at hq
          exact hdrop jp hq
        · rw [hput] at hq
          by_cases heq : q = p
          · rw [heq, upd_same] at hq
            cases hq
            rw [heq, upd_same]
            exact ⟨howns, nofun⟩
          · rw [upd_other heq] at hq
            exact hdrop jp hq

theorem Shared.Boot.owned {s : Shared} (h : s.Boot) : Owned s := by
  refine ⟨fun ip hip => ?_, fun ip hip => ?_, fun r hr => ?_, fun ip q hq => ?_, fun p ip hp => ?_,
    fun p ip hp => ?_⟩
  · rw [h.refs]
    exact (h.table ip hip).1
  · rw [h.holder]
    exact (h.table ip hip).2
  · rw [h.refs] at hr
    cases hr
  · rw [h.holder] at hq
    cases hq
  · rw [h.putting] at hp
    cases hp
  · rw [h.putting] at hp
    cases hp

theorem Owned.run {s t : Shared} {evs : List Event} (h : Owned s)
    (hr : Run Shared.step (fun _ _ => True) s evs t) : Owned t :=
  hr.invariant h fun _ _ _ ho _ hst => ho.move (Shared.step_move ho hst)

/-- Whoever has the lock of an inode has a reference to it, so the last reference is not that
of another process that has locked it. -/
theorem Owned.unlocked {s : Shared} (h : Owned s) {p ip : Nat} (howns : (p, ip) ∈ s.refs)
    (hnot : s.holder ip ≠ some p) (hone : (s.store.mem.itable ip).ref = 1) :
    (s.store.mem.itable ip).locked = false := by
  have hip := h.lt _ howns
  have hlocked := h.locked ip hip
  cases hq : s.holder ip with
  | none =>
      rw [hq] at hlocked
      exact hlocked
  | some q =>
      have hne : (q, ip) ≠ (p, ip) := by
        intro heq
        cases heq
        exact hnot hq
      have hmem : ip ∈ (s.refs.erase (p, ip)).map Prod.snd :=
        List.mem_map_of_mem (f := Prod.snd) ((List.mem_erase_of_ne hne).mpr (h.owner ip q hq))
      have hpos := List.count_pos_iff.mpr hmem
      have hcount := count_map_erase howns ip
      have href : (s.store.mem.itable ip).ref = _ := h.ref ip hip
      rw [if_pos rfl] at hcount
      omega

/-- `iput` finds the inode's lock free when it goes to free the inode: it does not sleep with
`itable.lock` held. -/
theorem iput_never_blocks {s t : Shared} {evs : List Event} (h : s.Boot)
    (hr : Run Shared.step (fun _ _ => True) s evs t) {p ip : Nat} (howns : (p, ip) ∈ t.refs)
    (hnot : t.holder ip ≠ some p)
    (hbranch : (t.store.mem.itable ip).ref = 1 ∧ (t.store.mem.itable ip).valid = true ∧
      (t.store.mem.itable ip).din.nlink = 0) :
    (t.store.mem.itable ip).locked = false ∧
      wp (fun _ => True) (acquiresleep ip) (fun _ _ => True) (fun _ _ => False) t.store := by
  have hfree := (h.owned.run hr).unlocked howns hnot hbranch.1
  refine ⟨hfree, ?_⟩
  simp only [acquiresleep, wp_bind, wp_inode, hfree]
  rw [if_neg (by decide), wp_setInode]
  trivial

/-- A file system whose inode 1 is a file without links and without blocks. -/
def small : Store where
  blocks b :=
    if b = 3 then { Dinode.zero with type := tFile }.write (fun _ => 0) (ioff 1)
    else if b = 4 then fun o => if o = 0 then 31 else 0
    else fun _ => 0
  held := []
  outstanding := 0
  logged := []
  touched := []
  broken := false
  mem :=
    { sb := ⟨6, 1, 2, 1, 2, 3, 4⟩
      itable := fun _ => ⟨0, 0, false, false, Dinode.zero⟩
      ftable := fun _ => ⟨.none, 0, false, false, 0, 0, 0⟩
      proc := fun _ => ⟨false, 0, fun _ => none⟩ }

def Shared.start (s : Store) : Shared := ⟨s, [], fun _ => none, fun _ => none⟩

theorem small_boot : (Shared.start small).Boot :=
  ⟨fun _ _ => ⟨rfl, rfl⟩, rfl, fun _ => rfl, fun _ => rfl⟩

/-- Two processes have the file; one has locked it and put it. -/
theorem iput_never_blocks_small :
    ∃ t, Run Shared.step (fun _ _ => True) (.start small)
        [.iget 0 1, .iget 1 1, .ilock 1 0, .iunlock 1 0, .iput 1 0] t ∧
      (0, 0) ∈ t.refs ∧ (t.store.mem.itable 0).locked = false := by
  have hrun : (runTest Shared.step (fun _ _ => true) (.start small)
      [.iget 0 1, .iget 1 1, .ilock 1 0, .iunlock 1 0, .iput 1 0]).map (fun t =>
        (t.refs, t.holder 0, (t.store.mem.itable 0).ref, (t.store.mem.itable 0).valid,
          (t.store.mem.itable 0).din.nlink)) = some ([(0, 0)], none, 1, true, 0) := by
    decide +kernel
  obtain ⟨t, ht, hend⟩ := Option.map_eq_some_iff.mp hrun
  simp only [Prod.mk.injEq] at hend
  obtain ⟨hrefs, hholder, href, hvalid, hlink⟩ := hend
  have hr : Run Shared.step (fun _ _ => True) _ _ t :=
    Run.of_runTest (fun _ _ _ => trivial) ht
  have howns : (0, 0) ∈ t.refs := by rw [hrefs]; exact List.mem_cons_self
  refine ⟨t, hr, howns, ?_⟩
  exact (iput_never_blocks small_boot hr howns (by rw [hholder]; exact nofun)
    ⟨href, hvalid, hlink⟩).1

end Xv6.Fs
