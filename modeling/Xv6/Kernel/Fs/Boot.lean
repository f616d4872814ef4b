import Xv6.Kernel.Fs.Reach

/-! # Starting on a disk

`fsinit` reads the superblock and replays the log; the first process has the root directory
as its current directory and no open file. On a well-formed disk this is a state from
which system calls can be made.
-/

namespace Xv6.Fs

open Lib

def readsb (d : Block) : Nat × Superblock where
  fst := getLE d 0 4
  snd :=
    { size := getLE d 4 4
      nblocks := getLE d 8 4
      ninodes := getLE d 12 4
      nlog := getLE d 16 4
      logstart := getLE d 20 4
      inodestart := getLE d 24 4
      bmapstart := getLE d 28 4 }

/-- `recover_from_log` on the disk: what the header lists is copied home, and the header is
cleared. -/
def recoverFromLog (sb : Superblock) (blocks : Nat → Block) : Nat → Block :=
  let head := blocks sb.logstart
  let blocks := (List.range (getLE head 0 4)).foldl (fun blocks tail =>
    upd blocks (getLE head (4 + 4 * tail) 4) (blocks (sb.logstart + tail + 1))) blocks
  upd blocks sb.logstart (putLE (blocks sb.logstart) 0 4 0)

/-- The tables when the first process runs: its current directory is `namei("/")`. -/
def firstMem (sb : Superblock) : FsMem where
  sb := sb
  itable ip := ⟨if ip = 0 then rootIno else 0, if ip = 0 then 1 else 0, false, false, Dinode.zero⟩
  ftable _ := ⟨.none, 0, false, false, 0, 0, 0⟩
  proc p := ⟨p = 0, 0, fun _ => none⟩

/-- Nothing is held and no operation is open. -/
def firstStore (sb : Superblock) (blocks : Nat → Block) : Store where
  blocks := blocks
  held := []
  outstanding := 0
  logged := []
  touched := []
  broken := false
  mem := firstMem sb

def fsinit (blocks : Nat → Block) : Except String Store :=
  let (magic, sb) := readsb (blocks 1)
  if magic ≠ fsMagic then .error "invalid file system"
  else .ok (firstStore sb (recoverFromLog sb blocks))

/-! ## Well-formed disks -/

/-- The inodes on a disk. -/
def inodesOn (sb : Superblock) (blocks : Nat → Block) (i : Nat) : Dinode :=
  if i < sb.ninodes then diskInode sb blocks i else Dinode.zero

def nodesOn (sb : Superblock) (blocks : Nat → Block) (i : Nat) : Node :=
  if (inodesOn sb blocks i).type = 0 then Node.free else nodeOf blocks (inodesOn sb blocks i)

/-- A disk that nothing is wrong with; with `st` no file has a hole. -/
structure WellFormed (st : Bool) (sb : Superblock) (blocks : Nat → Block) : Prop where
  disk : Disk st (fun _ => False) sb blocks (inodesOn sb blocks)
  small : sb.ninodes ≤ 65536
  dirs : ∀ i, (nodesOn sb blocks i).type = tDir → (nodesOn sb blocks i).size % direntSize = 0
  root : (nodesOn sb blocks rootIno).type ≠ 0
  linked : ∀ i, (nodesOn sb blocks i).type ≠ 0 → (nodesOn sb blocks i).nlink ≠ 0

section

variable {m : Mode} {st : Bool} {sb : Superblock} {blocks : Nat → Block}

theorem firstMem_not_holds (sb : Superblock) (ip i : Nat) : ¬ (firstMem sb).Holds ip i := by
  intro h
  have hvalid : false = true := h.valid
  cases hvalid

theorem firstStore_inodeOf (sb : Superblock) (blocks : Nat → Block) :
    (firstStore sb blocks).inodeOf = inodesOn sb blocks := by
  funext i
  have hnone : (firstMem sb).slotOf i = none := by
    unfold FsMem.slotOf
    rw [List.find?_eq_none]
    intro ip _ hp
    simp only [decide_eq_true_eq] at hp
    have hvalid : false = true := hp.2.1
    cases hvalid
  simp only [Store.inodeOf, firstStore, hnone]
  rfl

theorem firstStore_node (sb : Superblock) (blocks : Nat → Block) :
    (firstStore sb blocks).node = nodesOn sb blocks := by
  funext i
  unfold Store.node nodesOn
  rw [firstStore_inodeOf]
  rfl

theorem first_fileRefs (sb : Superblock) (ip : Nat) : (firstMem sb).fileRefs ip = 0 := by
  unfold FsMem.fileRefs
  rw [List.countP_eq_zero]
  intro f _ hf
  simp [firstMem] at hf

theorem first_cwds (sb : Superblock) : cwds (firstMem sb).proc = [0] := rfl

theorem WellFormed.inv {nt : Prop} (h : WellFormed st sb blocks) :
    Inv st nt [0] [] (firstStore sb blocks) := by
  have hroot : rootIno < sb.ninodes := h.disk.core.sbOk.root
  have hpos : ∀ ip, 0 < ((firstMem sb).itable ip).ref → ip = 0 := by
    intro ip hip
    by_contra hne
    have href : ((firstMem sb).itable ip).ref = 0 := if_neg hne
    rw [href] at hip
    exact absurd hip (by decide)
  constructor
  case disk =>
    refine ⟨fun _ => False, fun _ _ hf => hf, ?_⟩
    rw [firstStore_inodeOf]
    exact h.disk
  case uniq => exact fun ip jp _ _ hip hjp _ => (hpos ip hip).trans (hpos jp hjp).symm
  case held => rfl
  case touched => rfl
  case inum =>
    intro ip _ hip
    rw [hpos ip hip]
    exact hroot
  case coh => exact fun ip i hh => absurd hh (firstMem_not_holds sb ip i)
  case type => exact fun ip i hh => absurd hh (firstMem_not_holds sb ip i)
  case refs =>
    intro ip _
    show (if ip = 0 then 1 else 0 : Int) = ((firstMem sb).fileRefs ip + [0].count ip + 0 : Nat)
    rw [first_fileRefs]
    by_cases hip : ip = 0
    · rw [if_pos hip, hip]
      rfl
    · rw [if_neg hip, List.count_eq_zero.mpr fun hmem => hip (List.mem_singleton.mp hmem)]
      rfl
  case lt =>
    intro ip hip
    rcases hip with hip | hip
    · rw [List.mem_singleton.mp hip]
      decide
    · cases hip
  case alive =>
    intro ip _ hc
    have hip : ip = 0 := by
      rcases hc with hc | hc | ⟨-, hc⟩
      · have hzero : 0 < (firstMem sb).fileRefs ip := hc
        rw [first_fileRefs] at hzero
        exact absurd hzero (by decide)
      · exact List.mem_singleton.mp hc
      · cases hc
    rw [hip]
    have htype := h.root
    rw [← firstStore_node, Store.node_type] at htype
    exact htype
  case idle => exact fun f _ _ => rfl
  case files => exact fun f _ hf => by rcases hf with hf | hf <;> cases hf
  case writers => exact fun f _ hf => by cases hf
  case fds => exact fun p fd f hf => by cases hf
  case dirs =>
    rw [firstStore_node]
    exact h.dirs

theorem WellFormed.fit (h : WellFormed m.strict sb blocks)
    (hsound : m.sound → m.exact ∧ Rooted (nodesOn sb blocks)) :
    Fit m (firstStore sb blocks) := by
  refine ⟨⟨[(0, rootIno)], ⟨h.inv, rfl, rfl, rfl, rfl, ?_, ?_, fun ip hip => hip, fun _ => rfl, ?_,
    fun _ => rfl⟩, ?_⟩, h.disk.core.sbOk.root, fun _ => h.small, ?_⟩
  · intro r hr
    rw [List.append_nil] at hr
    rw [List.mem_singleton.mp hr]
    rfl
  · exact fun ip hip => by cases hip
  · intro _ i htype hlink
    rw [firstStore_node] at htype hlink
    exact absurd hlink (h.linked i htype)
  · rw [show (firstStore sb blocks).mem.proc = (firstMem sb).proc from rfl, first_cwds]
    exact .refl _
  · rw [firstStore_node]
    exact hsound

/-! ## After a session -/

variable {ok : Store → Nat × Syscall → Prop} {calls : List (Nat × Syscall)} {t : Store}

theorem WellFormed.kept (h : WellFormed m.strict sb blocks) (hm : ¬ m.sound) :
    Kept m sb (firstStore sb blocks) :=
  ⟨h.fit fun hs => absurd hs hm, rfl⟩

theorem WellFormed.fit_run {x : Prop} (h : WellFormed st sb blocks)
    (hrun : Run (Prog.serve Store.handle request) (fun _ e => e.2.Typed) (firstStore sb blocks)
      calls t) : Fit ⟨st, False, x, False⟩ t :=
  ((typed_suits st x).run (WellFormed.kept h id) hrun).fit

/-- Between system calls there are no references but those of files and processes, so all of
them are to allocated inodes. -/
theorem Fit.sound {x : Prop} (h : Fit ⟨st, False, True, x⟩ t) (hroot : Rooted t.node) :
    Fit ⟨st, True, True, x⟩ t := by
  obtain ⟨⟨R, hin, hperm⟩, hone, hsmall, -⟩ := h
  refine ⟨⟨R, ⟨?_, hin.sb, hin.ops, hin.ftable, hin.proc, hin.num, hin.valid, hin.sub, hin.node,
    hin.anchored, hin.clean⟩, hperm⟩, hone, hsmall, fun _ => ⟨trivial, hroot⟩⟩
  have hinv := hin.inv
  refine ⟨hinv.disk, hinv.uniq, hinv.held, hinv.touched, hinv.inum, hinv.coh, hinv.type, hinv.refs,
    hinv.lt, fun ip hip hc => ?_, hinv.idle, hinv.files, hinv.writers, hinv.fds, hinv.dirs⟩
  rcases hc with hfile | hmem | ⟨-, hmem⟩
  · exact hinv.alive ip hip (.inl hfile)
  · exact hinv.alive ip hip (.inr (.inl hmem))
  · cases hmem

/-- Between system calls no inode is locked and no operation is open. -/
theorem WellFormed.settled_run (h : WellFormed st sb blocks)
    (hrun : Run (Prog.serve Store.handle request) ok (firstStore sb blocks) calls t) :
    Settled (fun _ => false) 0 t := by
  have hinv : Inv st False [0] [] (firstStore sb blocks) := h.inv
  have hbal : Balanced (firstStore sb blocks) := by
    intro ip hip
    rw [hinv.refs ip hip]
    show ((_ + List.count ip [0] + 0 : Nat) : Int) = (_ + List.count ip [0] : Nat)
    omega
  have htab : Tables (firstStore sb blocks).mem.ftable (firstStore sb blocks).mem.proc :=
    ⟨hinv.idle, hinv.fds⟩
  exact hrun.invariant (settled_iff.mpr ⟨hbal, htab⟩) fun _ _ _ h _ hc => h.call hc

end

end Xv6.Fs
