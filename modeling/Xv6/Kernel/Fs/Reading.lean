import Xv6.Kernel.Console.Code
import Xv6.Kernel.Fs.Opened
import Xv6.Kernel.Pipe.Code

/-! # How much `read` delivers

`fileread` on the three kinds of files, with the bytes that it copies to user memory. The
length is an `int`; a pipe and the console compare it as one, while `readi` takes it as an
unsigned number, so that a negative length is a very large one there.
-/

namespace Xv6.Reading

open Lib Fs Console

/-! ## The three kinds -/

/-- What a read meets outside the file system: the bytes that are in the pipe once it need not
wait, and the characters that the console has for it one after another; `none` where it is
killed while it waits. -/
structure Supply where
  pipe : Option (List UInt8)
  keys : Nat → Option UInt8

/-- A byte is copied before the rest. -/
def after (ch : UInt8) (r : Int × List UInt8) : Int × List UInt8 := (r.1, ch :: r.2)

def pipeLoop (a : Pipes.Args) : List UInt8 → Nat → Int × List UInt8
  | [], i => (i, [])
  | ch :: data, i =>
      if (i : Int) < a.n then
        if a.copies i then after ch (pipeLoop a data (i + 1)) else (i, [])
      else (i, [])

def piperead (a : Pipes.Args) : Option (List UInt8) → Int × List UInt8
  | none => (-1, [])
  | some data => pipeLoop a data 0

def consoleLoop (a : Pipes.Args) (keys : Nat → Option UInt8) : Nat → Nat → Int × List UInt8
  | 0, k => (k, [])
  | fuel + 1, k =>
      if (k : Int) < a.n then
        match keys k with
        | none => (-1, [])
        | some ch =>
            if ch = ctrl 'D' then (k, [])
            else if a.copies k then
              if ch = newline then (k + 1, [ch]) else after ch (consoleLoop a keys fuel (k + 1))
            else (k, [])
      else (k, [])

def consoleread (a : Pipes.Args) (keys : Nat → Option UInt8) : Int × List UInt8 :=
  consoleLoop a keys a.n.toNat 0

/-- `devsw[major].read`: only the console has one. -/
def devRead (major : BitVec 16) : Option (Pipes.Args → (Nat → Option UInt8) → Int × List UInt8) :=
  if major.toInt < 0 ∨ nDev ≤ major.toInt then none
  else if major = 1 then some consoleread
  else none

/-- What a read of a pipe or a device comes to. -/
def outside (inp : Supply) (a : Pipes.Args) (x : File) : Int × List UInt8 :=
  match x.type with
  | .pipe => piperead a inp.pipe
  | _ =>
      match devRead x.major with
      | none => (-1, [])
      | some read => read a inp.keys

/-- `fileread`: what it returns, and the bytes it copies to user memory. -/
def fileread (f : Nat) (inp : Supply) (a : Pipes.Args) : FsProg (Int × List UInt8) :=
  Fs.fileread f a.um a.addr a.n (outside inp a)

/-! ## Pipes and the console -/

/-- At most `n` bytes are copied, and no larger number is returned. -/
def Within (n : Int) (r : Int × List UInt8) : Prop := r.2.length ≤ n.toNat ∧ r.1 ≤ n.toNat

section

variable {a : Pipes.Args} {n : Int}

theorem within_none (n r : Int) (hr : r ≤ 0) : Within n (r, []) :=
  ⟨Nat.zero_le _, by show r ≤ (n.toNat : Int); omega⟩

theorem pipeLoop_within (data : List UInt8) (i : Nat) (hi : i ≤ a.n.toNat) :
    (pipeLoop a data i).2.length ≤ a.n.toNat - i ∧ (pipeLoop a data i).1 ≤ a.n.toNat := by
  induction data generalizing i with
  | nil => exact ⟨Nat.zero_le _, Int.ofNat_le.mpr hi⟩
  | cons ch data ih =>
    rw [pipeLoop]
    split
    · split
      · obtain ⟨hlen, hret⟩ := ih (i + 1) (by omega)
        exact ⟨by rw [after, List.length_cons]; omega, hret⟩
      · exact ⟨Nat.zero_le _, Int.ofNat_le.mpr hi⟩
    · exact ⟨Nat.zero_le _, Int.ofNat_le.mpr hi⟩

theorem piperead_within (inp : Option (List UInt8)) : Within a.n (piperead a inp) := by
  cases inp with
  | none => exact within_none _ _ (by decide)
  | some data => exact pipeLoop_within data 0 (Nat.zero_le _)

theorem consoleLoop_within (keys : Nat → Option UInt8) (fuel k : Nat) (hk : k ≤ a.n.toNat) :
    (consoleLoop a keys fuel k).2.length ≤ a.n.toNat - k ∧
      (consoleLoop a keys fuel k).1 ≤ a.n.toNat := by
  induction fuel generalizing k with
  | zero => exact ⟨Nat.zero_le _, Int.ofNat_le.mpr hk⟩
  | succ fuel ih =>
    rw [consoleLoop]
    split
    · split
      · exact ⟨Nat.zero_le _, by show (-1 : Int) ≤ _; omega⟩
      · split
        · exact ⟨Nat.zero_le _, Int.ofNat_le.mpr hk⟩
        · split
          · split
            · exact ⟨by rw [List.length_singleton]; omega, by show (k : Int) + 1 ≤ _; omega⟩
            · obtain ⟨hlen, hret⟩ := ih (k + 1) (by omega)
              exact ⟨by rw [after, List.length_cons]; omega, hret⟩
          · exact ⟨Nat.zero_le _, Int.ofNat_le.mpr hk⟩
    · exact ⟨Nat.zero_le _, Int.ofNat_le.mpr hk⟩

theorem devRead_within {major : BitVec 16} {keys : Nat → Option UInt8}
    {read : Pipes.Args → (Nat → Option UInt8) → Int × List UInt8} (h : devRead major = some read) :
    Within a.n (read a keys) := by
  unfold devRead at h
  split at h
  · cases h
  · split at h
    · cases h
      exact consoleLoop_within keys _ 0 (Nat.zero_le _)
    · cases h

theorem outside_within (inp : Supply) (x : File) : Within a.n (outside inp a x) := by
  unfold outside
  split
  · exact piperead_within _
  · split
    · exact within_none _ _ (by decide)
    · exact devRead_within ‹_›

/-- What `consoleread` does from its lock on, if it need not wait and every copy succeeds. -/
theorem consoleLoop_eq {keys : Nat → Option UInt8} {c : Cons} {n k : Nat} {p : Progress Cons}
    (hcopy : ∀ j, a.copies j = true) (hn : a.n = (k + n : Nat))
    (hkeys : ∀ j, keys (k + j) = some (c.char (c.r + BitVec.ofNat 32 j)))
    (hp : Console.consoleread (k + n) n c = p) (hdone : p.status = .done) :
    consoleLoop a keys n k = (((k + n - p.n : Nat) : Int), p.bytes) := by
  induction n generalizing c k p with
  | zero =>
    subst hp
    rfl
  | succ n ih =>
    have hkey : keys k = some (c.char c.r) := by simpa using hkeys 0
    have hlt : (k : Int) < a.n := by omega
    rw [consoleLoop, if_pos hlt, hkey]
    unfold Console.consoleread at hp
    dsimp only at hp ⊢
    split at hp
    · subst hp
      cases hdone
    · split at hp
      · rw [if_pos ‹_›]
        have hval : (k : Int) = (k + (n + 1) - (n + 1) : Nat) := by omega
        split at hp <;> subst hp <;> exact congrArg (·, []) hval
      · rw [if_neg ‹_›, if_pos (hcopy k)]
        split at hp
        · rw [if_pos ‹_›]
          have hval : (k : Int) + 1 = (k + (n + 1) - n : Nat) := by omega
          subst hp
          exact congrArg (·, _) hval
        · rw [if_neg ‹_›]
          subst hp
          have hrest := ih (c := { c with r := c.r + 1 }) (k := k + 1) (by omega) (fun j => ?_)
            rfl (by rw [Nat.add_assoc, Nat.add_comm 1]; exact hdone)
          · rw [hrest, Nat.add_assoc, Nat.add_comm 1]
            rfl
          · rw [Nat.add_assoc, hkeys, BitVec.ofNat_add, ← BitVec.add_assoc]
            rfl

/-- A turn of the loop of `piperead`, with `data` in the pipe. -/
theorem pipeLoop_readCopy {m : Pipes.Mem} {data rest : List UInt8} (id i : Nat)
    (h : m.empty = true ∧ data = [] ∨ m.empty = false ∧ data = m.next :: rest) :
    Pipes.readCopy id a i m = ((m.take id).deliver id m.next, .readCopy id a (i + 1)) ∧
        pipeLoop a data i = after m.next (pipeLoop a rest (i + 1)) ∨
      (Pipes.readCopy id a i m).2 = .readWake id a i ∧ pipeLoop a data i = ((i : Int), []) := by
  unfold Pipes.readCopy
  rcases h with ⟨he, rfl⟩ | ⟨he, rfl⟩
  · exact .inr ⟨by simp [he], rfl⟩
  · rw [pipeLoop]
    split <;> split <;> simp_all
end

/-! ## Files on disk -/

section

variable {I : Store → Prop} {E : Stop → Store → Prop} {s : Store} {ip : Nat} {dst : Dst}
  {a : Pipes.Args} {st : Bool} {nt : Prop} {L U : List Nat} {f i : Nat}

theorem wp_trivial {α : Type} (p : FsProg α) (s : Store) :
    wp (fun _ => True) p (fun _ _ => True) (fun _ _ => True) s := by
  unfold wp Prog.wp Comp.wp
  refine ⟨fun _ _ => trivial, ?_⟩
  split <;> trivial

theorem dst_copied_le (dst : Dst) (tot m : Nat) : dst.copied tot m ≤ m := by
  cases dst with
  | kernel => exact Nat.le_refl m
  | user um va => exact copySpan_le _ _ _ _

/-- The loop of `readi` copies no more than it is to, whatever is on the disk. -/
theorem readLoop_within {n fuel tot off : Nat} {out : List UInt8} (htot : tot ≤ n)
    (hout : out.length = tot) (s : Store) :
    wp (fun _ => True) (readLoop ip dst n fuel tot off out)
      (fun r _ => r.2.length ≤ n ∧ r.1 ≤ n) (fun _ _ => True) s := by
  induction fuel generalizing tot off out s with
  | zero => exact (wp_pure _).mpr ⟨hout ▸ htot, Int.ofNat_le.mpr htot⟩
  | succ fuel ih =>
    rw [readLoop]
    refine wp_ite (fun hlt => ?_) fun _ => (wp_pure _).mpr ⟨hout ▸ htot, Int.ofNat_le.mpr htot⟩
    refine wp_seq (wp_trivial _ _) fun b t _ => ?_
    refine wp_ite (fun _ => (wp_pure _).mpr ⟨hout ▸ htot, Int.ofNat_le.mpr htot⟩) fun _ => ?_
    refine wp_seq (wp_trivial _ _) fun _ t _ => wp_seq (wp_trivial _ _) fun d t _ =>
      wp_seq (wp_trivial _ _) fun _ t _ => ?_
    have hlen : ∀ m, (out ++ blockBytes d (off % bsize) m).length = tot + m := by
      intro m
      rw [List.length_append, hout, blockBytes, List.length_map, List.length_range]
    have hmin := Nat.min_le_left (n - tot) (bsize - off % bsize)
    refine wp_ite (fun _ => ih (by omega) (hlen _) _) fun _ => (wp_pure _).mpr ⟨?_, ?_⟩
    · have hle := dst_copied_le dst tot (min (n - tot) (bsize - off % bsize))
      rw [hlen]
      omega
    · show (-1 : Int) ≤ n
      omega

theorem toUint_nonneg {n : Int} (h : 0 ≤ n) (hlt : n < 2 ^ 31) : toUint n = n.toNat := by
  unfold toUint
  rw [Int.emod_eq_of_lt h (by omega)]

theorem toUint_neg {n : Int} (h : n < 0) (hlt : -2 ^ 31 ≤ n) : (toUint n : Int) = 2 ^ 32 + n := by
  unfold toUint
  omega

def fileSize (s : Store) (f : Nat) : Nat := (s.inodeOf (s.mem.itable (s.mem.ftable f).ip).inum).size

/-- The read of a file on disk has a length that is not negative, or it starts at the end of
the file or so far on that the length wraps around. -/
def Asked (s : Store) (f : Nat) (n : Int) : Prop :=
  0 ≤ n ∨ (s.mem.ftable f).readable = false ∨ (s.mem.ftable f).type ≠ .inode ∨
    -n ≤ (s.mem.ftable f).off ∨ fileSize s f ≤ (s.mem.ftable f).off

theorem readi_within {n : Int} {off : Nat} (h : Inv st nt L U s) (hh : s.mem.Holds ip i)
    (hlo : -2 ^ 31 ≤ n) (hhi : n < 2 ^ 31)
    (hask : 0 ≤ n ∨ -n ≤ off ∨ (s.inodeOf i).size ≤ off) :
    wp (fun _ => True) (readi ip dst off (toUint n)) (fun r _ => Within n r)
      (fun _ _ => True) s := by
  obtain ⟨-, -, hdin⟩ := h.node_holds hh
  unfold readi
  rw [wp_bind, wp_inode, hdin]
  refine wp_ite (fun _ => (wp_pure _).mpr (within_none _ _ (Int.le_refl 0))) fun hgo => ?_
  have hcount : (if (s.inodeOf i).size < (off + toUint n) % 2 ^ 32 then (s.inodeOf i).size - off
      else toUint n) ≤ n.toNat := by
    by_cases hn : 0 ≤ n
    · have hcast := toUint_nonneg hn hhi
      split <;> omega
    · have hcast := toUint_neg (by omega) hlo
      split <;> omega
  refine wp_mono (readLoop_within (Nat.zero_le _) rfl s) (fun r _ hr => ⟨?_, ?_⟩) fun _ _ he => he
  · exact Nat.le_trans hr.1 hcount
  · have hle := hr.2
    have hcast := Int.ofNat_le.mpr hcount
    exact Int.le_trans hle hcast

theorem size_locked {t : Store} (h : Inv st nt L U s) (ht : Inv st nt L U t) (hf : f < nFile)
    (hty : (s.mem.ftable f).type = .inode) (hnode : t.node = s.node)
    (hh : t.mem.Holds ip (s.mem.itable (s.mem.ftable f).ip).inum) :
    (t.inodeOf (s.mem.itable (s.mem.ftable f).ip).inum).size = fileSize s f := by
  obtain ⟨-, -, halive⟩ := h.file_entry hf hty
  have hold := congrArg Node.size (Store.node_of_type halive)
  have hnew := congrArg Node.size (ht.node_holds hh).1
  rw [hnode] at hnew
  exact hnew.symm.trans hold

theorem fileread_within (h : Inv st nt L U s) (hf : f < nFile) (inp : Supply) (hlo : -2 ^ 31 ≤ a.n)
    (hhi : a.n < 2 ^ 31) (hask : Asked s f a.n) :
    wp (fun _ => True) (fileread f inp a) (fun r _ => Within a.n r) (fun _ _ => True) s := by
  unfold fileread Fs.fileread
  rw [wp_bind, wp_file]
  refine wp_ite (fun _ => (wp_pure _).mpr (within_none _ _ (by decide))) fun hread => ?_
  split
  · exact (wp_pure _).mpr (outside_within inp _)
  · exact (wp_pure _).mpr (outside_within inp _)
  · rename_i hty
    obtain ⟨hip, hpos, -⟩ := h.file_entry hf hty
    rw [wp_bind]
    refine ilock_runs h hip hpos (fun _ => trivial) (fun _ _ => trivial)
      fun t ht hnode hframe hh _ _ => ?_
    have hrest : 0 ≤ a.n ∨ -a.n ≤ (s.mem.ftable f).off ∨
        (t.inodeOf (s.mem.itable (s.mem.ftable f).ip).inum).size ≤ (s.mem.ftable f).off := by
      rw [size_locked h ht hf hty hnode hh]
      rcases hask with hn | hno | hno | hrest
      · exact .inl hn
      · rw [hno] at hread
        exact absurd rfl hread
      · exact absurd hty hno
      · exact .inr hrest
    refine wp_seq (readi_within ht hh hlo hhi hrest) fun r u hr => ?_
    have hend : ∀ v, wp (fun _ => True) (iunlock (s.mem.ftable f).ip >>= fun _ =>
        (pure r : FsProg (Int × List UInt8))) (fun r _ => Within a.n r) (fun _ _ => True) v :=
      fun v => wp_seq (wp_trivial _ _) fun _ _ _ => (wp_pure _).mpr hr
    refine wp_ite (fun _ => wp_seq (wp_trivial _ _) fun _ v _ => hend v) fun _ => hend u
  · rw [Fs.wp_panic]
    trivial

def allMapped : UserMem := ⟨fun _ => true, fun _ => 0⟩

theorem allMapped_whole (va n : Nat) : (Dst.user allMapped va).Whole n :=
  fun tot _ _ => copySpan_whole (Nat.le_refl _) (Nat.mod_lt _ (by decide)) fun _ _ => rfl

/-- A read with a negative length, from a place before the end of the file, delivers the rest
of the file. -/
theorem fileread_negative (h : Inv true nt L U s) (hf : f < nFile) (inp : Supply) {n : Int}
    (hlo : -2 ^ 31 ≤ n) (hread : (s.mem.ftable f).readable = true)
    (hty : (s.mem.ftable f).type = .inode)
    (hfree : (s.mem.itable (s.mem.ftable f).ip).locked = false) (hn : n < 0)
    (hwrap : ((s.mem.ftable f).off : Int) < -n) (hoff : (s.mem.ftable f).off < fileSize s f) :
    wp (fun _ => True) (fileread f inp ⟨allMapped, 0, n⟩)
      (fun r _ => r.1 = (fileSize s f - (s.mem.ftable f).off : Nat)) (fun _ _ => False) s := by
  obtain ⟨hip, hpos, -⟩ := h.file_entry hf hty
  have hcast := toUint_neg hn hlo
  unfold fileread Fs.fileread
  rw [wp_bind, wp_file]
  refine wp_ite (fun hno => ?_) fun _ => ?_
  · rw [hread] at hno
    cases hno
  rw [hty]
  show wp _ (_ >>= _) _ _ s
  rw [wp_bind]
  refine ilock_runs h hip hpos (fun hlocked => ?_) (fun hz => ?_)
    fun t ht hnode hframe hh hlk _ => ?_
  · rw [hfree] at hlocked
    cases hlocked
  · exact absurd hz (h.file_entry hf hty).2.2
  have hsize := size_locked h ht hf hty hnode hh
  have hnodeSize : (t.node (s.mem.itable (s.mem.ftable f).ip).inum).size = fileSize s f :=
    (congrArg Node.size (ht.node_holds hh).1).trans hsize
  obtain ⟨P, -, hdisk⟩ := ht.disk
  have hactive := ht.active hdisk hh
  have hfits : fileSize s f ≤ 274432 := by
    rw [← hsize]
    exact (hdisk.ok _ hactive.lt hactive.type).size
  have hlen : readLen (fileSize s f) (s.mem.ftable f).off (toUint n) =
      fileSize s f - (s.mem.ftable f).off := by
    unfold readLen
    rw [if_neg (by omega)]
    omega
  rw [wp_bind]
  refine readi_inv (.inl rfl) ht hh (show toUint n < 2 ^ 32 by omega) fun r u hd _ hsame hb => ?_
  obtain rfl := hsame rfl
  rw [hnodeSize, hlen] at hb
  have hr : r.1 = (fileSize s f - (s.mem.ftable f).off : Nat) := by
    rcases hb with hb | ⟨-, hno⟩
    · rw [hb]
    · exact absurd (hno (allMapped_whole _ _)).1 (by decide)
  have hend : ∀ v : Store, v.mem.itable = u.mem.itable →
      wp (fun _ => True) (iunlock (s.mem.ftable f).ip >>= fun _ =>
        (pure r : FsProg (Int × List UInt8)))
        (fun r _ => r.1 = (fileSize s f - (s.mem.ftable f).off : Nat)) (fun _ _ => False) v := by
    intro v hv
    have href : 0 < (v.mem.itable (s.mem.ftable f).ip).ref := by
      rw [hv]
      exact hh.ref
    have hno : ¬ ((!(v.mem.itable (s.mem.ftable f).ip).locked) = true ∨
        (v.mem.itable (s.mem.ftable f).ip).ref < 1) := by
      rw [hv, hlk]
      rw [hv] at href
      simp
      omega
    simp only [iunlock, releasesleep, wp_bind, wp_inode, if_neg hno, wp_setInode, wp_pure]
    exact hr
  refine wp_ite (fun _ => ?_) fun _ => hend u rfl
  rw [wp_bind]
  simp only [setFile, wp_setMem]
  exact hend _ rfl

end

end Xv6.Reading
