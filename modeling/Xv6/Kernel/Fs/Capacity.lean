import Xv6.Kernel.Fs.Chunks
import Xv6.Kernel.Fs.Files
import Xv6.Kernel.Fs.Sharing

/-! # Transactions with a bound

The block store takes any number of blocks into a transaction. Here the in-memory log is read off
it, and `log_write` panics when the header of that log is full. Reading, writing and truncating
files then do what they do on the unbounded store, unless a transaction gets too big.
-/

namespace Xv6.Fs

open Lib

def headerOf (l : List Nat) : LogHeader := ⟨l.length, fun k => l.getD k 0⟩

theorem headerOf_blocks (l : List Nat) : (headerOf l).blocks = l := by
  refine List.ext_getElem (by simp [LogHeader.blocks, headerOf]) fun k h1 h2 => ?_
  simp [LogHeader.blocks, headerOf, List.getElem?_eq_getElem h2]

theorem headerOf_append (l : List Nat) (b : Nat) :
    headerOf (l ++ [b]) = ⟨l.length + 1, upd (headerOf l).block l.length b⟩ := by
  unfold headerOf
  rw [List.length_append, List.length_singleton]
  congr 1
  funext k
  simp only [upd, List.getD_eq_getElem?_getD, List.getElem?_append]
  rcases Nat.lt_trichotomy k l.length with hk | rfl | hk
  · rw [if_pos hk, if_neg (by omega)]
  · simp
  · rw [if_neg (by omega), if_neg (by omega), List.getElem?_eq_none (by simp; omega),
      List.getElem?_eq_none (by omega)]

namespace Store

/-- The blocks of the log header: each logged block once, the oldest first. -/
def header (s : Store) : List Nat :=
  s.logged.foldr (fun b l => if b ∈ l then l else l ++ [b]) []

/-- The in-memory log, between the steps of a process. -/
def log (s : Store) : Log where
  start := s.mem.sb.logstart
  size := s.mem.sb.nlog
  outstanding := s.outstanding
  committing := false
  lh := headerOf s.header

/-- The store with the bound of `log_write`. -/
def bounded : (r : Req) → Comp Store Stop (Ans r)
  | .logWrite b => do
      let s ← Comp.get
      if b ∈ s.held then
        match s.log.logWrite b with
        | .error msg => Comp.stop (.panic msg)
        | .ok _ => Comp.assign fun s => s.record b
      else pure ()
  | r => handle r

variable {s t u : Store} {b : Nat}

/-! ## The header -/

theorem header_record (s : Store) (b : Nat) :
    (s.record b).header = if b ∈ s.header then s.header else s.header ++ [b] := rfl

theorem log_record {l : Log} {pin : Bool} (h : s.log.logWrite b = .ok (l, pin)) :
    (s.record b).log = l := by
  have hblocks : s.log.lh.blocks = s.header := headerOf_blocks s.header
  have hlog : (s.record b).log = { s.log with lh := headerOf (s.record b).header } := rfl
  rw [hlog, header_record]
  obtain ⟨-, -, -, ⟨hb, rfl, -⟩ | ⟨hb, -, rfl⟩⟩ := Log.logWrite_ok h
  · rw [if_pos (hblocks ▸ hb)]
    rfl
  · rw [if_neg (hblocks ▸ hb), headerOf_append]
    rfl

theorem log_beginOp {l : Log} (h : s.log.beginOp = some l) :
    log { s with outstanding := s.outstanding + 1 } = l := by
  unfold Log.beginOp at h
  split at h
  · cases h
  · split at h
    · cases h
    · exact Option.some.inj h

/-- The last `end_op` commits and clears the header; any other only counts down. -/
theorem log_leave {l : Log} {commit : Bool} (h : s.log.endOp = .ok (l, commit)) :
    s.leave.log = { l.endCommit with lh := if commit then headerOf [] else l.lh } := by
  have hend : s.log.endOp = if s.outstanding - 1 = 0
      then .ok ({ s.log with outstanding := s.outstanding - 1, committing := true }, true)
      else .ok ({ s.log with outstanding := s.outstanding - 1 }, false) := rfl
  rw [hend] at h
  by_cases hlast : s.outstanding - 1 = 0
  · rw [if_pos hlast] at h
    cases h
    simp [log, leave, header, hlast, Log.endCommit]
  · rw [if_neg hlast] at h
    cases h
    simp [log, leave, header, hlast, Log.endCommit]

/-! ## Programs on the bounded store -/

end Store

section

variable {α : Type} {I : Store → Prop} {Q : α → Store → Prop} {s t u : Store} {p : FsProg α}
  {ip i : Nat}

/-- The blocks of the free map, as many as `mkfs` makes. -/
def Superblock.nbitmap (sb : Superblock) : Nat := sb.size / bpb + 1

theorem bblock_mem {sb : Superblock} {a : Nat} (ha : a < sb.size) :
    bblock sb a ∈ (List.range sb.nbitmap).map (· + sb.bmapstart) := by
  have := Nat.div_le_div_right (c := bpb) (Nat.le_of_lt ha)
  exact List.mem_map.mpr ⟨a / bpb, List.mem_range.mpr (by unfold Superblock.nbitmap; omega), rfl⟩

/-- The blocks that a write of `n` bytes at `off` may log: those it covers, the indirect block,
the block of the inode and the free map. -/
def Superblock.writeSpan (sb : Superblock) (off n : Nat) : Nat :=
  (off + n - 1) / bsize - off / bsize + 1 + 2 + sb.nbitmap

theorem Written.span {st : Bool} {P : Nat → Prop} {src : Src} {off n tot cnt : Nat}
    (h : Written st P ip i src off n s tot cnt t) (hi : i < s.mem.sb.ninodes)
    (ht : (t.inodeOf i).type ≠ 0) :
    ∃ l : List Nat, l.length ≤ s.mem.sb.writeSpan off n ∧
      ∀ b ∈ t.logged, b ∈ s.logged ∨ b ∈ l := by
  refine ⟨iblock s.mem.sb i :: (covered off n).map (slotAddr t.blocks (t.inodeOf i)) ++
    (List.range s.mem.sb.nbitmap).map (· + s.mem.sb.bmapstart), ?_, fun b hb => ?_⟩
  · simp only [covered, Superblock.writeSpan, List.length_append, List.length_cons, List.length_map,
      List.length_range, List.length_nil]
    omega
  · rcases h.logged b hb with hold | rfl | ⟨k, hk, hc, hne, rfl | ⟨-, rfl⟩⟩
    · exact .inl hold
    · exact .inr (List.mem_append_left _ List.mem_cons_self)
    · exact .inr (List.mem_append_left _ (List.mem_cons_of_mem _ (List.mem_map_of_mem hc.mem)))
    · refine .inr (List.mem_append_right _ (bblock_mem ?_))
      exact (h.edits.core.ledger.used_of_ref (i, k) _
        (placeOf_eq_some.mpr ⟨hi, hk, ht, hne, rfl⟩)).1.2.1

end

/-! ## A small file system -/

end Xv6.Fs
