import Xv6.Kernel.Param
import Xv6.Lib.Map
import Mathlib.Data.List.Basic

/-! # The in-memory log of `kernel/log.c`

`struct log` and the three critical sections that run under `log.lock`: the
admission test of `begin_op`, the first section of `end_op` and the body of
`log_write`.
-/

namespace Xv6

open Lib

structure LogHeader where
  n : Nat
  block : Nat → Nat

def LogHeader.blocks (lh : LogHeader) : List Nat :=
  (List.range lh.n).map lh.block

/-- `struct log`, without its spinlock and its constant device number. -/
structure Log where
  start : Nat
  size : Nat
  outstanding : Int
  committing : Bool
  lh : LogHeader

namespace Log

/-- One round of the loop in `begin_op`; `none` is a call of `sleep`. -/
def beginOp (log : Log) : Option Log :=
  if log.committing then none
  else if (log.lh.n : Int) + (log.outstanding + 1) * maxOpBlocks > logSize then none
  else some { log with outstanding := log.outstanding + 1 }

/-- The section of `end_op` up to the first `release`, with its `do_commit`. -/
def endOp (log : Log) : Except String (Log × Bool) :=
  let log := { log with outstanding := log.outstanding - 1 }
  if log.committing then .error "log.committing"
  else if log.outstanding = 0 then .ok ({ log with committing := true }, true)
  else .ok (log, false)

def endCommit (log : Log) : Log :=
  { log with committing := false }

def absorbAt (lh : LogHeader) (blockno : Nat) : Nat :=
  ((List.range lh.n).find? fun i => lh.block i = blockno).getD lh.n

/-- The body of `log_write`; the flag says whether the buffer gets pinned. -/
def logWrite (log : Log) (blockno : Nat) : Except String (Log × Bool) :=
  if log.lh.n ≥ logSize ∨ (log.lh.n : Int) ≥ log.size - 1 then
    .error "too big a transaction"
  else if log.outstanding < 1 then
    .error "log_write outside of trans"
  else
    let i := absorbAt log.lh blockno
    let block := upd log.lh.block i blockno
    if i = log.lh.n then
      .ok ({ log with lh := ⟨log.lh.n + 1, block⟩ }, true)
    else
      .ok ({ log with lh := ⟨log.lh.n, block⟩ }, false)

def clear (log : Log) : Log :=
  { log with lh := { log.lh with n := 0 } }

end Log

/-! ## The absorption loop -/

theorem LogHeader.mem_blocks {lh : LogHeader} {b : Nat} :
    b ∈ lh.blocks ↔ ∃ i < lh.n, lh.block i = b := by
  simp [LogHeader.blocks]

theorem LogHeader.blocks_length (lh : LogHeader) : lh.blocks.length = lh.n := by
  simp [LogHeader.blocks]

namespace Log

/-- The loop stops at the recorded position of the block, or at `n` without one. -/
theorem absorbAt_cases (lh : LogHeader) (b : Nat) :
    (absorbAt lh b < lh.n ∧ lh.block (absorbAt lh b) = b) ∨
      (absorbAt lh b = lh.n ∧ b ∉ lh.blocks) := by
  unfold absorbAt
  cases hf : (List.range lh.n).find? fun i => lh.block i = b with
  | some i =>
      have hb : lh.block i = b := by simpa using List.find?_some hf
      have hi : i < lh.n := List.mem_range.mp (List.mem_of_find?_eq_some hf)
      exact .inl ⟨hi, hb⟩
  | none =>
      refine .inr ⟨rfl, ?_⟩
      rw [LogHeader.mem_blocks]
      rintro ⟨i, hi, hb⟩
      have hn := List.find?_eq_none.mp hf i (List.mem_range.mpr hi)
      exact hn (by simpa using hb)

/-- An accepted `log_write` leaves the header alone or appends the block to it. -/
theorem logWrite_ok {log log' : Log} {b : Nat} {pin : Bool}
    (h : log.logWrite b = .ok (log', pin)) :
    log.lh.n < logSize ∧ (log.lh.n : Int) < log.size - 1 ∧ 1 ≤ log.outstanding ∧
      ((b ∈ log.lh.blocks ∧ log' = log ∧ pin = false) ∨
        (b ∉ log.lh.blocks ∧ pin = true ∧
          log' = { log with lh := ⟨log.lh.n + 1, upd log.lh.block log.lh.n b⟩ })) := by
  unfold logWrite at h
  split at h
  · cases h
  rename_i hroom
  split at h
  · cases h
  rename_i hout
  refine ⟨by omega, by omega, by omega, ?_⟩
  rcases absorbAt_cases log.lh b with ⟨hi, hb⟩ | ⟨hi, hb⟩
  · rw [if_neg (by omega)] at h
    simp only [Except.ok.injEq, Prod.mk.injEq] at h
    obtain ⟨rfl, rfl⟩ := h
    refine .inl ⟨LogHeader.mem_blocks.mpr ⟨_, hi, hb⟩, ?_, rfl⟩
    have hu : upd log.lh.block (absorbAt log.lh b) b = log.lh.block := by
      simpa only [hb] using upd_self log.lh.block (absorbAt log.lh b)
    rw [hu]
  · rw [if_pos hi, hi] at h
    simp only [Except.ok.injEq, Prod.mk.injEq] at h
    obtain ⟨rfl, rfl⟩ := h
    exact .inr ⟨hb, rfl, rfl⟩

theorem blocks_append (lh : LogHeader) (b : Nat) :
    (LogHeader.mk (lh.n + 1) (upd lh.block lh.n b)).blocks = lh.blocks ++ [b] := by
  unfold LogHeader.blocks
  rw [List.range_succ, List.map_append]
  congr 1
  · apply List.map_congr_left
    intro i hi
    have hne : i ≠ lh.n := Nat.ne_of_lt (List.mem_range.mp hi)
    simp [upd_other hne]
  · simp

/-- `log_write` never records a block twice. -/
theorem logWrite_nodup {log log' : Log} {b : Nat} {pin : Bool}
    (h : log.logWrite b = .ok (log', pin)) (hn : log.lh.blocks.Nodup) :
    log'.lh.blocks.Nodup := by
  obtain ⟨_, _, _, ⟨_, rfl, _⟩ | ⟨hb, _, rfl⟩⟩ := logWrite_ok h
  · exact hn
  · rw [blocks_append, List.nodup_append]
    refine ⟨hn, by simp, ?_⟩
    intro x hx y hy
    rw [List.mem_singleton] at hy
    rintro rfl
    exact hb (hy ▸ hx)

end Log

end Xv6
