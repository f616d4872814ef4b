import Xv6.Kernel.Log.Core
import Mathlib.Data.Finset.Card

/-! # Group commit under every interleaving

Any number of processes run `begin_op`, `log_write` and `end_op` against one
`struct log`. A step is one critical section under `log.lock`, or the part of
`commit` that forgets the transaction. A sleeping process may test the admission
condition again at any moment, so every schedule of wakeups is covered.
-/

namespace Xv6.LogProtocol

open Lib

/-! ## The transition system -/

inductive Pc where
  | idle
  | sleeping
  | inOp
  | commit
  | finish
deriving DecidableEq, Repr

/-- One critical section, named by the process that runs it. -/
inductive Ev where
  | sleep (p : Nat)
  | beginOp (p : Nat)
  | logWrite (p b : Nat)
  | endOp (p : Nat)
  | commit (p : Nat)
  | finish (p : Nat)
deriving DecidableEq, Repr

structure Sys where
  log : Log
  pc : Nat → Pc
  panic : Option String

def Sys.goto (s : Sys) (log : Log) (p : Nat) (l : Pc) : Sys :=
  ⟨log, upd s.pc p l, s.panic⟩

def Sys.outside (s : Sys) (p : Nat) : Prop :=
  s.pc p = .idle ∨ s.pc p = .sleeping

instance (s : Sys) (p : Nat) : Decidable (s.outside p) :=
  inferInstanceAs (Decidable (_ ∨ _))

def step (s : Sys) : Ev → Option Sys
  | .sleep p =>
      if s.outside p ∧ s.log.beginOp.isNone then some (s.goto s.log p .sleeping) else none
  | .beginOp p =>
      if s.outside p then s.log.beginOp.map fun log => s.goto log p .inOp else none
  | .logWrite p b =>
      if s.pc p = .inOp then
        match s.log.logWrite b with
        | .ok (log, _) => some { s with log := log }
        | .error m => some { s with panic := some m }
      else none
  | .endOp p =>
      if s.pc p = .inOp then
        match s.log.endOp with
        | .ok (log, doCommit) => some (s.goto log p (if doCommit then .commit else .idle))
        | .error m => some { s with panic := some m }
      else none
  | .commit p =>
      if s.pc p = .commit then some (s.goto s.log.clear p .finish) else none
  | .finish p =>
      if s.pc p = .finish then some (s.goto s.log.endCommit p .idle) else none

/-- The log of a file system whose superblock reserves `nlog` blocks, after recovery. -/
def initLog (nlog : Nat) : Log :=
  ⟨2, nlog, 0, false, ⟨0, fun _ => 0⟩⟩

def init (nlog : Nat) : Sys :=
  ⟨initLog nlog, fun _ => .idle, none⟩

/-- A schedule, run from the state after boot; a panicked kernel takes no step. -/
inductive Run (nlog : Nat) : List Ev → Sys → Prop where
  | nil : Run nlog [] (init nlog)
  | snoc {evs : List Ev} {s s' : Sys} {e : Ev} :
      Run nlog evs s → s.panic = none → step s e = some s' → Run nlog (evs ++ [e]) s'

def exec (s : Sys) : List Ev → Option Sys
  | [] => some s
  | e :: evs => if s.panic = none then (step s e).bind fun t => exec t evs else none

theorem Run.extend {nlog : Nat} {evs more : List Ev} {s t : Sys} (h : Run nlog evs s)
    (hx : exec s more = some t) : Run nlog (evs ++ more) t := by
  induction more generalizing evs s with
  | nil =>
      simp only [exec, Option.some.injEq] at hx
      subst hx
      simpa using h
  | cons e more ih =>
      unfold exec at hx
      split at hx
      · rename_i hp
        obtain ⟨u, hu, hx⟩ := Option.bind_eq_some_iff.mp hx
        simpa using ih (h.snoc hp hu) hx
      · cases hx

theorem Run.of_exec {nlog : Nat} {evs : List Ev} {s : Sys}
    (h : exec (init nlog) evs = some s) : Run nlog evs s := by
  simpa using Run.nil.extend h

/-! ## What one step can do -/

inductive Steps (s : Sys) : Ev → Sys → Prop where
  | sleep {p : Nat} : s.outside p → s.log.beginOp = none →
      Steps s (.sleep p) (s.goto s.log p .sleeping)
  | beginOp {p : Nat} : s.outside p → s.log.committing = false →
      (s.log.lh.n : Int) + (s.log.outstanding + 1) * maxOpBlocks ≤ logSize →
      Steps s (.beginOp p)
        (s.goto { s.log with outstanding := s.log.outstanding + 1 } p .inOp)
  | logWrite {p b : Nat} {log : Log} {pin : Bool} : s.pc p = .inOp →
      s.log.logWrite b = .ok (log, pin) → Steps s (.logWrite p b) { s with log := log }
  | logWriteStop {p b : Nat} {m : String} : s.pc p = .inOp → s.log.logWrite b = .error m →
      Steps s (.logWrite p b) { s with panic := some m }
  | endLast {p : Nat} : s.pc p = .inOp → s.log.committing = false → s.log.outstanding = 1 →
      Steps s (.endOp p) (s.goto { s.log with outstanding := 0, committing := true } p .commit)
  | endOp {p : Nat} : s.pc p = .inOp → s.log.committing = false → s.log.outstanding ≠ 1 →
      Steps s (.endOp p)
        (s.goto { s.log with outstanding := s.log.outstanding - 1 } p .idle)
  | endStop {p : Nat} : s.pc p = .inOp → s.log.committing = true →
      Steps s (.endOp p) { s with panic := some "log.committing" }
  | commit {p : Nat} : s.pc p = .commit →
      Steps s (.commit p) (s.goto s.log.clear p .finish)
  | finish {p : Nat} : s.pc p = .finish →
      Steps s (.finish p) (s.goto s.log.endCommit p .idle)

theorem beginOp_some {log log' : Log} (h : log.beginOp = some log') :
    log.committing = false ∧
      (log.lh.n : Int) + (log.outstanding + 1) * maxOpBlocks ≤ logSize ∧
      log' = { log with outstanding := log.outstanding + 1 } := by
  unfold Log.beginOp at h
  split at h
  · cases h
  split at h
  · cases h
  rename_i hc hr
  simp only [Option.some.injEq] at h
  exact ⟨by simpa using hc, by omega, h.symm⟩

theorem steps_of_step {s s' : Sys} {e : Ev} (h : step s e = some s') : Steps s e s' := by
  cases e with
  | sleep p =>
      simp only [step] at h
      split at h
      · rename_i hg
        cases h
        exact .sleep hg.1 (Option.isNone_iff_eq_none.mp hg.2)
      · cases h
  | beginOp p =>
      simp only [step] at h
      split at h
      · rename_i hg
        obtain ⟨log, hl, rfl⟩ := Option.map_eq_some_iff.mp h
        obtain ⟨hc, hr, rfl⟩ := beginOp_some hl
        exact .beginOp hg hc hr
      · cases h
  | logWrite p b =>
      simp only [step] at h
      split at h
      · rename_i hg
        cases hw : s.log.logWrite b with
        | ok r =>
            simp only [hw, Option.some.injEq] at h
            subst h
            exact .logWrite hg hw
        | error m =>
            simp only [hw, Option.some.injEq] at h
            subst h
            exact .logWriteStop hg hw
      · cases h
  | endOp p =>
      simp only [step] at h
      split at h
      · rename_i hg
        unfold Log.endOp at h
        cases hc : s.log.committing with
        | true =>
            simp only [hc, if_true, Option.some.injEq] at h
            subst h
            exact .endStop hg hc
        | false =>
            by_cases ho : s.log.outstanding = 1
            · have ho' : s.log.outstanding - 1 = 0 := by omega
              simp only [hc, ho', if_true, Bool.false_eq_true, if_false,
                Option.some.injEq] at h
              subst h
              exact .endLast hg hc ho
            · have ho' : ¬ s.log.outstanding - 1 = 0 := by omega
              simp only [hc, ho', Bool.false_eq_true, if_false, Option.some.injEq] at h
              subst h
              have := Steps.endOp hg hc ho
              simpa only [hc] using this
      · cases h
  | commit p =>
      simp only [step] at h
      split at h
      · rename_i hg
        cases h
        exact .commit hg
      · cases h
  | finish p =>
      simp only [step] at h
      split at h
      · rename_i hg
        cases h
        exact .finish hg
      · cases h

/-! ## The protocol invariant -/

def Sys.commits (s : Sys) (p : Nat) : Prop :=
  s.pc p = .commit ∨ s.pc p = .finish

/-- `S` is the set of processes between `begin_op` and `end_op`. -/
structure Inv (s : Sys) (S : Finset Nat) : Prop where
  inOp : ∀ p, s.pc p = .inOp ↔ p ∈ S
  outstanding : s.log.outstanding = S.card
  committing : s.log.committing = true ↔ ∃ p, s.commits p
  alone : ∀ p q, s.commits p → s.commits q → p = q
  quiet : s.log.committing = true → S = ∅
  finished : ∀ p, s.pc p = .finish → s.log.lh.n = 0
  empty : S = ∅ → s.log.committing = false → s.log.lh.n = 0
  nodup : s.log.lh.blocks.Nodup
  panic : s.panic = none ∨ s.panic = some "too big a transaction"

@[simp] theorem goto_log (s : Sys) (log : Log) (p : Nat) (l : Pc) :
    (s.goto log p l).log = log := rfl

@[simp] theorem goto_panic (s : Sys) (log : Log) (p : Nat) (l : Pc) :
    (s.goto log p l).panic = s.panic := rfl

theorem goto_pc (s : Sys) (log : Log) (p : Nat) (l : Pc) (q : Nat) :
    (s.goto log p l).pc q = if q = p then l else s.pc q := by
  simp only [Sys.goto, upd]

theorem goto_commits (s : Sys) (log : Log) (p : Nat) (l : Pc) (q : Nat) :
    (s.goto log p l).commits q ↔
      if q = p then l = .commit ∨ l = .finish else s.commits q := by
  unfold Sys.commits
  rw [goto_pc]
  split <;> rfl

theorem Inv.init (nlog : Nat) : Inv (init nlog) ∅ := by
  constructor <;> simp [LogProtocol.init, initLog, Sys.commits, LogHeader.blocks]

theorem Inv.not_mem {s : Sys} {S : Finset Nat} {p : Nat} (h : Inv s S)
    (hp : s.pc p ≠ .inOp) : p ∉ S :=
  fun hm => hp ((h.inOp p).mpr hm)

/-- A process in its operation rules out a commit, and counts as outstanding. -/
theorem Inv.of_inOp {s : Sys} {S : Finset Nat} {p : Nat} (h : Inv s S)
    (hp : s.pc p = .inOp) : s.log.committing = false ∧ 1 ≤ s.log.outstanding := by
  have hm : p ∈ S := (h.inOp p).mp hp
  constructor
  · cases hc : s.log.committing with
    | false => rfl
    | true => simp [h.quiet hc] at hm
  · rw [h.outstanding]
    have := Finset.card_pos.mpr ⟨p, hm⟩
    omega

/-- Moving a process that is not committing to a place that is not committing. -/
theorem commits_goto {s : Sys} {p : Nat} {l : Pc} (g : Log) (hp : ¬ s.commits p)
    (hl : ¬ (l = .commit ∨ l = .finish)) (q : Nat) :
    (s.goto g p l).commits q ↔ s.commits q := by
  rw [goto_commits]
  split
  · rename_i hq
    subst hq
    exact ⟨fun h => absurd h hl, fun h => absurd h hp⟩
  · rfl

theorem outside_not_commits {s : Sys} {p : Nat} (h : s.outside p) : ¬ s.commits p := by
  rcases h with h | h <;> simp [Sys.commits, h]

theorem outside_not_inOp {s : Sys} {p : Nat} (h : s.outside p) : s.pc p ≠ .inOp := by
  rcases h with h | h <;> simp [h]

theorem Inv.sleep {s : Sys} {S : Finset Nat} {p : Nat} (h : Inv s S) (hp : s.outside p) :
    Inv (s.goto s.log p .sleeping) S := by
  have hnc := commits_goto s.log (outside_not_commits hp) (l := .sleeping) (by simp)
  constructor
  · intro q
    rw [goto_pc]
    split
    · rename_i hq
      subst hq
      simp [h.not_mem (outside_not_inOp hp)]
    · exact h.inOp q
  · exact h.outstanding
  · simpa only [hnc, goto_log] using h.committing
  · simpa only [hnc] using h.alone
  · exact h.quiet
  · intro q
    rw [goto_pc]
    split
    · intro hq; cases hq
    · exact h.finished q
  · exact h.empty
  · exact h.nodup
  · exact h.panic

theorem Inv.beginOp {s : Sys} {S : Finset Nat} {p : Nat} (h : Inv s S) (hp : s.outside p)
    (hc : s.log.committing = false) :
    Inv (s.goto { s.log with outstanding := s.log.outstanding + 1 } p .inOp) (insert p S) := by
  have hnc := commits_goto { s.log with outstanding := s.log.outstanding + 1 }
    (outside_not_commits hp) (l := .inOp) (by simp)
  have hS : p ∉ S := h.not_mem (outside_not_inOp hp)
  constructor
  · intro q
    rw [goto_pc, Finset.mem_insert]
    split
    · simp_all
    · simp_all [h.inOp q]
  · rw [Finset.card_insert_of_notMem hS]
    simp [h.outstanding]
  · simpa only [hnc, goto_log] using h.committing
  · simpa only [hnc] using h.alone
  · intro hq
    simp [hc] at hq
  · intro q
    rw [goto_pc]
    split
    · intro hq; cases hq
    · exact h.finished q
  · intro hq
    simp at hq
  · exact h.nodup
  · exact h.panic

theorem Inv.logWrite {s : Sys} {S : Finset Nat} {p b : Nat} {log : Log} {pin : Bool}
    (h : Inv s S) (hp : s.pc p = .inOp) (hw : s.log.logWrite b = .ok (log, pin)) :
    Inv { s with log := log } S := by
  obtain ⟨hc, ho⟩ := h.of_inOp hp
  have hnodup := Log.logWrite_nodup hw h.nodup
  have hpS : p ∈ S := (h.inOp p).mp hp
  have hno : ∀ q, ¬ s.commits q := fun q hq => by
    have := h.committing.mpr ⟨q, hq⟩
    simp [hc] at this
  have hsame : log.outstanding = s.log.outstanding ∧ log.committing = s.log.committing := by
    obtain ⟨_, _, _, ⟨_, rfl, _⟩ | ⟨_, _, rfl⟩⟩ := Log.logWrite_ok hw <;> exact ⟨rfl, rfl⟩
  constructor
  · exact h.inOp
  · exact hsame.1.trans h.outstanding
  · show log.committing = true ↔ _
    rw [hsame.2]
    exact h.committing
  · exact h.alone
  · intro hq
    rw [show log.committing = s.log.committing from hsame.2, hc] at hq
    cases hq
  · intro q hq
    exact absurd (Or.inr hq) (hno q)
  · intro hq
    simp [hq] at hpS
  · exact hnodup
  · exact h.panic

theorem Inv.logWriteStop {s : Sys} {S : Finset Nat} {p b : Nat} {m : String}
    (h : Inv s S) (hp : s.pc p = .inOp) (hw : s.log.logWrite b = .error m) :
    Inv { s with panic := some m } S := by
  have hm : m = "too big a transaction" := by
    have ho := (h.of_inOp hp).2
    unfold Log.logWrite at hw
    split at hw
    · simpa using hw.symm
    · rw [if_neg (by omega)] at hw
      dsimp only at hw
      split at hw <;> cases hw
  exact ⟨h.inOp, h.outstanding, h.committing, h.alone, h.quiet, h.finished, h.empty, h.nodup,
    .inr (by rw [hm])⟩

theorem Inv.endLast {s : Sys} {S : Finset Nat} {p : Nat} (h : Inv s S) (hp : s.pc p = .inOp)
    (ho : s.log.outstanding = 1) :
    Inv (s.goto { s.log with outstanding := 0, committing := true } p .commit) ∅ := by
  have hc := (h.of_inOp hp).1
  have hno : ∀ q, ¬ s.commits q := fun q hq => by
    have := h.committing.mpr ⟨q, hq⟩
    simp [hc] at this
  have hS : S = {p} := by
    have hcard : S.card = 1 := by
      have := h.outstanding
      omega
    obtain ⟨q, rfl⟩ := Finset.card_eq_one.mp hcard
    have := (h.inOp p).mp hp
    simp_all
  have hcom : ∀ q, (s.goto { s.log with outstanding := 0, committing := true } p .commit).commits q
      ↔ q = p := by
    intro q
    rw [goto_commits]
    split
    · simp_all
    · simp_all
  constructor
  · intro q
    have hq := h.inOp q
    rw [goto_pc]
    split
    · simp
    · rename_i hqp
      simp_all
  · rfl
  · simp only [goto_log, true_iff]
    exact ⟨p, (hcom p).mpr rfl⟩
  · intro q r hq hr
    rw [(hcom q).mp hq, (hcom r).mp hr]
  · intro _
    rfl
  · intro q
    rw [goto_pc]
    split
    · intro hq; cases hq
    · exact h.finished q
  · intro _ hq
    cases hq
  · exact h.nodup
  · exact h.panic

theorem Inv.endOp {s : Sys} {S : Finset Nat} {p : Nat} (h : Inv s S) (hp : s.pc p = .inOp)
    (ho : s.log.outstanding ≠ 1) :
    Inv (s.goto { s.log with outstanding := s.log.outstanding - 1 } p .idle) (S.erase p) := by
  obtain ⟨hc, hpos⟩ := h.of_inOp hp
  have hpS : p ∈ S := (h.inOp p).mp hp
  have hcard := Finset.card_erase_of_mem hpS
  have hSo := h.outstanding
  have hnc := commits_goto { s.log with outstanding := s.log.outstanding - 1 }
    (show ¬ s.commits p by simp [Sys.commits, hp]) (l := .idle) (by simp)
  constructor
  · intro q
    rw [goto_pc, Finset.mem_erase]
    split
    · simp_all
    · simp_all [h.inOp q]
  · simp only [goto_log]
    omega
  · simpa only [hnc, goto_log] using h.committing
  · simpa only [hnc] using h.alone
  · intro hq
    simp [hc] at hq
  · intro q
    rw [goto_pc]
    split
    · intro hq; cases hq
    · exact h.finished q
  · intro hq
    rw [hq] at hcard
    simp only [Finset.card_empty] at hcard
    omega
  · exact h.nodup
  · exact h.panic

theorem Inv.commit {s : Sys} {S : Finset Nat} {p : Nat} (h : Inv s S) (hp : s.pc p = .commit) :
    Inv (s.goto s.log.clear p .finish) S := by
  have hcom : ∀ q, (s.goto s.log.clear p .finish).commits q ↔ s.commits q := by
    intro q
    rw [goto_commits]
    split
    · simp_all [Sys.commits]
    · rfl
  have hpS := h.not_mem (p := p) (by simp [hp])
  constructor
  · intro q
    rw [goto_pc]
    split
    · simp_all
    · exact h.inOp q
  · exact h.outstanding
  · simp only [hcom]
    exact h.committing
  · simpa only [hcom] using h.alone
  · exact h.quiet
  · intro _ _
    rfl
  · intro _ _
    rfl
  · simp [Log.clear, LogHeader.blocks]
  · exact h.panic

theorem Inv.finish {s : Sys} {S : Finset Nat} {p : Nat} (h : Inv s S) (hp : s.pc p = .finish) :
    Inv (s.goto s.log.endCommit p .idle) S := by
  have hpc : s.commits p := .inr hp
  have hno : ∀ q, ¬ (s.goto s.log.endCommit p .idle).commits q := by
    intro q
    rw [goto_commits]
    split
    · simp
    · rename_i hq
      exact fun hc => hq (h.alone q p hc hpc)
  have hpS := h.not_mem (p := p) (by simp [hp])
  constructor
  · intro q
    rw [goto_pc]
    split
    · simp_all
    · exact h.inOp q
  · exact h.outstanding
  · simp only [goto_log, Log.endCommit, Bool.false_eq_true, false_iff, not_exists]
    exact hno
  · intro q r hq
    exact absurd hq (hno q)
  · intro hq
    cases hq
  · intro q
    rw [goto_pc]
    split
    · intro hq; cases hq
    · exact h.finished q
  · intro _ _
    exact h.finished p hp
  · exact h.nodup
  · exact h.panic

/-- One step keeps the invariant; the set of running operations changes by at most one. -/
theorem Inv.step {s s' : Sys} {S : Finset Nat} {e : Ev} (h : Inv s S) (hs : Steps s e s') :
    ∃ S', Inv s' S' := by
  cases hs with
  | sleep hp _ => exact ⟨_, h.sleep hp⟩
  | beginOp hp hc _ => exact ⟨_, h.beginOp hp hc⟩
  | logWrite hp hw => exact ⟨_, h.logWrite hp hw⟩
  | logWriteStop hp hw => exact ⟨_, h.logWriteStop hp hw⟩
  | endLast hp _ ho => exact ⟨_, h.endLast hp ho⟩
  | endOp hp _ ho => exact ⟨_, h.endOp hp ho⟩
  | endStop hp hc =>
      rw [(h.of_inOp hp).1] at hc
      cases hc
  | commit hp => exact ⟨_, h.commit hp⟩
  | finish hp => exact ⟨_, h.finish hp⟩

theorem Run.inv {nlog : Nat} {evs : List Ev} {s : Sys} (h : Run nlog evs s) :
    ∃ S, Inv s S := by
  induction h with
  | nil => exact ⟨∅, Inv.init nlog⟩
  | snoc _ _ hs ih =>
      obtain ⟨S, hS⟩ := ih
      exact hS.step (steps_of_step hs)

end Xv6.LogProtocol
