import Xv6.Kernel.Log.Protocol
import Xv6.Lib.Monitor

/-! # Waiting in `begin_op`

The sleepers on `&log`. Space becomes available at an `end_op` that is not the last one and at
the end of a commit; both call `wakeup(&log)`. The commit resets `log.lh.n` without the
lock, but while `log.committing` is set, so that no admission test passes before the
wakeup that follows.
-/

namespace Xv6.LogProtocol

open Lib

def Ev.proc : Ev → Nat
  | .sleep p | .beginOp p | .logWrite p _ | .endOp p | .commit p | .finish p => p

/-- The section calls `wakeup(&log)`. -/
def wakes (s : Sys) : Ev → Bool
  | .endOp _ =>
      match s.log.endOp with
      | .ok (_, doCommit) => !doCommit
      | .error _ => false
  | .finish _ => true
  | _ => false

/-- The sections of the log as a monitor; a panicked kernel takes no step. -/
def monitor : Monitor Sys Ev where
  step s e := if s.panic = none then step s e else none
  proc e := some e.proc
  sleeps _
    | .sleep _ => true
    | _ => false
  wakes := wakes

theorem Reach.inv {nlog : Nat} {s : Sys} {asleep : Nat → Bool}
    (h : monitor.Reach (init nlog) s asleep) : ∃ S, Inv s S := by
  apply h.invariant (J := fun s => ∃ S, Inv s S) ⟨∅, Inv.init nlog⟩
  intro s e t hs hst
  obtain ⟨S, hS⟩ := hs
  simp only [monitor, Option.ite_none_right_eq_some] at hst
  exact hS.step (steps_of_step hst.2)

theorem beginOp_none {log : Log} : log.beginOp = none ↔
    log.committing = true ∨ (log.lh.n : Int) + (log.outstanding + 1) * maxOpBlocks > logSize := by
  unfold Log.beginOp
  cases log.committing <;> simp

/-- A section that does not wake leaves no room where there was none. -/
theorem Steps.stays_full {s t : Sys} {S : Finset Nat} {e : Ev} (hS : Inv s S) (hst : Steps s e t)
    (hfull : s.log.beginOp = none) (hw : wakes s e = false) : t.log.beginOp = none := by
  rw [beginOp_none] at hfull ⊢
  cases hst with
  | sleep _ _ => exact hfull
  | beginOp _ hc _ =>
    refine hfull.imp_right fun h => ?_
    simp only [goto_log, maxOpBlocks] at h ⊢
    omega
  | logWrite _ hlw =>
    obtain ⟨-, -, -, ⟨-, rfl, -⟩ | ⟨-, -, rfl⟩⟩ := Log.logWrite_ok hlw
    · exact hfull
    · refine hfull.imp_right fun h => ?_
      simp only [maxOpBlocks] at h ⊢
      omega
  | logWriteStop _ _ => exact hfull
  | endLast _ _ _ => exact .inl rfl
  | endOp _ hc ho =>
    have hlast : ¬ s.log.outstanding - 1 = 0 := by omega
    simp [wakes, Log.endOp, hc, hlast] at hw
  | endStop _ _ => exact hfull
  | @commit p hp => exact .inl (hS.committing.mpr ⟨p, .inl hp⟩)
  | finish _ => cases hw

/-- While `log.lock` is free, whoever sleeps in `begin_op` would not be admitted, and a commit or
an operation that will wake it is under way; when there is neither, the log is empty and the
next `begin_op` is admitted. -/
theorem begin_op_not_stuck {nlog : Nat} {s : Sys} {asleep : Nat → Bool}
    (h : monitor.Reach (init nlog) s asleep) :
    (∀ p, asleep p = true →
      (s.log.committing = true ∨ 0 < s.log.outstanding) ∧ s.log.beginOp = none) ∧
    (s.log.committing = false → s.log.outstanding = 0 →
      s.log.lh.n = 0 ∧ s.log.beginOp.isSome) := by
  obtain ⟨S, hS⟩ := Reach.inv h
  have hidle : s.log.committing = false → s.log.outstanding = 0 →
      s.log.lh.n = 0 ∧ s.log.beginOp.isSome := by
    intro hc ho
    have hcard : S.card = 0 := by
      have := hS.outstanding
      omega
    have hn := hS.empty (Finset.card_eq_zero.mp hcard) hc
    refine ⟨hn, ?_⟩
    rw [Option.isSome_iff_ne_none, Ne, beginOp_none, hc, ho, hn]
    decide
  refine ⟨?_, hidle⟩
  intro p hp
  have hfull : s.log.beginOp = none := by
    apply h.blocked (J := fun s => ∃ S, Inv s S) (B := fun s => s.log.beginOp = none) _ _ _ hp
    · exact fun s asleep h => Reach.inv h
    · intro s e t hs hst hsl
      simp only [monitor, Option.ite_none_right_eq_some] at hst
      cases steps_of_step hst.2 with
      | sleep _ hn => exact hn
      | _ => cases hsl
    · rintro s e t ⟨S, hS⟩ hst hfull hw
      simp only [monitor, Option.ite_none_right_eq_some] at hst
      exact (steps_of_step hst.2).stays_full hS hfull hw
  refine ⟨?_, hfull⟩
  by_contra hidle'
  have hpos : 0 ≤ s.log.outstanding := by
    rw [hS.outstanding]
    exact Int.natCast_nonneg _
  have hc : s.log.committing = false := by
    by_contra hc
    exact hidle' (.inl (by simpa using hc))
  have ho : s.log.outstanding = 0 := by
    by_contra ho
    exact hidle' (.inr (by omega))
  have hsome := (hidle hc ho).2
  rw [hfull] at hsome
  cases hsome

/-- Three operations reserve the whole log, and the fourth process sleeps. -/
theorem begin_op_not_stuck_fourth :
    ∃ s asleep, monitor.Reach (init mkfsNlog) s asleep ∧ asleep 3 = true ∧
      s.log.beginOp = none := by
  have hx : monitor.exec (init mkfsNlog) (fun _ => false)
      [.beginOp 0, .beginOp 1, .beginOp 2, .sleep 3] = some (_, _) := rfl
  have hreach := Monitor.Reach.start.exec hx
  exact ⟨_, _, hreach, rfl, ((begin_op_not_stuck hreach).1 3 rfl).2⟩

end Xv6.LogProtocol
