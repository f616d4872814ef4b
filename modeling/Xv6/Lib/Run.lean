import Mathlib.Tactic.Common

/-! # Runs of a step function

A run is a list of events, each of which the state before it allows. The condition `ok`
singles out the runs all of whose steps meet it.
-/

namespace Lib

variable {σ ε : Type*}

/-- The events lead from `s` to a state, and each step meets `ok`. -/
inductive Run (step : σ → ε → Option σ) (ok : σ → ε → Prop) (s : σ) : List ε → σ → Prop where
  | nil : Run step ok s [] s
  | snoc {evs : List ε} {t u : σ} {e : ε} :
      Run step ok s evs t → ok t e → step t e = some u → Run step ok s (evs ++ [e]) u

/-- The state after the events, if every step is possible and passes the test. -/
def runTest (step : σ → ε → Option σ) (test : σ → ε → Bool) (s : σ) : List ε → Option σ
  | [] => some s
  | e :: evs => if test s e then (step s e).bind fun t => runTest step test t evs else none

namespace Run

variable {step : σ → ε → Option σ} {ok : σ → ε → Prop} {s t u : σ} {evs evs' : List ε}

theorem cons {e : ε} (hok : ok s e) (hst : step s e = some t) (h : Run step ok t evs u) :
    Run step ok s (e :: evs) u := by
  induction h with
  | nil => exact .snoc .nil hok hst
  | snoc _ hok' hst' ih => exact .snoc ih hok' hst'

/-- What holds at the start and is kept by every step holds after every run. -/
theorem invariant {P : σ → Prop} (h : Run step ok s evs t) (hs : P s)
    (hstep : ∀ t e u, P t → ok t e → step t e = some u → P u) : P t := by
  induction h with
  | nil => exact hs
  | snoc _ hok hst ih => exact hstep _ _ _ ih hok hst

theorem of_runTest {test : σ → ε → Bool} (htest : ∀ s e, test s e = true → ok s e)
    (h : runTest step test s evs = some t) : Run step ok s evs t := by
  induction evs generalizing s with
  | nil =>
    rw [runTest, Option.some.injEq] at h
    exact h ▸ .nil
  | cons e evs ih =>
    simp only [runTest, Option.ite_none_right_eq_some, Option.bind_eq_some_iff] at h
    obtain ⟨hok, v, hst, h⟩ := h
    exact cons (htest s e hok) hst (ih h)

end Run

end Lib
