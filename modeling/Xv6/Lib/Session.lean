import Xv6.Lib.Prog
import Xv6.Lib.Run

/-! # Sessions

A machine runs one program after another; each event of a session stands for one of them.
What is true of the states that the programs show, of those they leave behind and of the
reasons they stop for follows from one assertion about each program.
-/

namespace Lib.Prog

variable {Req : Type} {Ans : Req → Type} {σ ε α η : Type}

/-- The program of the event runs and returns. -/
def serve (h : (r : Req) → Comp σ ε (Ans r)) (prog : η → Prog Req Ans α) (s : σ) (e : η) :
    Option σ :=
  (returns h (prog e) s).map Prod.snd

/-- A session from `s` goes through the state: a program leaves it behind or shows it. -/
inductive Passes (h : (r : Req) → Comp σ ε (Ans r)) (prog : η → Prog Req Ans α)
    (ok : σ → η → Prop) (s : σ) : σ → Prop where
  | left {evs : List η} {t : σ} : Run (serve h prog) ok s evs t → Passes h prog ok s t
  | shown {evs : List η} {t u : σ} {e : η} : Run (serve h prog) ok s evs t → ok t e →
      u ∈ (run h (prog e) t).visited → Passes h prog ok s u

/-- The last program of a session from `s` stops for the reason `r`. -/
def Breaks (h : (r : Req) → Comp σ ε (Ans r)) (prog : η → Prog Req Ans α) (ok : σ → η → Prop)
    (s : σ) (r : ε) : Prop :=
  ∃ evs t e, Run (serve h prog) ok s evs t ∧ ok t e ∧ (run h (prog e) t).result = .error r

variable {h : (r : Req) → Comp σ ε (Ans r)} {prog : η → Prog Req Ans α} {ok : σ → η → Prop}
  {K I : σ → Prop} {F : ε → Prop} {s t : σ}

/-- What every program keeps holds after every session. -/
theorem keeps_run {evs : List η} (hs : K s)
    (hstep : ∀ t e, K t → ok t e → wp h I (prog e) (fun _ => K) (fun r _ => F r) t)
    (hrun : Run (serve h prog) ok s evs t) : K t := by
  refine hrun.invariant hs fun t e u ht hok hst => ?_
  obtain ⟨r, hr, rfl⟩ := Option.map_eq_some_iff.mp hst
  exact wp_returns (Q := fun _ => K) (hstep t e ht hok) hr

theorem Passes.holds (hp : Passes h prog ok s t) (hs : K s) (hI : ∀ t, K t → I t)
    (hstep : ∀ t e, K t → ok t e → wp h I (prog e) (fun _ => K) (fun r _ => F r) t) : I t := by
  cases hp with
  | left hrun => exact hI t (keeps_run hs hstep hrun)
  | shown hrun hok hshown => exact (hstep _ _ (keeps_run hs hstep hrun) hok).1 t hshown

theorem Breaks.reason {r : ε} (hb : Breaks h prog ok s r) (hs : K s)
    (hstep : ∀ t e, K t → ok t e → wp h I (prog e) (fun _ => K) (fun r _ => F r) t) : F r := by
  obtain ⟨evs, t, e, hrun, hok, hr⟩ := hb
  have hend := (hstep t e (keeps_run hs hstep hrun) hok).2
  rw [hr] at hend
  exact hend

end Lib.Prog
