import Xv6.Lib.Map

/-! # Critical sections with one wait channel

Any number of processes run sections under one lock. A section may end in `sleep` on the
channel of the monitor, and it may call `wakeup`. As far as the others can see, who
hold the lock in turn, a section is one step; between the steps the lock is free.
A sleeper may also be woken for no reason.
-/

namespace Lib

/-- The sections: what they do to the state, who runs them, and which sleep or wake. -/
structure Monitor (σ ε : Type) where
  step : σ → ε → Option σ
  -- `none` is an interrupt handler.
  proc : ε → Option Nat
  sleeps : σ → ε → Bool
  wakes : σ → ε → Bool

namespace Monitor

variable {σ ε : Type} (M : Monitor σ ε)

/-- Who is asleep after the section `e` in state `s`. -/
def after (s : σ) (e : ε) (asleep : Nat → Bool) (p : Nat) : Bool :=
  (M.sleeps s e && M.proc e == some p) || (!M.wakes s e && asleep p)

/-- The states between sections, with the processes that are asleep. -/
inductive Reach (s₀ : σ) : σ → (Nat → Bool) → Prop where
  | start : Reach s₀ s₀ fun _ => false
  | run {s t : σ} {asleep : Nat → Bool} {e : ε} : Reach s₀ s asleep →
      (∀ p ∈ M.proc e, asleep p = false) → M.step s e = some t →
      Reach s₀ t (M.after s e asleep)
  | spurious {s : σ} {asleep : Nat → Bool} (p : Nat) : Reach s₀ s asleep →
      Reach s₀ s (upd asleep p false)

/-- The sections `es` in turn, each run by a process that is awake. -/
def exec (s : σ) (asleep : Nat → Bool) : List ε → Option (σ × (Nat → Bool))
  | [] => some (s, asleep)
  | e :: es =>
      if (M.proc e).all fun p => !asleep p then
        (M.step s e).bind fun t => exec t (M.after s e asleep) es
      else none

variable {M} {s₀ s : σ} {asleep : Nat → Bool}

theorem Reach.exec {es : List ε} {t : σ} {asleep' : Nat → Bool} (h : M.Reach s₀ s asleep)
    (hx : M.exec s asleep es = some (t, asleep')) : M.Reach s₀ t asleep' := by
  induction es generalizing s asleep with
  | nil =>
    cases hx
    exact h
  | cons e es ih =>
    simp only [Monitor.exec, Option.ite_none_right_eq_some, Option.bind_eq_some_iff] at hx
    obtain ⟨hawake, u, hu, hx⟩ := hx
    refine ih (h.run (fun p hp => ?_) hu) hx
    rw [Option.mem_def.mp hp] at hawake
    simpa using hawake

theorem Reach.invariant {J : σ → Prop} (h : M.Reach s₀ s asleep) (h₀ : J s₀)
    (hstep : ∀ s e t, J s → M.step s e = some t → J t) : J s := by
  induction h with
  | start => exact h₀
  | run _ _ hst ih => exact hstep _ _ _ ih hst
  | spurious _ _ ih => exact ih

/-- Nobody sleeps in vain: the states in which a process is asleep are all blocked, if a section
that sleeps ends in a blocked state and one that ends the blocking wakes. -/
theorem Reach.blocked {J B : σ → Prop} (h : M.Reach s₀ s asleep)
    (hJ : ∀ s asleep, M.Reach s₀ s asleep → J s)
    (hsleep : ∀ s e t, J s → M.step s e = some t → M.sleeps s e = true → B t)
    (hwake : ∀ s e t, J s → M.step s e = some t → B s → M.wakes s e = false → B t) {p : Nat}
    (hp : asleep p = true) : B s := by
  induction h with
  | start => cases hp
  | @run s t asleep e hr _ hst ih =>
    cases hs : M.sleeps s e with
    | true => exact hsleep s e t (hJ s asleep hr) hst hs
    | false =>
      simp only [after, hs, Bool.false_and, Bool.false_or, Bool.and_eq_true,
        Bool.not_eq_true'] at hp
      exact hwake s e t (hJ s asleep hr) hst (ih hp.2) hp.1
  | @spurious s asleep q hr ih =>
    by_cases hpq : p = q
    · rw [hpq, upd_same] at hp
      cases hp
    · rw [upd_other hpq] at hp
      exact ih hp

end Monitor

end Lib
