import Mathlib.Tactic.Common

/-! # Computations that show the states they pass through

A computation over a state either returns a value or stops for a reason, and it
lists every state it went through on the way. The predicate `wp` speaks about
all three: an assertion on every visited state, a postcondition on a returned
value, and one on a stop. Sequencing and counted loops have one rule each.
-/

namespace Lib

/-- What a computation leaves behind when it has finished. -/
structure Outcome (σ ε α : Type) where
  result : Except ε α
  final : σ
  visited : List σ

def Comp (σ ε α : Type) : Type := σ → Outcome σ ε α

namespace Comp

variable {σ ε α β γ : Type}

/-- Run `f` on the value of `m`; a stop of `m` is the stop of the whole. -/
def andThen (m : Comp σ ε α) (f : α → Comp σ ε β) : Comp σ ε β := fun s =>
  match m s with
  | ⟨.ok a, t, vs⟩ =>
      match f a t with
      | ⟨r, u, ws⟩ => ⟨r, u, vs ++ ws⟩
  | ⟨.error e, t, vs⟩ => ⟨.error e, t, vs⟩

instance : Monad (Comp σ ε) where
  pure a := fun s => ⟨.ok a, s, []⟩
  bind := andThen

def get : Comp σ ε σ := fun s => ⟨.ok s, s, []⟩

/-- Change the state; the new state counts as visited. -/
def modify (f : σ → σ) : Comp σ ε Unit := fun s => ⟨.ok (), f s, [f s]⟩

/-- Change the state without showing it. -/
def assign (f : σ → σ) : Comp σ ε Unit := fun s => ⟨.ok (), f s, []⟩

def stop (e : ε) : Comp σ ε α := fun s => ⟨.error e, s, []⟩

instance : LawfulMonad (Comp σ ε) := LawfulMonad.mk' (Comp σ ε)
  (by
    intro α m
    funext s
    show andThen m (fun a s => ⟨.ok a, s, []⟩) s = m s
    unfold andThen
    rcases m s with ⟨_ | _, _, _⟩ <;> simp)
  (by
    intro α β a f
    funext s
    show andThen (fun s => ⟨.ok a, s, []⟩) f s = f a s
    simp [andThen])
  (by
    intro α β γ m f g
    funext s
    show andThen (andThen m f) g s = andThen m (fun a => andThen (f a) g) s
    unfold andThen
    rcases m s with ⟨e | a, t, vs⟩
    · rfl
    · dsimp only
      rcases f a t with ⟨e | b, u, ws⟩
      · rfl
      · dsimp only
        rcases g b u with ⟨r, v, xs⟩
        simp)

/-! ## Assertions -/

/-- From `s` every visited state satisfies `I`, a returned value satisfies `Q` and a
stop satisfies `E`. -/
def wp (I : σ → Prop) (m : Comp σ ε α) (Q : α → σ → Prop) (E : ε → σ → Prop) (s : σ) : Prop :=
  (∀ t ∈ (m s).visited, I t) ∧
    match (m s).result with
    | .ok a => Q a (m s).final
    | .error e => E e (m s).final

variable {I : σ → Prop} {Q Q' : α → σ → Prop} {E E' : ε → σ → Prop} {s : σ}

@[simp] theorem wp_pure (a : α) : wp I (pure a : Comp σ ε α) Q E s ↔ Q a s := by
  show (∀ t ∈ [], I t) ∧ Q a s ↔ _
  simp

@[simp] theorem wp_get {Q : σ → σ → Prop} : wp I (get : Comp σ ε σ) Q E s ↔ Q s s := by
  simp [wp, get]

@[simp] theorem wp_modify {Q : Unit → σ → Prop} (f : σ → σ) :
    wp I (modify f : Comp σ ε Unit) Q E s ↔ I (f s) ∧ Q () (f s) := by
  simp [wp, modify]

@[simp] theorem wp_assign {Q : Unit → σ → Prop} (f : σ → σ) :
    wp I (assign f : Comp σ ε Unit) Q E s ↔ Q () (f s) := by
  simp [wp, assign]

@[simp] theorem wp_stop (e : ε) : wp I (stop e : Comp σ ε α) Q E s ↔ E e s := by
  simp [wp, stop]

@[simp] theorem wp_bind {m : Comp σ ε α} {f : α → Comp σ ε β} {Q : β → σ → Prop} :
    wp I (m >>= f) Q E s ↔ wp I m (fun a t => wp I (f a) Q E t) E s := by
  show wp I (andThen m f) Q E s ↔ _
  unfold wp andThen
  rcases m s with ⟨e | a, t, vs⟩
  · rfl
  · dsimp only
    rcases f a t with ⟨r, u, ws⟩
    simp only [List.mem_append]
    constructor
    · rintro ⟨hv, hr⟩
      exact ⟨fun v h => hv v (.inl h), fun v h => hv v (.inr h), hr⟩
    · rintro ⟨hv, hw, hr⟩
      exact ⟨fun v h => h.elim (hv v) (hw v), hr⟩

@[simp] theorem wp_map {m : Comp σ ε α} {f : α → β} {Q : β → σ → Prop} :
    wp I (f <$> m) Q E s ↔ wp I m (fun a => Q (f a)) E s := by
  rw [map_eq_pure_bind, wp_bind]
  simp only [wp_pure]

theorem wp_mono {m : Comp σ ε α} (h : wp I m Q E s) (hQ : ∀ a t, Q a t → Q' a t)
    (hE : ∀ e t, E e t → E' e t) : wp I m Q' E' s := by
  refine ⟨h.1, ?_⟩
  have h2 := h.2
  cases hr : (m s).result with
  | ok a =>
      simp only [hr] at h2
      exact hQ a _ h2
  | error e =>
      simp only [hr] at h2
      exact hE e _ h2

theorem wp_and {m : Comp σ ε α} (h : wp I m Q E s) (h' : wp I m Q' E' s) :
    wp I m (fun a t => Q a t ∧ Q' a t) (fun e t => E e t ∧ E' e t) s := by
  refine ⟨h.1, ?_⟩
  have h2 := h.2
  have h2' := h'.2
  cases hr : (m s).result with
  | ok a =>
      simp only [hr] at h2 h2'
      exact ⟨h2, h2'⟩
  | error e =>
      simp only [hr] at h2 h2'
      exact ⟨h2, h2'⟩

theorem wp_seq {m : Comp σ ε α} {f : α → Comp σ ε β} {R : β → σ → Prop} (h : wp I m Q E s)
    (hf : ∀ a t, Q a t → wp I (f a) R E t) : wp I (m >>= f) R E s :=
  wp_bind.mpr (wp_mono h hf fun _ _ he => he)

theorem wp_of_ok {m : Comp σ ε α} {a : α} {t : σ} {vs : List σ} (h : m s = ⟨.ok a, t, vs⟩)
    (hv : ∀ u ∈ vs, I u) (hQ : Q a t) : wp I m Q E s := by
  simp only [wp, h]
  exact ⟨hv, hQ⟩

theorem wp_ite {c : Prop} [Decidable c] {m m' : Comp σ ε α} (h : c → wp I m Q E s)
    (h' : ¬ c → wp I m' Q E s) : wp I (if c then m else m') Q E s := by
  split
  · exact h ‹_›
  · exact h' ‹_›

theorem wp_final {m : Comp σ ε α} {P : σ → Prop} :
    wp (fun _ => True) m (fun _ => P) (fun _ => P) s ↔ P (m s).final := by
  unfold wp
  cases (m s).result <;> simp

theorem wp_returned {m : Comp σ ε α} (h : wp I m Q (fun _ _ => False) s) :
    ∃ a, (m s).result = .ok a ∧ Q a (m s).final := by
  have h2 := h.2
  cases hr : (m s).result with
  | ok a =>
      simp only [hr] at h2
      exact ⟨a, rfl, h2⟩
  | error e =>
      simp only [hr] at h2

/-! ## Counted loops -/

/-- Run `body` for `i`, `i + 1`, …, `k` times in all. -/
def loop {m : Type → Type*} [Monad m] (body : Nat → m Unit) (i : Nat) : Nat → m Unit
  | 0 => pure ()
  | k + 1 => do
      body i
      loop body (i + 1) k

/-- An invariant indexed by the counter is carried through a counted loop. -/
theorem wp_loop {body : Nat → Comp σ ε Unit} {J : Nat → σ → Prop} {k i : Nat}
    (hbody : ∀ j, i ≤ j → j < i + k → ∀ t, J j t → wp I (body j) (fun _ => J (j + 1)) E t)
    (h : J i s) : wp I (loop body i k) (fun _ => J (i + k)) E s := by
  induction k generalizing i s with
  | zero => exact (wp_pure ()).mpr h
  | succ k ih =>
      refine wp_seq (hbody i (Nat.le_refl i) (by omega) s h) ?_
      intro _ t ht
      have hnext := ih (i := i + 1) (fun j hj hlt => hbody j (by omega) (by omega)) ht
      simpa only [Nat.add_assoc, Nat.add_comm 1 k] using hnext

/-! ## Computations on a part of the state -/

variable {τ : Type}

/-- Run `m` on the part of the state that `part` reads and `put` replaces. -/
def zoom (part : τ → σ) (put : τ → σ → τ) (m : Comp σ ε α) : Comp τ ε α := fun s =>
  match m (part s) with
  | ⟨r, t, vs⟩ => ⟨r, put s t, vs.map (put s)⟩

theorem wp_zoom {part : τ → σ} {put : τ → σ → τ} {m : Comp σ ε α} {I : τ → Prop}
    {Q : α → τ → Prop} {E : ε → τ → Prop} {s : τ} :
    wp I (zoom part put m) Q E s ↔
      wp (fun t => I (put s t)) m (fun a t => Q a (put s t)) (fun e t => E e (put s t))
        (part s) := by
  unfold wp zoom
  rcases m (part s) with ⟨_ | _, t, vs⟩ <;> simp

end Comp

/-! ## Computations that return -/

/-- The computation returns, with a value and a state in `Q`; it does not stop. -/
def Does {σ ε α : Type} (m : Comp σ ε α) (Q : α → σ → Prop) (s : σ) : Prop :=
  Comp.wp (fun _ => True) m Q (fun _ _ => False) s

namespace Does

variable {σ τ ε α β : Type} {Q Q' : α → σ → Prop} {s : σ}

@[simp] theorem pure (a : α) : Does (Pure.pure a : Comp σ ε α) Q s ↔ Q a s := Comp.wp_pure a

@[simp] theorem bind {m : Comp σ ε α} {f : α → Comp σ ε β} {Q : β → σ → Prop} :
    Does (m >>= f) Q s ↔ Does m (fun a t => Does (f a) Q t) s := Comp.wp_bind

@[simp] theorem map {m : Comp σ ε α} {f : α → β} {Q : β → σ → Prop} :
    Does (f <$> m) Q s ↔ Does m (fun a => Q (f a)) s := Comp.wp_map

@[simp] theorem get {Q : σ → σ → Prop} : Does (Comp.get : Comp σ ε σ) Q s ↔ Q s s := Comp.wp_get

@[simp] theorem assign {Q : Unit → σ → Prop} (f : σ → σ) :
    Does (Comp.assign f : Comp σ ε Unit) Q s ↔ Q () (f s) := Comp.wp_assign f

@[simp] theorem zoom {part : τ → σ} {put : τ → σ → τ} {m : Comp σ ε α} {Q : α → τ → Prop}
    {s : τ} : Does (Comp.zoom part put m) Q s ↔ Does m (fun a t => Q a (put s t)) (part s) :=
  Comp.wp_zoom

theorem mono {m : Comp σ ε α} (h : Does m Q s) (hQ : ∀ a t, Q a t → Q' a t) : Does m Q' s :=
  Comp.wp_mono h hQ fun _ _ h => h

theorem ite {c : Prop} [Decidable c] {m m' : Comp σ ε α} (h : c → Does m Q s)
    (h' : ¬ c → Does m' Q s) : Does (if c then m else m') Q s :=
  Comp.wp_ite h h'

theorem result {m : Comp σ ε α} (h : Does m Q s) : ∃ a t vs, m s = ⟨.ok a, t, vs⟩ ∧ Q a t := by
  unfold Does Comp.wp at h
  generalize hm : m s = o at h
  obtain ⟨_ | a, t, vs⟩ := o
  · exact h.2.elim
  · exact ⟨a, t, vs, rfl, h.2⟩

/-- A run that was evaluated. -/
theorem of_result {m : Comp σ ε α} {a : α} (h : (m s).result.toOption = some a) :
    Does m (fun r _ => r = a) s := by
  unfold Does Comp.wp
  cases hr : (m s).result with
  | ok b =>
    rw [hr] at h
    exact ⟨fun _ _ => trivial, Option.some.inj h⟩
  | error e =>
    rw [hr] at h
    cases h

/-- What comes after `m` starts from one state, whatever it is. -/
theorem cut {m : Comp σ ε α} (h : Does m Q s) : ∃ a t, Q a t ∧
    ∀ {β : Type} (f : α → Comp σ ε β) (R : β → σ → Prop), Does (f a) R t → Does (m >>= f) R s := by
  obtain ⟨a, t, vs, heq, hQ⟩ := h.result
  refine ⟨a, t, hQ, fun f R hf => bind.mpr ?_⟩
  exact Comp.wp_of_ok heq (fun _ _ => trivial) hf

theorem and {m : Comp σ ε α} (h : Does m Q s) (h' : Does m Q' s) :
    Does m (fun a t => Q a t ∧ Q' a t) s :=
  Comp.wp_mono (Comp.wp_and h h') (fun _ _ hQ => hQ) fun _ _ hE => hE.1

theorem loop {body : Nat → Comp σ ε Unit} (J : Nat → σ → Prop) {k i : Nat}
    (hbody : ∀ j, i ≤ j → j < i + k → ∀ t, J j t → Does (body j) (fun _ => J (j + 1)) t)
    (h : J i s) : Does (Comp.loop body i k) (fun _ => J (i + k)) s :=
  Comp.wp_loop hbody h

end Does

end Lib
