import Xv6.Lib.Comp

/-! # Programs as trees of requests

A program asks for services by name; a handler says what each service does to a
state. One program can so be run on two machines, and a relation between the
machines that every single request respects is respected by every program.
-/

namespace Lib

/-- A program that makes requests `Req`, each answered by a value of type `Ans`. -/
inductive Prog (Req : Type) (Ans : Req → Type) (α : Type) : Type where
  | done (a : α)
  | call (r : Req) (k : Ans r → Prog Req Ans α)

namespace Prog

variable {Req : Type} {Ans : Req → Type} {σ τ ε α β : Type}

def andThen : Prog Req Ans α → (α → Prog Req Ans β) → Prog Req Ans β
  | .done a, f => f a
  | .call r k, f => .call r fun x => andThen (k x) f

instance : Monad (Prog Req Ans) where
  pure := .done
  bind := andThen

def ask (r : Req) : Prog Req Ans (Ans r) := .call r .done

theorem andThen_done (p : Prog Req Ans α) : andThen p .done = p := by
  induction p with
  | done a => rfl
  | call r k ih => exact congrArg (Prog.call r) (funext ih)

theorem andThen_assoc {γ : Type} (p : Prog Req Ans α) (f : α → Prog Req Ans β)
    (g : β → Prog Req Ans γ) :
    andThen (andThen p f) g = andThen p fun a => andThen (f a) g := by
  induction p with
  | done a => rfl
  | call r k ih => exact congrArg (Prog.call r) (funext ih)

instance : LawfulMonad (Prog Req Ans) := LawfulMonad.mk' (Prog Req Ans)
  (fun p => andThen_done p) (fun _ _ => rfl) (fun p f g => andThen_assoc p f g)

/-- Run a program on a state, each request as the handler says. -/
def run (h : (r : Req) → Comp σ ε (Ans r)) : Prog Req Ans α → Comp σ ε α
  | .done a => pure a
  | .call r k => h r >>= fun x => run h (k x)

variable {h : (r : Req) → Comp σ ε (Ans r)}

theorem run_ask (r : Req) : run h (ask r) = h r := by
  show (h r >>= fun x => pure x) = h r
  exact bind_pure _

theorem run_bind (p : Prog Req Ans α) (f : α → Prog Req Ans β) :
    run h (p >>= f) = run h p >>= fun a => run h (f a) := by
  show run h (andThen p f) = _
  induction p with
  | done a => exact (pure_bind a fun a => run h (f a)).symm
  | call r k ih =>
      show (h r >>= fun x => run h (andThen (k x) f)) = _
      simp only [ih]
      exact (bind_assoc (h r) (fun x => run h (k x)) fun a => run h (f a)).symm

/-! ## Assertions about a run -/

def wp (h : (r : Req) → Comp σ ε (Ans r)) (I : σ → Prop) (p : Prog Req Ans α)
    (Q : α → σ → Prop) (E : ε → σ → Prop) (s : σ) : Prop :=
  Comp.wp I (run h p) Q E s

variable {I : σ → Prop} {Q Q' : α → σ → Prop} {E E' : ε → σ → Prop} {s : σ}

@[simp] theorem wp_pure (a : α) : wp h I (pure a) Q E s ↔ Q a s := Comp.wp_pure a

theorem wp_ask {r : Req} {Q : Ans r → σ → Prop} :
    wp h I (ask r) Q E s ↔ Comp.wp I (h r) Q E s := by
  rw [wp, run_ask]

@[simp] theorem wp_bind {p : Prog Req Ans α} {f : α → Prog Req Ans β} {Q : β → σ → Prop} :
    wp h I (p >>= f) Q E s ↔ wp h I p (fun a t => wp h I (f a) Q E t) E s := by
  simp only [wp, run_bind, Comp.wp_bind]

@[simp] theorem wp_map {p : Prog Req Ans α} {f : α → β} {Q : β → σ → Prop} :
    wp h I (f <$> p) Q E s ↔ wp h I p (fun a => Q (f a)) E s := by
  rw [map_eq_pure_bind, wp_bind]
  simp only [wp_pure]

theorem wp_mono {p : Prog Req Ans α} (hp : wp h I p Q E s) (hQ : ∀ a t, Q a t → Q' a t)
    (hE : ∀ e t, E e t → E' e t) : wp h I p Q' E' s :=
  Comp.wp_mono hp hQ hE

theorem wp_and {p : Prog Req Ans α} (hp : wp h I p Q E s) (hp' : wp h I p Q' E' s) :
    wp h I p (fun a t => Q a t ∧ Q' a t) (fun e t => E e t ∧ E' e t) s :=
  Comp.wp_and hp hp'

theorem wp_seq {p : Prog Req Ans α} {f : α → Prog Req Ans β} {R : β → σ → Prop}
    (hp : wp h I p Q E s) (hf : ∀ a t, Q a t → wp h I (f a) R E t) : wp h I (p >>= f) R E s :=
  wp_bind.mpr (wp_mono hp hf fun _ _ he => he)

theorem wp_ite {c : Prop} [Decidable c] {p q : Prog Req Ans α} (hp : c → wp h I p Q E s)
    (hq : ¬ c → wp h I q Q E s) : wp h I (if c then p else q) Q E s := by
  split
  · exact hp ‹_›
  · exact hq ‹_›

theorem wp_loop {body : Nat → Prog Req Ans Unit} {J : Nat → σ → Prop} {k i : Nat}
    (hbody : ∀ j, i ≤ j → j < i + k → ∀ t, J j t → wp h I (body j) (fun _ => J (j + 1)) E t)
    (hi : J i s) : wp h I (Comp.loop body i k) (fun _ => J (i + k)) E s := by
  induction k generalizing i s with
  | zero => exact (wp_pure ()).mpr hi
  | succ k ih =>
      refine wp_seq (hbody i (Nat.le_refl i) (by omega) s hi) ?_
      intro _ t ht
      have hnext := ih (i := i + 1) (fun j hj hlt => hbody j (by omega) (by omega)) ht
      simpa only [Nat.add_assoc, Nat.add_comm 1 k] using hnext

/-! ## Results -/

/-- What the program returns from `s`, with the state it leaves, unless it stops. -/
def returns (h : (r : Req) → Comp σ ε (Ans r)) (p : Prog Req Ans α) (s : σ) : Option (α × σ) :=
  match run h p s with
  | ⟨.ok a, t, _⟩ => some (a, t)
  | ⟨.error _, _, _⟩ => none

theorem wp_returns {p : Prog Req Ans α} {a : α} {t : σ} (hp : wp h I p Q E s)
    (hr : returns h p s = some (a, t)) : Q a t := by
  unfold wp Comp.wp at hp
  unfold returns at hr
  generalize run h p s = o at hp hr
  obtain ⟨_ | b, u, vs⟩ := o
  · cases hr
  · cases hr
    exact hp.2

/-- A program that cannot stop returns. -/
theorem returns_of_wp {p : Prog Req Ans α} (hp : wp h I p Q (fun _ _ => False) s) :
    ∃ a t, returns h p s = some (a, t) ∧ Q a t := by
  unfold wp Comp.wp at hp
  unfold returns
  generalize run h p s = o at hp ⊢
  obtain ⟨_ | a, t, vs⟩ := o
  · exact hp.2.elim
  · exact ⟨a, t, rfl, hp.2⟩

/-! ## Programs that make certain requests only -/

/-- Every request that the program can make, whatever the answers, is in `ok`. -/
inductive Only (ok : Req → Prop) : Prog Req Ans α → Prop where
  | done (a : α) : Only ok (.done a)
  | call {r : Req} {k : Ans r → Prog Req Ans α} : ok r → (∀ x, Only ok (k x)) → Only ok (.call r k)

namespace Only

variable {ok : Req → Prop}

@[simp] theorem pure (a : α) : Only ok (Pure.pure a : Prog Req Ans α) := .done a

theorem ask {r : Req} (hr : ok r) : Only ok (Prog.ask r : Prog Req Ans (Ans r)) :=
  .call hr .done

theorem bind {p : Prog Req Ans α} {f : α → Prog Req Ans β} (hp : Only ok p)
    (hf : ∀ a, Only ok (f a)) : Only ok (p >>= f) := by
  induction hp with
  | done a => exact hf a
  | call hr _ ih => exact .call hr ih

theorem mono {ok' : Req → Prop} {p : Prog Req Ans α} (hp : Only ok p) (h : ∀ r, ok r → ok' r) :
    Only ok' p := by
  induction hp with
  | done a => exact .done a
  | call hr _ ih => exact .call (h _ hr) ih

theorem ite {c : Prop} [Decidable c] {p q : Prog Req Ans α} (hp : Only ok p) (hq : Only ok q) :
    Only ok (if c then p else q) := by
  split
  · exact hp
  · exact hq

theorem loop {body : Nat → Prog Req Ans Unit} (hb : ∀ j, Only ok (body j)) (i k : Nat) :
    Only ok (Comp.loop body i k) := by
  induction k generalizing i with
  | zero => exact .done ()
  | succ k ih => exact (hb i).bind fun _ => ih (i + 1)

/-- A relation that every request in `ok` respects holds between the ends of a run. -/
theorem keeps {R : σ → σ → Prop} {p : Prog Req Ans α} (hp : Only ok p) (hrefl : ∀ s, R s s)
    (htrans : ∀ s t u, R s t → R t u → R s u)
    (hstep : ∀ r s, ok r → Comp.wp I (h r) (fun _ t => R s t) (fun _ t => R s t) s) (s : σ) :
    wp h I p (fun _ t => R s t) (fun _ t => R s t) s := by
  induction hp generalizing s with
  | done a => exact (wp_pure a).mpr (hrefl s)
  | call hr _ ih =>
      refine Comp.wp_bind.mpr (Comp.wp_mono (hstep _ s hr) (fun x t ht => ?_) fun _ _ ht => ht)
      exact Comp.wp_mono (ih x t) (fun _ u hu => htrans s t u ht hu) fun _ u hu =>
        htrans s t u ht hu

/-! ## A handler that may stop sooner -/

theorem final {R : σ → σ → Prop} {p : Prog Req Ans α} (hp : Only ok p) (hrefl : ∀ s, R s s)
    (htrans : ∀ s t u, R s t → R t u → R s u) (hstep : ∀ r s, ok r → R s (h r s).final) (s : σ) :
    R s (run h p s).final :=
  Comp.wp_final.mp (hp.keeps hrefl htrans (fun r s hr => Comp.wp_final.mpr (hstep r s hr)) s)

end Only

end Prog

end Lib
