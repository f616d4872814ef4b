import Xv6.Lib.Monitor

/-! # Sleep-locks

`acquiresleep`, `releasesleep` and `holdingsleep` as sections of the spinlock `lk->lk`, with
`lk` as their wait channel. A release wakes every waiter, and they race for the lock; so
do those that `kill` has woken.
-/

namespace Xv6.Sleep

open Lib

structure Sleeplock where
  locked : Bool
  pid : Int
deriving DecidableEq

namespace Sleeplock

def initsleeplock : Sleeplock := ⟨false, 0⟩

/-- From `acquire(&lk->lk)`, or the return of `sleep`, on; `none` sleeps on `lk`. -/
def acquiresleep (lk : Sleeplock) (pid : Int) : Option Sleeplock :=
  if lk.locked then none else some ⟨true, pid⟩

def releasesleep (_ : Sleeplock) : Sleeplock := ⟨false, 0⟩

def holdingsleep (lk : Sleeplock) (pid : Int) : Bool :=
  lk.locked && lk.pid == pid

end Sleeplock

/-- The lock, who is in `acquiresleep` and has slept there, and who has completed it and not yet
released. -/
structure Sys where
  lk : Sleeplock
  waits : Nat → Bool
  holds : Nat → Bool

inductive Ev where
  | acquiresleep (p : Nat)
  | releasesleep (p : Nat)
  | holdingsleep (p : Nat)
deriving DecidableEq

def init : Sys := ⟨.initsleeplock, fun _ => false, fun _ => false⟩

/-- The processes with their pids. Only the holder releases. -/
def monitor (pid : Nat → Int) : Monitor Sys Ev where
  step s
    | .acquiresleep p =>
        match s.lk.acquiresleep (pid p) with
        | none => some { s with waits := upd s.waits p true }
        | some lk => some ⟨lk, upd s.waits p false, upd s.holds p true⟩
    | .releasesleep p =>
        if s.waits p = false ∧ s.holds p = true then
          some ⟨s.lk.releasesleep, s.waits, upd s.holds p false⟩
        else none
    | .holdingsleep p => if s.waits p = false then some s else none
  proc
    | .acquiresleep p | .releasesleep p | .holdingsleep p => some p
  sleeps s
    | .acquiresleep p => (s.lk.acquiresleep (pid p)).isNone
    | _ => false
  wakes _
    | .releasesleep _ => true
    | _ => false

variable {pid : Nat → Int} {s t : Sys} {e : Ev} {asleep : Nat → Bool}

/-- What a section does to the lock and to its holders. -/
theorem monitor_step (hst : (monitor pid).step s e = some t) :
    (t.lk = s.lk ∧ t.holds = s.holds ∧
      ((monitor pid).sleeps s e = true → s.lk.locked = true)) ∨
    (∃ p, s.lk.locked = false ∧ t.lk = ⟨true, pid p⟩ ∧ t.holds = upd s.holds p true ∧
      (monitor pid).sleeps s e = false) ∨
    (∃ p, s.holds p = true ∧ t.lk = ⟨false, 0⟩ ∧ t.holds = upd s.holds p false ∧
      (monitor pid).sleeps s e = false ∧ (monitor pid).wakes s e = true) := by
  cases e with
  | acquiresleep p =>
    cases hl : s.lk.locked with
    | true =>
      simp only [monitor, Sleeplock.acquiresleep, hl, if_true, Option.some.injEq] at hst
      subst hst
      exact .inl ⟨rfl, rfl, fun _ => rfl⟩
    | false =>
      simp only [monitor, Sleeplock.acquiresleep, hl, Bool.false_eq_true, if_false,
        Option.some.injEq] at hst
      subst hst
      refine .inr (.inl ⟨p, rfl, rfl, rfl, ?_⟩)
      simp [monitor, Sleeplock.acquiresleep, hl]
  | releasesleep p =>
    simp only [monitor, Option.ite_none_right_eq_some, Option.some.injEq] at hst
    obtain ⟨⟨-, hp⟩, rfl⟩ := hst
    exact .inr (.inr ⟨p, hp, rfl, rfl, rfl, rfl⟩)
  | holdingsleep p =>
    simp only [monitor, Option.ite_none_right_eq_some, Option.some.injEq] at hst
    obtain ⟨-, rfl⟩ := hst
    exact .inl ⟨rfl, rfl, fun h => by cases h⟩

/-- The lock says who holds it: nobody, or the one process whose pid it has. -/
def Inv (pid : Nat → Int) (s : Sys) : Prop :=
  (s.lk.locked = false ∧ ∀ p, s.holds p = false) ∨
    ∃ p, s.lk = ⟨true, pid p⟩ ∧ ∀ q, s.holds q = true ↔ q = p

theorem Inv.step (hs : Inv pid s) (hst : (monitor pid).step s e = some t) : Inv pid t := by
  obtain ⟨hlk, hholds, -⟩ | ⟨p, hl, hlk, hholds, -⟩ | ⟨p, hp, hlk, hholds, -⟩ := monitor_step hst
  · rwa [Inv, hlk, hholds]
  · obtain ⟨-, hnone⟩ | ⟨q, hq, -⟩ := hs
    · refine .inr ⟨p, hlk, fun q => ?_⟩
      by_cases hqp : q = p
      · simp [hholds, hqp]
      · simp [hholds, hqp, hnone q]
    · rw [hq] at hl
      cases hl
  · obtain ⟨-, hnone⟩ | ⟨q, -, hq⟩ := hs
    · rw [hnone p] at hp
      cases hp
    · refine .inl ⟨by rw [hlk], fun x => ?_⟩
      rw [hholds]
      by_cases hxp : x = p
      · rw [hxp, upd_same]
      · rw [upd_other hxp, ← Bool.not_eq_true, hq]
        rwa [(hq p).mp hp] at hxp

theorem Reach.inv (h : (monitor pid).Reach init s asleep) : Inv pid s :=
  h.invariant (.inl ⟨rfl, fun _ => rfl⟩) fun _ _ _ hs hst => hs.step hst

theorem Reach.locked (h : (monitor pid).Reach init s asleep) {p : Nat} (hp : asleep p = true) :
    s.lk.locked = true := by
  apply h.blocked (J := Inv pid) (B := fun s => s.lk.locked = true) _ _ _ hp
  · exact fun s asleep h => Reach.inv h
  · intro s e t _ hst hsl
    obtain ⟨hlk, -, hl⟩ | ⟨p, -, -, -, hns⟩ | ⟨p, -, -, -, hns, -⟩ := monitor_step hst
    · rw [hlk, hl hsl]
    · rw [hns] at hsl
      cases hsl
    · rw [hns] at hsl
      cases hsl
  · intro s e t _ hst hl hw
    obtain ⟨hlk, -⟩ | ⟨p, -, hlk, -⟩ | ⟨p, -, -, -, -, hw'⟩ := monitor_step hst
    · rw [hlk, hl]
    · rw [hlk]
    · rw [hw'] at hw
      cases hw

/-- Sleep-locks exclude and hand over. Between sections at most one process holds the lock;
`lk->locked` is set, with the pid of the holder, exactly while there is one; `holdingsleep`
is true in the holder and nowhere else; and whoever sleeps on `lk` waits for a holder. -/
theorem sleeplock_excludes (hpid : Function.Injective pid)
    (h : (monitor pid).Reach init s asleep) :
    (∀ p q, s.holds p = true → s.holds q = true → p = q) ∧
    (s.lk.locked = true ↔ ∃ p, s.holds p = true) ∧
    (∀ p, s.holds p = true → s.lk.pid = pid p) ∧
    (∀ p, s.lk.holdingsleep (pid p) = true ↔ s.holds p = true) ∧
    ∀ p, asleep p = true → s.lk.locked = true := by
  refine ⟨?_, ?_, ?_, ?_, fun p hp => Reach.locked h hp⟩ <;>
    obtain ⟨hl, hnone⟩ | ⟨p, hlk, hp⟩ := Reach.inv h
  · intro p q hp
    simp [hnone p] at hp
  · intro q r hq hr
    rw [(hp q).mp hq, (hp r).mp hr]
  · simp [hl, hnone]
  · simp [hlk, hp]
  · intro p hp
    simp [hnone p] at hp
  · intro q hq
    rw [hlk, (hp q).mp hq]
  · simp [Sleeplock.holdingsleep, hl, hnone]
  · intro q
    simp only [Sleeplock.holdingsleep, hlk, Bool.true_and, beq_iff_eq, hp]
    exact ⟨fun heq => (hpid heq).symm, fun heq => by rw [heq]⟩

/-- One process holds the lock while two others sleep; it releases, and one of the two takes it. -/
theorem sleeplock_excludes_three : ∃ s asleep,
    (monitor (↑·)).Reach init s asleep ∧ s.holds 2 = true ∧ asleep 1 = true ∧
      s.lk.locked = true := by
  have hx : (monitor (↑·)).exec init (fun _ => false) [.acquiresleep 0, .acquiresleep 1,
      .acquiresleep 2, .releasesleep 0, .acquiresleep 2, .acquiresleep 1] = some (_, _) := rfl
  have hreach := Monitor.Reach.start.exec hx
  have hpid : Function.Injective fun p : Nat => (p : Int) := fun _ _ => Int.ofNat.inj
  exact ⟨_, _, hreach, rfl, rfl, (sleeplock_excludes hpid hreach).2.2.2.2 1 rfl⟩

end Xv6.Sleep
