import Mathlib.Algebra.BigOperators.Group.List.Basic
import Mathlib.Algebra.Order.Ring.Int
import Mathlib.Data.List.Nodup
import Xv6.Lib.Map

/-! # Spinlocks and interrupts

`push_off`, `pop_off`, `acquire` and `release` of `kernel/spinlock.c` on any number of CPUs,
with the switch of `sched` and `scheduler` in `kernel/proc.c` between a process and the
scheduler of its CPU. What belongs to a thread, the flag that interrupts had before its
outermost `push_off`, is kept in a field of the CPU, and `sched` carries it from the
CPU that a process leaves to the one that it comes back on.
-/

namespace Xv6.Spin

open Lib

/-- A lock: the `p->lock` of a process, or another one. -/
inductive Lock where
  | proc (p : Nat)
  | other (n : Nat)
deriving DecidableEq, Repr

/-- The fields of `struct cpu`, with the interrupt flag of the CPU. `before` is the flag that the
running thread found before its outermost `push_off`; no code reads it. -/
structure Cpu where
  intr : Bool
  noff : Int
  intena : Bool
  proc : Option Nat
  before : Bool
deriving Repr

/-- The kernel thread of a process: it has not run, it runs, or it is in `swtch` with the local
variable `intena` of `sched`. -/
inductive Thread where
  | fresh
  | on
  | out (intena before : Bool)
deriving DecidableEq, Repr

structure Sys where
  cpu : Nat → Cpu
  lock : Lock → Option Nat
  thread : Nat → Thread

def pushOff (x : Cpu) : Cpu :=
  { x with
    intr := false
    intena := if x.noff = 0 then x.intr else x.intena
    before := if x.noff = 0 then x.intr else x.before
    noff := x.noff + 1 }

def popOff (x : Cpu) : Except String Cpu :=
  if x.intr then .error "pop_off - interruptible"
  else if x.noff < 1 then .error "pop_off"
  else .ok { x with noff := x.noff - 1, intr := x.noff - 1 = 0 ∧ x.intena }

/-- `acquire(lk)`, once the lock is free or is found to be held. -/
def acquire (s : Sys) (c : Nat) (l : Lock) : Except String Sys :=
  if s.lock l = some c then .error "acquire"
  else .ok { s with cpu := upd s.cpu c (pushOff (s.cpu c)), lock := upd s.lock l (some c) }

def release (s : Sys) (c : Nat) (l : Lock) : Except String Sys :=
  if s.lock l ≠ some c then .error "release"
  else (popOff (s.cpu c)).map fun x =>
    { s with cpu := upd s.cpu c x, lock := upd s.lock l none }

/-- The CPU goes from process `p` to its scheduler. -/
def swtch (s : Sys) (c p : Nat) : Sys :=
  { s with
    cpu := upd s.cpu c { s.cpu c with proc := none }
    thread := upd s.thread p (.out (s.cpu c).intena (s.cpu c).before) }

/-- `sched()` of process `p`, up to the `release(&p->lock)` of the scheduler that it returns to. -/
def sched (s : Sys) (c p : Nat) : Except String Sys :=
  if s.lock (.proc p) ≠ some c then .error "sched p->lock"
  else if (s.cpu c).noff ≠ 1 then .error "sched locks"
  else if (s.cpu c).intr then .error "sched interruptible"
  else release (swtch s c p) c (.proc p)

/-- The CPU goes from its scheduler to process `p`, which comes back from `swtch` in `sched` or
starts in `forkret`. -/
def Cpu.enter (x : Cpu) (p : Nat) : Thread → Cpu
  | .out intena before => { x with proc := some p, intena := intena, before := before }
  | _ => { x with proc := some p }

/-- The scheduler takes `p->lock` and switches to process `p`. -/
def resume (s : Sys) (c p : Nat) : Except String Sys :=
  (acquire s c (.proc p)).map fun t =>
    { t with
      cpu := upd t.cpu c ((t.cpu c).enter p (s.thread p))
      thread := upd t.thread p .on }

inductive Ev where
  | pushOff (c : Nat)
  | popOff (c : Nat)
  | acquire (c : Nat) (l : Lock)
  | release (c : Nat) (l : Lock)
  -- `intr_on`, `intr_off`, a trap or the return from one.
  | setIntr (c : Nat) (b : Bool)
  | sched (c : Nat)
  | resume (c p : Nat)
  -- A process table entry gets a new thread.
  | renew (p : Nat)

/-- One step; `none` if the CPU waits for a lock, or does not do that now. -/
def step (s : Sys) : Ev → Option (Except String Sys)
  | .pushOff c => some (.ok { s with cpu := upd s.cpu c (pushOff (s.cpu c)) })
  | .popOff c => some ((popOff (s.cpu c)).map fun x => { s with cpu := upd s.cpu c x })
  | .acquire c l =>
      if s.lock l = none ∨ s.lock l = some c then some (acquire s c l) else none
  | .release c l => some (release s c l)
  | .setIntr c b => some (.ok { s with cpu := upd s.cpu c { s.cpu c with intr := b } })
  | .sched c => (s.cpu c).proc.map (sched s c)
  | .resume c p =>
      if (s.cpu c).proc = none ∧ (s.cpu c).noff = 0 ∧ s.lock (.proc p) = none ∧
          s.thread p ≠ .on then some (resume s c p)
      else none
  | .renew p =>
      if s.thread p ≠ .on then some (.ok { s with thread := upd s.thread p .fresh }) else none

def boot (intr : Nat → Bool) : Sys where
  cpu c := ⟨intr c, 0, false, none, false⟩
  lock _ := none
  thread _ := .fresh

/-! ## Runs -/

/-- The pushes minus the pops of an event on CPU `c`, those of `acquire` and `release`
among them. -/
def Ev.nesting (c : Nat) : Ev → Int
  | .pushOff d | .acquire d _ | .resume d _ => if d = c then 1 else 0
  | .popOff d | .release d _ | .sched d => if d = c then -1 else 0
  | _ => 0

/-- The same of `push_off` and `pop_off` alone. -/
def Ev.bare (c : Nat) : Ev → Int
  | .pushOff d => if d = c then 1 else 0
  | .popOff d => if d = c then -1 else 0
  | _ => 0

/-- The unmatched pushes on CPU `c`. -/
def unmatched (c : Nat) (evs : List Ev) : Int := (evs.map (Ev.nesting c)).sum

/-- The `push_off`s minus the `pop_off`s on CPU `c` that are not part of `acquire` or `release`. -/
def bare (c : Nat) (evs : List Ev) : Int := (evs.map (Ev.bare c)).sum

/-- A pop has a push before it, and the flag is not set between them. -/
def Ordered (evs : List Ev) : Ev → Prop
  | .popOff c | .release c _ => 0 < unmatched c evs
  | .setIntr c _ => unmatched c evs = 0
  | _ => True

inductive Run (s₀ : Sys) : List Ev → Sys → Prop where
  | nil : Run s₀ [] s₀
  | snoc {evs : List Ev} {s t : Sys} {e : Ev} : Run s₀ evs s → Ordered evs e →
      step s e = some (.ok t) → Run s₀ (evs ++ [e]) t

@[simp] theorem unmatched_snoc (c : Nat) (evs : List Ev) (e : Ev) :
    unmatched c (evs ++ [e]) = unmatched c evs + e.nesting c := by
  simp [unmatched]

@[simp] theorem bare_snoc (c : Nat) (evs : List Ev) (e : Ev) :
    bare c (evs ++ [e]) = bare c evs + e.bare c := by
  simp [bare]

/-! ## The invariant -/

/-- The CPU has `n` unmatched pushes. -/
structure CpuOk (x : Cpu) (n : Int) : Prop where
  noff : x.noff = n
  nonneg : 0 ≤ n
  off : 0 < n → x.intr = false ∧ x.intena = x.before

def Holds (lock : Lock → Option Nat) (c : Nat) (n : Int) : Prop :=
  ∃ H : List Lock, H.Nodup ∧ (∀ l, l ∈ H ↔ lock l = some c) ∧ (H.length : Int) = n

structure Inv (evs : List Ev) (s : Sys) : Prop where
  cpus : ∀ c, CpuOk (s.cpu c) (unmatched c evs)
  locks : ∀ c, Holds s.lock c (unmatched c evs - bare c evs)
  threads : ∀ p i b, s.thread p = .out i b → i = b

theorem CpuOk.pushOff {x : Cpu} {n : Int} (h : CpuOk x n) : CpuOk (pushOff x) (n + 1) := by
  refine ⟨congrArg (· + 1) h.noff, by have := h.nonneg; omega, fun _ => ⟨rfl, ?_⟩⟩
  by_cases hz : x.noff = 0
  · simp [Spin.pushOff, hz]
  · have := h.nonneg
    have := h.noff
    simp [Spin.pushOff, hz, (h.off (by omega)).2]

/-- With a push to match, `pop_off` does not panic; the last one restores the flag. -/
theorem CpuOk.popOff {x : Cpu} {n : Int} (h : CpuOk x n) (hn : 0 < n) :
    ∃ y, popOff x = .ok y ∧ CpuOk y (n - 1) ∧ (n = 1 → y.intr = x.before) := by
  obtain ⟨hi, hb⟩ := h.off hn
  have hnoff := h.noff
  have hlt : ¬ x.noff < 1 := by omega
  refine ⟨_, by rw [Spin.popOff, if_neg (by simp [hi]), if_neg hlt], ⟨?_, by omega, fun h1 => ?_⟩,
    fun h1 => ?_⟩
  · exact congrArg (· - 1) hnoff
  · have : ¬ x.noff - 1 = 0 := by omega
    simpa [this] using hb
  · have : x.noff - 1 = 0 := by omega
    simp [this, hb]

theorem Holds.congr {lock lock' : Lock → Option Nat} {c : Nat} {n : Int} (h : Holds lock c n)
    (heq : ∀ l, lock' l = some c ↔ lock l = some c) : Holds lock' c n := by
  obtain ⟨H, hnd, hH, hlen⟩ := h
  exact ⟨H, hnd, fun l => (hH l).trans (heq l).symm, hlen⟩

theorem Holds.take {lock : Lock → Option Nat} {c d : Nat} {n : Int} {l : Lock}
    (h : Holds lock d n) (hfree : lock l = none) :
    Holds (upd lock l (some c)) d (n + if c = d then 1 else 0) := by
  by_cases hcd : c = d
  · subst hcd
    obtain ⟨H, hnd, hH, hlen⟩ := h
    have hl : l ∉ H := fun hmem => by simp [(hH l).mp hmem] at hfree
    refine ⟨l :: H, List.nodup_cons.mpr ⟨hl, hnd⟩, fun k => ?_, by simp [hlen]⟩
    by_cases hk : k = l
    · simp [hk]
    · simp [hk, hH k]
  · rw [if_neg hcd, Int.add_zero]
    refine h.congr fun k => ?_
    by_cases hk : k = l
    · simp [hk, hfree, hcd]
    · simp [hk]

theorem Holds.drop {lock : Lock → Option Nat} {c d : Nat} {n : Int} {l : Lock}
    (h : Holds lock d n) (hheld : lock l = some c) :
    Holds (upd lock l none) d (n + if c = d then -1 else 0) := by
  by_cases hcd : c = d
  · subst hcd
    obtain ⟨H, hnd, hH, hlen⟩ := h
    have hl : l ∈ H := (hH l).mpr hheld
    refine ⟨H.erase l, hnd.erase l, fun k => ?_, ?_⟩
    · rw [hnd.mem_erase_iff]
      by_cases hk : k = l
      · simp [hk]
      · simp [hk, hH k]
    · have := List.length_pos_of_mem hl
      rw [List.length_erase_of_mem hl, if_pos rfl]
      omega
  · rw [if_neg hcd, Int.add_zero]
    refine h.congr fun k => ?_
    by_cases hk : k = l
    · simp [hk, hheld, hcd]
    · simp [hk]

section

variable {evs : List Ev} {e : Ev} {s t : Sys} {c d : Nat}

theorem Inv.cpu_upd {k : Int} {x : Cpu} (h : Inv evs s) (hx : CpuOk x (unmatched c evs + k))
    (hk : ∀ d, e.nesting d = if c = d then k else 0) (d : Nat) :
    CpuOk (upd s.cpu c x d) (unmatched d (evs ++ [e])) := by
  rw [unmatched_snoc, hk]
  by_cases hd : c = d
  · subst hd
    simpa using hx
  · rw [if_neg hd, Int.add_zero, upd_other (Ne.symm hd)]
    exact h.cpus d

theorem Inv.same_locks (h : Inv evs s) (he : ∀ d, e.nesting d = e.bare d) (d : Nat) :
    Holds s.lock d (unmatched d (evs ++ [e]) - bare d (evs ++ [e])) := by
  rw [unmatched_snoc, bare_snoc, he, Int.add_sub_add_right]
  exact h.locks d

theorem Inv.acquire {l : Lock} (h : Inv evs s) (hl : s.lock l = none)
    (he : ∀ d, e.nesting d = if c = d then 1 else 0) (hb : ∀ d, e.bare d = 0)
    (ht : acquire s c l = .ok t) : Inv (evs ++ [e]) t := by
  rw [Spin.acquire, if_neg (by simp [hl])] at ht
  cases ht
  refine ⟨h.cpu_upd (h.cpus c).pushOff he, fun d => ?_, h.threads⟩
  rw [unmatched_snoc, bare_snoc, he, hb, Int.add_zero, add_sub_right_comm]
  exact (h.locks d).take hl

theorem release_cases {l : Lock} (ht : release s c l = .ok t) :
    s.lock l = some c ∧ ∃ x, popOff (s.cpu c) = .ok x ∧
      t = { s with cpu := upd s.cpu c x, lock := upd s.lock l none } := by
  unfold release at ht
  split at ht
  · cases ht
  · rename_i hl
    cases hx : popOff (s.cpu c) with
    | error msg =>
      rw [hx] at ht
      cases ht
    | ok x =>
      rw [hx] at ht
      cases ht
      exact ⟨not_not.mp hl, x, rfl, rfl⟩

theorem Inv.release {l : Lock} (h : Inv evs s) (hn : 0 < unmatched c evs)
    (he : ∀ d, e.nesting d = if c = d then -1 else 0) (hb : ∀ d, e.bare d = 0)
    (ht : release s c l = .ok t) : Inv (evs ++ [e]) t := by
  obtain ⟨hl, x, hx, rfl⟩ := release_cases ht
  obtain ⟨y, hy, hok, -⟩ := (h.cpus c).popOff hn
  rw [hx] at hy
  cases hy
  refine ⟨h.cpu_upd hok he, fun d => ?_, h.threads⟩
  rw [unmatched_snoc, bare_snoc, he, hb, Int.add_zero, add_sub_right_comm]
  exact (h.locks d).drop hl

/-- The guards of `sched` and the switch to the scheduler. -/
theorem sched_cases {p : Nat} (ht : sched s c p = .ok t) :
    (s.cpu c).noff = 1 ∧ release (swtch s c p) c (.proc p) = .ok t := by
  unfold sched at ht
  split at ht
  · cases ht
  · split at ht
    · cases ht
    · rename_i hnoff
      split at ht
      · cases ht
      · exact ⟨not_not.mp hnoff, ht⟩

theorem Inv.swtch (h : Inv evs s) (hn : 0 < unmatched c evs) (p : Nat) :
    Inv evs (swtch s c p) := by
  refine ⟨fun d => ?_, h.locks, fun q i b hq => ?_⟩
  · by_cases hd : d = c
    · subst hd
      simp only [Spin.swtch, upd_same]
      exact ⟨(h.cpus d).noff, (h.cpus d).nonneg, (h.cpus d).off⟩
    · simp only [Spin.swtch, upd_other hd]
      exact h.cpus d
  · by_cases hqp : q = p
    · simp only [Spin.swtch, hqp, upd_same] at hq
      cases hq
      exact ((h.cpus c).off hn).2
    · simp only [Spin.swtch, upd_other hqp] at hq
      exact h.threads q i b hq

theorem Inv.sched {p : Nat} (h : Inv evs s) (ht : sched s c p = .ok t) :
    Inv (evs ++ [.sched c]) t := by
  obtain ⟨hnoff, ht⟩ := sched_cases ht
  have hone : 0 < unmatched c evs := by
    rw [← (h.cpus c).noff, hnoff]
    exact Int.one_pos
  exact (h.swtch hone p).release hone (fun _ => rfl) (fun _ => rfl) ht

theorem Inv.resume {p : Nat} (h : Inv evs s) (hl : s.lock (.proc p) = none)
    (ht : resume s c p = .ok t) : Inv (evs ++ [.resume c p]) t := by
  unfold Spin.resume at ht
  cases hu : Spin.acquire s c (.proc p) with
  | error msg =>
    rw [hu] at ht
    cases ht
  | ok u =>
    have hinv : Inv (evs ++ [.resume c p]) u := h.acquire hl (fun _ => rfl) (fun _ => rfl) hu
    rw [hu] at ht
    cases ht
    refine ⟨fun d => ?_, hinv.locks, fun q i b hq => ?_⟩
    · by_cases hd : d = c
      · subst hd
        have hok := hinv.cpus d
        simp only [upd_same]
        cases hth : s.thread p with
        | out i b =>
          exact ⟨hok.noff, hok.nonneg, fun hn => ⟨(hok.off hn).1, h.threads p i b hth⟩⟩
        | _ => exact ⟨hok.noff, hok.nonneg, hok.off⟩
      · simp only [upd_other hd]
        exact hinv.cpus d
    · by_cases hqp : q = p
      · simp only [hqp, upd_same] at hq
        cases hq
      · simp only [upd_other hqp] at hq
        exact hinv.threads q i b hq

theorem Inv.step (h : Inv evs s) (ho : Ordered evs e) (ht : step s e = some (.ok t)) :
    Inv (evs ++ [e]) t := by
  cases e with
  | pushOff c =>
    cases ht
    exact ⟨h.cpu_upd (h.cpus c).pushOff fun _ => rfl, h.same_locks fun _ => rfl, h.threads⟩
  | popOff c =>
    obtain ⟨y, hy, hok, -⟩ := (h.cpus c).popOff ho
    rw [Spin.step, hy] at ht
    cases ht
    exact ⟨h.cpu_upd hok fun _ => rfl, h.same_locks fun _ => rfl, h.threads⟩
  | acquire c l =>
    simp only [Spin.step, Option.ite_none_right_eq_some] at ht
    obtain ⟨hl | hl, ht⟩ := ht
    · exact h.acquire hl (fun _ => rfl) (fun _ => rfl) (Option.some.inj ht)
    · rw [Spin.acquire, if_pos hl] at ht
      cases ht
  | release c l => exact h.release ho (fun _ => rfl) (fun _ => rfl) (Option.some.inj ht)
  | setIntr c b =>
    cases ht
    have hz : unmatched c evs = 0 := ho
    refine ⟨h.cpu_upd (k := 0) ⟨?_, ?_, fun hn => ?_⟩ fun _ => by simp [Ev.nesting],
      h.same_locks fun _ => rfl, h.threads⟩
    · rw [Int.add_zero]
      exact (h.cpus c).noff
    · omega
    · omega
  | sched c =>
    obtain ⟨p, -, ht⟩ := Option.map_eq_some_iff.mp ht
    exact h.sched ht
  | resume c p =>
    simp only [Spin.step, Option.ite_none_right_eq_some] at ht
    exact h.resume ht.1.2.2.1 (Option.some.inj ht.2)
  | renew p =>
    simp only [Spin.step, Option.ite_none_right_eq_some] at ht
    obtain ⟨-, ht⟩ := ht
    cases ht
    refine ⟨fun d => ?_, h.same_locks fun _ => rfl, fun q i b hq => ?_⟩
    · simpa [Ev.nesting] using h.cpus d
    · by_cases hqp : q = p
      · simp only [hqp, upd_same] at hq
        cases hq
      · simp only [upd_other hqp] at hq
        exact h.threads q i b hq

theorem Run.inv {intr : Nat → Bool} (h : Run (boot intr) evs s) : Inv evs s := by
  induction h with
  | nil =>
    refine ⟨fun c => ⟨rfl, Int.le_refl 0, fun hn => absurd hn (by simp [unmatched])⟩, fun c => ?_,
      fun p i b hp => by cases hp⟩
    exact ⟨[], List.nodup_nil, by simp [boot], by simp [unmatched, bare]⟩
  | snoc _ ho ht ih => exact ih.step ho ht

/-- The panics of `pop_off`. -/
def popPanics : List String := ["pop_off - interruptible", "pop_off"]

theorem Inv.release_panics {l : Lock} {msg : String} (h : Inv evs s) (hn : 0 < unmatched c evs)
    (he : Spin.release s c l = .error msg) : msg ∉ popPanics := by
  unfold Spin.release at he
  split at he
  · cases he
    decide
  · obtain ⟨y, hy, -⟩ := (h.cpus c).popOff hn
    rw [hy] at he
    cases he

theorem Inv.panics {msg : String} (h : Inv evs s) (ho : Ordered evs e)
    (he : Spin.step s e = some (.error msg)) : msg ∉ popPanics := by
  cases e with
  | popOff c =>
    obtain ⟨y, hy, -⟩ := (h.cpus c).popOff ho
    rw [Spin.step, hy] at he
    cases he
  | release c l => exact h.release_panics ho (Option.some.inj he)
  | acquire c l =>
    simp only [Spin.step, Option.ite_none_right_eq_some, Spin.acquire] at he
    obtain ⟨-, he⟩ := he
    split at he
    · cases he
      decide
    · cases he
  | sched c =>
    obtain ⟨p, -, he⟩ := Option.map_eq_some_iff.mp he
    unfold Spin.sched at he
    split at he
    · cases he
      decide
    · split at he
      · cases he
        decide
      · rename_i hnoff
        have hone : 0 < unmatched c evs := by
          rw [← (h.cpus c).noff, not_not.mp hnoff]
          exact Int.one_pos
        split at he
        · cases he
          decide
        · exact (h.swtch hone p).release_panics hone he
  | resume c p =>
    simp only [Spin.step, Option.ite_none_right_eq_some, Option.some.injEq, Spin.resume,
      Spin.acquire] at he
    obtain ⟨⟨-, -, hl, -⟩, he⟩ := he
    rw [if_neg (by simp [hl])] at he
    cases he
  | pushOff c => cases he
  | setIntr c b => cases he
  | renew p =>
    simp only [Spin.step, Option.ite_none_right_eq_some] at he
    cases he.2

end

/-- In every state that the CPUs reach: `noff` is the number of unmatched pushes; while there is
one, and so while a lock is held, interrupts are off; `pop_off` does not panic; and the pop that
brings `noff` to 0 sets the flag that the thread found before its outermost push, also if the
thread has been switched to another CPU in between. -/
theorem interrupts_restored {intr : Nat → Bool} {evs : List Ev} {s : Sys}
    (h : Run (boot intr) evs s) :
    (∀ c, (s.cpu c).noff = unmatched c evs ∧ (0 < (s.cpu c).noff → (s.cpu c).intr = false) ∧
      ∀ l, s.lock l = some c → 0 ≤ bare c evs → (s.cpu c).intr = false) ∧
    (∀ p intena before, s.thread p = .out intena before → intena = before) ∧
    (∀ e, Ordered evs e → ∀ msg ∈ popPanics, step s e ≠ some (.error msg)) ∧
    ∀ c e, (e = .popOff c ∨ ∃ l, e = .release c l) → Ordered evs e → (s.cpu c).noff = 1 →
      ∀ t, step s e = some (.ok t) → (t.cpu c).noff = 0 ∧ (t.cpu c).intr = (s.cpu c).before := by
  have hinv := h.inv
  refine ⟨fun c => ⟨(hinv.cpus c).noff, fun hn => ?_, fun l hl hb => ?_⟩, hinv.threads, ?_, ?_⟩
  · rw [(hinv.cpus c).noff] at hn
    exact ((hinv.cpus c).off hn).1
  · obtain ⟨H, -, hH, hlen⟩ := hinv.locks c
    have hpos := List.length_pos_of_mem ((hH l).mpr hl)
    exact ((hinv.cpus c).off (by omega)).1
  · intro e ho msg hmsg he
    exact hinv.panics ho he hmsg
  · intro c e he ho hnoff t ht
    have hone : unmatched c evs = 1 := (hinv.cpus c).noff.symm.trans hnoff
    obtain ⟨y, hy, hok, hflag⟩ := (hinv.cpus c).popOff (by omega)
    have hcpu : t.cpu c = y := by
      rcases he with rfl | ⟨l, rfl⟩
      · rw [step, hy] at ht
        cases ht
        exact upd_same ..
      · obtain ⟨-, x, hx, rfl⟩ := release_cases (Option.some.inj ht)
        rw [hx] at hy
        cases hy
        exact upd_same ..
    rw [hcpu]
    exact ⟨by rw [hok.noff, hone]; rfl, hflag hone⟩

/-- Process 5 starts on CPU 0, takes a trap there and yields, and comes back on CPU 1. -/
def moved : List Ev :=
  [.resume 0 5, .release 0 (.proc 5), .setIntr 0 false, .acquire 0 (.proc 5), .sched 0,
    .resume 1 5]

/-- CPU 1 had interrupts on, but the process had not. -/
theorem interrupts_restored_moved :
    ∃ s, Run (boot fun _ => true) moved s ∧
      ∀ t, step s (.release 1 (.proc 5)) = some (.ok t) → (t.cpu 1).intr = false := by
  have h₁ : Run (boot fun _ => true) [.resume 0 5] _ :=
    .snoc (e := .resume 0 5) .nil trivial rfl
  have h₂ := h₁.snoc (e := .release 0 (.proc 5)) (by decide : (0 : Int) < unmatched 0 _) rfl
  have h₃ := h₂.snoc (e := .setIntr 0 false) (by decide : unmatched 0 _ = 0) rfl
  have h₄ := h₃.snoc (e := .acquire 0 (.proc 5)) trivial rfl
  have h₅ := h₄.snoc (e := .sched 0) trivial rfl
  have hrun : Run (boot fun _ => true) moved _ := h₅.snoc (e := .resume 1 5) trivial rfl
  refine ⟨_, hrun, fun t ht => ?_⟩
  exact ((interrupts_restored hrun).2.2.2 1 _ (.inr ⟨_, rfl⟩)
    (by decide : (0 : Int) < unmatched 1 moved) rfl t ht).2

end Xv6.Spin
