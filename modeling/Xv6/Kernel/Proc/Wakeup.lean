import Xv6.Kernel.Proc.Locks

/-! # No lost wakeup

`sleep` gives up the lock of its caller before the process is marked as asleep, and
holds `p->lock` in between. A sleeper counts as asleep from the moment it gives the lock
up: then no thread takes the lock, makes the condition true and passes the sleeper
in `wakeup` before it is marked, because `wakeup` waits for its `p->lock`.
-/

namespace Xv6.Procs

open Lib

section

variable {κ M ω Λ : Type}

/-! ## Waiters and wakers -/

/-- What the points of a code stand for in its use of a lock, a channel and a condition. -/
structure Roles (κ M : Type) where
  -- It holds the lock.
  inside : κ → Prop
  -- It may have made the condition true and has not called `wakeup` since.
  owes : κ → Prop
  -- It has called `wakeup` since it took the lock.
  woken : κ → Prop
  -- What it knows of the memory as long as it holds the lock.
  known : κ → M → Prop

namespace Roles

variable (r : Roles κ M)

/-- From `k` to `k'` nothing is done about the condition. -/
def Frame (k k' : κ) : Prop :=
  (r.owes k → r.owes k') ∧ (r.woken k' → r.woken k) ∧ ∀ m, r.known k m → r.known k' m

/-- The call fits its roles: the lock is not given up with a wakeup owed, `sleep` is called
with the condition known to be false, and the condition is only made true inside and by one
who owes or has done the wakeup. `T` are the answers of `killed` that count. -/
def Obeys (l : Λ) (a : Nat) (C : M → Prop) (T : κ → Bool → Prop) (k : κ) :
    Instr κ M ω Λ → Prop
  | .acquire _ k' | .setkilled k' | .trace _ k' => r.Frame k k'
  | .release l' k' => (l' = l → ¬ r.owes k) ∧ (l' ≠ l → r.Frame k k')
  | .access f => ∀ p x m, r.known k m →
      (C (f p x m).1 → r.owes (f p x m).2 ∨ r.woken k ∨ C m ∧ ¬ r.owes k) ∧
      (r.woken (f p x m).2 → r.woken k) ∧ r.known (f p x m).2 (f p x m).1
  | .killed f => ∀ b, T k b → r.Frame k (f b)
  | .sleep a' l' k' => (a' = a → l' = l ∧ ∀ m, r.known k m → ¬ C m) ∧
      (l' = l → ¬ r.owes k) ∧ ¬ r.woken k' ∧ ∀ m, r.known k' m
  | .wakeup a' k' => (a' ≠ a → (r.owes k → r.owes k') ∧ (r.woken k' → r.woken k)) ∧
      ∀ m, r.known k m → r.known k' m
  | _ => True

end Roles

/-- The code uses channel `a` under lock `l` for the condition `C`. -/
structure Discipline (code : κ → Instr κ M ω Λ) (l : Λ) (a : Nat) (C : M → Prop)
    (T : κ → Bool → Prop) (r : Roles κ M) : Prop where
  keeps : ∀ k, (code k).Keeps (.other l) r.inside (r.inside k)
  within : ∀ k, r.owes k ∨ r.woken k → r.inside k
  outside : ∀ k m, ¬ r.inside k → r.known k m
  obeys : ∀ k, r.Obeys l a C T k (code k)
  -- Whoever does not hold the lock makes the condition not true and what others know not false.
  stable : ∀ k f, code k = .access f → ¬ r.inside k → ∀ p x m,
    (C (f p x m).1 → C m) ∧ ∀ k', r.known k' m → r.known k' (f p x m).1

/-- The answers of `killed` in the step are among those that count. -/
def Answers (code : κ → Instr κ M ω Λ) (T : κ → Bool → Prop) (s : Sys κ M Λ) (e : Ev ω) :
    Prop :=
  ∀ c x ok i k f, e = .run c x ok → (s.cpu c).pc = .process i → s.pc i = .run k →
    code k = .killed f → T k (s.proc i).killed

/-! ## The invariant -/

/-- The process sleeps on `a`, or has given up its lock to do so. -/
def Asleep (a : Nat) (s : Sys κ M Λ) (p : Nat) : Prop :=
  (∃ l next, s.pc p = .sleepSet (.addr a) l next) ∨
    (s.proc p).state = .sleeping ∧ (s.proc p).chan = some (.addr a)

namespace Pc

variable (r : Roles κ M) (l : Λ) (a : Nat) (C : M → Prop)

def Covers (p : Nat) : Pc κ Λ → Prop
  | run k => r.owes k
  | wake ch j next =>
      if ch = some (.addr a) then next.holds (.other l) r.inside ∧ j ≤ p else next.Covers p
  | _ => False

/-- A thread inside has passed process `p` in `wakeup` of `a`. -/
def Passed (p : Nat) : Pc κ Λ → Prop
  | run k => r.woken k
  | wake ch j next =>
      if ch = some (.addr a) then next.holds (.other l) r.inside ∧ p < j else next.Passed p
  | _ => False

/-- What a thread inside knows is so; who goes to sleep on `a` knows the condition false. -/
def Knows (m : M) : Pc κ Λ → Prop
  | run k => r.known k m
  | wake _ _ next => next.Knows m
  | sleepAcquire ch _ _ | sleepRelease ch _ _ => ch = .addr a → ¬ C m
  | _ => True

/-- Who sleeps on `a` gives up `l`, and knows nothing of the condition afterwards. -/
def SleepWf : Pc κ Λ → Prop
  | sleepAcquire ch l' next | sleepRelease ch l' next | sleepSet ch l' next =>
      (ch = .addr a → l' = .other l) ∧ (∀ p, ¬ next.Passed r l a p) ∧ ∀ m, next.Knows r a C m
  | sleepTidy _ next | relock _ next =>
      (∀ p, ¬ next.Passed r l a p) ∧ ∀ m, next.Knows r a C m
  | sched next | yieldAcquire next | yieldRelease next | wake _ _ next => next.SleepWf
  | _ => True

end Pc

structure WakeInv (r : Roles κ M) (l : Λ) (a : Nat) (C : M → Prop) (s : Sys κ M Λ) : Prop where
  sched : SchedInv s
  lock : LockInv (.other l) r.inside s
  bounded : Bounded s
  wf : ∀ i, (s.pc i).SleepWf r l a C
  asleep : ∀ p, Asleep a s p → C s.mem → ∃ h, (s.pc h).Covers r l a p
  passed : ∀ h p, (s.pc h).Passed r l a p → ¬ Asleep a s p
  knows : ∀ h, (s.pc h).Knows r a C s.mem

variable {s t : Sys κ M Λ} {c i : Nat} {r : Roles κ M} {l : Λ} {a : Nat} {C : M → Prop}
  {code : κ → Instr κ M ω Λ} {T : κ → Bool → Prop}

theorem Discipline.covers_holds (d : Discipline code l a C T r) {pc : Pc κ Λ} {p : Nat}
    (h : pc.Covers r l a p) : pc.holds (.other l) r.inside := by
  induction pc with
  | run k => exact d.within k (.inl h)
  | wake ch j next ih =>
    rw [Pc.Covers] at h
    split at h
    · exact h.1
    · exact ih h
  | _ => exact h.elim

theorem Discipline.passed_holds (d : Discipline code l a C T r) {pc : Pc κ Λ} {p : Nat}
    (h : pc.Passed r l a p) : pc.holds (.other l) r.inside := by
  induction pc with
  | run k => exact d.within k (.inr h)
  | wake ch j next ih =>
    rw [Pc.Passed] at h
    split at h
    · exact h.1
    · exact ih h
  | _ => exact h.elim

theorem Discipline.outside_knows (d : Discipline code l a C T r) {pc : Pc κ Λ} (m : M)
    (hn : ¬ pc.holds (.other l) r.inside) (hwf : pc.SleepWf r l a C) : pc.Knows r a C m := by
  induction pc with
  | run k => exact d.outside k m hn
  | wake ch j next ih => exact ih hn hwf
  | sleepAcquire ch l' next => exact fun hch => absurd (hwf.1 hch) hn
  | sleepRelease ch l' next => exact fun hch => absurd (hwf.1 hch) hn
  | _ => trivial

/-- What is known stays known if the memory changes for no point and not to the condition. -/
theorem Pc.Knows.stable {pc : Pc κ Λ} {m m' : M} (h : pc.Knows r a C m)
    (hknown : ∀ k, r.known k m → r.known k m') (hC : C m' → C m) : pc.Knows r a C m' := by
  induction pc with
  | run k => exact hknown k h
  | wake ch j next ih => exact ih h
  | sleepAcquire ch l' next => exact fun hch => mt hC (h hch)
  | sleepRelease ch l' next => exact fun hch => mt hC (h hch)
  | _ => trivial

/-! ## Steps -/

/-- A point that has nothing to do with the condition. -/
structure Pc.Apart (r : Roles κ M) (l : Λ) (a : Nat) (C : M → Prop) (pc : Pc κ Λ) : Prop where
  covers : ∀ p, ¬ pc.Covers r l a p
  passed : ∀ p, ¬ pc.Passed r l a p
  knows : ∀ m, pc.Knows r a C m
  wf : pc.SleepWf r l a C

/-- A thread moves on; nobody falls asleep and the condition stays. -/
theorem WakeInv.own_step (h : WakeInv r l a C s) (i : Nat) (hsched : SchedInv t)
    (hlock : LockInv (.other l) r.inside t) (hbound : Bounded t)
    (hpc : ∀ q, q ≠ i → t.pc q = s.pc q ∨ (t.pc q).Apart r l a C ∧ (s.pc q).Apart r l a C)
    (hwf : (t.pc i).SleepWf r l a C) (hmem : t.mem = s.mem)
    (hsleep : ∀ p, Asleep a t p → Asleep a s p)
    (hcov : ∀ p, Asleep a t p → (s.pc i).Covers r l a p → (t.pc i).Covers r l a p)
    (hpass : ∀ p, Asleep a t p → (t.pc i).Passed r l a p → (s.pc i).Passed r l a p)
    (hknow : (s.pc i).Knows r a C s.mem → (t.pc i).Knows r a C s.mem) : WakeInv r l a C t := by
  refine ⟨hsched, hlock, hbound, fun q => ?_, fun p hp hC => ?_, fun q p hq hp => ?_,
    fun q => ?_⟩
  · by_cases hqi : q = i
    · exact hqi ▸ hwf
    · rcases hpc q hqi with heq | ⟨ha, -⟩
      · exact heq ▸ h.wf q
      · exact ha.wf
  · rw [hmem] at hC
    obtain ⟨q, hq⟩ := h.asleep p (hsleep p hp) hC
    by_cases hqi : q = i
    · subst hqi
      exact ⟨q, hcov p hp hq⟩
    · rcases hpc q hqi with heq | ⟨-, ha⟩
      · exact ⟨q, heq ▸ hq⟩
      · exact absurd hq (ha.covers p)
  · have hs : (s.pc q).Passed r l a p := by
      by_cases hqi : q = i
      · subst hqi
        exact hpass p hp hq
      · rcases hpc q hqi with heq | ⟨ha, -⟩
        · exact heq ▸ hq
        · exact absurd hq (ha.passed p)
    exact h.passed q p hs (hsleep p hp)
  · rw [hmem]
    by_cases hqi : q = i
    · subst hqi
      exact hknow (h.knows q)
    · rcases hpc q hqi with heq | ⟨ha, -⟩
      · exact heq ▸ h.knows q
      · exact ha.knows s.mem

/-- A thread on a CPU that holds no lock of its own process is not asleep. -/
theorem SchedInv.not_asleep (h : SchedInv s) (hc : (s.cpu c).pc = .process i)
    (ho : (s.pc i).own = false) : ¬ Asleep a s i := by
  have hrun := (h.at_process hc).2.1
  rw [Pc.mode_of_not_own ho] at hrun
  intro hs
  rcases hs with ⟨l, next, hpc⟩ | ⟨hsl, -⟩
  · simp [hpc, Pc.own] at ho
  · simp [hrun] at hsl

/-- Whoever is found asleep under a free lock is marked as such. -/
theorem SchedInv.asleep_marked {j : Nat} (h : SchedInv s) (hl : (s.proc j).lock = none)
    (hs : Asleep a s j) : (s.proc j).state = .sleeping ∧ (s.proc j).chan = some (.addr a) := by
  rcases hs with ⟨l', next, hpc⟩ | hs
  · by_cases hon : ∃ c, (s.cpu c).proc = some j
    · obtain ⟨c, hc⟩ := hon
      simp [h.own_locked hc (by rw [hpc]; rfl)] at hl
    · have := h.parked j (not_exists.mp hon)
      cases hst : (s.proc j).state <;> simp [hpc, hst, Pc.Parks] at this
  · exact hs

theorem SchedInv.asleep_in_table {p : Nat} (h : SchedInv s) (hb : Bounded s)
    (hp : Asleep a s p) : p < nProc := by
  apply hb
  intro hu
  rcases hp with ⟨l', next, hpc⟩ | ⟨hsl, -⟩
  · by_cases hon : ∃ c, (s.cpu c).proc = some p
    · obtain ⟨c, hc⟩ := hon
      rcases h.locks p c (h.own_locked hc (by rw [hpc]; rfl)) with hd | hd | hd |
        ⟨hd, -⟩ | ⟨q, hd, hq⟩
      all_goals have hok := h.cpus c
      all_goals rw [CpuOk, hd] at hok
      · simp [hu] at hok
      · simp [hpc, hu, Pc.Parks] at hok
      · simp [hpc, hu, Pc.Parks] at hok
      · exact (Pc.mode_live _).1 (hok.2.1.symm.trans hu)
      · rw [hok.1, Option.some.injEq] at hc
        simp [hc, hpc, Pc.allocs] at hq
    · have := h.parked p (not_exists.mp hon)
      simp [hpc, hu, Pc.Parks] at this
  · simp [hu] at hsl

variable [Fintype Λ] [DecidableEq Λ]

theorem Asleep.of_proc {p : Nat} (h : Asleep a t p) (hpc : ∀ l next,
      t.pc p = .sleepSet (.addr a) l next → s.pc p = .sleepSet (.addr a) l next)
    (hproc : (t.proc p).state = .sleeping → (t.proc p).chan = some (.addr a) →
      Asleep a s p) : Asleep a s p := by
  rcases h with ⟨l, next, hp⟩ | ⟨hs, hc⟩
  · exact .inl ⟨l, next, hpc l next hp⟩
  · exact hproc hs hc

/-- Only `sleep` puts a process to sleep, and it does so when it gives its lock up. -/
theorem SchedInv.thread_asleep {ok : Bool} {p : Nat} (h : SchedInv s)
    (hc : (s.cpu c).pc = .process i) (ht : Thread s c i ok t)
    (hn : ∀ ch l' next, s.pc i ≠ .sleepRelease ch l' next) (hp : Asleep a t p) :
    Asleep a s p := by
  refine hp.of_proc (fun l₁ next₁ heq => ?_) fun hst hch => ?_
  · by_cases hpi : p = i
    · subst hpi
      exact absurd heq (h.thread_sleepSet hc ht hn)
    · cases ht with
      | @forkAlloc j k child hpc =>
        by_cases hpj : p = j
        · simp [hpj] at heq
          simp_all
        · simpa [hpi, hpj] using heq
      | _ => simpa [hpi] using heq
  · by_cases hsame : (t.proc p).state = (s.proc p).state ∧ (t.proc p).chan = (s.proc p).chan
    · exact .inr ⟨hsame.1 ▸ hst, hsame.2 ▸ hch⟩
    · cases ht with
      | @sleepSet _ ch l₁ next₁ hpc =>
        by_cases hpi : p = i
        · subst hpi
          simp only [Sys.setPc_proc, Sys.setProc_proc, if_true, Option.some.injEq] at hch
          exact .inl ⟨l₁, next₁, hch ▸ hpc⟩
        · exact absurd (by simp [hpi]) hsame
      | @wake _ ch j next hpc hj hji hl =>
        by_cases hpj : p = j
        · subst hpj
          simp only [Sys.setPc_proc, Sys.setProc_proc, if_true, wakeOne] at hst hsame
          split at hst
          · simp at hst
          · simp_all
        · exact absurd (by simp [hpj]) hsame
      | @kill _ pid j k hpc hj hl hpid =>
        by_cases hpj : p = j
        · subst hpj
          simp only [Sys.setPc_proc, Sys.setProc_proc, if_true, killOne] at hst hsame
          split at hst <;> simp_all
        · exact absurd (by simp [hpj]) hsame
      | _ =>
        simp only [Sys.setPc_proc, Sys.setProc_proc, Sys.setLock_proc, Sys.setCpu_proc] at hst hsame
        try split at hst
        all_goals simp_all [freeproc]

theorem Discipline.apart (d : Discipline code l a C T r) {pc : Pc κ Λ}
    (hn : ¬ pc.holds (.other l) r.inside) (hwf : pc.SleepWf r l a C) : pc.Apart r l a C where
  covers _ h := hn (d.covers_holds h)
  passed _ h := hn (d.passed_holds h)
  knows m := d.outside_knows m hn hwf
  wf := hwf

theorem Pc.Returns.sleepWf {pc : Pc κ Λ} (h : pc.Returns) : pc.SleepWf r l a C := by
  cases pc <;> simp_all [Pc.Returns, Pc.SleepWf]

/-- A thread that does not owe a wakeup moves on to a point outside. -/
theorem WakeInv.outside_step (d : Discipline code l a C T r) (h : WakeInv r l a C s) (i : Nat)
    (hsched : SchedInv t) (hlock : LockInv (.other l) r.inside t) (hbound : Bounded t)
    (hpcs : ∀ q, q ≠ i → t.pc q = s.pc q) (hcov : ∀ p, ¬ (s.pc i).Covers r l a p)
    (hout : ¬ (t.pc i).holds (.other l) r.inside) (hwf : (t.pc i).SleepWf r l a C)
    (hmem : t.mem = s.mem) (hsleep : ∀ p, Asleep a t p → Asleep a s p) : WakeInv r l a C t := by
  have hap := d.apart hout hwf
  exact h.own_step i hsched hlock hbound (fun q hq => .inl (hpcs q hq)) hwf hmem hsleep
    (fun p _ hp => absurd hp (hcov p)) (fun p _ hp => absurd hp (hap.passed p))
    fun _ => hap.knows s.mem

/-- `sleep` gives up the lock: from here on the process counts as asleep. -/
theorem WakeInv.sleepRelease_step (d : Discipline code l a C T r) (h : WakeInv r l a C s)
    {ch : Chan} {l' : Lock Λ} {next : Pc κ Λ} (hpc : s.pc i = .sleepRelease ch l' next)
    (ht : t = (s.setLock l' none).setPc i (.sleepSet ch l' next)) (hsched : SchedInv t)
    (hlock : LockInv (.other l) r.inside t) (hbound : Bounded t) : WakeInv r l a C t := by
  have hwf := h.wf i
  rw [hpc] at hwf
  have hpcs : ∀ q, q ≠ i → t.pc q = s.pc q := fun q hq => by simp [ht, hq]
  have hpci : t.pc i = .sleepSet ch l' next := by simp [ht]
  have hmem : t.mem = s.mem := by rw [ht]; rfl
  have hsleep : ∀ p, Asleep a t p → Asleep a s p ∨ p = i ∧ ch = .addr a := by
    intro p hp
    by_cases hpi : p = i
    · subst hpi
      rcases hp with ⟨l₁, next₁, heq⟩ | hp
      · rw [hpci, Pc.sleepSet.injEq] at heq
        exact .inr ⟨rfl, heq.1⟩
      · exact .inl (.inr (by simpa [ht] using hp))
    · rcases hp with ⟨l₁, next₁, heq⟩ | hp
      · exact .inl (.inl ⟨l₁, next₁, hpcs p hpi ▸ heq⟩)
      · exact .inl (.inr (by simpa [ht] using hp))
  refine ⟨hsched, hlock, hbound, fun q => ?_, fun p hp hC => ?_, fun q p hq hp => ?_,
    fun q => ?_⟩
  · by_cases hqi : q = i
    · subst hqi
      rw [hpci]
      exact hwf
    · exact hpcs q hqi ▸ h.wf q
  · rw [hmem] at hC
    rcases hsleep p hp with hps | ⟨-, hch⟩
    · obtain ⟨q, hq⟩ := h.asleep p hps hC
      have hqi : q ≠ i := by
        rintro rfl
        simp [hpc, Pc.Covers] at hq
      exact ⟨q, (hpcs q hqi).symm ▸ hq⟩
    · have hknow := h.knows i
      rw [hpc] at hknow
      exact absurd hC (hknow hch)
  · have hqi : q ≠ i := by
      rintro rfl
      simp [hpci, Pc.Passed] at hq
    rw [hpcs q hqi] at hq
    rcases hsleep p hp with hps | ⟨-, hch⟩
    · exact h.passed q p hq hps
    · refine hqi (h.lock.unique (d.passed_holds hq) ?_)
      rw [hpc]
      exact hwf.1 hch
  · rw [hmem]
    by_cases hqi : q = i
    · rw [hqi, hpci]
      trivial
    · exact hpcs q hqi ▸ h.knows q

/-- `wakeup` goes on to the next entry; nobody is asleep in the one it leaves. -/
theorem WakeInv.wake_step (h : WakeInv r l a C s) {ch : Option Chan} {j : Nat} {next : Pc κ Λ}
    (hsched : SchedInv t) (hlock : LockInv (.other l) r.inside t) (hbound : Bounded t)
    (hpcs : ∀ q, q ≠ i → t.pc q = s.pc q) (hpc : s.pc i = .wake ch j next)
    (hpci : t.pc i = .wake ch (j + 1) next) (hmem : t.mem = s.mem)
    (hsleep : ∀ p, Asleep a t p → Asleep a s p)
    (hj : ∀ p, Asleep a t p → ch = some (.addr a) → p ≠ j) : WakeInv r l a C t := by
  have hwf := h.wf i
  refine h.own_step i hsched hlock hbound (fun q hq => .inl (hpcs q hq))
    (by rw [hpci]; rwa [hpc] at hwf) hmem hsleep (fun p hp hcov => ?_) (fun p hp hpass => ?_)
    (by rw [hpc, hpci]; exact id)
  · rw [hpc, Pc.Covers] at hcov
    rw [hpci, Pc.Covers]
    split at hcov
    · rename_i hch
      have hne := hj p hp hch
      rw [if_pos hch]
      exact ⟨hcov.1, by omega⟩
    · rename_i hch
      rwa [if_neg hch]
  · rw [hpci, Pc.Passed] at hpass
    rw [hpc, Pc.Passed]
    split at hpass
    · rename_i hch
      have hne := hj p hp hch
      rw [if_pos hch]
      exact ⟨hpass.1, by omega⟩
    · rename_i hch
      rwa [if_neg hch]

theorem WakeInv.thread_step {ok : Bool} (d : Discipline code l a C T r) (h : WakeInv r l a C s)
    (hc : (s.cpu c).pc = .process i) (ht : Thread s c i ok t) (hsched : SchedInv t)
    (hlock : LockInv (.other l) r.inside t) (hbound : Bounded t) : WakeInv r l a C t := by
  by_cases hrel : ∃ ch l' next, s.pc i = .sleepRelease ch l' next
  · obtain ⟨ch, l', next, hpc⟩ := hrel
    cases ht with
    | @sleepRelease _ ch₁ l₁ next₁ hpc₁ hl =>
      exact h.sleepRelease_step d hpc₁ rfl hsched hlock hbound
    | _ => simp_all
  have hsleep : ∀ p, Asleep a t p → Asleep a s p := fun p =>
    h.sched.thread_asleep hc ht fun ch l' next hpc => hrel ⟨ch, l', next, hpc⟩
  have hown := h.sched.at_process hc
  have hwf := h.wf i
  have hlwf := h.lock.wf i
  have hwfi := h.sched.wf i
  cases ht with
  | sleepRelease hpc => exact absurd ⟨_, _, _, hpc⟩ hrel
  | @relock _ l' next hpc hl =>
    rw [hpc] at hwf hwfi
    exact h.own_step i hsched hlock hbound (fun q hq => .inl (by simp [hq]))
      (by simpa using Pc.Returns.sleepWf hwfi) rfl hsleep (by simp [hpc, Pc.Covers])
      (fun p _ hp => absurd (by simpa using hp) (hwf.1 p))
      (fun _ => by simpa using hwf.2 s.mem)
  | @sched _ next hpc hl hlocks hnr =>
    rw [hpc] at hwf hlwf
    exact h.outside_step d i hsched hlock hbound (fun q hq => by simp [hq])
      (by simp [hpc, Pc.Covers]) (by simpa using hlwf.2)
        (by simpa [Pc.SleepWf] using hwf) rfl hsleep
  | @yieldRelease _ next hpc =>
    rw [hpc] at hwf hlwf
    exact h.outside_step d i hsched hlock hbound (fun q hq => by simp [hq])
      (by simp [hpc, Pc.Covers]) (by simpa using hlwf.2)
        (by simpa [Pc.SleepWf] using hwf) rfl hsleep
  | @forkAlloc j k child hpc =>
    obtain ⟨-, hdead, -⟩ := h.sched.allocs i j (by rw [hpc]; rfl)
    refine h.own_step i hsched hlock hbound (fun q hq => ?_) (by simp [Pc.SleepWf]) rfl hsleep
      (by simp [hpc, Pc.Covers]) (by simp [Pc.Passed]) (by simp [Pc.Knows])
    by_cases hqj : q = j
    · subst hqj
      refine .inr ⟨⟨?_, ?_, ?_, ?_⟩, ⟨?_, ?_, ?_, ?_⟩⟩ <;>
        simp [hq, hdead, Pc.Covers, Pc.Passed, Pc.Knows, Pc.SleepWf]
    · exact .inl (by simp [hq, hqj])
  | @wakeSelf _ ch next hpc hj =>
    refine h.wake_step hsched hlock hbound (fun q hq => by simp [hq]) hpc (by simp) rfl hsleep
      fun p hp _ hpi => ?_
    subst hpi
    exact h.sched.not_asleep hc (by rw [hpc]; rfl) (hsleep p hp)
  | @wake _ ch j next hpc hj hji hl =>
    refine h.wake_step hsched hlock hbound (fun q hq => by simp [hq]) hpc (by simp) rfl hsleep
      fun p hp hch hpj => ?_
    subst hpj hch
    obtain ⟨hst, hcn⟩ := h.sched.asleep_marked hl (hsleep p hp)
    obtain ⟨hst', -⟩ := hsched.asleep_marked (by simp [wakeOne, hst, hcn, hl]) hp
    simp [wakeOne, hst, hcn] at hst'
  | @wakeEnd _ ch j next hpc hj =>
    rw [hpc] at hwfi
    refine h.own_step i hsched hlock hbound (fun q hq => .inl (by simp [hq]))
      (by simpa using Pc.Returns.sleepWf hwfi) rfl hsleep (fun p hp hcov => ?_)
      (fun p hp hpass => ?_) (by simp [hpc, Pc.Knows])
    · have hlt := h.sched.asleep_in_table h.bounded (hsleep p hp)
      rw [hpc, Pc.Covers] at hcov
      split at hcov
      · exact absurd hcov.2 (by omega)
      · simpa using hcov
    · have hlt := h.sched.asleep_in_table h.bounded (hsleep p hp)
      simp only [Sys.setPc_pc, if_true] at hpass
      rw [hpc, Pc.Passed]
      split
      · exact ⟨d.passed_holds hpass, by omega⟩
      · exact hpass
  | @sleepAcquire _ ch l' next hpc hl =>
    rw [hpc] at hwf
    exact h.own_step i hsched hlock hbound (fun q hq => .inl (by simp [hq]))
      (by simpa [Pc.SleepWf] using hwf) rfl hsleep (by simp [hpc, Pc.Covers]) (by simp [Pc.Passed])
      (by simp [hpc, Pc.Knows])
  | _ =>
    rw [‹s.pc i = _›] at hwf hlwf
    refine h.outside_step d i hsched hlock hbound (fun q hq => by simp [hq]) ?_ ?_ ?_ rfl hsleep
    · simp_all [Pc.Covers]
    · simp_all [Pc.LockWf, Pc.holds]
    · simp_all [Pc.SleepWf, Pc.Passed, Pc.Knows]

theorem Call.asleep {x : ω} {instr : Instr κ M ω Λ} {p : Nat} (h : Call s c i x instr t)
    (hp : Asleep a t p) : Asleep a s p := by
  refine hp.of_proc (fun l₁ next₁ heq => ?_) fun hst hch => .inr ?_
  · by_cases hpi : p = i
    · subst hpi
      cases h <;> simp at heq
    · exact h.quiet.2.2.1 p hpi ▸ heq
  · cases h with
    | setkilled hl => by_cases hpi : p = i <;> simp_all
    | trace => by_cases hpi : p = i <;> simp_all
    | _ => exact ⟨hst, hch⟩

theorem WakeInv.frame_step {k k' : κ} (h : WakeInv r l a C s) (hsched : SchedInv t)
    (hlock : LockInv (.other l) r.inside t) (hbound : Bounded t)
    (hpcs : ∀ q, q ≠ i → t.pc q = s.pc q) (hk : s.pc i = .run k) (hk' : t.pc i = .run k')
    (hmem : t.mem = s.mem) (hsleep : ∀ p, Asleep a t p → Asleep a s p) (hf : r.Frame k k') :
    WakeInv r l a C t := by
  refine h.own_step i hsched hlock hbound (fun q hq => .inl (hpcs q hq)) ?_ hmem hsleep ?_ ?_ ?_
  all_goals rw [hk']
  · trivial
  all_goals rw [hk]
  · exact fun p _ => hf.1
  · exact fun p _ => hf.2.1
  · exact hf.2.2 s.mem

/-- A read or write of the memory that the condition is about. -/
theorem WakeInv.access_step {k : κ} {x : ω} {f : Nat → ω → M → M × κ}
    (d : Discipline code l a C T r) (h : WakeInv r l a C s) (hk : s.pc i = .run k)
    (hcode : code k = .access f)
    (ht : t = { s with mem := (f i x s.mem).1 }.setPc i (.run (f i x s.mem).2))
    (hsched : SchedInv t) (hlock : LockInv (.other l) r.inside t) (hbound : Bounded t) :
    WakeInv r l a C t := by
  have hobeys := d.obeys k
  rw [hcode] at hobeys
  have hki := h.knows i
  rw [hk] at hki
  obtain ⟨hmake, hwoken, hknown⟩ := hobeys i x s.mem hki
  have hpcs : ∀ q, q ≠ i → t.pc q = s.pc q := fun q hq => by simp [ht, hq]
  have hpci : t.pc i = .run (f i x s.mem).2 := by simp [ht]
  have hmem : t.mem = (f i x s.mem).1 := by simp [ht]
  have hsleep : ∀ p, Asleep a t p → Asleep a s p := by
    intro p hp
    refine hp.of_proc (fun l₁ next₁ heq => ?_) fun hst hch => .inr ?_
    · by_cases hpi : p = i
      · subst hpi
        simp [hpci] at heq
      · exact hpcs p hpi ▸ heq
    · simpa [ht] using And.intro hst hch
  refine ⟨hsched, hlock, hbound, fun q => ?_, fun p hp hC => ?_, fun q p hq hp => ?_,
    fun q => ?_⟩
  · by_cases hqi : q = i
    · subst hqi
      rw [hpci]
      trivial
    · exact hpcs q hqi ▸ h.wf q
  · rw [hmem] at hC
    rcases hmake hC with ho | hw | ⟨hCs, ho⟩
    · exact ⟨i, by rw [hpci]; exact ho⟩
    · exact absurd (hsleep p hp) (h.passed i p (by rw [hk]; exact hw))
    · obtain ⟨q, hq⟩ := h.asleep p (hsleep p hp) hCs
      have hqi : q ≠ i := by
        rintro rfl
        rw [hk] at hq
        exact ho hq
      exact ⟨q, (hpcs q hqi).symm ▸ hq⟩
  · refine h.passed q p ?_ (hsleep p hp)
    by_cases hqi : q = i
    · subst hqi
      rw [hpci] at hq
      rw [hk]
      exact hwoken hq
    · exact hpcs q hqi ▸ hq
  · rw [hmem]
    by_cases hqi : q = i
    · rw [hqi, hpci]
      exact hknown
    · rw [hpcs q hqi]
      by_cases hin : r.inside k
      · refine d.outside_knows _ (fun hq => hqi (h.lock.unique hq ?_)) (h.wf q)
        rw [hk]
        exact hin
      · obtain ⟨hC, hstable⟩ := d.stable k f hcode hin i x s.mem
        exact (h.knows q).stable hstable hC

theorem WakeInv.call_step {k : κ} {x : ω} (d : Discipline code l a C T r)
    (h : WakeInv r l a C s) (hk : s.pc i = .run k) (hans : ∀ f, code k = .killed f →
      T k (s.proc i).killed) (ht : Call s c i x (code k) t) (hsched : SchedInv t)
    (hlock : LockInv (.other l) r.inside t) (hbound : Bounded t) : WakeInv r l a C t := by
  have hkeeps := d.keeps k
  have hobeys := d.obeys k
  have hsleep : ∀ p, Asleep a t p → Asleep a s p := fun p => ht.asleep
  have hpcs := ht.quiet.2.2.1
  have howes : ¬ r.inside k → ∀ p, ¬ (s.pc i).Covers r l a p := by
    intro hn p hp
    rw [hk] at hp
    exact hn (d.within k (.inl hp))
  generalize hcode : code k = instr at *
  cases ht with
  | acquire hl =>
    exact h.frame_step hsched hlock hbound hpcs hk (by simp) rfl hsleep hobeys
  | @release l' k' hl =>
    by_cases hll : l' = l
    · refine h.outside_step d i hsched hlock hbound hpcs (fun p hp => ?_) ?_ (by simp [Pc.SleepWf])
        rfl hsleep
      · rw [hk] at hp
        exact hobeys.1 hll hp
      · simpa [Pc.holds] using fun hin => (hkeeps.mp hin).2 (by rw [hll])
    · exact h.frame_step hsched hlock hbound hpcs hk (by simp) rfl hsleep (hobeys.2 hll)
  | access => exact h.access_step d hk hcode rfl hsched hlock hbound
  | killed hl =>
    exact h.frame_step hsched hlock hbound hpcs hk (by simp) rfl hsleep (hobeys _ (hans _ rfl))
  | @sleep a' l' k' =>
    obtain ⟨hch, howe, hwoken, hknown⟩ := hobeys
    refine h.own_step i hsched hlock hbound (fun q hq => .inl (hpcs q hq)) ?_ rfl hsleep
      (fun p _ hp => ?_) (by simp [Pc.Passed]) (fun hknow => ?_)
    · simp only [Sys.setPc_pc, if_true, Pc.SleepWf, Chan.addr.injEq, Lock.other.injEq]
      exact ⟨fun heq => (hch heq).1, fun _ => hwoken, hknown⟩
    · by_cases hll : l' = l
      · rw [hk] at hp
        exact absurd hp (howe hll)
      · exact absurd hp (howes (by simpa [hkeeps.1] using hll) p)
    · rw [hk] at hknow
      simpa [Pc.Knows] using fun heq => (hch heq).2 s.mem hknow
  | @wakeup a' k' =>
    obtain ⟨hother, hknown⟩ := hobeys
    refine h.own_step i hsched hlock hbound (fun q hq => .inl (hpcs q hq)) (by simp [Pc.SleepWf])
      rfl hsleep (fun p _ hp => ?_) (fun p _ hp => ?_) ?_
    · rw [hk] at hp
      by_cases haa : a' = a
      · simpa [Pc.Covers, haa, Pc.holds] using hkeeps.mpr (d.within k (.inl hp))
      · simpa [Pc.Covers, haa] using (hother haa).1 hp
    · rw [hk]
      by_cases haa : a' = a
      · simp [Pc.Passed, haa] at hp
      · exact (hother haa).2 (by simpa [Pc.Passed, haa] using hp)
    · rw [hk]
      simpa [Pc.Knows] using hknown s.mem
  | setkilled hl =>
    exact h.frame_step hsched hlock hbound hpcs hk (by simp) rfl hsleep hobeys
  | trace =>
    exact h.frame_step hsched hlock hbound hpcs hk (by simp) rfl hsleep hobeys
  | _ =>
    refine h.outside_step d i hsched hlock hbound hpcs (howes ?_) ?_ ?_ rfl hsleep
    · simp_all [Instr.Keeps]
    · simp [Pc.holds]
    · simp [Pc.SleepWf]

theorem WakeInv.table_step (h : WakeInv r l a C s) (hsched : SchedInv t)
    (hlock : LockInv (.other l) r.inside t) (hbound : Bounded t) (hpc : t.pc = s.pc)
    (hmem : t.mem = s.mem) (hproc : ∀ p, (t.proc p).state = .sleeping →
      (s.proc p).state = .sleeping ∧ (t.proc p).chan = (s.proc p).chan) :
    WakeInv r l a C t := by
  have hsleep : ∀ p, Asleep a t p → Asleep a s p := by
    intro p hp
    refine hp.of_proc (fun l₁ next₁ heq => hpc ▸ heq) fun hst hch => .inr ?_
    obtain ⟨hs, hc⟩ := hproc p hst
    exact ⟨hs, hc ▸ hch⟩
  refine ⟨hsched, hlock, hbound, ?_, fun p hp hC => ?_, fun q p hq hp => ?_, fun q => ?_⟩
  · rw [hpc]
    exact h.wf
  · rw [hpc]
    exact h.asleep p (hsleep p hp) (hmem ▸ hC)
  · exact h.passed q p (hpc ▸ hq) (hsleep p hp)
  · rw [hmem, hpc]
    exact h.knows q

theorem WakeInv.step {e : Ev ω} (d : Discipline code l a C T r) (h : WakeInv r l a C s)
    (hans : Answers code T s e) (hst : Step code s e t) : WakeInv r l a C t := by
  have hsched := h.sched.step hst
  have hlock := h.lock.step h.sched d.keeps hst
  have hbound := h.bounded.step h.sched hst
  cases hst with
  | @instr c i x ok k t hc hpc hi =>
    exact h.call_step d hpc (fun f hf => hans c x ok i k f rfl hc hpc hf) hi hsched hlock hbound
  | thread hc ht => exact h.thread_step d hc ht hsched hlock hbound
  | @tick c i hc hl hlocks =>
    have hout : ¬ (s.pc i).holds (.other l) r.inside := by
      have hwf := hlock.wf i
      simp only [Sys.setPc_pc, if_true] at hwf
      exact hwf.2
    refine h.outside_step d i hsched hlock hbound (fun q hq => by simp [hq])
      (d.apart hout (h.wf i)).covers (by simp [Pc.holds]) (by simpa [Pc.SleepWf] using h.wf i) rfl
      fun p hp => hp.of_proc (fun l₁ next₁ heq => ?_) fun hst hch => .inr ⟨hst, hch⟩
    by_cases hpi : p = i
    · simp [hpi] at heq
    · simpa [hpi] using heq
  | @dispatch c i hc hl hr =>
    refine h.table_step hsched hlock hbound rfl rfl fun p hp => ?_
    by_cases hpi : p = i <;> simp_all
  | @release c i hc =>
    refine h.table_step hsched hlock hbound rfl rfl fun p hp => ?_
    by_cases hpi : p = i <;> simp_all
  | @intr q hl hsl =>
    refine h.table_step hsched hlock hbound rfl rfl fun p hp => ?_
    by_cases hpq : p = q <;> simp_all
  | _ => exact h.table_step hsched hlock hbound rfl rfl fun p hp => ⟨hp, rfl⟩

theorem WakeInv.init {k : κ} (m : M) (hk : ¬ r.inside k) :
    WakeInv r l a C (init k m : Sys κ M Λ) := by
  have hpc : ∀ i, (Procs.init k m : Sys κ M Λ).pc i = .dead ∨
      (Procs.init k m : Sys κ M Λ).pc i = .forkret k := by
    intro i
    unfold Procs.init
    by_cases hi : i = initproc <;> simp [hi]
  refine ⟨SchedInv.init k m, LockInv.init m hk, Bounded.init k m, fun i => ?_, fun p hp _ => ?_,
    fun q p hq => ?_, fun q => ?_⟩
  · rcases hpc i with hi | hi <;> simp [hi, Pc.SleepWf]
  · rcases hp with ⟨l₁, next₁, heq⟩ | ⟨hst, -⟩
    · rcases hpc p with hp | hp <;> simp [hp] at heq
    · unfold Procs.init at hst
      by_cases hpi : p = initproc <;> simp [hpi, Proc.fresh] at hst
  · rcases hpc q with hp | hp <;> simp [hp, Pc.Passed] at hq
  · rcases hpc q with hp | hp <;> simp [hp, Pc.Knows]

theorem WakeInv.run {k : κ} {m : M} {evs : List (Ev ω)} (d : Discipline code l a C T r)
    (hk : ¬ r.inside k) (h : Runs code (Answers code T) (Procs.init k m) evs s) :
    WakeInv r l a C s :=
  h.invariant (fun _ _ _ h hans hst => h.step d hans hst) (WakeInv.init m hk)

/-- Whoever sleeps on the channel while the lock is free has nothing to wait for. -/
theorem WakeInv.no_sleeper (d : Discipline code l a C T r) (h : WakeInv r l a C s)
    (hl : s.lock (.other l) = none) {p : Nat} (hst : (s.proc p).state = .sleeping)
    (hch : (s.proc p).chan = some (.addr a)) : ¬ C s.mem := by
  intro hC
  obtain ⟨q, hq⟩ := h.asleep p (.inr ⟨hst, hch⟩) hC
  exact h.lock.free hl q (d.covers_holds hq)

/-- In every run of a code whose waiters test the condition and sleep under the lock and
whose wakers call `wakeup` in the section in which they make it true, nobody sleeps on the
channel with the lock free and the condition true. -/
theorem no_lost_wakeup {k : κ} {m : M} {evs : List (Ev ω)}
    (d : Discipline code l a C (fun _ _ => True) r) (hk : ¬ r.inside k)
    (h : exec code (Procs.init k m) evs = some s) (hl : s.lock (.other l) = none) {p : Nat}
    (hst : (s.proc p).state = .sleeping) (hch : (s.proc p).chan = some (.addr a)) :
    ¬ C s.mem :=
  (WakeInv.run d hk (.of_exec (fun _ _ _ _ _ _ _ _ _ _ _ _ _ => trivial) h)).no_sleeper d hl hst
    hch

end

/-! ## Sleep locks

`acquiresleep` waits on the channel `lk` for `lk->locked` to be 0, and `releasesleep`
wakes. Any number of processes call them on one lock, fork and kill each other.
-/

namespace Sleeplock

/-- The point of a process; `idle` is outside, and each other one is named after the
statement that it runs next. -/
inductive Point where
  | idle
  | acquiresleep
  | test
  | sleep
  | releasesleep
  | clear
  | wakeup
  | release
  | fork
  | kill (pid : BitVec 32)

inductive Op where
  | acquiresleep
  | releasesleep
  | fork
  | kill (pid : BitVec 32)

def Op.start : Op → Point
  | acquiresleep => .acquiresleep
  | releasesleep => .releasesleep
  | fork => .fork
  | kill pid => .kill pid

def lk : Nat := 0

/-- The memory is `lk->locked`, and `lk->lk` the only spinlock. -/
def code : Point → Instr Point Bool Op Unit
  | .idle => .access fun _ x locked => (locked, x.start)
  | .acquiresleep => .acquire () .test
  | .test => .access fun _ _ locked => if locked then (true, .sleep) else (true, .release)
  | .sleep => .sleep lk () .test
  | .releasesleep => .acquire () .clear
  | .clear => .access fun _ _ _ => (false, .wakeup)
  | .wakeup => .wakeup lk .release
  | .release => .release () .idle
  | .fork => .fork (fun _ => .idle) .idle
  | .kill pid => .kill pid fun _ => .idle

def roles : Roles Point Bool where
  inside
    | .test | .sleep | .clear | .wakeup | .release => True
    | _ => False
  owes k := k = .wakeup
  woken _ := False
  known k locked := k = .sleep → locked = true

/-- The waiters and wakers of a sleep lock. -/
theorem discipline : Discipline code () lk (fun locked => locked = false) (fun _ _ => True) roles
    where
  keeps k := by
    cases k with
    | idle => exact fun p x locked => by cases x <;> simp [roles, Op.start]
    | test => exact fun p x locked => by cases locked <;> simp [roles]
    | _ => simp [code, Instr.Keeps, roles]
  within k := by
    cases k <;> simp [roles]
  outside k m := by
    cases k <;> simp [roles]
  stable k f hf hk p x m := by
    cases k <;> simp [roles, code] at hk hf
    subst hf
    exact ⟨id, fun k' h => h⟩
  obeys k := by
    cases k with
    | idle => exact fun p x locked => by cases x <;> simp [roles, Op.start]
    | test => exact fun p x locked => by cases locked <;> simp [roles]
    | _ => simp [code, Roles.Obeys, Roles.Frame, roles]

/-- The first process takes the lock and forks; its child finds it taken and sleeps. -/
def contended : List (Ev Op) :=
  [.sched 0, .sched 0, .run 0 .fork true, .run 0 .acquiresleep true] ++
    List.replicate 3 (.run 0 .fork true) ++ List.replicate 10 (.run 0 .fork true) ++
    List.replicate 3 (.sched 1) ++ [.run 1 .fork true, .run 1 .acquiresleep true] ++
    List.replicate 6 (.run 1 .fork true)

end Sleeplock

/-- A process sleeps in `acquiresleep` while the lock is taken. -/
theorem no_lost_wakeup_contended :
    ∃ s, exec Sleeplock.code (init .idle false) Sleeplock.contended = some s ∧
      s.lock (.other ()) = none ∧ (s.proc 1).state = .sleeping ∧
      (s.proc 1).chan = some (.addr Sleeplock.lk) ∧ s.mem ≠ false :=
  ⟨_, rfl, rfl, rfl, rfl, no_lost_wakeup Sleeplock.discipline (k := .idle) (m := false)
    (by simp [Sleeplock.roles])
    (show exec Sleeplock.code (init .idle false) Sleeplock.contended = some _ from rfl) rfl (p := 1)
    rfl rfl⟩

end Xv6.Procs
