import Xv6.Kernel.Proc.Sched

/-! # Who holds a spinlock

`wait_lock` and the locks of the code on top are held by the thread that is at a
point inside the section. A thread gives such a lock up only by itself: `sched`
refuses to leave the CPU with one, and no interrupt comes while one is held.
-/

namespace Xv6.Procs

open Lib

section

variable {κ M ω Λ : Type}

/-- At this point the thread holds `l`; `H` says so for the code on top. -/
def Pc.holds (l : Lock Λ) (H : κ → Prop) : Pc κ Λ → Prop
  | run k => H k
  | sleepAcquire _ l' _ | sleepRelease _ l' _ => l' = l
  | wake _ _ next => next.holds l H
  | forkParent .. | forkUnwait .. | exitReparent .. | exitZombie _ | exitUnwait | waitScan ..
  | waitKids .. | waitReturn _ => l = .wait
  | _ => False

/-- The point goes on to others that agree with it on who holds `l`. -/
def Pc.LockWf (l : Lock Λ) (H : κ → Prop) : Pc κ Λ → Prop
  | forkret k | waitReturn k => ¬ H k
  | sleepAcquire _ l' next | sleepRelease _ l' next | sleepSet _ l' next | sleepTidy l' next
  | relock l' next => next.LockWf l H ∧ (next.holds l H ↔ l' = l)
  | sched next | yieldAcquire next | yieldRelease next => next.LockWf l H ∧ ¬ next.holds l H
  | wake _ _ next => next.LockWf l H
  | kill _ _ f | forkWait _ _ f | forkParent _ _ f | forkUnwait _ _ f | forkRunnable _ _ f
  | forkMask _ _ f => ∀ r, ¬ H (f r)
  | forkScan _ f child | forkAlloc _ f child => (∀ r, ¬ H (f r)) ∧ ¬ H child
  | waitLock _ f | waitScan _ _ _ f | waitKids _ _ f => ∀ r o, ¬ H (f r o)
  | _ => True

/-- The call and what follows it agree on who holds `l`, if `h` says it for the call. -/
def Instr.Keeps (l : Lock Λ) (H : κ → Prop) (h : Prop) : Instr κ M ω Λ → Prop
  | acquire l' k => H k ↔ .other l' = l ∨ h
  | release l' k => H k ↔ h ∧ .other l' ≠ l
  | access f => ∀ p x m, H (f p x m).2 ↔ h
  | killed f => ∀ b, H (f b) ↔ h
  | sleep _ l' k => (h ↔ .other l' = l) ∧ (H k ↔ .other l' = l)
  | wakeup _ k | setkilled k | trace _ k => H k ↔ h
  | kill _ f => ¬ h ∧ ∀ r, ¬ H (f r)
  | fork f child => ¬ h ∧ (∀ r, ¬ H (f r)) ∧ ¬ H child
  | wait _ f => ¬ h ∧ ∀ r o, ¬ H (f r o)
  | exit _ => ¬ h

/-- The lock `l` is held by the one thread at a point inside. -/
structure LockInv (l : Lock Λ) (H : κ → Prop) (s : Sys κ M Λ) : Prop where
  holder : ∀ i, (s.pc i).holds l H → ∃ c, (s.cpu c).pc = .process i ∧ s.lock l = some c
  held : ∀ c, s.lock l = some c → ∃ i, (s.cpu c).pc = .process i ∧ (s.pc i).holds l H
  wf : ∀ i, (s.pc i).LockWf l H

variable {s t : Sys κ M Λ} {c i : Nat} {l : Lock Λ} {H : κ → Prop}

theorem LockInv.unique {j : Nat} (h : LockInv l H s) (hi : (s.pc i).holds l H)
    (hj : (s.pc j).holds l H) : i = j := by
  obtain ⟨c, hc, hl⟩ := h.holder i hi
  obtain ⟨d, hd, hl'⟩ := h.holder j hj
  rw [hl, Option.some.injEq] at hl'
  subst hl'
  rw [hc, CpuPc.process.injEq] at hd
  exact hd

theorem LockInv.of_held (h : LockInv l H s) (hc : (s.cpu c).pc = .process i)
    (hl : s.lock l = some c) : (s.pc i).holds l H := by
  obtain ⟨j, hj, hh⟩ := h.held c hl
  rw [hc, CpuPc.process.injEq] at hj
  exact hj ▸ hh

/-- When the lock is free, nobody is inside. -/
theorem LockInv.free (h : LockInv l H s) (hl : s.lock l = none) (i : Nat) :
    ¬ (s.pc i).holds l H := by
  intro hi
  obtain ⟨c, -, hc⟩ := h.holder i hi
  simp [hl] at hc

/-- A thread moves on, and takes the lock, gives it up or leaves it as it is. -/
theorem LockInv.own_step (h : LockInv l H s) (hc : (s.cpu c).pc = .process i)
    (hcpu : t.cpu = s.cpu)
    (hpc : ∀ q, q ≠ i → t.pc q = s.pc q ∨
      ¬ (t.pc q).holds l H ∧ ¬ (s.pc q).holds l H ∧ (t.pc q).LockWf l H)
    (hwf : (t.pc i).LockWf l H)
    (hlock : t.lock l = s.lock l ∧ ((t.pc i).holds l H ↔ (s.pc i).holds l H) ∨
      s.lock l = none ∧ t.lock l = some c ∧ (t.pc i).holds l H ∨
      t.lock l = none ∧ (s.pc i).holds l H ∧ ¬ (t.pc i).holds l H) : LockInv l H t := by
  have hsame : ∀ q, q ≠ i → ((t.pc q).holds l H ↔ (s.pc q).holds l H) := by
    intro q hq
    rcases hpc q hq with heq | ⟨h1, h2, -⟩
    · rw [heq]
    · exact iff_of_false h1 h2
  refine ⟨fun q hq => ?_, fun d hd => ?_, fun q => ?_⟩
  · rw [hcpu]
    by_cases hqi : q = i
    · subst hqi
      rcases hlock with ⟨hl, hi⟩ | ⟨-, hl, -⟩ | ⟨-, -, hn⟩
      · rw [hl]
        exact h.holder q (hi.mp hq)
      · exact ⟨c, hc, hl⟩
      · exact absurd hq hn
    · have hq' := (hsame q hqi).mp hq
      obtain ⟨d, hd, hl⟩ := h.holder q hq'
      rcases hlock with ⟨hl', -⟩ | ⟨hn, -, -⟩ | ⟨-, hi, -⟩
      · exact ⟨d, hd, hl'.trans hl⟩
      · simp [hn] at hl
      · exact absurd (h.unique hq' hi) hqi
  · rw [hcpu]
    rcases hlock with ⟨hl, hi⟩ | ⟨-, hl, hi⟩ | ⟨hl, -, -⟩
    · obtain ⟨q, hq, hh⟩ := h.held d (hl ▸ hd)
      by_cases hqi : q = i
      · exact ⟨q, hq, hqi ▸ hi.mpr (hqi ▸ hh)⟩
      · exact ⟨q, hq, (hsame q hqi).mpr hh⟩
    · rw [hl, Option.some.injEq] at hd
      exact ⟨i, hd ▸ hc, hi⟩
    · simp [hl] at hd
  · by_cases hqi : q = i
    · exact hqi ▸ hwf
    · rcases hpc q hqi with heq | ⟨-, -, hw⟩
      · rw [heq]
        exact h.wf q
      · exact hw

theorem LockInv.cpu_step (h : LockInv l H s) (hpc : t.pc = s.pc) (hlock : t.lock = s.lock)
    (hc : ∀ q, (s.cpu c).pc ≠ .process q) (hcpu : ∀ d, d ≠ c → t.cpu d = s.cpu d) :
    LockInv l H t := by
  have hkeep : ∀ d q, (s.cpu d).pc = .process q → (t.cpu d).pc = .process q := by
    intro d q hd
    by_cases hdc : d = c
    · exact absurd (hdc ▸ hd) (hc q)
    · rwa [hcpu d hdc]
  refine ⟨fun q hq => ?_, fun d hd => ?_, fun q => by rw [hpc]; exact h.wf q⟩
  · rw [hpc] at hq
    obtain ⟨d, hd, hl⟩ := h.holder q hq
    exact ⟨d, hkeep d q hd, by rw [hlock]; exact hl⟩
  · rw [hlock] at hd
    obtain ⟨q, hq, hh⟩ := h.held d hd
    exact ⟨q, hkeep d q hq, by rw [hpc]; exact hh⟩

/-- A process on a CPU at a point where it holds its own lock does hold it. -/
theorem SchedInv.own_locked {j : Nat} (h : SchedInv s) (hc : (s.cpu c).proc = some j)
    (ho : (s.pc j).own = true) : (s.proc j).lock = some c := by
  have hok := h.cpus c
  unfold CpuOk at hok
  split at hok
  · simp [hok] at hc
  · obtain ⟨hp, hl, -⟩ := hok
    rw [hp, Option.some.injEq] at hc
    exact hc ▸ hl
  · obtain ⟨hp, -, hl, -⟩ := hok
    rw [hp, Option.some.injEq] at hc
    subst hc
    exact hl ho
  · obtain ⟨hp, hl, -⟩ := hok
    rw [hp, Option.some.injEq] at hc
    exact hc ▸ hl
  · simp [hok.1] at hc

variable [Fintype Λ] [DecidableEq Λ]

theorem LockInv.call_step {x : ω} {instr : Instr κ M ω Λ} {k : κ} (h : LockInv l H s)
    (hc : (s.cpu c).pc = .process i) (hk : s.pc i = .run k) (hkeeps : instr.Keeps l H (H k))
    (ht : Call s c i x instr t) : LockInv l H t := by
  obtain ⟨hcpu, -, hpcs, -⟩ := ht.quiet
  refine h.own_step hc hcpu (fun q hq => .inl (hpcs q hq)) ?_ ?_
  · cases ht <;> simp_all [Pc.LockWf, Pc.holds, Instr.Keeps]
  · cases ht with
    | @acquire l' k' hl =>
      by_cases hll : .other l' = l
      · subst hll
        exact .inr (.inl (by simp_all [Pc.holds, Instr.Keeps]))
      · exact .inl (by simp_all [Pc.holds, Instr.Keeps, Ne.symm hll])
    | @release l' k' hl =>
      by_cases hll : .other l' = l
      · subst hll
        have := h.of_held hc hl
        exact .inr (.inr (by simp_all [Pc.holds, Instr.Keeps]))
      · exact .inl (by simp_all [Pc.holds, Instr.Keeps, Ne.symm hll])
    | @access f => exact .inl ⟨rfl, by simpa [hk, Pc.holds] using hkeeps i x s.mem⟩
    | @killed f hl => exact .inl ⟨rfl, by simpa [hk, Pc.holds] using hkeeps (s.proc i).killed⟩
    | @sleep a l' k' => exact .inl ⟨rfl, by simpa [hk, Pc.holds] using hkeeps.1.symm⟩
    | _ => exact .inl (by simp_all [Pc.holds, Instr.Keeps])

theorem LockInv.take_wait {P : Pc κ Λ} (h : LockInv l H s) (hc : (s.cpu c).pc = .process i)
    (hn : ¬ (s.pc i).holds l H) (hl : s.lock .wait = none) (hP : P.holds l H ↔ l = .wait)
    (hwf : P.LockWf l H) : LockInv l H ((s.setLock .wait (some c)).setPc i P) := by
  refine h.own_step hc rfl (fun q hq => .inl (by simp [hq])) (by simpa using hwf) ?_
  by_cases hll : l = .wait
  · subst hll
    exact .inr (.inl (by simp [hl, hP]))
  · exact .inl (by simp [hll, hP, hn])

theorem LockInv.drop_wait {P : Pc κ Λ} (h : LockInv l H s) (hc : (s.cpu c).pc = .process i)
    (hi : (s.pc i).holds l H ↔ l = .wait) (hP : ¬ P.holds l H) (hwf : P.LockWf l H) :
    LockInv l H ((s.setLock .wait none).setPc i P) := by
  refine h.own_step hc rfl (fun q hq => .inl (by simp [hq])) (by simpa using hwf) ?_
  by_cases hll : l = .wait
  · subst hll
    exact .inr (.inr (by simp [hi, hP]))
  · exact .inl (by simp [hll, hP, hi])

theorem LockInv.thread_step {ok : Bool} (h : LockInv l H s) (hs : SchedInv s)
    (hc : (s.cpu c).pc = .process i) (ht : Thread s c i ok t) : LockInv l H t := by
  have hwf := h.wf i
  cases ht with
  | @sched _ next hpc hl hlocks hnr =>
    rw [hpc] at hwf
    have hnone : ¬ (s.pc i).holds l H := by simp [hpc, Pc.holds]
    refine ⟨fun q hq => ?_, fun d hd => ?_, fun q => ?_⟩
    · by_cases hqi : q = i
      · subst hqi
        exact absurd (by simpa using hq) hwf.2
      · simp only [Sys.setPc_pc, if_neg hqi, Sys.setCpu_pc] at hq
        obtain ⟨d, hd, hl'⟩ := h.holder q hq
        have hdc : d ≠ c := by
          rintro rfl
          rw [hc, CpuPc.process.injEq] at hd
          exact hqi hd.symm
        exact ⟨d, by simpa [hdc] using hd, hl'⟩
    · obtain ⟨q, hq, hh⟩ := h.held d hd
      have hqi : q ≠ i := by
        rintro rfl
        exact hnone hh
      have hdc : d ≠ c := by
        rintro rfl
        rw [hc, CpuPc.process.injEq] at hq
        exact hqi hq.symm
      exact ⟨q, by simpa [hdc] using hq, by simpa [hqi] using hh⟩
    · by_cases hqi : q = i
      · subst hqi
        simpa using hwf.1
      · simpa [hqi] using h.wf q
  | @forkAlloc j k child hpc =>
    rw [hpc] at hwf
    obtain ⟨-, hdead, -⟩ := hs.allocs i j (by rw [hpc]; rfl)
    refine h.own_step hc rfl (fun q hq => ?_) (by simpa [Pc.LockWf] using hwf.1)
      (.inl (by simp [hpc, Pc.holds]))
    by_cases hqj : q = j
    · subst hqj
      exact .inr (by simpa [hq, hdead, Pc.holds, Pc.LockWf] using hwf.2)
    · exact .inl (by simp [hq, hqj])
  | @sleepRelease _ ch l' next hpc hl =>
    rw [hpc] at hwf
    refine h.own_step hc rfl (fun q hq => .inl (by simp [hq])) (by simpa [Pc.LockWf] using hwf) ?_
    by_cases hll : l' = l
    · exact .inr (.inr (by simp [hpc, Pc.holds, hll]))
    · exact .inl (by simp [hpc, Pc.holds, hll, Ne.symm hll])
  | @relock _ l' next hpc hl =>
    rw [hpc] at hwf
    refine h.own_step hc rfl (fun q hq => .inl (by simp [hq])) (by simpa using hwf.1) ?_
    by_cases hll : l' = l
    · subst hll
      exact .inr (.inl (by simpa [hl] using hwf.2))
    · exact .inl (by simpa [hpc, Pc.holds, hll, Ne.symm hll] using hwf.2)
  | @forkWait _ j pid k hpc hl =>
    rw [hpc] at hwf
    exact h.take_wait hc (by simp [hpc, Pc.holds]) hl Iff.rfl hwf
  | @exitWait _ status hpc hl =>
    exact h.take_wait hc (by simp [hpc, Pc.holds]) hl Iff.rfl trivial
  | @waitLock _ addr k hpc hl =>
    rw [hpc] at hwf
    exact h.take_wait hc (by simp [hpc, Pc.holds]) hl Iff.rfl hwf
  | @forkUnwait _ j pid k hpc =>
    rw [hpc] at hwf
    exact h.drop_wait hc (by simp [hpc, Pc.holds]) (by simp [Pc.holds]) hwf
  | @exitUnwait _ hpc =>
    exact h.drop_wait hc (by simp [hpc, Pc.holds]) (by simp [Pc.holds])
      (by simp [Pc.LockWf, Pc.holds])
  | @waitReturn _ k hpc =>
    rw [hpc] at hwf
    exact h.drop_wait hc (by simp [hpc, Pc.holds]) hwf trivial
  | @waitSleep _ addr k hpc hl hk =>
    rw [hpc] at hwf
    refine h.own_step hc rfl (fun q hq => .inl (by simp [hq])) ?_ (.inl ?_)
    · simpa [Pc.LockWf, Pc.holds, eq_comm] using hwf
    · simp [hpc, Pc.holds, eq_comm]
  | _ =>
    rw [‹s.pc i = _›] at hwf
    refine h.own_step hc rfl (fun q hq => .inl (by simp [hq])) ?_ (.inl ?_)
    all_goals simp_all [Pc.LockWf, Pc.holds]

theorem LockInv.step {code : κ → Instr κ M ω Λ} {e : Ev ω} (h : LockInv l H s) (hs : SchedInv s)
    (hcode : ∀ k, (code k).Keeps l H (H k)) (hst : Step code s e t) : LockInv l H t := by
  cases hst with
  | @dispatch c i hc hl hr =>
    exact h.cpu_step (c := c) rfl rfl (by simp [hc]) fun d hd => by simp [hd]
  | @scan c i hc hl hr =>
    exact h.cpu_step (c := c) rfl rfl (by simp [hc]) fun d hd => by simp [hd]
  | @swtch c i hc =>
    exact h.cpu_step (c := c) rfl rfl (by simp [hc]) fun d hd => by simp [hd]
  | @back c i hc =>
    exact h.cpu_step (c := c) rfl rfl (by simp [hc]) fun d hd => by simp [hd]
  | @release c i hc =>
    exact h.cpu_step (c := c) rfl rfl (by simp [hc]) fun d hd => by simp [hd]
  | @instr c i x ok k t hc hpc hi => exact h.call_step hc hpc (hcode k) hi
  | @thread c i x ok t hc ht => exact h.thread_step hs hc ht
  | @tick c i hc hl hlocks =>
    have hn : ¬ (s.pc i).holds l H := by
      intro hi
      obtain ⟨d, hd, hld⟩ := h.holder i hi
      have hdc : d = c := hs.uniq d c i (hs.at_process hd).1 (hs.at_process hc).1
      subst hdc
      obtain ⟨-, hw, ho⟩ := hlocks
      cases l with
      | wait => exact hw hld
      | other l => exact ho l hld
    refine h.own_step hc rfl (fun q hq => .inl (by simp [hq])) ?_ (.inl ?_)
    · simpa [Pc.LockWf] using ⟨h.wf i, hn⟩
    · simp [Pc.holds, hn]
  | intr hl hsl => exact ⟨h.holder, h.held, h.wf⟩

theorem LockInv.init {k : κ} (m : M) (hk : ¬ H k) : LockInv l H (init k m : Sys κ M Λ) := by
  refine ⟨fun i hi => ?_, fun c hc => ?_, fun i => ?_⟩
  · unfold Procs.init at hi
    by_cases hi0 : i = initproc <;> simp [hi0, Pc.holds] at hi
  · simp [Procs.init] at hc
  · unfold Procs.init
    by_cases hi0 : i = initproc <;> simp [hi0, Pc.LockWf, hk]

def Bounded (s : Sys κ M Λ) : Prop := ∀ p, (s.proc p).state ≠ .unused → p < nProc

theorem Bounded.step {code : κ → Instr κ M ω Λ} {e : Ev ω} (h : Bounded s) (hs : SchedInv s)
    (hst : Step code s e t) : Bounded t := by
  intro p hp
  by_cases hu : (s.proc p).state = .unused
  · rcases hs.step_edge hst p with heq | ⟨-, -, hlt⟩
    · exact absurd (heq.trans hu) hp
    · exact hlt hu
  · exact h p hu

theorem Bounded.init (k : κ) (m : M) : Bounded (init k m : Sys κ M Λ) := by
  intro p hp
  unfold Procs.init at hp
  by_cases hpi : p = initproc
  · rw [hpi]
    decide
  · simp [hpi, Proc.fresh] at hp

/-- The point a thread moves to is one inside `sleep` only from another such. -/
theorem SchedInv.thread_sleepSet {ok : Bool} {ch : Chan} {l' : Lock Λ} {next : Pc κ Λ}
    (h : SchedInv s) (hc : (s.cpu c).pc = .process i)
    (ht : Thread s c i ok t) (hn : ∀ ch l' next, s.pc i ≠ .sleepRelease ch l' next) :
    t.pc i ≠ .sleepSet ch l' next := by
  have hrun := (h.at_process hc).2.1
  have hwf := h.wf i
  cases ht with
  | sleepRelease hpc => exact absurd hpc (hn _ _ _)
  | @relock _ l₁ next₁ hpc hl =>
    rw [hpc] at hwf
    intro heq
    simp only [Sys.setPc_pc, if_true] at heq
    simp [heq, Pc.Wf, Pc.Returns] at hwf
  | @wakeEnd _ ch₁ j next₁ hpc hj =>
    rw [hpc] at hwf
    intro heq
    simp only [Sys.setPc_pc, if_true] at heq
    simp [heq, Pc.Wf, Pc.Returns] at hwf
  | @yieldRelease _ next₁ hpc =>
    rw [hpc] at hwf
    intro heq
    simp only [Sys.setPc_pc, if_true] at heq
    simp [heq, Pc.Wf, Pc.Free, Pc.own] at hwf
  | @sched _ next₁ hpc hl hlocks hnr =>
    intro heq
    simp only [Sys.setPc_pc, if_true] at heq
    simp [hpc, heq, Pc.mode] at hrun
    exact hnr hrun
  | _ => simp

end

end Xv6.Procs
