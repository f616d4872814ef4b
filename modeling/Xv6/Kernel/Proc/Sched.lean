import Xv6.Kernel.Proc.Machine

/-! # One process, one CPU

The lock of a process is taken by one thread and released by another across
`swtch`. The invariant says, for every point of every thread, who holds which
`p->lock` and what the state of the process is there.
-/

namespace Xv6.Procs

open Lib

section

variable {κ M ω Λ : Type}

/-! ## Points of a thread -/

namespace Pc

/-- At this point the thread holds the lock of its own process. -/
def own : Pc κ Λ → Bool
  | forkret _ | sleepRelease .. | sleepSet .. | sched _ | sleepTidy .. | yieldRelease _
  | exitUnwait | dead => true
  | _ => false

/-- The state of a process that is on a CPU at this point. -/
def mode : Pc κ Λ → ProcState
  | sched (yieldRelease _) => .runnable
  | sched (sleepTidy ..) => .sleeping
  | sched dead => .zombie
  | exitUnwait => .zombie
  | _ => .running

/-- A process off every CPU may be at this point in the given state. -/
def Parks : Pc κ Λ → ProcState → Prop
  | pc, .unused => pc = dead
  | pc, .used => pc = dead ∨ ∃ k, pc = forkret k
  | sleepTidy .., .sleeping => True
  | forkret _, .runnable => True
  | sleepTidy .., .runnable => True
  | yieldRelease _, .runnable => True
  | dead, .zombie => True
  | _, _ => False

/-- The point that a thread goes on from, without `sched` and `yield`. -/
def inner : Pc κ Λ → Pc κ Λ
  | sched next | yieldAcquire next | yieldRelease next => inner next
  | pc => pc

/-- The entry whose lock `fork` holds at this point. -/
def allocs : Pc κ Λ → Option Nat
  | forkAlloc j _ _ => some j
  | _ => none

/-- The entry that `fork` has set up and not yet made runnable. -/
def starts : Pc κ Λ → Option Nat
  | forkWait j _ _ | forkParent j _ _ | forkUnwait j _ _ | forkRunnable j _ _ => some j
  | sched next | yieldAcquire next | yieldRelease next => starts next
  | _ => none

def Free (pc : Pc κ Λ) : Prop := pc.own = false ∧ pc.mode = .running ∧ pc.allocs = none

/-- The points `wakeup` and `sleep` return to. -/
def Returns : Pc κ Λ → Prop
  | run _ | exitReparent .. | exitZombie _ | waitScan .. => True
  | _ => False

/-- A thread is only interrupted where it holds no `p->lock`. -/
def Wf : Pc κ Λ → Prop
  | sleepAcquire _ _ next | sleepRelease _ _ next | sleepSet _ _ next | sleepTidy _ next
  | relock _ next | wake _ _ next => next.Returns
  | yieldAcquire next | yieldRelease next => next.Free ∧ next.Wf
  | sched next => next.Wf
  | _ => True

end Pc

/-! ## The invariant -/

/-- What CPU `c` has to do with the processes. -/
def CpuOk (s : Sys κ M Λ) (c : Nat) : Prop :=
  match (s.cpu c).pc with
  | .scan _ => (s.cpu c).proc = none
  | .swtch i => (s.cpu c).proc = some i ∧ (s.proc i).lock = some c ∧
      (s.proc i).state = .running ∧ (s.pc i).Parks .runnable
  | .process i => (s.cpu c).proc = some i ∧ (s.proc i).state = (s.pc i).mode ∧
      ((s.pc i).own = true → (s.proc i).lock = some c) ∧
      ∀ j, (s.pc i).allocs = some j → (s.proc j).lock = some c
  | .back i => (s.cpu c).proc = some i ∧ (s.proc i).lock = some c ∧
      (s.pc i).Parks (s.proc i).state ∧ (s.proc i).state ≠ .used
  | .release i => (s.cpu c).proc = none ∧ (s.proc i).lock = some c ∧
      (s.pc i).Parks (s.proc i).state ∧ (s.proc i).state ≠ .used

def Holds (s : Sys κ M Λ) (c i : Nat) : Prop :=
  (s.cpu c).pc = .swtch i ∨ (s.cpu c).pc = .back i ∨ (s.cpu c).pc = .release i ∨
    (s.cpu c).pc = .process i ∧ (s.pc i).own = true ∨
    ∃ q, (s.cpu c).pc = .process q ∧ (s.pc q).allocs = some i

structure SchedInv (s : Sys κ M Λ) : Prop where
  cpus : ∀ c, CpuOk s c
  uniq : ∀ c d i, (s.cpu c).proc = some i → (s.cpu d).proc = some i → c = d
  parked : ∀ i, (∀ c, (s.cpu c).proc ≠ some i) → (s.pc i).Parks (s.proc i).state
  locks : ∀ i c, (s.proc i).lock = some c → Holds s c i
  wf : ∀ i, (s.pc i).Wf
  allocs : ∀ q j, (s.pc q).allocs = some j → (s.proc j).state = .used ∧ s.pc j = .dead ∧
    j < nProc
  starts : ∀ q j, (s.pc q).starts = some j → (s.proc j).state = .used ∧
    ∃ k, s.pc j = .forkret k
  forks : ∀ q r j, ((s.pc q).allocs = some j ∨ (s.pc q).starts = some j) →
    ((s.pc r).allocs = some j ∨ (s.pc r).starts = some j) → q = r

variable {s t : Sys κ M Λ} {c i j : Nat}

theorem Pc.Parks.own {pc : Pc κ Λ} {x : ProcState} (h : pc.Parks x) : pc.own = true := by
  unfold Pc.Parks at h
  split at h
  · rw [h]
    rfl
  · rcases h with rfl | ⟨k, rfl⟩ <;> rfl
  all_goals first | rfl | exact h.elim

theorem Pc.Returns.facts {pc : Pc κ Λ} (h : pc.Returns) : pc.Free ∧ pc.Wf ∧ pc.starts = none := by
  cases pc <;> simp_all [Pc.Returns, Pc.Free, Pc.own, Pc.mode, Pc.allocs, Pc.Wf, Pc.starts]

theorem Pc.mode_live (pc : Pc κ Λ) : pc.mode ≠ .unused ∧ pc.mode ≠ .used := by
  unfold Pc.mode
  split <;> simp

/-- The process on a CPU is on no other, and its lock is held by that CPU if at all. -/
theorem SchedInv.at_process (h : SchedInv s) (hc : (s.cpu c).pc = .process i) :
    (s.cpu c).proc = some i ∧ (s.proc i).state = (s.pc i).mode ∧
      ((s.pc i).own = true → (s.proc i).lock = some c) ∧
      (∀ j, (s.pc i).allocs = some j → (s.proc j).lock = some c) := by
  have := h.cpus c
  rwa [CpuOk, hc] at this

theorem CpuOk.congr {d : Nat} (h : CpuOk s d) (hcpu : t.cpu d = s.cpu d)
    (hpc : ∀ q, (s.proc q).lock = some d ∨ (s.cpu d).proc = some q → t.pc q = s.pc q)
    (hproc : ∀ q, (s.proc q).lock = some d ∨ (s.cpu d).proc = some q →
      (t.proc q).lock = (s.proc q).lock ∧ (t.proc q).state = (s.proc q).state) : CpuOk t d := by
  unfold CpuOk at h ⊢
  rw [hcpu]
  cases hd : (s.cpu d).pc with
  | scan q =>
    simp only [hd] at h ⊢
    exact h
  | swtch q =>
    simp only [hd] at h ⊢
    obtain ⟨h1, h2, h3, h4⟩ := h
    obtain ⟨hl, hs⟩ := hproc q (.inl h2)
    rw [hl, hs, hpc q (.inl h2)]
    exact ⟨h1, h2, h3, h4⟩
  | process q =>
    simp only [hd] at h ⊢
    obtain ⟨h1, h2, h3, h4⟩ := h
    obtain ⟨hl, hs⟩ := hproc q (.inr h1)
    rw [hl, hs, hpc q (.inr h1)]
    refine ⟨h1, h2, h3, fun j hj => ?_⟩
    rw [(hproc j (.inl (h4 j hj))).1]
    exact h4 j hj
  | back q =>
    simp only [hd] at h ⊢
    obtain ⟨h1, h2, h3⟩ := h
    obtain ⟨hl, hs⟩ := hproc q (.inl h2)
    rw [hl, hs, hpc q (.inl h2)]
    exact ⟨h1, h2, h3⟩
  | release q =>
    simp only [hd] at h ⊢
    obtain ⟨h1, h2, h3⟩ := h
    obtain ⟨hl, hs⟩ := hproc q (.inl h2)
    rw [hl, hs, hpc q (.inl h2)]
    exact ⟨h1, h2, h3⟩

theorem Holds.congr {d q : Nat} (h : Holds s d q) (hcpu : t.cpu d = s.cpu d)
    (hpc : ∀ r, r = q ∨ (s.cpu d).pc = .process r → t.pc r = s.pc r) : Holds t d q := by
  unfold Holds at h ⊢
  rw [hcpu, hpc q (.inl rfl)]
  rcases h with h | h | h | h | ⟨r, hr, ha⟩
  · exact .inl h
  · exact .inr (.inl h)
  · exact .inr (.inr (.inl h))
  · exact .inr (.inr (.inr (.inl h)))
  · exact .inr (.inr (.inr (.inr ⟨r, hr, by rw [hpc r (.inr hr)]; exact ha⟩)))

theorem SchedInv.proc_of_pc (h : SchedInv s) (hc : (s.cpu c).pc = .process i) :
    (s.cpu c).proc = some i :=
  (h.at_process hc).1

/-- `fork` at this point deals with entry `j`. -/
def Pc.Claims (pc : Pc κ Λ) (j : Nat) : Prop := pc.allocs = some j ∨ pc.starts = some j

/-- A step changes at most one CPU `c` in `C` and the entries in `D`, which no other CPU deals
with. What is left to show is about these. -/
theorem SchedInv.local_step {C D : Nat → Prop} (h : SchedInv s) (hC : ∀ d d', C d → C d' → d = d')
    (hcpu : ∀ d, ¬ C d → t.cpu d = s.cpu d) (hpc : ∀ q, ¬ D q → t.pc q = s.pc q)
    (hproc : ∀ q, ¬ D q → (t.proc q).lock = (s.proc q).lock ∧
      (t.proc q).state = (s.proc q).state)
    (hsep : ∀ d, ¬ C d → ∀ q, (s.proc q).lock = some d ∨ (s.cpu d).proc = some q → ¬ D q)
    (hok : ∀ d, C d → CpuOk t d)
    (hcpus : ∀ d, C d → ∀ q, ¬ D q → ((t.cpu d).proc = some q ↔ (s.cpu d).proc = some q))
    (hparks : ∀ q, D q → (∀ d, (t.cpu d).proc ≠ some q) → (t.pc q).Parks (t.proc q).state)
    (hlock : ∀ q, D q → ∀ d, (t.proc q).lock = some d → Holds t d q)
    (hkeep : ∀ d, C d → ∀ q, ¬ D q → Holds s d q → Holds t d q)
    (hwf : ∀ q, D q → (t.pc q).Wf)
    (hfix : ∀ q, ¬ D q → ∀ r, (s.pc q).Claims r → ¬ D r)
    (hallocs : ∀ q, D q → ∀ r, (t.pc q).allocs = some r → (t.proc r).state = .used ∧
      t.pc r = .dead ∧ r < nProc)
    (hstarts : ∀ q, D q → ∀ r, (t.pc q).starts = some r → (t.proc r).state = .used ∧
      ∃ k, t.pc r = .forkret k)
    (hforks : ∀ q r k, D q → (t.pc q).Claims k → (t.pc r).Claims k → q = r) : SchedInv t := by
  refine ⟨fun d => ?_, fun d d' q hd hd' => ?_, fun q hq => ?_, fun q d hq => ?_, fun q => ?_,
    fun q r hq => ?_, fun q r hq => ?_, fun q r k hq hr => ?_⟩
  · by_cases hd : C d
    · exact hok d hd
    · exact (h.cpus d).congr (hcpu d hd) (fun q hq => hpc q (hsep d hd q hq))
        fun q hq => hproc q (hsep d hd q hq)
  · by_cases hcd : C d <;> by_cases hcd' : C d'
    · exact hC d d' hcd hcd'
    · rw [hcpu d' hcd'] at hd'
      exact h.uniq d d' q ((hcpus d hcd q (hsep d' hcd' q (.inr hd'))).mp hd) hd'
    · rw [hcpu d hcd] at hd
      exact h.uniq d d' q hd ((hcpus d' hcd' q (hsep d hcd q (.inr hd))).mp hd')
    · rw [hcpu d hcd] at hd
      rw [hcpu d' hcd'] at hd'
      exact h.uniq d d' q hd hd'
  · by_cases hD : D q
    · exact hparks q hD hq
    · rw [hpc q hD, (hproc q hD).2]
      refine h.parked q fun d hd => hq d ?_
      by_cases hcd : C d
      · exact (hcpus d hcd q hD).mpr hd
      · rwa [hcpu d hcd]
  · by_cases hD : D q
    · exact hlock q hD d hq
    · rw [(hproc q hD).1] at hq
      have hholds := h.locks q d hq
      by_cases hcd : C d
      · exact hkeep d hcd q hD hholds
      · apply hholds.congr (hcpu d hcd)
        rintro r (rfl | hr)
        · exact hpc r hD
        · exact hpc r (hsep d hcd r (.inr (h.proc_of_pc hr)))
  · by_cases hD : D q
    · exact hwf q hD
    · rw [hpc q hD]
      exact h.wf q
  · by_cases hD : D q
    · exact hallocs q hD r hq
    · rw [hpc q hD] at hq
      have hr := hfix q hD r (.inl hq)
      rw [(hproc r hr).2, hpc r hr]
      exact h.allocs q r hq
  · by_cases hD : D q
    · exact hstarts q hD r hq
    · rw [hpc q hD] at hq
      have hr := hfix q hD r (.inr hq)
      rw [(hproc r hr).2, hpc r hr]
      exact h.starts q r hq
  · by_cases hq' : D q
    · exact hforks q r k hq' hq hr
    · by_cases hr' : D r
      · exact (hforks r q k hr' hr hq).symm
      · rw [hpc q hq'] at hq
        rw [hpc r hr'] at hr
        exact h.forks q r k hq hr

/-- A CPU that runs a process holds its lock, or the one of the entry that `fork` has found. -/
theorem Holds.of_process {q : Nat} (h : Holds s c q) (hc : (s.cpu c).pc = .process i) :
    q = i ∧ (s.pc i).own = true ∨ (s.pc i).allocs = some q := by
  simp only [Holds, hc, reduceCtorEq, CpuPc.process.injEq, false_or] at h
  rcases h with ⟨rfl, ho⟩ | ⟨r, rfl, ha⟩
  · exact .inl ⟨rfl, ho⟩
  · exact .inr ha

/-- Only the CPU of a process holds its lock. -/
theorem SchedInv.lock_of_process (h : SchedInv s) (hc : (s.cpu c).pc = .process i) {d : Nat}
    (hd : (s.proc i).lock = some d) : d = c ∧ (s.pc i).own = true := by
  obtain ⟨hp, hs, ho, -⟩ := h.at_process hc
  have hok := h.cpus d
  rcases h.locks i d hd with hd' | hd' | hd' | ⟨hd', hown⟩ | ⟨q, -, hq⟩
  · rw [CpuOk, hd'] at hok
    exact ⟨h.uniq d c i hok.1 hp, hok.2.2.2.own⟩
  · rw [CpuOk, hd'] at hok
    exact ⟨h.uniq d c i hok.1 hp, hok.2.2.1.own⟩
  · rw [CpuOk, hd'] at hok
    have hown := hok.2.2.1.own
    rw [ho hown, Option.some.injEq] at hd
    exact ⟨hd.symm, hown⟩
  · rw [CpuOk, hd'] at hok
    exact ⟨h.uniq d c i hok.1 hp, hown⟩
  · have hused := (h.allocs q i hq).1
    rw [hs] at hused
    exact absurd hused (s.pc i).mode_live.2

theorem SchedInv.ne_of_claims (h : SchedInv s) (hc : (s.cpu c).pc = .process i) {q : Nat}
    (hq : (s.pc q).Claims j) : j ≠ i := by
  rintro rfl
  have hused : (s.proc j).state = .used := hq.elim (fun hq => (h.allocs q j hq).1) fun hq =>
    (h.starts q j hq).1
  rw [(h.at_process hc).2.1] at hused
  exact (s.pc j).mode_live.2 hused

/-- A thread moves on and changes at most the lock and the state of its own process. -/
theorem SchedInv.own_step (h : SchedInv s) (hc : (s.cpu c).pc = .process i) (P : Pc κ Λ)
    (hcpu : t.cpu = s.cpu) (hpi : t.pc i = P) (hpc : ∀ q, q ≠ i → t.pc q = s.pc q)
    (hproc : ∀ q, q ≠ i → (t.proc q).lock = (s.proc q).lock ∧
      (t.proc q).state = (s.proc q).state)
    (hown : P.own = true → (t.proc i).lock = some c)
    (hfree : P.own = false → (t.proc i).lock = none ∨
      (t.proc i).lock = (s.proc i).lock ∧ (s.pc i).own = false)
    (hstate : (t.proc i).state = P.mode) (hwf : P.Wf)
    (halloc : P.allocs = none ∧ (s.pc i).allocs = none)
    (hstarts : P.starts = (s.pc i).starts ∨ P.starts = none) : SchedInv t := by
  obtain ⟨hp, -, -, -⟩ := h.at_process hc
  have hclaims : ∀ {k}, P.Claims k → (s.pc i).starts = some k := by
    rintro k (hk | hk)
    · simp [halloc.1] at hk
    · rcases hstarts with heq | hn
      · rw [← heq, hk]
      · simp [hn] at hk
  refine h.local_step (C := (· = c)) (D := (· = i)) (fun _ _ hd hd' => hd.trans hd'.symm)
    (fun d _ => by rw [hcpu]) hpc hproc ?_ ?_ ?_ ?_ ?_ ?_ ?_ ?_ ?_ ?_ ?_
  · rintro d hd q (hq | hq) rfl
    · exact hd (h.lock_of_process hc hq).1
    · exact hd (h.uniq d c q hq hp)
  · rintro d rfl
    rw [CpuOk, hcpu, hc]
    refine ⟨hp, by rw [hpi, hstate], by rw [hpi]; exact hown, fun j hj => ?_⟩
    rw [hpi, halloc.1] at hj
    cases hj
  · intro d _ q _
    rw [hcpu]
  · rintro q rfl hq
    rw [hcpu] at hq
    exact absurd hp (hq c)
  · rintro q rfl d hd
    cases ho : P.own with
    | true =>
      rw [hown ho, Option.some.injEq] at hd
      subst hd
      exact .inr (.inr (.inr (.inl ⟨by rw [hcpu, hc], by rw [hpi, ho]⟩)))
    | false =>
      rcases hfree ho with hn | ⟨hsame, hof⟩
      · rw [hn] at hd
        cases hd
      · rw [hsame] at hd
        simp [(h.lock_of_process hc hd).2] at hof
  · rintro d rfl q hq hholds
    rcases hholds.of_process hc with ⟨heq, -⟩ | ha
    · exact absurd heq hq
    · simp [halloc.2] at ha
  · rintro q rfl
    rwa [hpi]
  · exact fun q _ r hr => h.ne_of_claims hc hr
  · rintro q rfl r hr
    rw [hpi, halloc.1] at hr
    cases hr
  · rintro q rfl r hr
    have hr' := hclaims (.inr (hpi ▸ hr))
    have hne := h.ne_of_claims hc (.inr hr')
    rw [(hproc r hne).2, hpc r hne]
    exact h.starts q r hr'
  · rintro q r k rfl hq hr
    by_cases hrq : r = q
    · exact hrq.symm
    · rw [hpc r hrq] at hr
      exact h.forks q r k (.inr (hclaims (hpi ▸ hq))) hr

theorem Pc.mode_of_not_own {pc : Pc κ Λ} (h : pc.own = false) : pc.mode = .running := by
  cases pc <;> simp_all [Pc.own, Pc.mode]

/-- A process that is not running and whose lock is free is on no CPU. -/
theorem SchedInv.off_cpu (h : SchedInv s) (hl : (s.proc j).lock = none)
    (hr : (s.proc j).state ≠ .running) (c : Nat) : (s.cpu c).proc ≠ some j := by
  intro hp
  have hok := h.cpus c
  unfold CpuOk at hok
  split at hok
  · simp [hok] at hp
  · rw [hok.1, Option.some.injEq] at hp
    subst hp
    simp [hok.2.1] at hl
  · obtain ⟨h1, h2, h3, -⟩ := hok
    rw [h1, Option.some.injEq] at hp
    subst hp
    cases ho : (s.pc _).own with
    | true => simp [h3 ho] at hl
    | false => exact hr (h2.trans (Pc.mode_of_not_own ho))
  · rw [hok.1, Option.some.injEq] at hp
    subst hp
    simp [hok.2.1] at hl
  · simp [hok.1] at hp

/-- The state of a process that is on no CPU changes, under its free lock. -/
theorem SchedInv.other_step (h : SchedInv s) (hl : (s.proc j).lock = none)
    (hcpu : t.cpu = s.cpu) (hpc : t.pc = s.pc)
    (hproc : ∀ q, q ≠ j → (t.proc q).lock = (s.proc q).lock ∧
      (t.proc q).state = (s.proc q).state)
    (hlock : (t.proc j).lock = none)
    (hstate : (t.proc j).state = (s.proc j).state ∨
      (s.proc j).state = .sleeping ∧ (t.proc j).state = .runnable ∨
      (s.proc j).state = .zombie ∧ (t.proc j).state = .unused) : SchedInv t := by
  rcases hstate with hsame | hch
  · have hall : ∀ q, (t.proc q).lock = (s.proc q).lock ∧ (t.proc q).state = (s.proc q).state := by
      intro q
      by_cases hq : q = j
      · rw [hq, hlock, hl, hsame]
        exact ⟨rfl, rfl⟩
      · exact hproc q hq
    exact h.local_step (C := fun _ => False) (D := fun _ => False) (fun _ _ hd => hd.elim)
      (fun d _ => by rw [hcpu]) (fun q _ => by rw [hpc]) (fun q _ => hall q) (fun _ _ _ _ => id)
      (fun _ => False.elim) (fun _ => False.elim) (fun _ => False.elim) (fun _ => False.elim)
      (fun _ => False.elim) (fun _ => False.elim) (fun _ _ _ _ => id) (fun _ => False.elim)
      (fun _ => False.elim) (fun _ _ _ => False.elim)
  · have hnr : (s.proc j).state ≠ .running ∧ (s.proc j).state ≠ .used := by
      rcases hch with ⟨hs, -⟩ | ⟨hs, -⟩ <;> simp [hs]
    have hoff := h.off_cpu hl hnr.1
    have hused : ∀ {r}, (s.proc r).state = .used → r ≠ j := fun hr heq => hnr.2 (heq ▸ hr)
    refine h.local_step (C := fun _ => False) (D := (· = j)) (fun _ _ hd => hd.elim)
      (fun d _ => by rw [hcpu]) (fun q _ => by rw [hpc]) hproc ?_ (fun _ => False.elim)
      (fun _ => False.elim) ?_ ?_ (fun _ => False.elim) ?_ ?_ ?_ ?_ ?_
    · rintro d - q (hq | hq) rfl
      · simp [hl] at hq
      · exact hoff d hq
    · rintro q rfl -
      have hpark := h.parked q hoff
      rw [hpc]
      rcases hch with ⟨hs, ht⟩ | ⟨hs, ht⟩
      · rw [hs] at hpark
        rw [ht]
        cases hk : s.pc q <;> simp_all [Pc.Parks]
      · rw [hs] at hpark
        rw [ht]
        cases hk : s.pc q <;> simp_all [Pc.Parks]
    · rintro q rfl d hd
      simp [hlock] at hd
    · intro q _
      rw [hpc]
      exact h.wf q
    · rintro q - r (hr | hr)
      · exact hused (h.allocs q r hr).1
      · exact hused (h.starts q r hr).1
    · intro q _ r hr
      obtain ⟨hst, hd⟩ := h.allocs q r (hpc ▸ hr)
      rw [(hproc r (hused hst)).2, hpc]
      exact ⟨hst, hd⟩
    · intro q _ r hr
      obtain ⟨hst, hk⟩ := h.starts q r (hpc ▸ hr)
      rw [(hproc r (hused hst)).2, hpc]
      exact ⟨hst, hk⟩
    · rw [hpc]
      exact fun q r k _ hq hr => h.forks q r k hq hr

theorem SchedInv.fork_step (h : SchedInv s) (hc : (s.cpu c).pc = .process i) (P : Pc κ Λ)
    (hj : ∀ d, (s.cpu d).proc ≠ some j)
    (hlocked : (s.proc j).lock = none ∨ (s.pc i).allocs = some j)
    (hsole : ∀ q, ((s.pc q).allocs = some j ∨ (s.pc q).starts = some j) → q = i)
    (hcpu : t.cpu = s.cpu) (hpi : t.pc i = P)
    (hpc : ∀ q, q ≠ i → q ≠ j → t.pc q = s.pc q)
    (hproc : ∀ q, q ≠ j → (t.proc q).lock = (s.proc q).lock ∧
      (t.proc q).state = (s.proc q).state)
    (hbefore : (s.pc i).own = false ∧ ∀ r, (s.pc i).allocs = some r → r = j)
    (hP : P.own = false ∧ P.mode = .running ∧ P.Wf)
    (hlock : (t.proc j).lock = if P.allocs = some j then some c else none)
    (hparks : (t.pc j).Parks (t.proc j).state) (hquiet : (t.pc j).Wf ∧
      (t.pc j).allocs = none ∧ (t.pc j).starts = none)
    (hallocs : ∀ r, P.allocs = some r → r = j ∧ (t.proc j).state = .used ∧ t.pc j = .dead ∧
      j < nProc)
    (hstarts : ∀ r, P.starts = some r → r = j ∧ (t.proc j).state = .used ∧
      ∃ k, t.pc j = .forkret k) : SchedInv t := by
  obtain ⟨hp, hs, -, ha⟩ := h.at_process hc
  have hij : i ≠ j := fun heq => hj c (heq ▸ hp)
  refine h.local_step (C := (· = c)) (D := fun q => q = i ∨ q = j)
    (fun _ _ hd hd' => hd.trans hd'.symm) (fun d _ => by rw [hcpu])
    (fun q hq => hpc q (fun heq => hq (.inl heq)) fun heq => hq (.inr heq))
    (fun q hq => hproc q fun heq => hq (.inr heq)) ?_ ?_ (fun d _ q _ => by rw [hcpu])
    ?_ ?_ ?_ ?_ ?_ ?_ ?_ ?_
  · rintro d hd q hq (rfl | rfl)
    · rcases hq with hq | hq
      · exact hd (h.lock_of_process hc hq).1
      · exact hd (h.uniq d c q hq hp)
    · rcases hq with hq | hq
      · -- the lock of `j` is held by `c` if at all
        rcases hlocked with hn | hal
        · simp [hn] at hq
        · rw [ha q hal, Option.some.injEq] at hq
          exact hd hq.symm
      · exact hj d hq
  · rintro d rfl
    rw [CpuOk, hcpu, hc]
    refine ⟨hp, ?_, ?_, fun r hr => ?_⟩
    · rw [hpi, (hproc i hij).2, hs, Pc.mode_of_not_own hbefore.1, hP.2.1]
    · rw [hpi, hP.1]
      simp
    · rw [hpi] at hr
      obtain ⟨rfl, -⟩ := hallocs r hr
      rw [hlock, if_pos hr]
  · rintro q (rfl | rfl) hq
    · rw [hcpu] at hq
      exact absurd hp (hq c)
    · exact hparks
  · rintro q (rfl | rfl) d hd
    · rw [(hproc q hij).1] at hd
      simp [(h.lock_of_process hc hd).2] at hbefore
    · rw [hlock] at hd
      split at hd
      · rename_i hal
        rw [Option.some.injEq] at hd
        subst hd
        exact .inr (.inr (.inr (.inr ⟨i, by rw [hcpu, hc], by rw [hpi, hal]⟩)))
      · cases hd
  · rintro d rfl q hq hholds
    rcases hholds.of_process hc with ⟨heq, -⟩ | hal
    · exact absurd (.inl heq) hq
    · exact absurd (.inr (hbefore.2 q hal)) hq
  · rintro q (rfl | rfl)
    · rw [hpi]
      exact hP.2.2
    · exact hquiet.1
  · rintro q hq r hr (rfl | rfl)
    · exact h.ne_of_claims hc hr rfl
    · exact hq (.inl (hsole q hr))
  · rintro q (rfl | rfl) r hr
    · rw [hpi] at hr
      obtain ⟨rfl, hst, hd⟩ := hallocs r hr
      exact ⟨hst, hd⟩
    · simp [hquiet.2.1] at hr
  · rintro q (rfl | rfl) r hr
    · rw [hpi] at hr
      obtain ⟨rfl, hst, hd⟩ := hstarts r hr
      exact ⟨hst, hd⟩
    · simp [hquiet.2.2] at hr
  · rintro q r k (rfl | rfl) hq hr
    · rw [hpi] at hq
      have hk : k = j := hq.elim (fun hq => (hallocs k hq).1) fun hq => (hstarts k hq).1
      subst hk
      by_contra hne
      by_cases hrk : r = k
      · simp [hrk, Pc.Claims, hquiet.2.1, hquiet.2.2] at hr
      · rw [hpc r (Ne.symm hne) hrk] at hr
        exact hne (hsole r hr).symm
    · simp [Pc.Claims, hquiet.2.1, hquiet.2.2] at hq

theorem SchedInv.scan_step {n : Nat} {x : Cpu} (h : SchedInv s) (hc : (s.cpu c).pc = .scan i)
    (hx : x = ⟨(s.cpu c).proc, .scan n⟩) : SchedInv (s.setCpu c x) := by
  have hok := h.cpus c
  rw [CpuOk, hc] at hok
  refine h.local_step (C := (· = c)) (D := fun _ => False) (fun _ _ hd hd' => hd.trans hd'.symm)
    (fun d hd => by simp [hd]) (fun _ _ => rfl) (fun _ _ => ⟨rfl, rfl⟩) (fun _ _ _ _ => id) ?_ ?_
    (fun _ => False.elim) (fun _ => False.elim) ?_ (fun _ => False.elim) (fun _ _ _ _ => id)
    (fun _ => False.elim) (fun _ => False.elim) (fun _ _ _ => False.elim)
  · rintro d rfl
    simp [CpuOk, hx, hok]
  · rintro d rfl q -
    simp [hx]
  · rintro d rfl q - hholds
    rcases hholds with hd | hd | hd | ⟨hd, -⟩ | ⟨r, hd, -⟩ <;> simp [hc] at hd

/-- CPU `c` and the one process it deals with, which no other CPU has. -/
theorem SchedInv.cpu_step {x : Cpu} (h : SchedInv s)
    (hsole : ∀ d, d ≠ c → (s.cpu d).proc ≠ some i ∧ (s.proc i).lock ≠ some d)
    (hprocs : ((s.cpu c).proc = none ∨ (s.cpu c).proc = some i) ∧
      (x.proc = none ∨ x.proc = some i))
    (hholds : ∀ q, Holds s c q → q = i)
    (hcpu : ∀ d, t.cpu d = if d = c then x else s.cpu d)
    (hpc : ∀ q, q ≠ i → t.pc q = s.pc q)
    (hproc : ∀ q, q ≠ i → (t.proc q).lock = (s.proc q).lock ∧
      (t.proc q).state = (s.proc q).state)
    (hok : CpuOk t c) (hparks : x.proc = none → (t.pc i).Parks (t.proc i).state)
    (hlock : ∀ d, (t.proc i).lock = some d → d = c ∧ Holds t c i) (hwf : (t.pc i).Wf)
    (hallocs : (t.pc i).allocs = none ∧ (s.pc i).allocs = none)
    (hstarts : (t.pc i).starts = (s.pc i).starts) (hused : (s.proc i).state ≠ .used) :
    SchedInv t := by
  have hself : t.cpu c = x := by rw [hcpu, if_pos rfl]
  have hne : ∀ {q r}, (s.pc q).Claims r → r ≠ i := by
    rintro q r (hr | hr) rfl
    · exact hused (h.allocs q r hr).1
    · exact hused (h.starts q r hr).1
  have hclaims : ∀ {k}, (t.pc i).Claims k → (s.pc i).starts = some k := by
    rintro k (hk | hk)
    · simp [hallocs.1] at hk
    · rwa [hstarts] at hk
  refine h.local_step (C := (· = c)) (D := (· = i)) (fun _ _ hd hd' => hd.trans hd'.symm)
    (fun d hd => by rw [hcpu, if_neg hd]) hpc hproc ?_ (fun d hd => hd ▸ hok) ?_ ?_ ?_ ?_
    (fun q hq => hq ▸ hwf) (fun q _ r hr => hne hr) ?_ ?_ ?_
  · rintro d hd q hq rfl
    exact hq.elim (hsole d hd).2 (hsole d hd).1
  · rintro d rfl q hq
    rw [hself]
    rcases hprocs with ⟨hs | hs, hx | hx⟩ <;> simp [hs, hx, Ne.symm hq]
  · rintro q rfl hq
    refine hparks (hprocs.2.resolve_right fun hx => hq c ?_)
    rw [hself, hx]
  · rintro q rfl d hd
    obtain ⟨rfl, hholds⟩ := hlock d hd
    exact hholds
  · rintro d rfl q hq hq'
    exact absurd (hholds q hq') hq
  · rintro q rfl r hr
    simp [hallocs.1] at hr
  · rintro q rfl r hr
    have hr' := hclaims (.inr hr)
    rw [(hproc r (hne (.inr hr'))).2, hpc r (hne (.inr hr'))]
    exact h.starts q r hr'
  · rintro q r k rfl hq hr
    by_cases hrq : r = q
    · exact hrq.symm
    · rw [hpc r hrq] at hr
      exact h.forks q r k (.inr (hclaims hq)) hr

theorem Pc.Parks.allocs {pc : Pc κ Λ} {x : ProcState} (h : pc.Parks x) : pc.allocs = none := by
  have ho := h.own
  cases pc <;> simp_all [Pc.own, Pc.allocs]

theorem Pc.Parks.mode {pc : Pc κ Λ} (h : pc.Parks .runnable) : pc.mode = .running := by
  cases pc <;> simp_all [Pc.Parks, Pc.mode]

/-- The entry that `fork` has found is on no CPU. -/
theorem SchedInv.alloc_off_cpu (h : SchedInv s) (hc : (s.cpu c).pc = .process i)
    (ha : (s.pc i).allocs = some j) (d : Nat) : (s.cpu d).proc ≠ some j := by
  intro hp
  have hl := (h.at_process hc).2.2.2 j ha
  have hok := h.cpus d
  unfold CpuOk at hok
  split at hok
  · simp [hok] at hp
  · rename_i q hd
    obtain ⟨hq, hlq, -⟩ := hok
    rw [hq, Option.some.injEq] at hp
    subst hp
    rw [hl, Option.some.injEq] at hlq
    subst hlq
    simp [hc] at hd
  · obtain ⟨hq, hst, -⟩ := hok
    rw [hq, Option.some.injEq] at hp
    subst hp
    rw [(h.allocs i _ ha).1] at hst
    exact (Pc.mode_live _).2 hst.symm
  · rename_i q hd
    obtain ⟨hq, hlq, -⟩ := hok
    rw [hq, Option.some.injEq] at hp
    subst hp
    rw [hl, Option.some.injEq] at hlq
    subst hlq
    simp [hc] at hd
  · simp [hok.1] at hp

/-! ## Every step keeps it -/

/-- The entries agree in what the invariant is about. -/
def SameSched (s t : Sys κ M Λ) : Prop :=
  ∀ q, (t.proc q).lock = (s.proc q).lock ∧ (t.proc q).state = (s.proc q).state

variable [Fintype Λ] [DecidableEq Λ]

/-- What a process does in its own code is only seen in its point. -/
theorem Call.quiet {x : ω} {instr : Instr κ M ω Λ} (h : Call s c i x instr t) :
    t.cpu = s.cpu ∧ SameSched s t ∧ (∀ q, q ≠ i → t.pc q = s.pc q) ∧ (t.pc i).Free ∧
      (t.pc i).Wf ∧ (t.pc i).starts = none := by
  refine ⟨?_, fun q => ?_, fun q hq => ?_, ?_, ?_, ?_⟩
  · cases h <;> rfl
  · cases h with
    | setkilled hl => by_cases hq : q = i <;> simp [hq]
    | trace => by_cases hq : q = i <;> simp [hq]
    | _ => exact ⟨rfl, rfl⟩
  · cases h <;> simp [hq]
  · cases h <;> simp [Pc.Free, Pc.own, Pc.mode, Pc.allocs]
  · cases h <;> simp [Pc.Wf, Pc.Returns]
  · cases h <;> simp [Pc.starts]

theorem SchedInv.quiet_step (h : SchedInv s) (hc : (s.cpu c).pc = .process i) (P : Pc κ Λ)
    (hfree : (s.pc i).Free) (hP : P.Free) (hwf : P.Wf)
    (hstarts : P.starts = (s.pc i).starts ∨ P.starts = none) (hcpu : t.cpu = s.cpu)
    (hpi : t.pc i = P) (hpc : ∀ q, q ≠ i → t.pc q = s.pc q) (hproc : SameSched s t) :
    SchedInv t := by
  obtain ⟨-, hs, -, -⟩ := h.at_process hc
  refine h.own_step hc P hcpu hpi hpc (fun q _ => hproc q) ?_ (fun _ => .inr ⟨(hproc i).1, hfree.1⟩)
    ?_ hwf ⟨hP.2.2, hfree.2.2⟩ hstarts
  · rw [hP.1]
    simp
  · rw [(hproc i).2, hs, hP.2.1, hfree.2.1]

/-- The points are given by the statements before and after the step. -/
theorem SchedInv.goto {P Q : Pc κ Λ} (h : SchedInv s) (hc : (s.cpu c).pc = .process i)
    (hpc : s.pc i = P) (ht : t.pc = upd s.pc i Q) (hcpu : t.cpu = s.cpu) (hP : P.Free)
    (hQ : Q.Free) (hwf : Q.Wf) (hstarts : Q.starts = P.starts ∨ Q.starts = none)
    (hproc : SameSched s t) : SchedInv t := by
  subst hpc
  apply h.quiet_step hc Q hP hQ hwf hstarts hcpu _ _ hproc
  · rw [ht, upd_same]
  · intro q hq
    rw [ht, upd_other hq]

theorem SchedInv.thread_step {ok : Bool} (h : SchedInv s) (hc : (s.cpu c).pc = .process i)
    (ht : Thread s c i ok t) : SchedInv t := by
  obtain ⟨hp, hs, ho, ha⟩ := h.at_process hc
  have hwfi := h.wf i
  cases ht with
  | @forkret _ k hpc =>
    refine h.own_step hc (.run k) rfl (by simp) (fun q hq => by simp [hq])
      (fun q hq => by simp [hq]) (by simp [Pc.own]) (fun _ => .inl (by simp)) ?_ trivial
      ⟨rfl, by rw [hpc]; rfl⟩ (.inr rfl)
    simp [hs, hpc, Pc.mode]
  | @sleepAcquire _ ch l next hpc hl =>
    rw [hpc] at hwfi hs
    refine h.own_step hc (.sleepRelease ch l next) rfl (by simp) (fun q hq => by simp [hq])
      (fun q hq => by simp [hq]) (fun _ => by simp) (by simp [Pc.own]) ?_ hwfi
      ⟨rfl, by rw [hpc]; rfl⟩ (.inr rfl)
    simp [hs, Pc.mode]
  | @sleepRelease _ ch l next hpc hl =>
    rw [hpc] at hwfi hs ho
    refine h.own_step hc (.sleepSet ch l next) rfl (by simp) (fun q hq => by simp [hq])
      (fun q hq => by simp) (fun _ => ho rfl) (by simp [Pc.own]) ?_ hwfi
      ⟨rfl, by rw [hpc]; rfl⟩ (.inr rfl)
    simp [hs, Pc.mode]
  | @sleepSet _ ch l next hpc =>
    rw [hpc] at hwfi ho
    refine h.own_step hc (.sched (.sleepTidy l next)) rfl (by simp) (fun q hq => by simp [hq])
      (fun q hq => by simp [hq]) (fun _ => by simp [ho rfl]) (by simp [Pc.own]) ?_ hwfi
      ⟨rfl, by rw [hpc]; rfl⟩ (.inr rfl)
    simp [Pc.mode]
  | @sched _ next hpc hl hlocks hnr =>
    rw [hpc] at hwfi hs
    have hparks : next.Parks (s.proc i).state := by
      rw [hs] at hnr ⊢
      unfold Pc.mode at hnr ⊢
      split at hnr <;> simp_all [Pc.Parks]
    refine h.cpu_step (c := c) (i := i) (x := ⟨(s.cpu c).proc, .back i⟩) (fun d hd => ⟨?_, ?_⟩)
      ⟨.inr hp, .inr hp⟩ (fun q hq => ?_) (fun d => by simp) (fun q hq => by simp [hq])
      (fun q hq => by simp) ?_ (fun hn => by simp [hp] at hn) (fun d hd => ?_) ?_
      ⟨by simpa using hparks.allocs, by rw [hpc]; rfl⟩ ?_ ?_
    · exact fun heq => hd (h.uniq d c i heq hp)
    · rw [hl]
      exact fun heq => hd (Option.some.inj heq).symm
    · rcases hq with hq | hq | hq | ⟨hq, -⟩ | ⟨r, hr, har⟩
      · simp [hc] at hq
      · simp [hc] at hq
      · simp [hc] at hq
      · rw [hc, CpuPc.process.injEq] at hq
        exact hq.symm
      · rw [hc, CpuPc.process.injEq] at hr
        subst hr
        simp [hpc, Pc.allocs] at har
    · have hused : (s.proc i).state ≠ .used := by
        rw [hs]
        exact (Pc.mode_live _).2
      simpa [CpuOk] using ⟨hp, hl, hparks, hused⟩
    · simp only [Sys.setPc_proc, Sys.setCpu_proc, hl, Option.some.injEq] at hd
      exact ⟨hd.symm, .inr (.inl (by simp))⟩
    · simpa [Pc.Wf] using hwfi
    · simp [hpc, Pc.starts]
    · rw [hs]
      exact (Pc.mode_live _).2
  | @sleepTidy _ l next hpc =>
    rw [hpc] at hwfi hs
    refine h.own_step hc (.relock l next) rfl (by simp) (fun q hq => by simp [hq])
      (fun q hq => by simp [hq]) (by simp [Pc.own]) (fun _ => .inl (by simp)) ?_ hwfi
      ⟨rfl, by rw [hpc]; rfl⟩ (.inr rfl)
    simp [hs, Pc.mode]
  | @relock _ l next hpc hl =>
    rw [hpc] at hwfi
    obtain ⟨hfree, hwf, hst⟩ := hwfi.facts
    exact h.goto hc hpc rfl rfl ⟨rfl, rfl, rfl⟩ hfree hwf (.inr hst) fun _ => ⟨rfl, rfl⟩
  | @yieldAcquire _ next hpc hl =>
    rw [hpc] at hwfi
    refine h.own_step hc (.sched (.yieldRelease next)) rfl (by simp) (fun q hq => by simp [hq])
      (fun q hq => by simp [hq]) (fun _ => by simp) (by simp [Pc.own]) ?_ hwfi
      ⟨rfl, by rw [hpc]; rfl⟩ (.inl (by rw [hpc]; rfl))
    simp [Pc.mode]
  | @yieldRelease _ next hpc =>
    rw [hpc] at hwfi hs
    obtain ⟨hfree, hwf⟩ := hwfi
    refine h.own_step hc next rfl (by simp) (fun q hq => by simp [hq])
      (fun q hq => by simp [hq]) (by simp [hfree.1]) (fun _ => .inl (by simp)) ?_ hwf
      ⟨hfree.2.2, by rw [hpc]; rfl⟩ (.inl (by rw [hpc]; rfl))
    simp only [Sys.setPc_proc, Sys.setProc_proc, if_true, hs, hfree.2.1]
    rfl
  | @wakeSelf _ ch next hpc hi =>
    rw [hpc] at hwfi
    exact h.goto hc hpc rfl rfl ⟨rfl, rfl, rfl⟩ ⟨rfl, rfl, rfl⟩ hwfi (.inr rfl) fun _ => ⟨rfl, rfl⟩
  | @wake _ ch j next hpc hj hji hl =>
    rw [hpc] at hwfi
    have h₁ : SchedInv (s.setProc j (wakeOne ch)) := by
      refine h.other_step hl rfl rfl (fun q hq => by simp [hq]) ?_ ?_
      · simp only [Sys.setProc_proc, if_true]
        unfold wakeOne
        split <;> exact hl
      · simp only [Sys.setProc_proc, if_true]
        unfold wakeOne
        split
        · rename_i hw
          exact .inr (.inl ⟨hw.1, rfl⟩)
        · exact .inl rfl
    exact h₁.goto hc hpc rfl rfl ⟨rfl, rfl, rfl⟩ ⟨rfl, rfl, rfl⟩ hwfi (.inr rfl) fun _ => ⟨rfl, rfl⟩
  | @wakeEnd _ ch j next hpc hj =>
    rw [hpc] at hwfi
    obtain ⟨hfree, hwf, hst⟩ := hwfi.facts
    exact h.goto hc hpc rfl rfl ⟨rfl, rfl, rfl⟩ hfree hwf (.inr hst) fun _ => ⟨rfl, rfl⟩
  | @kill _ pid j k hpc hj hl hpid =>
    have h₁ : SchedInv (s.setProc j killOne) := by
      refine h.other_step hl rfl rfl (fun q hq => by simp [hq]) ?_ ?_
      · simp [killOne, hl]
      · simp only [Sys.setProc_proc, if_true, killOne]
        split
        · rename_i hw
          exact .inr (.inl ⟨hw, rfl⟩)
        · exact .inl rfl
    exact h₁.goto hc hpc rfl rfl ⟨rfl, rfl, rfl⟩ ⟨rfl, rfl, rfl⟩ trivial (.inr rfl)
      fun _ => ⟨rfl, rfl⟩
  | @forkFound _ j k child hpc hj hl hst =>
    have hoff := h.off_cpu hl (by simp [hst])
    have hdead : s.pc j = .dead := by
      have := h.parked j hoff
      rwa [hst] at this
    have hij : j ≠ i := by
      rintro rfl
      exact hoff c hp
    refine h.fork_step hc (.forkAlloc j k child) hoff (.inl hl) (fun q hq => ?_) rfl (by simp)
      (fun q hq _ => by simp [hq]) (fun q hq => by simp [hq]) ⟨by rw [hpc]; rfl, fun r hr => ?_⟩
      ⟨rfl, rfl, trivial⟩ (by simp [Pc.allocs]) ?_ ?_ (fun r hr => ?_)
      (fun r hr => by simp [Pc.starts] at hr)
    · rcases hq with hq | hq
      · simp [(h.allocs q j hq).1] at hst
      · simp [(h.starts q j hq).1] at hst
    · simp [hpc, Pc.allocs] at hr
    · simp [hij, hdead, Pc.Parks]
    · simp [hij, hdead, Pc.Wf, Pc.allocs, Pc.starts]
    · simp only [Pc.allocs, Option.some.injEq] at hr
      subst hr
      simp [hij, hdead, hj]
  | @forkAlloc j k child hpc =>
    have hal : (s.pc i).allocs = some j := by
      rw [hpc]
      rfl
    obtain ⟨hst, hdead, -⟩ := h.allocs i j hal
    have hij : j ≠ i := by
      rintro rfl
      simp [hs, hpc, Pc.mode] at hst
    refine h.fork_step hc (.forkWait j (s.proc j).pid k) (h.alloc_off_cpu hc hal) (.inr hal)
      (fun q hq => h.forks q i j hq (.inl hal)) rfl (by simp)
      (fun q hq hqj => by simp [hq, hqj]) (fun q hq => by simp [hq])
        ⟨by rw [hpc]; rfl, fun r hr => ?_⟩
      ⟨rfl, rfl, trivial⟩ (by simp [Pc.allocs]) ?_ ?_ (fun r hr => by simp [Pc.allocs] at hr)
      (fun r hr => ?_)
    · rw [hal, Option.some.injEq] at hr
      exact hr.symm
    · simp [hij, hst, Pc.Parks]
    · simp [hij, Pc.Wf, Pc.allocs, Pc.starts]
    · simp only [Pc.starts, Option.some.injEq] at hr
      subst hr
      simp [hij, hst]
  | @forkFail j k child hpc =>
    have hal : (s.pc i).allocs = some j := by
      rw [hpc]
      rfl
    obtain ⟨hst, hdead, -⟩ := h.allocs i j hal
    have hij : j ≠ i := by
      rintro rfl
      simp [hs, hpc, Pc.mode] at hst
    refine h.fork_step hc (.run (k (-1))) (h.alloc_off_cpu hc hal) (.inr hal)
      (fun q hq => h.forks q i j hq (.inl hal)) rfl (by simp)
      (fun q hq _ => by simp [hq]) (fun q hq => by simp [hq]) ⟨by rw [hpc]; rfl, fun r hr => ?_⟩
      ⟨rfl, rfl, trivial⟩ (by simp [Pc.allocs]) ?_ ?_ (fun r hr => by simp [Pc.allocs] at hr)
      (fun r hr => by simp [Pc.starts] at hr)
    · rw [hal, Option.some.injEq] at hr
      exact hr.symm
    · simp [hij, hdead, Pc.Parks, freeproc]
    · simp [hij, hdead, Pc.Wf, Pc.allocs, Pc.starts]
  | @forkWait _ j pid k hpc hl =>
    exact h.goto hc hpc rfl rfl ⟨rfl, rfl, rfl⟩ ⟨rfl, rfl, rfl⟩ trivial (.inl rfl)
      fun _ => ⟨rfl, rfl⟩
  | @forkParent _ j pid k hpc =>
    exact h.goto hc hpc rfl rfl ⟨rfl, rfl, rfl⟩ ⟨rfl, rfl, rfl⟩ trivial (.inl rfl)
      fun q => by
        by_cases hq : q = j <;> simp [hq]
  | @forkUnwait _ j pid k hpc =>
    exact h.goto hc hpc rfl rfl ⟨rfl, rfl, rfl⟩ ⟨rfl, rfl, rfl⟩ trivial (.inl rfl)
      fun _ => ⟨rfl, rfl⟩
  | @forkRunnable _ j pid k hpc hl =>
    have hst : (s.pc i).starts = some j := by
      rw [hpc]
      rfl
    obtain ⟨hused, k', hk'⟩ := h.starts i j hst
    have hij : j ≠ i := by
      rintro rfl
      simp [hs, hpc, Pc.mode] at hused
    refine h.fork_step hc (.forkMask j pid k) (h.off_cpu hl (by simp [hused])) (.inl hl)
      (fun q hq => h.forks q i j hq (.inr hst)) rfl (by simp)
      (fun q hq _ => by simp [hq]) (fun q hq => by simp [hq])
      ⟨by rw [hpc]; rfl, fun r hr => by simp [hpc, Pc.allocs] at hr⟩
      ⟨rfl, rfl, trivial⟩ (by simp [Pc.allocs, hl]) ?_ ?_ (fun r hr => by simp [Pc.allocs] at hr)
      (fun r hr => by simp [Pc.starts] at hr)
    · simp [hij, hk', Pc.Parks]
    · simp [hij, hk', Pc.Wf, Pc.allocs, Pc.starts]
  | @forkMask _ j pid k hpc =>
    exact h.goto hc hpc rfl rfl ⟨rfl, rfl, rfl⟩ ⟨rfl, rfl, rfl⟩ trivial (.inr rfl)
      fun q => by
        by_cases hq : q = j <;> simp [hq]
  | @reparent _ j status hpc hj hpar =>
    exact h.goto hc hpc rfl rfl ⟨rfl, rfl, rfl⟩ ⟨rfl, rfl, rfl⟩ trivial (.inr rfl)
      fun q => by
        by_cases hq : q = j <;> simp [hq]
  | @exitZombie _ status hpc hl =>
    refine h.own_step hc .exitUnwait rfl (by simp) (fun q hq => by simp [hq])
      (fun q hq => by simp [hq]) (fun _ => by simp) (by simp [Pc.own]) ?_ trivial
      ⟨rfl, by rw [hpc]; rfl⟩ (.inr rfl)
    simp [Pc.mode]
  | exitUnwait hpc =>
    rw [hpc] at hs ho
    refine h.own_step hc (.sched .dead) rfl (by simp) (fun q hq => by simp [hq])
      (fun q hq => by simp) (fun _ => ho rfl) (by simp [Pc.own]) ?_ trivial
      ⟨rfl, by rw [hpc]; rfl⟩ (.inr rfl)
    simp [hs, Pc.mode]
  | @waitReap _ j kids addr k hpc hj hpar hl hz hok =>
    have h₁ : SchedInv (s.setProc j freeproc) :=
      h.other_step hl rfl rfl (fun q hq => by simp [hq]) (by simp [freeproc, hl])
        (.inr (.inr ⟨hz, by simp [freeproc]⟩))
    exact h₁.goto hc hpc rfl rfl ⟨rfl, rfl, rfl⟩ ⟨rfl, rfl, rfl⟩ trivial (.inr rfl)
      fun _ => ⟨rfl, rfl⟩
  -- the other steps only move the thread, between points without a lock
  | killNext hpc | killEnd hpc | forkNext hpc | forkFull hpc | exitWait hpc | reparentNext hpc
  | reparentEnd hpc | waitLock hpc | waitFault hpc | waitKid hpc | waitNext hpc | waitEnd hpc
  | waitNone hpc | waitSleep hpc | waitReturn hpc =>
    exact h.goto hc hpc rfl rfl ⟨rfl, rfl, rfl⟩ ⟨rfl, rfl, rfl⟩ trivial (.inr rfl)
      fun _ => ⟨rfl, rfl⟩

theorem SchedInv.dispatch_step (h : SchedInv s) (hc : (s.cpu c).pc = .scan i)
    (hl : (s.proc i).lock = none) (hr : (s.proc i).state = .runnable) :
    SchedInv ((s.setProc i fun x => { x with lock := some c, state := .running }).setCpu c
      ⟨some i, .swtch i⟩) := by
  have hoff := h.off_cpu hl (by simp [hr])
  have hparks := h.parked i hoff
  rw [hr] at hparks
  have hok := h.cpus c
  rw [CpuOk, hc] at hok
  refine h.cpu_step (c := c) (i := i) (x := ⟨some i, .swtch i⟩) (fun d _ => ⟨hoff d, by simp [hl]⟩)
    ⟨.inl hok, .inr rfl⟩ (fun q hq => ?_) (fun d => by simp) (fun _ _ => rfl)
    (fun q hq => by simp [hq]) ?_ (fun hn => by simp at hn) (fun d hd => ?_) (h.wf i)
    ⟨hparks.allocs, hparks.allocs⟩ rfl (by simp [hr])
  · rcases hq with hq | hq | hq | ⟨hq, -⟩ | ⟨r, hq, -⟩ <;> simp [hc] at hq
  · simpa [CpuOk] using hparks
  · simp only [Sys.setCpu_proc, Sys.setProc_proc, if_true, Option.some.injEq] at hd
    exact ⟨hd.symm, .inl (by simp)⟩

theorem SchedInv.swtch_step (h : SchedInv s) (hc : (s.cpu c).pc = .swtch i) :
    SchedInv (s.setCpu c ⟨(s.cpu c).proc, .process i⟩) := by
  have hok := h.cpus c
  rw [CpuOk, hc] at hok
  obtain ⟨hp, hl, hr, hparks⟩ := hok
  refine h.cpu_step (c := c) (i := i) (x := ⟨(s.cpu c).proc, .process i⟩) (fun d hd => ⟨?_, ?_⟩)
    ⟨.inr hp, .inr hp⟩ (fun q hq => ?_) (fun d => by simp) (fun _ _ => rfl)
    (fun _ _ => ⟨rfl, rfl⟩) ?_ (fun hn => by simp [hp] at hn) (fun d hd => ?_) (h.wf i)
    ⟨hparks.allocs, hparks.allocs⟩ rfl (by simp [hr])
  · exact fun heq => hd (h.uniq d c i heq hp)
  · rw [hl]
    exact fun heq => hd (Option.some.inj heq).symm
  · rcases hq with hq | hq | hq | ⟨hq, -⟩ | ⟨r, hq, -⟩
    · rw [hc, CpuPc.swtch.injEq] at hq
      exact hq.symm
    all_goals simp [hc] at hq
  · simp [CpuOk, hp, hl, hr, hparks.mode, hparks.allocs]
  · simp only [Sys.setCpu_proc, hl, Option.some.injEq] at hd
    exact ⟨hd.symm, .inr (.inr (.inr (.inl ⟨by simp, hparks.own⟩)))⟩

theorem SchedInv.back_step (h : SchedInv s) (hc : (s.cpu c).pc = .back i) :
    SchedInv (s.setCpu c ⟨none, .release i⟩) := by
  have hok := h.cpus c
  rw [CpuOk, hc] at hok
  obtain ⟨hp, hl, hparks, hused⟩ := hok
  refine h.cpu_step (c := c) (i := i) (x := ⟨none, .release i⟩) (fun d hd => ⟨?_, ?_⟩)
    ⟨.inr hp, .inl rfl⟩ (fun q hq => ?_) (fun d => by simp) (fun _ _ => rfl)
    (fun _ _ => ⟨rfl, rfl⟩) ?_ (fun _ => hparks) (fun d hd => ?_) (h.wf i)
    ⟨hparks.allocs, hparks.allocs⟩ rfl hused
  · exact fun heq => hd (h.uniq d c i heq hp)
  · rw [hl]
    exact fun heq => hd (Option.some.inj heq).symm
  · rcases hq with hq | hq | hq | ⟨hq, -⟩ | ⟨r, hq, -⟩
    · simp [hc] at hq
    · rw [hc, CpuPc.back.injEq] at hq
      exact hq.symm
    all_goals simp [hc] at hq
  · simpa [CpuOk] using ⟨hl, hparks, hused⟩
  · simp only [Sys.setCpu_proc, hl, Option.some.injEq] at hd
    exact ⟨hd.symm, .inr (.inr (.inl (by simp)))⟩

theorem SchedInv.release_step {n : Nat} (h : SchedInv s) (hc : (s.cpu c).pc = .release i) :
    SchedInv ((s.setProc i fun x => { x with lock := none }).setCpu c
      ⟨(s.cpu c).proc, .scan n⟩) := by
  have hok := h.cpus c
  rw [CpuOk, hc] at hok
  obtain ⟨hp, hl, hparks, hused⟩ := hok
  -- a CPU that had the process would hold its lock
  have hoff : ∀ d, (s.cpu d).proc ≠ some i := by
    intro d hd
    have hok := h.cpus d
    unfold CpuOk at hok
    split at hok
    · simp [hok] at hd
    · rename_i q hq
      rw [hok.1, Option.some.injEq] at hd
      subst hd
      rw [hl, Option.some.injEq] at hok
      obtain ⟨-, rfl, -⟩ := hok
      simp [hc] at hq
    · rename_i q hq
      rw [hok.1, Option.some.injEq] at hd
      subst hd
      have := hok.2.2.1 hparks.own
      rw [hl, Option.some.injEq] at this
      subst this
      simp [hc] at hq
    · rename_i q hq
      rw [hok.1, Option.some.injEq] at hd
      subst hd
      rw [hl, Option.some.injEq] at hok
      obtain ⟨-, rfl, -⟩ := hok
      simp [hc] at hq
    · simp [hok.1] at hd
  refine h.cpu_step (c := c) (i := i) (x := ⟨(s.cpu c).proc, .scan n⟩) (fun d hd => ⟨hoff d, ?_⟩)
    ⟨.inl hp, .inl hp⟩ (fun q hq => ?_) (fun d => by simp) (fun _ _ => rfl)
    (fun q hq => by simp [hq]) ?_ (fun _ => by simpa using hparks)
    (fun d hd => by simp at hd) (h.wf i) ⟨hparks.allocs, hparks.allocs⟩ rfl hused
  · rw [hl]
    exact fun heq => hd (Option.some.inj heq).symm
  · rcases hq with hq | hq | hq | ⟨hq, -⟩ | ⟨r, hq, -⟩
    · simp [hc] at hq
    · simp [hc] at hq
    · rw [hc, CpuPc.release.injEq] at hq
      exact hq.symm
    all_goals simp [hc] at hq
  · simp [CpuOk, hp]

theorem SchedInv.step {code : κ → Instr κ M ω Λ} {e : Ev ω} (h : SchedInv s)
    (hst : Step code s e t) : SchedInv t := by
  cases hst with
  | dispatch hc hl hr => exact h.dispatch_step hc hl hr
  | scan hc hl hr => exact h.scan_step hc rfl
  | swtch hc => exact h.swtch_step hc
  | back hc => exact h.back_step hc
  | release hc => exact h.release_step hc
  | @instr c i x ok k t hc hpc hi =>
    obtain ⟨hcpu, hproc, hpcs, hfree, hwf, hst⟩ := hi.quiet
    exact h.quiet_step hc (t.pc i) (by rw [hpc]; exact ⟨rfl, rfl, rfl⟩) hfree hwf (.inr hst) hcpu
      rfl hpcs hproc
  | thread hc ht => exact h.thread_step hc ht
  | @tick c i hc hl hlocks =>
    have hfree : (s.pc i).Free := by
      obtain ⟨-, -, ho, ha⟩ := h.at_process hc
      have hown : (s.pc i).own = false := by
        by_contra hne
        exact hl (ho (by simpa using hne))
      refine ⟨hown, Pc.mode_of_not_own hown, ?_⟩
      cases hal : (s.pc i).allocs with
      | none => rfl
      | some j =>
        obtain ⟨hst, -, hj⟩ := h.allocs i j hal
        have hji : j ≠ i := by
          rintro rfl
          simp [(h.at_process hc).2.1, Pc.mode_of_not_own hown] at hst
        exact absurd (ha j hal) (hlocks.1 j hj hji)
    exact h.quiet_step hc (.yieldAcquire (s.pc i)) hfree ⟨rfl, rfl, rfl⟩ ⟨hfree, h.wf i⟩ (.inl rfl)
      rfl (by simp) (fun q hq => by simp [hq]) fun _ => ⟨rfl, rfl⟩
  | @intr p hl hsl =>
    exact h.other_step (j := p) hl rfl rfl (fun q hq => by simp [hq]) (by simp [hl])
      (.inr (.inl ⟨hsl, by simp⟩))

theorem SchedInv.init (k : κ) (m : M) : SchedInv (init k m : Sys κ M Λ) := by
  have hpc : ∀ q, (Procs.init k m : Sys κ M Λ).pc q = if q = initproc then .forkret k else .dead :=
    fun q => rfl
  have hproc : ∀ q, (Procs.init k m : Sys κ M Λ).proc q =
      if q = initproc then { Proc.fresh with state := .runnable, pid := 1 } else Proc.fresh :=
    fun q => rfl
  refine ⟨fun c => rfl, fun c d i hc => (by cases hc), fun i _ => ?_, fun i c hl => ?_, fun i => ?_,
    fun q j hq => ?_, fun q j hq => ?_, fun q r j hq => ?_⟩
  · rw [hpc, hproc]
    split <;> simp [Pc.Parks, Proc.fresh]
  · rw [hproc] at hl
    split at hl <;> simp [Proc.fresh] at hl
  · rw [hpc]
    split <;> trivial
  · rw [hpc] at hq
    split at hq <;> simp [Pc.allocs] at hq
  · rw [hpc] at hq
    split at hq <;> simp [Pc.starts] at hq
  · rw [hpc] at hq
    split at hq <;> simp [Pc.allocs, Pc.starts] at hq

theorem SchedInv.of_exec {code : κ → Instr κ M ω Λ} {k : κ} {m : M} {evs : List (Ev ω)}
    (h : exec code (Procs.init k m) evs = some s) : SchedInv s :=
  (Runs.of_exec (fun _ _ _ => trivial) h : Runs code (fun _ _ => True) _ _ _).invariant
    (fun _ _ _ h _ hst => h.step hst) (SchedInv.init k m)

/-! ## The life of a process -/

inductive Edge : ProcState → ProcState → Prop where
  | alloc : Edge .unused .used
  | start : Edge .used .runnable
  | dispatch : Edge .runnable .running
  | yield : Edge .running .runnable
  | sleep : Edge .running .sleeping
  | exit : Edge .running .zombie
  | wakeup : Edge .sleeping .runnable
  | abort : Edge .used .unused
  | reap : Edge .zombie .unused

theorem SchedInv.thread_edge {ok : Bool} (h : SchedInv s) (hc : (s.cpu c).pc = .process i)
    (ht : Thread s c i ok t) (p : Nat) :
    (t.proc p).state = (s.proc p).state ∨
      Edge (s.proc p).state (t.proc p).state ∧ (s.proc p).state ≠ .runnable ∧
        ((s.proc p).lock = none ∨ (s.proc p).state = .running ∨ (s.proc p).state = .used) ∧
        ((s.proc p).state = .unused → p < nProc) := by
  obtain ⟨-, hs, -, -⟩ := h.at_process hc
  cases ht with
  | sleepSet hpc =>
    by_cases hp : p = i
    · rw [hpc] at hs
      subst hp
      exact .inr (by simp [hs, Pc.mode, Edge.sleep])
    · exact .inl (by simp [hp])
  | yieldAcquire hpc hl =>
    by_cases hp : p = i
    · rw [hpc] at hs
      subst hp
      exact .inr (by simp [hs, Pc.mode, Edge.yield])
    · exact .inl (by simp [hp])
  | exitZombie hpc hl =>
    by_cases hp : p = i
    · rw [hpc] at hs
      subst hp
      exact .inr (by simp [hs, Pc.mode, Edge.exit])
    · exact .inl (by simp [hp])
  | @wake _ ch j next hpc hj hji hl =>
    by_cases hp : p = j
    · subst hp
      simp only [Sys.setPc_proc, Sys.setProc_proc, if_true, wakeOne]
      split
      · rename_i hw
        exact .inr (by simp [hw.1, hl, Edge.wakeup])
      · exact .inl rfl
    · exact .inl (by simp [hp])
  | @kill _ pid j k hpc hj hl hpid =>
    by_cases hp : p = j
    · subst hp
      simp only [Sys.setPc_proc, Sys.setProc_proc, if_true, killOne]
      split
      · rename_i hw
        exact .inr (by simp [hw, hl, Edge.wakeup])
      · exact .inl rfl
    · exact .inl (by simp [hp])
  | @forkFound _ j k child hpc hj hl hst =>
    by_cases hp : p = j
    · subst hp
      exact .inr (by simp [hst, hl, hj, Edge.alloc])
    · exact .inl (by simp [hp])
  | @forkFail j k child hpc =>
    by_cases hp : p = j
    · subst hp
      obtain ⟨hst, -⟩ := h.allocs i p (by rw [hpc]; rfl)
      exact .inr (by simp [hst, freeproc, Edge.abort])
    · exact .inl (by simp [hp])
  | @forkRunnable _ j pid k hpc hl =>
    by_cases hp : p = j
    · subst hp
      obtain ⟨hst, -⟩ := h.starts i p (by rw [hpc]; rfl)
      exact .inr (by simp [hst, Edge.start])
    · exact .inl (by simp [hp])
  | @waitReap _ j kids addr k hpc hj hpar hl hz hok =>
    by_cases hp : p = j
    · subst hp
      exact .inr (by simp [hz, hl, freeproc, Edge.reap])
    · exact .inl (by simp [hp])
  | _ =>
    refine .inl ?_
    simp only [Sys.setPc_proc, Sys.setProc_proc, Sys.setLock_proc, Sys.setCpu_proc]
    try split
    all_goals simp_all

/-- Every change of a process's state is along an edge, and the state of a process that is
still on a CPU after it was set is left alone. -/
theorem SchedInv.step_edge {code : κ → Instr κ M ω Λ} {e : Ev ω} (h : SchedInv s)
    (hst : Step code s e t) (p : Nat) :
    (t.proc p).state = (s.proc p).state ∨
      Edge (s.proc p).state (t.proc p).state ∧
        ((s.proc p).lock = none ∨ (s.proc p).state = .running ∨ (s.proc p).state = .used) ∧
        ((s.proc p).state = .unused → p < nProc) := by
  cases hst with
  | @dispatch c i hc hl hr =>
    by_cases hp : p = i
    · subst hp
      exact .inr (by simp [hr, hl, Edge.dispatch])
    · exact .inl (by simp [hp])
  | scan hc hl hr => exact .inl rfl
  | swtch hc => exact .inl rfl
  | back hc => exact .inl rfl
  | @release c i hc =>
    by_cases hp : p = i <;> simp [hp]
  | instr hc hpc hi =>
    obtain ⟨-, hproc, -⟩ := hi.quiet
    exact .inl (hproc p).2
  | thread hc ht =>
    rcases h.thread_edge hc ht p with heq | ⟨hed, -, hcase⟩
    · exact .inl heq
    · exact .inr ⟨hed, hcase⟩
  | tick hc hl hlocks => exact .inl rfl
  | @intr q hl hsl =>
    by_cases hp : p = q
    · subst hp
      exact .inr (by simp [hsl, hl, Edge.wakeup])
    · exact .inl (by simp [hp])

/-- The process has been made runnable and is not yet reaped. -/
def Proc.Live (x : Proc) : Prop := x.state ≠ .unused ∧ x.state ≠ .used

/-- Only the last steps of `fork` make a process live. -/
theorem SchedInv.thread_live {ok : Bool} (hs : SchedInv s) (hc : (s.cpu c).pc = .process i)
    (h : Thread s c i ok t) (p : Nat) (hr : ∀ pid k, s.pc i ≠ .forkRunnable p pid k)
    (hp : (t.proc p).Live) : (s.proc p).Live := by
  have hrun := (hs.at_process hc).2.1
  unfold Proc.Live at hp ⊢
  cases h with
  | @forkRunnable _ j pid k hpc hl =>
    have hpj : p ≠ j := by
      rintro rfl
      exact hr _ _ hpc
    simpa [hpj] using hp
  | @wake _ ch j next hpc hj hji hl =>
    by_cases hpj : p = j
    · subst hpj
      simp only [Sys.setPc_proc, Sys.setProc_proc, if_true, wakeOne] at hp
      split at hp
      · rename_i hw
        simp [hw.1]
      · exact hp
    · simpa [hpj] using hp
  | @kill _ pid j k hpc hj hl hpid =>
    by_cases hpj : p = j
    · subst hpj
      simp only [Sys.setPc_proc, Sys.setProc_proc, if_true, killOne] at hp
      split at hp
      · rename_i hw
        simp [hw]
      · exact hp
    · simpa [hpj] using hp
  | _ =>
    simp only [Sys.setPc_proc, Sys.setProc_proc, Sys.setLock_proc, Sys.setCpu_proc] at hp
    try split at hp
    all_goals simp_all [freeproc, Pc.mode]

/-- CPU `c` takes process `p` from the table. -/
def Dispatches (s t : Sys κ M Λ) (c p : Nat) : Prop :=
  (s.cpu c).pc = .scan p ∧ (t.cpu c).pc = .swtch p

def Frees (s t : Sys κ M Λ) (p : Nat) : Prop :=
  (s.proc p).state ≠ .unused ∧ (t.proc p).state = .unused

/-- A process is on at most one CPU, it is neither dispatched nor freed while it is still on
one, and its state only changes along the edges. -/
theorem process_on_one_cpu {code : κ → Instr κ M ω Λ} {k : κ} {m : M} {evs : List (Ev ω)}
    (h : exec code (Procs.init k m) evs = some s) :
    (∀ p, (s.proc p).state = .running → ∃! c, (s.cpu c).proc = some p) ∧
    (∀ c d p, (s.cpu c).proc = some p → (s.cpu d).proc = some p → c = d) ∧
    ∀ e t, step code s e = some t →
      (∀ c p, (s.cpu c).pc = .process p →
        (s.proc p).state = .runnable ∨ (s.proc p).state = .sleeping ∨
          (s.proc p).state = .zombie →
        (∀ d, ¬ Dispatches s t d p) ∧ ¬ Frees s t p) ∧
      ∀ p, (t.proc p).state ≠ (s.proc p).state → Edge (s.proc p).state (t.proc p).state := by
  have hinv := SchedInv.of_exec h
  refine ⟨fun p hp => ?_, hinv.uniq, fun e t het => ?_⟩
  · obtain ⟨c, hc⟩ : ∃ c, (s.cpu c).proc = some p := by
      by_contra hno
      have hpark := hinv.parked p (not_exists.mp hno)
      rw [hp] at hpark
      simp [Pc.Parks] at hpark
    exact ⟨c, hc, fun d hd => hinv.uniq d c p hd hc⟩
  · have hst := step_cases het
    refine ⟨fun c p hc hstate => ?_, fun p hne => ?_⟩
    · have hsame : (t.proc p).state = (s.proc p).state := by
        rcases hinv.step_edge hst p with heq | ⟨-, hcase, -⟩
        · exact heq
        · obtain ⟨-, hmode, hown, -⟩ := hinv.at_process hc
          have ho : (s.pc p).own = true := by
            by_contra hn
            rw [Pc.mode_of_not_own (by simpa using hn)] at hmode
            simp [hmode] at hstate
          rcases hcase with hl | hr | hu
          · simp [hown ho] at hl
          · simp [hr] at hstate
          · simp [hu] at hstate
      constructor
      · intro d hd
        have hok := (hinv.step hst).cpus d
        rw [CpuOk, hd.2] at hok
        rw [hok.2.2.1] at hsame
        simp [← hsame] at hstate
      · intro hf
        exact hf.1 (hsame ▸ hf.2)
    · exact (hinv.step_edge hst p).elim (fun heq => absurd heq hne) And.left

end

/-- A process that does nothing but test whether it is killed. -/
def spin : Unit → Instr Unit Unit Unit Empty := fun _ => .killed fun _ => ()

def yieldRun : List (Ev Unit) :=
  [.sched 3, .sched 3, .run 3 () true, .tick 3, .run 3 () true]

/-- It has become runnable and is still on the CPU. -/
theorem process_on_one_cpu_yielding :
    ∃ s, exec spin (init () ()) yieldRun = some s ∧
      (s.cpu 3).pc = .process 0 ∧ (s.proc 0).state = .runnable ∧
      ∀ e t, step spin s e = some t → (∀ d, ¬ Dispatches s t d 0) ∧ ¬ Frees s t 0 := by
  refine ⟨_, rfl, rfl, rfl, fun e t ht => ?_⟩
  have h := process_on_one_cpu (show exec spin (init () ()) yieldRun = some _ from rfl)
  exact (h.2.2 e t ht).1 3 0 rfl (.inl rfl)

end Xv6.Procs
