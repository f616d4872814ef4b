import Xv6.Kernel.Proc.Sched

/-! # Process identifiers

`allocpid` hands out the values of a 32-bit counter and never looks at the process
table. Until the counter leaves the positive range every process in use has a pid of
its own, `fork` returns a positive value exactly when it succeeds, and a pid names one
entry. The allocation after that gives a live process a pid that is not positive, and
a counter that has come round gives out the pid of the first process again.
-/

namespace Xv6.Procs

open Lib

section

variable {κ M ω Λ : Type}

/-- The pid that a `fork` which has set up its child is going to return. -/
def Pc.forked (pc : Pc κ Λ) : Option (BitVec 32) :=
  match pc.inner with
  | forkWait _ pid _ | forkParent _ pid _ | forkUnwait _ pid _ | forkRunnable _ pid _
  | forkMask _ pid _ => some pid
  | _ => none

/-- What `fork` returns to process `q` if the next step of `q` is its return; `ok` says whether
the allocations succeed. -/
def Sys.forkReturns (s : Sys κ M Λ) (q : Nat) (ok : Bool) : Option Int :=
  match s.pc q with
  | .forkScan j _ _ => if j < nProc then none else some (-1)
  | .forkAlloc .. => if ok then none else some (-1)
  | .forkMask _ pid _ => some pid.toInt
  | _ => none

/-- The step runs `allocpid`. -/
def Allocates (s : Sys κ M Λ) (e : Ev ω) : Prop :=
  ∃ c x ok q j f child, e = .run c x ok ∧ (s.cpu c).pc = .process q ∧
    s.pc q = .forkScan j f child ∧ j < nProc ∧ (s.proc j).lock = none ∧
    (s.proc j).state = .unused

/-- If the step runs `allocpid`, the counter is still in the positive range. -/
def PidsLeft (s : Sys κ M Λ) (e : Ev ω) : Prop :=
  Allocates s e → 0 < s.nextpid.toInt

/-- The pids of the processes in use are positive and name one entry each, and `fork` returns a
positive value exactly when it has set up a child. -/
structure PidsOk (s : Sys κ M Λ) : Prop where
  pos : ∀ p, (s.proc p).state ≠ .unused → 0 < (s.proc p).pid.toInt
  distinct : ∀ p q, (s.proc p).state ≠ .unused → (s.proc q).state ≠ .unused →
    (s.proc p).pid = (s.proc q).pid → p = q
  names : ∀ pid p q, 0 < pid.toInt → (s.proc p).pid = pid → (s.proc q).pid = pid → p = q
  fork : ∀ q ok r, s.forkReturns q ok = some r → (0 < r ↔ ∃ j pid f, s.pc q = .forkMask j pid f)

/-- The invariant: the pids in use are those below the counter. -/
structure PidInv (s : Sys κ M Λ) : Prop where
  sched : SchedInv s
  unused : ∀ p, (s.proc p).state = .unused → (s.proc p).pid = 0
  below : ∀ p, (s.proc p).state ≠ .unused →
    0 < (s.proc p).pid.toNat ∧ (s.proc p).pid.toNat < s.nextpid.toNat
  distinct : ∀ p q, (s.proc p).state ≠ .unused → (s.proc q).state ≠ .unused →
    (s.proc p).pid = (s.proc q).pid → p = q
  range : s.nextpid.toNat ≤ 2 ^ 31
  forked : ∀ q pid, (s.pc q).forked = some pid → 0 < pid.toInt

variable {s t : Sys κ M Λ} {c i : Nat}

theorem toInt_pos_iff {x : BitVec 32} : 0 < x.toInt ↔ 0 < x.toNat ∧ x.toNat < 2 ^ 31 := by
  rw [BitVec.toInt_eq_toNat_cond]
  split <;> omega

theorem PidInv.pos (h : PidInv s) {p : Nat} (hp : (s.proc p).state ≠ .unused) :
    0 < (s.proc p).pid.toInt := by
  have hlt := h.below p hp
  have hr := h.range
  exact toInt_pos_iff.mpr ⟨hlt.1, by omega⟩

theorem PidInv.ok (h : PidInv s) : PidsOk s := by
  have hlive : ∀ p, 0 < (s.proc p).pid.toInt → (s.proc p).state ≠ .unused := by
    intro p hp hu
    rw [h.unused p hu] at hp
    simp at hp
  refine ⟨fun p => h.pos, h.distinct, fun pid p q hpid hp hq => ?_, fun q ok r hr => ?_⟩
  · subst hp
    exact h.distinct p q (hlive p hpid) (hlive q (hq ▸ hpid)) hq.symm
  · unfold Sys.forkReturns at hr
    split at hr
    · rename_i hpc
      split at hr
      · simp at hr
      · simp only [Option.some.injEq] at hr
        simp [← hr, hpc]
    · rename_i hpc
      split at hr
      · simp at hr
      · simp only [Option.some.injEq] at hr
        simp [← hr, hpc]
    · rename_i j pid f hpc
      simp only [Option.some.injEq] at hr
      subst hr
      exact ⟨fun _ => ⟨j, pid, f, hpc⟩, fun _ => h.forked q pid (by rw [hpc]; rfl)⟩
    · simp at hr

/-! ## What one step does to the pids -/

def KeepsPid (s t : Sys κ M Λ) (p : Nat) : Prop :=
  (t.proc p).pid = (s.proc p).pid ∧
      ((t.proc p).state = .unused ↔ (s.proc p).state = .unused) ∨
    (t.proc p).state = .unused ∧ (t.proc p).pid = 0

def GetsPid (s t : Sys κ M Λ) (j : Nat) : Prop :=
  (s.proc j).state = .unused ∧ (t.proc j).state = .used ∧ (t.proc j).pid = s.nextpid ∧
    t.nextpid = s.nextpid + 1 ∧ ∀ p, p ≠ j → t.proc p = s.proc p

variable [Fintype Λ] [DecidableEq Λ]

/-- The value that the model returns from `fork` is the one `forkReturns` says. -/
theorem forkReturns_step {code : κ → Instr κ M ω Λ} {x : ω} {ok : Bool} {q : Nat} {r : Int}
    (hr : s.forkReturns q ok = some r) (hc : (s.cpu c).pc = .process q)
    (hst : step code s (.run c x ok) = some t) : ∃ f : Int → κ, t.pc q = .run (f r) := by
  simp only [step, hc] at hst
  unfold Sys.forkReturns at hr
  split at hr
  · rename_i j f child hpc
    split at hr
    · simp at hr
    · rename_i hj
      simp only [Option.some.injEq] at hr
      simp only [threadStep, hpc, if_neg hj, Option.some.injEq] at hst
      exact ⟨f, by simp [← hst, hr]⟩
  · rename_i j f child hpc
    split at hr
    · simp at hr
    · rename_i hok
      simp only [Option.some.injEq] at hr
      simp only [threadStep, hpc, if_neg hok, Option.some.injEq] at hst
      exact ⟨f, by simp [← hst, hr]⟩
  · rename_i j pid f hpc
    simp only [Option.some.injEq] at hr
    simp only [threadStep, hpc, Option.some.injEq] at hst
    exact ⟨f, by simp [← hst, hr]⟩
  · simp at hr

theorem SchedInv.thread_pids {ok : Bool} (h : SchedInv s) (hc : (s.cpu c).pc = .process i)
    (ht : Thread s c i ok t) :
    (t.nextpid = s.nextpid ∧ ∀ p, KeepsPid s t p) ∨
      ∃ j f child, s.pc i = .forkScan j f child ∧ j < nProc ∧ (s.proc j).lock = none ∧
        GetsPid s t j := by
  have hlive : (s.proc i).state ≠ .unused := by
    rw [(h.at_process hc).2.1]
    exact (s.pc i).mode_live.1
  cases ht with
  | @forkFound _ j f child hpc hj hl hst =>
    exact .inr ⟨j, f, child, hpc, hj, hl, hst, by simp, by simp, rfl, fun p hp => by simp [hp]⟩
  | @forkFail j f child hpc =>
    refine .inl ⟨rfl, fun p => ?_⟩
    by_cases hp : p = j
    · exact .inr (by simp [hp, freeproc])
    · exact .inl (by simp [hp])
  | @waitReap _ j kids addr f hpc hj hpar hl hz hok =>
    refine .inl ⟨rfl, fun p => ?_⟩
    by_cases hp : p = j
    · exact .inr (by simp [hp, freeproc])
    · exact .inl (by simp [hp])
  | @wake _ ch j next hpc hj hji hl =>
    refine .inl ⟨rfl, fun p => .inl ?_⟩
    by_cases hp : p = j
    · subst hp
      simp only [Sys.setPc_proc, Sys.setProc_proc, if_true, wakeOne]
      split <;> simp_all
    · simp [hp]
  | @kill _ pid j f hpc hj hl hpid =>
    refine .inl ⟨rfl, fun p => .inl ?_⟩
    by_cases hp : p = j
    · subst hp
      simp only [Sys.setPc_proc, Sys.setProc_proc, if_true, killOne]
      split <;> simp_all
    · simp [hp]
  | @forkRunnable _ j pid f hpc hl =>
    obtain ⟨hused, -⟩ := h.starts i j (by rw [hpc]; rfl)
    refine .inl ⟨rfl, fun p => .inl ?_⟩
    by_cases hp : p = j
    · simp [hp, hused]
    · simp [hp]
  | _ =>
    refine .inl ⟨rfl, fun p => .inl ?_⟩
    simp only [Sys.setPc_proc, Sys.setProc_proc, Sys.setLock_proc, Sys.setCpu_proc]
    try split
    all_goals simp_all

/-- What a process does in its own code leaves the pids alone, and it does not run `fork` to its
end. -/
theorem Call.pids {x : ω} {instr : Instr κ M ω Λ} (h : Call s c i x instr t) :
    t.nextpid = s.nextpid ∧ (t.pc i).forked = none ∧
      ∀ p, (t.proc p).pid = (s.proc p).pid := by
  cases h with
  | setkilled hl =>
    refine ⟨rfl, by simp [Pc.forked, Pc.inner], fun p => ?_⟩
    by_cases hp : p = i <;> simp [hp]
  | trace =>
    refine ⟨rfl, by simp [Pc.forked, Pc.inner], fun p => ?_⟩
    by_cases hp : p = i <;> simp [hp]
  | _ => exact ⟨rfl, by simp [Pc.forked, Pc.inner], fun p => rfl⟩

theorem SchedInv.step_pids {code : κ → Instr κ M ω Λ} {e : Ev ω} (h : SchedInv s)
    (hst : Step code s e t) :
    (t.nextpid = s.nextpid ∧ ∀ p, KeepsPid s t p) ∨ Allocates s e ∧ ∃ j, GetsPid s t j := by
  cases hst with
  | @dispatch c i hc hl hr =>
    refine .inl ⟨rfl, fun p => .inl ?_⟩
    by_cases hp : p = i <;> simp [hp, hr]
  | @release c i hc =>
    refine .inl ⟨rfl, fun p => .inl ?_⟩
    by_cases hp : p = i <;> simp [hp]
  | @instr c i x ok k t hc hpc hi =>
    obtain ⟨hnext, -, hpid⟩ := hi.pids
    exact .inl ⟨hnext, fun p => .inl ⟨hpid p, by rw [(hi.quiet.2.1 p).2]⟩⟩
  | @thread c i x ok t hc ht =>
    rcases h.thread_pids hc ht with hk | ⟨j, f, child, hpc, hj, hl, hg⟩
    · exact .inl hk
    · exact .inr ⟨⟨c, x, ok, i, j, f, child, rfl, hc, hpc, hj, hl, hg.1⟩, j, hg⟩
  | @intr q hl hsl =>
    refine .inl ⟨rfl, fun p => .inl ?_⟩
    by_cases hp : p = q <;> simp [hp, hsl]
  | _ => exact .inl ⟨rfl, fun p => .inl ⟨rfl, Iff.rfl⟩⟩

theorem Pc.Returns.forked {pc : Pc κ Λ} (h : pc.Returns) : pc.forked = none := by
  cases pc <;> simp_all [Pc.Returns, Pc.forked, Pc.inner]

/-- `fork` returns the pid that its child was given. -/
theorem SchedInv.step_forked {code : κ → Instr κ M ω Λ} {e : Ev ω} {q : Nat} {pid : BitVec 32}
    (h : SchedInv s) (hst : Step code s e t) (hq : (t.pc q).forked = some pid) :
    (s.pc q).forked = some pid ∨ ∃ j, (s.pc q).allocs = some j ∧ pid = (s.proc j).pid := by
  cases hst with
  | @instr c i x ok k t hc hpc hi =>
    by_cases hqi : q = i
    · subst hqi
      simp [hi.pids.2.1] at hq
    · exact .inl (hi.quiet.2.2.1 q hqi ▸ hq)
  | @thread c i x ok t hc ht =>
    have hwf := h.wf i
    by_cases hqi : q = i
    · subst hqi
      cases ht with
      | @relock _ l next hpc hl =>
        rw [hpc] at hwf
        simp [Pc.Returns.forked hwf] at hq
      | @wakeEnd _ ch j next hpc hj =>
        rw [hpc] at hwf
        simp [Pc.Returns.forked hwf] at hq
      | @forkAlloc j f child hpc =>
        simp only [Sys.setPc_pc, if_true, Pc.forked, Pc.inner, Option.some.injEq] at hq
        exact .inr ⟨j, by rw [hpc]; rfl, hq.symm⟩
      | _ => simp_all [Pc.forked, Pc.inner]
    · cases ht with
      | @forkAlloc j f child hpc =>
        by_cases hj : q = j
        · rw [Sys.setPc_pc, if_neg hqi, Sys.setPc_pc, if_pos hj] at hq
          simp [Pc.forked, Pc.inner] at hq
        · simp [hqi, hj] at hq
          exact .inl hq
      | _ => exact .inl (by simpa [hqi] using hq)
  | @tick c i hc hl hlocks =>
    by_cases hqi : q = i
    · subst hqi
      exact .inl (by simpa [Pc.forked, Pc.inner] using hq)
    · exact .inl (by simpa [hqi] using hq)
  | _ => exact .inl (by simpa using hq)

/-! ## Runs -/

theorem PidInv.step {code : κ → Instr κ M ω Λ} {e : Ev ω} (h : PidInv s) (he : PidsLeft s e)
    (hst : Step code s e t) : PidInv t := by
  have hfork : ∀ q pid, (t.pc q).forked = some pid → 0 < pid.toInt := by
    intro q pid hq
    rcases h.sched.step_forked hst hq with hold | ⟨j, hj, rfl⟩
    · exact h.forked q pid hold
    · refine h.pos ?_
      simp [(h.sched.allocs q j hj).1]
  rcases h.sched.step_pids hst with ⟨hn, hk⟩ | ⟨ha, j, hfree, hused, hpid, hn, hrest⟩
  · have hlive : ∀ p, (t.proc p).state ≠ .unused →
        (s.proc p).state ≠ .unused ∧ (t.proc p).pid = (s.proc p).pid := by
      intro p hp
      rcases hk p with ⟨hpid, hiff⟩ | ⟨hu, -⟩
      · exact ⟨fun hu => hp (hiff.mpr hu), hpid⟩
      · exact absurd hu hp
    refine ⟨h.sched.step hst, fun p hp => ?_, fun p hp => ?_, fun p q hp hq hpq => ?_, ?_, hfork⟩
    · rcases hk p with ⟨hpid, hiff⟩ | ⟨-, hz⟩
      · rw [hpid]
        exact h.unused p (hiff.mp hp)
      · exact hz
    · rw [hn, (hlive p hp).2]
      exact h.below p (hlive p hp).1
    · rw [(hlive p hp).2, (hlive q hq).2] at hpq
      exact h.distinct p q (hlive p hp).1 (hlive q hq).1 hpq
    · rw [hn]
      exact h.range
  · have hpos := toInt_pos_iff.mp (he ha)
    have hnext : t.nextpid.toNat = s.nextpid.toNat + 1 := by
      rw [hn, BitVec.toNat_add]
      change (s.nextpid.toNat + 1) % 2 ^ 32 = _
      omega
    -- a pid that is in use is below the counter, so it is not the one handed out
    have hnew : ∀ p, p ≠ j → (t.proc p).state ≠ .unused → (t.proc p).pid ≠ (t.proc j).pid := by
      intro p hp hlive heq
      rw [hrest p hp] at hlive heq
      have := (h.below p hlive).2
      rw [heq, hpid] at this
      omega
    refine ⟨h.sched.step hst, fun p hp => ?_, fun p hp => ?_, fun p q hp hq hpq => ?_, by omega,
      hfork⟩
    · by_cases hpj : p = j
      · simp [hpj, hused] at hp
      · rw [hrest p hpj] at hp ⊢
        exact h.unused p hp
    · by_cases hpj : p = j
      · rw [hpj, hpid, hnext]
        omega
      · rw [hrest p hpj] at hp ⊢
        have := h.below p hp
        omega
    · by_cases hpj : p = j
      · by_cases hqj : q = j
        · rw [hpj, hqj]
        · exact absurd (hpj ▸ hpq).symm (hnew q hqj hq)
      · by_cases hqj : q = j
        · exact absurd (hqj ▸ hpq) (hnew p hpj hp)
        · rw [hrest p hpj] at hp hpq
          rw [hrest q hqj] at hq hpq
          exact h.distinct p q hp hq hpq

theorem PidInv.init (k : κ) (m : M) : PidInv (init k m : Sys κ M Λ) := by
  have hproc : ∀ q, (Procs.init k m : Sys κ M Λ).proc q =
      if q = initproc then { Proc.fresh with state := .runnable, pid := 1 } else Proc.fresh :=
    fun q => rfl
  have hlive : ∀ p, ((Procs.init k m : Sys κ M Λ).proc p).state ≠ .unused → p = initproc := by
    intro p hp
    by_contra hne
    rw [hproc, if_neg hne] at hp
    exact hp rfl
  refine ⟨SchedInv.init k m, fun p hp => ?_, fun p hp => ?_, fun p q hp hq _ => ?_,
    by simp [Procs.init], fun q pid hq => ?_⟩
  · rw [hproc] at hp ⊢
    split
    · rename_i hpi
      simp [hpi] at hp
    · rfl
  · rw [hlive p hp, hproc]
    simp [Procs.init]
  · rw [hlive p hp, hlive q hq]
  · unfold Procs.init at hq
    by_cases hqi : q = initproc <;> simp [hqi, Pc.forked, Pc.inner] at hq

theorem Runs.append {code : κ → Instr κ M ω Λ} {ok : Sys κ M Λ → Ev ω → Prop}
    {pre post : List (Ev ω)} :
    Runs code ok s (pre ++ post) t ↔ ∃ u, Runs code ok s pre u ∧ Runs code ok u post t := by
  induction pre generalizing s with
  | nil => simp [Runs]
  | cons e pre ih =>
    simp only [List.cons_append, Runs, ih]
    constructor
    · rintro ⟨he, u, hu, v, hv, ht⟩
      exact ⟨v, ⟨he, u, hu, hv⟩, ht⟩
    · rintro ⟨v, ⟨he, u, hu, hv⟩, ht⟩
      exact ⟨he, u, hu, v, hv, ht⟩

/-- An allocation outside the positive range gives a live process a pid that is not positive. -/
theorem SchedInv.pidsLeft {code : κ → Instr κ M ω Λ} {e : Ev ω} (h : SchedInv s)
    (hst : Step code s e t) (hok : PidsOk t) : PidsLeft s e := by
  intro ha
  rcases h.step_pids hst with ⟨hn, -⟩ | ⟨-, j, -, hused, hpid, -⟩
  · obtain ⟨c, x, ok, q, j, f, child, rfl, hc, hpc, hj, hl, hu⟩ := ha
    cases hst with
    | instr hc' hpc' hi =>
      rw [hc, CpuPc.process.injEq] at hc'
      simp [← hc', hpc] at hpc'
    | thread hc' ht =>
      rw [hc, CpuPc.process.injEq] at hc'
      subst hc'
      cases ht with
      | forkFound => simp at hn
      | forkFull hpc' hj' =>
        rw [hpc] at hpc'
        cases hpc'
        omega
      | _ => simp_all
  · rw [← hpid]
    exact hok.pos j (by simp [hused])

/-- The pids are in order in every state of a run exactly when no step of it allocates a pid
after the counter has left the positive range; and a process that is to return from `fork`
returns what `forkReturns` says. -/
theorem pids_ok_iff_pids_left {code : κ → Instr κ M ω Λ} {k : κ} {m : M} {evs : List (Ev ω)}
    (h : exec code (Procs.init k m) evs = some s) :
    ((∀ pre post u, evs = pre ++ post → exec code (Procs.init k m) pre = some u → PidsOk u) ↔
      Runs code PidsLeft (Procs.init k m) evs s) ∧
    ∀ c x ok q r t, s.forkReturns q ok = some r → (s.cpu c).pc = .process q →
      step code s (.run c x ok) = some t → ∃ f : Int → κ, t.pc q = .run (f r) := by
  refine ⟨?_, fun c x ok q r t hr hc hst => forkReturns_step hr hc hst⟩
  constructor
  · intro hall
    induction evs using List.reverseRecOn generalizing s with
    | nil =>
      simp only [exec, Option.some.injEq] at h
      exact h.symm
    | append_singleton evs e ih =>
      have hrun : Runs code (fun _ _ => True) _ _ _ := .of_exec (fun _ _ _ => trivial) h
      obtain ⟨u, hu, -, hst⟩ := Runs.snoc.mp hrun
      refine Runs.snoc.mpr ⟨u, ih hu.exec fun pre post v hv => hall pre (post ++ [e]) v ?_, ?_, hst⟩
      · rw [hv, List.append_assoc]
      · exact (SchedInv.of_exec hu.exec).pidsLeft (step_cases hst) (hall _ [] s (by simp) h)
  · intro hrun pre post u hevs hu
    subst hevs
    obtain ⟨v, hv, -⟩ := Runs.append.mp hrun
    rw [hv.exec, Option.some.injEq] at hu
    subst hu
    exact (hv.invariant (fun _ _ _ h he hst => h.step he hst) (PidInv.init k m)).ok

end

/-! ## Past the range of the counter -/

/-- The first process forks again and again, and so does every child. -/
def forkAgain : Unit → Instr Unit Unit Unit Empty := fun _ => .fork (fun _ => ()) ()

def forking (n : BitVec 32) : Sys Unit Unit Empty where
  proc := upd (fun _ => Proc.fresh) initproc { Proc.fresh with state := .running, pid := 1 }
  pc := upd (fun _ => .dead) initproc (.run ())
  cpu := upd (fun _ => ⟨none, .scan 0⟩) 0 ⟨some initproc, .process initproc⟩
  lock := fun _ => none
  nextpid := n
  mem := ()

def startFirst : List (Ev Unit) := [.sched 0, .sched 0, .run 0 () true]

def oneFork : List (Ev Unit) := startFirst ++ List.replicate 9 (.run 0 () true)

theorem pids_ok_iff_pids_left_first : ∃ s, exec forkAgain (init () ()) oneFork = some s ∧
    s.pc 0 = .run () ∧ (s.proc 1).state = .runnable ∧ (s.proc 1).pid = 2 ∧ PidsOk s := by
  have htest : ∀ (s : Sys Unit Unit Empty) (e : Ev Unit),
      decide (0 < s.nextpid.toInt) = true → PidsLeft s e := fun _ _ h _ => of_decide_eq_true h
  have hrun : ∃ s, Runs forkAgain PidsLeft (init () ()) oneFork s ∧ s.pc 0 = .run () ∧
      (s.proc 1).state = .runnable ∧ (s.proc 1).pid = 2 :=
    ⟨_, .of_execIf htest rfl, rfl, rfl, rfl⟩
  obtain ⟨s, hs, hpc, hstate, hpid⟩ := hrun
  exact ⟨s, hs.exec, hpc, hstate, hpid,
    (pids_ok_iff_pids_left hs.exec).1.mpr hs oneFork [] s (by simp) hs.exec⟩

def forkFails : List (Ev Unit) := List.replicate 3 (.run 0 () true) ++ [.run 0 () false]

theorem exec_append {κ M ω Λ : Type} [Fintype Λ] [DecidableEq Λ] {code : κ → Instr κ M ω Λ}
    {s u : Sys κ M Λ} {pre post : List (Ev ω)} (h : exec code s pre = some u) :
    exec code s (pre ++ post) = exec code u post := by
  induction pre generalizing s with
  | nil =>
    simp only [exec, Option.some.injEq] at h
    rw [h, List.nil_append]
  | cons e pre ih =>
    simp only [exec, Option.bind_eq_some_iff] at h
    obtain ⟨v, hv, hu⟩ := h
    rw [List.cons_append, exec, hv]
    exact ih hu

theorem exec_startFirst : exec forkAgain (init () ()) startFirst = some (forking 2) := by
  refine (show _ = some (Sys.mk _ _ _ _ _ _) from rfl).trans ?_
  rw [forking]
  congr 2
  · exact (upd_upd _ _ _ _).trans (upd_upd _ _ _ _)
  · exact upd_upd _ _ _ _
  · exact upd_upd _ _ _ _

theorem exec_forkFails (n : BitVec 32) :
    exec forkAgain (forking n) forkFails = some (forking (n + 1)) := by
  refine (show _ = some (Sys.mk _ _ _ _ _ _) from rfl).trans ?_
  rw [forking]
  congr 2
  · exact (upd_upd _ _ _ _).trans (upd_self _ _)
  · exact (upd_upd _ _ _ _).trans <| (upd_upd _ _ _ _).trans <| (upd_upd _ _ _ _).trans <|
      (upd_upd _ _ _ _)

theorem exec_forkFails_replicate (i : Nat) (n : BitVec 32) :
    exec forkAgain (forking n) (List.replicate i forkFails).flatten =
      some (forking (n + BitVec.ofNat 32 i)) := by
  induction i generalizing n with
  | zero => simp [exec]
  | succ i ih =>
    rw [List.replicate_succ, List.flatten_cons, exec_append (exec_forkFails n), ih,
      BitVec.add_assoc, BitVec.ofNat_add, BitVec.add_comm 1]
    rfl

def forkWorks : List (Ev Unit) := List.replicate 8 (.run 0 () true)

theorem exec_forkWorks (n : BitVec 32) :
    ∃ s, exec forkAgain (forking n) forkWorks = some s ∧
      (s.proc 0).state = .running ∧ (s.proc 0).pid = 1 ∧ (s.proc 1).state = .runnable ∧
      (s.proc 1).pid = n ∧ s.forkReturns 0 true = some n.toInt :=
  ⟨_, rfl, rfl, rfl, rfl, rfl, rfl⟩

def forkAfter (i : Nat) : List (Ev Unit) :=
  startFirst ++ ((List.replicate i forkFails).flatten ++ forkWorks)

theorem exec_forkAfter (i : Nat) :
    exec forkAgain (init () ()) (forkAfter i) =
      exec forkAgain (forking (2 + BitVec.ofNat 32 i)) forkWorks := by
  rw [forkAfter, exec_append exec_startFirst, exec_append (exec_forkFails_replicate i 2)]

/-- After `2^31 - 2` calls of `fork` the next one that succeeds returns a negative number, and
the child has it for its pid; after `2^32 - 1` calls the child has the pid of the first
process. -/
theorem pids_wrap_around :
    (∃ s, exec forkAgain (init () ()) (forkAfter (2 ^ 31 - 2)) = some s ∧
      (s.proc 1).state = .runnable ∧ (s.proc 1).pid.toInt = -2 ^ 31 ∧
      s.forkReturns 0 true = some (-2 ^ 31)) ∧
    ∃ s, exec forkAgain (init () ()) (forkAfter (2 ^ 32 - 1)) = some s ∧
      (s.proc 0).state = .running ∧ (s.proc 1).state = .runnable ∧
      (s.proc 0).pid = (s.proc 1).pid := by
  constructor
  · obtain ⟨s, hs, -, -, hstate, hpid, hret⟩ := exec_forkWorks (2 + BitVec.ofNat 32 (2 ^ 31 - 2))
    refine ⟨s, (exec_forkAfter _).trans hs, hstate, ?_, ?_⟩
    · rw [hpid]
      decide
    · rw [hret]
      decide
  · obtain ⟨s, hs, hzero, hfirst, hstate, hpid, -⟩ :=
      exec_forkWorks (2 + BitVec.ofNat 32 (2 ^ 32 - 1))
    refine ⟨s, (exec_forkAfter _).trans hs, hzero, hstate, ?_⟩
    rw [hfirst, hpid]
    decide

end Xv6.Procs
