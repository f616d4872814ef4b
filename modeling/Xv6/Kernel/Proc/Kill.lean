import Xv6.Kernel.Proc.Sched

/-! # Who is killed

`kill` compares pids and does not look at the state of an entry. An entry that is not
in use has pid 0, so `kill(0)` marks one, and the process that is allocated there next
is born killed. As long as nobody calls `kill(0)` a mark is only ever put on the process
that a call names, in its own lifetime.
-/

namespace Xv6.Procs

open Lib

section

variable {κ M ω Λ : Type}

def Pc.killArg (pc : Pc κ Λ) : Option (BitVec 32) :=
  match pc.inner with
  | kill pid _ _ => some pid
  | _ => none

/-- The step calls no `kill(0)`. -/
def KillsNoZero (code : κ → Instr κ M ω Λ) (s : Sys κ M Λ) (e : Ev ω) : Prop :=
  ∀ c x ok q k pid f, e = .run c x ok → (s.cpu c).pc = .process q → s.pc q = .run k →
    code k = .kill pid f → pid ≠ 0

/-- The step is one of a `kill` with the pid of process `p`, or of `setkilled` on it. -/
def Names (code : κ → Instr κ M ω Λ) (s : Sys κ M Λ) (e : Ev ω) (p : Nat) : Prop :=
  ∃ c x ok q, e = .run c x ok ∧ (s.cpu c).pc = .process q ∧
    ((∃ j f, s.pc q = .kill (s.proc p).pid j f) ∨
      q = p ∧ ∃ k k', s.pc p = .run k ∧ code k = .setkilled k')

/-- An entry that is not in use has pid 0 and is not killed, and no thread is in `kill(0)`. -/
structure KillInv (s : Sys κ M Λ) : Prop where
  sched : SchedInv s
  unused : ∀ p, (s.proc p).state = .unused → (s.proc p).pid = 0 ∧ (s.proc p).killed = false
  arg : ∀ q pid, (s.pc q).killArg = some pid → pid ≠ 0

variable {s t : Sys κ M Λ} {c i : Nat}

/-- What a thread does to the pids and the marks. -/
theorem Thread.marks {ok : Bool} [Fintype Λ] [DecidableEq Λ] (h : Thread s c i ok t) (p : Nat) :
    ((t.proc p).pid = (s.proc p).pid ∧ (t.proc p).killed = (s.proc p).killed ∧
      ((t.proc p).state = .unused → (s.proc p).state = .unused)) ∨
    (∃ f, s.pc i = .kill (s.proc p).pid p f ∧
      ((t.proc p).state = .unused → (s.proc p).state = .unused)) ∨
    ((s.proc p).state = .unused ∧ (t.proc p).state = .used ∧
      (t.proc p).killed = (s.proc p).killed) ∨
    ((t.proc p).pid = 0 ∧ (t.proc p).killed = false) := by
  cases h with
  | @kill _ pid j f hpc hj hl hpid =>
    by_cases hp : p = j
    · subst hp hpid
      refine .inr (.inl ⟨f, hpc, ?_⟩)
      simp only [Sys.setPc_proc, Sys.setProc_proc, if_true, killOne]
      split <;> simp
    · exact .inl (by simp [hp])
  | @forkFound _ j f child hpc hj hl hst =>
    by_cases hp : p = j
    · subst hp
      exact .inr (.inr (.inl (by simp [hst])))
    · exact .inl (by simp [hp])
  | @forkFail j f child hpc =>
    by_cases hp : p = j
    · exact .inr (.inr (.inr (by simp [hp, freeproc])))
    · exact .inl (by simp [hp])
  | @waitReap _ j kids addr f hpc hj hpar hl hz hok =>
    by_cases hp : p = j
    · exact .inr (.inr (.inr (by simp [hp, freeproc])))
    · exact .inl (by simp [hp])
  | @wake _ ch j next hpc hj hji hl =>
    by_cases hp : p = j
    · subst hp
      refine .inl ?_
      simp only [Sys.setPc_proc, Sys.setProc_proc, if_true, wakeOne]
      split <;> simp
    · exact .inl (by simp [hp])
  | _ =>
    refine .inl ?_
    simp only [Sys.setPc_proc, Sys.setProc_proc, Sys.setLock_proc, Sys.setCpu_proc]
    try split
    all_goals simp_all

variable [Fintype Λ] [DecidableEq Λ]

theorem Pc.Returns.killArg {pc : Pc κ Λ} (h : pc.Returns) : pc.killArg = none := by
  cases pc <;> simp_all [Pc.Returns, Pc.killArg, Pc.inner]

/-- A thread is in `kill` because it was, or because its code calls it. -/
theorem Thread.killArg {ok : Bool} (h : Thread s c i ok t) (hs : SchedInv s) (q : Nat) :
    (t.pc q).killArg = (s.pc q).killArg ∨ (t.pc q).killArg = none := by
  have hwf := hs.wf i
  by_cases hq : q = i
  · subst hq
    cases h with
    | @relock _ l next hpc hl =>
      rw [hpc] at hwf
      exact .inr (by simpa using Pc.Returns.killArg hwf)
    | @wakeEnd _ ch j next hpc hj =>
      rw [hpc] at hwf
      exact .inr (by simpa using Pc.Returns.killArg hwf)
    | @sched _ next hpc hl hlocks hnr => exact .inl (by simp [hpc, Pc.killArg, Pc.inner])
    | @yieldRelease _ next hpc => exact .inl (by simp [hpc, Pc.killArg, Pc.inner])
    | @yieldAcquire _ next hpc => exact .inl (by simp [hpc, Pc.killArg, Pc.inner])
    | killNext hpc => exact .inl (by simp [hpc, Pc.killArg, Pc.inner])
    | _ => exact .inr (by simp [Pc.killArg, Pc.inner])
  · cases h with
    | @forkAlloc j k child hpc =>
      by_cases hj : q = j
      · subst hj
        exact .inr (by simp [hq, Pc.killArg, Pc.inner])
      · exact .inl (by simp [hq, hj])
    | _ => exact .inl (by simp [hq])

theorem Call.marks {x : ω} {instr : Instr κ M ω Λ} (h : Call s c i x instr t) (p : Nat) :
    (t.proc p).pid = (s.proc p).pid ∧
      ((t.proc p).killed = (s.proc p).killed ∨ p = i ∧ ∃ k, instr = .setkilled k) := by
  cases h with
  | @setkilled k hl =>
    by_cases hp : p = i
    · exact ⟨by simp [hp], .inr ⟨hp, k, rfl⟩⟩
    · simp [hp]
  | trace => by_cases hp : p = i <;> simp [hp]
  | _ => simp

theorem Call.killArg {x : ω} {instr : Instr κ M ω Λ} (h : Call s c i x instr t) :
    (t.pc i).killArg = none ∨ ∃ pid k, instr = .kill pid k ∧ (t.pc i).killArg = some pid := by
  cases h with
  | @kill pid k => exact .inr ⟨pid, k, rfl, by simp [Pc.killArg, Pc.inner]⟩
  | _ => exact .inl (by simp [Pc.killArg, Pc.inner])

/-- A mark is an old one or put there by a call that names the process. -/
theorem Step.marks {code : κ → Instr κ M ω Λ} {e : Ev ω} (h : Step code s e t) (p : Nat)
    (hk : (t.proc p).killed = true) : (s.proc p).killed = true ∨ Names code s e p := by
  cases h with
  | @dispatch c i hc hl hr => by_cases hp : p = i <;> simp_all
  | scan hc hl hr => exact .inl hk
  | swtch hc => exact .inl hk
  | back hc => exact .inl hk
  | @release c i hc => by_cases hp : p = i <;> simp_all
  | @instr c i x ok k t hc hpc hi =>
    obtain ⟨-, hsame | ⟨rfl, k', hset⟩⟩ := hi.marks p
    · exact .inl (hsame ▸ hk)
    · exact .inr ⟨c, x, ok, p, rfl, hc, .inr ⟨rfl, k, k', hpc, hset⟩⟩
  | @thread c i x ok t hc ht =>
    rcases ht.marks p with ⟨-, hsame, -⟩ | ⟨f, hpc, -⟩ | ⟨-, -, hsame⟩ | ⟨-, hf⟩
    · exact .inl (hsame ▸ hk)
    · exact .inr ⟨c, x, ok, i, rfl, hc, .inl ⟨p, f, hpc⟩⟩
    · exact .inl (hsame ▸ hk)
    · simp [hf] at hk
  | tick hc hl hlocks => exact .inl hk
  | @intr q hl hsl => by_cases hp : p = q <;> simp_all

theorem KillInv.step {code : κ → Instr κ M ω Λ} {e : Ev ω} (h : KillInv s)
    (hz : KillsNoZero code s e) (hst : Step code s e t) : KillInv t := by
  refine ⟨h.sched.step hst, fun p hp => ?_, fun q pid hq => ?_⟩
  · cases hst with
    | @dispatch c i hc hl hr => by_cases hpi : p = i <;> simp_all [h.unused p]
    | scan hc hl hr => exact h.unused p hp
    | swtch hc => exact h.unused p hp
    | back hc => exact h.unused p hp
    | @release c i hc =>
      by_cases hpi : p = i
      · subst hpi
        simp only [Sys.setCpu_proc, Sys.setProc_proc, if_true] at hp ⊢
        exact h.unused p hp
      · simp only [Sys.setCpu_proc, Sys.setProc_proc, if_neg hpi] at hp ⊢
        exact h.unused p hp
    | @instr c i x ok k t hc hpc hi =>
      have hs : (s.proc p).state = .unused := (hi.quiet.2.1 p).2 ▸ hp
      obtain ⟨hpid, hsame | ⟨rfl, -⟩⟩ := hi.marks p
      · rw [hpid, hsame]
        exact h.unused p hs
      · have := (h.sched.at_process hc).2.1
        rw [hs] at this
        exact absurd this.symm (Pc.mode_live _).1
    | @thread c i x ok t hc ht =>
      rcases ht.marks p with ⟨hpid, hsame, hs⟩ | ⟨f, hpc, hs⟩ | ⟨-, hu, -⟩ | hfree
      · rw [hpid, hsame]
        exact h.unused p (hs hp)
      · exact absurd (h.unused p (hs hp)).1 (h.arg i _ (by rw [hpc]; rfl))
      · simp [hp] at hu
      · exact hfree
    | tick hc hl hlocks => exact h.unused p hp
    | @intr q hl hsl =>
      by_cases hpi : p = q
      · subst hpi
        simp at hp
      · simp only [Sys.setProc_proc, if_neg hpi] at hp ⊢
        exact h.unused p hp
  · cases hst with
    | @instr c i x ok k t hc hpc hi =>
      by_cases hqi : q = i
      · subst hqi
        rcases hi.killArg with hn | ⟨pid', f, hcode, harg⟩
        · simp [hn] at hq
        · rw [harg, Option.some.injEq] at hq
          subst hq
          exact hz c x ok q k pid' f rfl hc hpc hcode
      · rw [hi.quiet.2.2.1 q hqi] at hq
        exact h.arg q pid hq
    | thread hc ht =>
      rcases ht.killArg h.sched q with heq | hn
      · exact h.arg q pid (heq ▸ hq)
      · simp [hn] at hq
    | @tick c i hc hl hlocks =>
      by_cases hqi : q = i
      · subst hqi
        exact h.arg q pid (by simpa [Pc.killArg, Pc.inner] using hq)
      · exact h.arg q pid (by simpa [hqi] using hq)
    | _ => exact h.arg q pid (by simpa using hq)

theorem KillInv.init (k : κ) (m : M) : KillInv (init k m : Sys κ M Λ) := by
  refine ⟨SchedInv.init k m, fun p hp => ?_, fun q pid hq => ?_⟩
  · unfold Procs.init at hp ⊢
    by_cases hpi : p = initproc
    · simp [hpi] at hp
    · simp [hpi, Proc.fresh]
  · unfold Procs.init at hq
    by_cases hqi : q = initproc <;> simp [hqi, Pc.killArg, Pc.inner] at hq

theorem KillInv.named {code : κ → Instr κ M ω Λ} {e : Ev ω} {p : Nat} (h : KillInv s)
    (hn : Names code s e p) : (s.proc p).state ≠ .unused := by
  intro hu
  obtain ⟨c, x, ok, q, -, hc, ⟨j, f, hpc⟩ | ⟨rfl, -⟩⟩ := hn
  · exact h.arg q _ (by rw [hpc]; rfl) (h.unused p hu).1
  · have := (h.sched.at_process hc).2.1
    rw [hu] at this
    exact (Pc.mode_live _).1 this.symm

/-- Where the mark of a process comes from. -/
theorem Runs.killed_history {code : κ → Instr κ M ω Λ} {k : κ} {m : M} {evs : List (Ev ω)}
    {p : Nat} (h : Runs code (KillsNoZero code) (Procs.init k m) evs s)
    (hp : (s.proc p).killed = true) :
    ∃ pre e post u v, evs = pre ++ e :: post ∧
      Runs code (KillsNoZero code) (Procs.init k m) pre u ∧ step code u e = some v ∧
      (u.proc p).state ≠ .unused ∧ Names code u e p ∧
      Runs code (fun w _ => (w.proc p).state ≠ .unused) v post s := by
  induction evs using List.reverseRecOn generalizing s with
  | nil =>
    rw [Runs] at h
    subst h
    unfold Procs.init at hp
    by_cases hpi : p = initproc <;> simp [hpi, Proc.fresh] at hp
  | append_singleton evs e ih =>
    obtain ⟨u, hu, hz, hst⟩ := Runs.snoc.mp h
    have hinv : KillInv u :=
      hu.invariant (fun _ _ _ h hz hst => h.step hz hst) (KillInv.init k m)
    rcases (step_cases hst).marks p hp with hold | hnamed
    · obtain ⟨pre, e', post, w, v, rfl, hpre, hv, hw, hn, hpost⟩ := ih hu hold
      refine ⟨pre, e', post ++ [e], w, v, by simp, hpre, hv, hw, hn,
        Runs.snoc.mpr ⟨u, hpost, ?_, hst⟩⟩
      intro hun
      simp [(hinv.unused p hun).2] at hold
    · exact ⟨evs, e, [], u, s, rfl, hu, hst, hinv.named hnamed, hnamed, rfl⟩

/-- In a run without `kill(0)`, a call of `kill` that returns 0 has found a process with that
pid, every mark was put on in the lifetime of its process by a call that names it, and an
allocated process starts without one. -/
theorem kill_names_its_victim {code : κ → Instr κ M ω Λ} {k : κ} {m : M} {evs : List (Ev ω)}
    (h : Runs code (KillsNoZero code) (Procs.init k m) evs s) :
    (∀ c q pid j f x ok t, (s.cpu c).pc = .process q → s.pc q = .kill pid j f →
      f 0 ≠ f (-1) → step code s (.run c x ok) = some t → t.pc q = .run (f 0) →
      ∃ p, (s.proc p).state ≠ .unused ∧ (s.proc p).pid = pid) ∧
    (∀ p, (s.proc p).killed = true → ∃ pre e post u v, evs = pre ++ e :: post ∧
      Runs code (KillsNoZero code) (Procs.init k m) pre u ∧ step code u e = some v ∧
      (u.proc p).state ≠ .unused ∧ Names code u e p ∧
      Runs code (fun w _ => (w.proc p).state ≠ .unused) v post s) ∧
    ∀ p e t, step code s e = some t → (s.proc p).state = .unused → (t.proc p).state = .used →
      (t.proc p).killed = false := by
  have hinv : KillInv s :=
    h.invariant (fun _ _ _ h hz hst => h.step hz hst) (KillInv.init k m)
  refine ⟨fun c q pid j f x ok t hc hpc hret hst ht => ?_, fun p hp => h.killed_history hp,
    fun p e t hst hs ht => ?_⟩
  · have hn := hinv.arg q pid (by rw [hpc]; rfl)
    cases step_cases hst with
    | instr hc' hpc' hi =>
      rw [hc, CpuPc.process.injEq] at hc'
      subst hc'
      simp [hpc] at hpc'
    | thread hc' hth =>
      rw [hc, CpuPc.process.injEq] at hc'
      subst hc'
      cases hth with
      | @kill _ pid' j' f' hpc' hj hl hpid =>
        rw [hpc, Pc.kill.injEq] at hpc'
        obtain ⟨rfl, rfl, rfl⟩ := hpc'
        refine ⟨j, fun hu => hn ?_, hpid⟩
        rw [← hpid]
        exact (hinv.unused j hu).1
      | killNext hpc' => simp at ht
      | @killEnd _ pid' j' f' hpc' hj =>
        rw [hpc, Pc.kill.injEq] at hpc'
        obtain ⟨rfl, rfl, rfl⟩ := hpc'
        simp only [Sys.setPc_pc, if_true, Pc.run.injEq] at ht
        exact absurd ht.symm hret
      | _ => simp_all
  · by_contra hk
    rcases (step_cases hst).marks p (by simpa using hk) with hold | hn
    · simp [(hinv.unused p hs).2] at hold
    · exact hinv.named hn hs

end

def killSelf : Bool → Instr Bool Unit Unit Empty
  | false => .kill 1 fun _ => true
  | true => .killed fun _ => true

def runFirst (n : Nat) : List (Ev Unit) :=
  .sched 0 :: .sched 0 :: List.replicate n (.run 0 () true)

theorem kill_names_its_victim_self :
    ∃ s, exec killSelf (init false ()) (runFirst 3) = some s ∧ (s.proc 0).killed = true ∧
      ∃ pre e post u v, runFirst 3 = pre ++ e :: post ∧
        Runs killSelf (KillsNoZero killSelf) (init false ()) pre u ∧
        step killSelf u e = some v ∧ (u.proc 0).state ≠ .unused ∧ Names killSelf u e 0 ∧
        Runs killSelf (fun w _ => (w.proc 0).state ≠ .unused) v post s := by
  refine ⟨_, rfl, rfl, (kill_names_its_victim (.of_exec (fun s e _ c x ok q k pid f _ _ _ hk => ?_)
    (show exec killSelf (init false ()) (runFirst 3) = some _ from rfl))).2.1 0 rfl⟩
  cases k <;> simp only [killSelf, Instr.kill.injEq, reduceCtorEq] at hk
  rw [← hk.1]
  decide

/-! ## `kill(0)` -/

/-- The first process calls `kill(0)` and, if that succeeds, `fork`. -/
def killZero : Nat → Instr Nat Unit Unit Empty
  | 0 => .kill 0 fun r => if r = 0 then 1 else 4
  | 1 => .fork (fun _ => 2) 3
  | n => .killed fun _ => n

/-- `kill(0)` returns 0 though the only process has pid 1, and the process that is allocated
next starts with a mark that no call has put on it. -/
theorem kill_zero_marks_unused :
    (∃ s, exec killZero (init 0 ()) (runFirst 4) = some s ∧ s.pc 0 = .run 1 ∧
      ∀ p < nProc, (s.proc p).state ≠ .unused → (s.proc p).pid = 1) ∧
    ∃ s, exec killZero (init 0 ()) (runFirst 13) = some s ∧
      (s.proc 1).state = .runnable ∧ (s.proc 1).pid = 2 ∧ (s.proc 1).killed = true :=
  ⟨⟨_, rfl, rfl, by decide⟩, ⟨_, rfl, rfl, rfl, rfl⟩⟩

end Xv6.Procs
