import Xv6.Kernel.Proc.Locks

/-! # The code on top

An invariant of the code on top of `proc.c` speaks of its memory and of the point at
which each process stands in it. Whatever the scheduler, `sleep`, `wakeup` and the
other functions do in between, a process goes on where it left.
-/

namespace Xv6.Procs

open Lib

section

variable {κ M ω Λ : Type}

/-- The process goes on at a point with `P`, or at one with `D` if a call returns that has no
part in the invariant. -/
def Pc.Sat (D P : κ → Prop) : Pc κ Λ → Prop
  | run k | forkret k => P k
  | sleepAcquire _ _ next | sleepRelease _ _ next | sleepSet _ _ next | sleepTidy _ next
  | relock _ next | sched next | yieldAcquire next | yieldRelease next | wake _ _ next =>
      next.Sat D P
  | kill _ _ f | forkWait _ _ f | forkParent _ _ f | forkUnwait _ _ f | forkRunnable _ _ f
  | forkMask _ _ f => ∀ r, D (f r)
  | forkScan _ f child | forkAlloc _ f child => (∀ r, D (f r)) ∧ D child
  | waitLock _ f | waitScan _ _ _ f | waitKids _ _ f => ∀ r o, D (f r o)
  | waitReturn k => D k
  | _ => True

theorem Pc.Sat.mono {D P Q : κ → Prop} {pc : Pc κ Λ} (h : pc.Sat D P) (hPQ : ∀ k, P k → Q k) :
    pc.Sat D Q := by
  induction pc <;> simp_all [Pc.Sat]

/-- A call and what follows it, for one process `p`. An access also keeps what the other
processes rely on. `ok` are the accesses that count. -/
def Instr.Local (D : κ → Prop) (P : Nat → κ → M → Prop) (I : M → Prop)
    (ok : Nat → κ → ω → M → Prop) (k : κ) : Instr κ M ω Λ → Prop
  | access f => ∀ p x m, ok p k x m → I m → P p k m →
      I (f p x m).1 ∧ P p (f p x m).2 (f p x m).1 ∧
      ∀ q k', q ≠ p → P q k' m → P q k' (f p x m).1
  | acquire _ k' | release _ k' | sleep _ _ k' | wakeup _ k' | setkilled k' | trace _ k' =>
      ∀ p m, I m → P p k m → P p k' m
  | killed f => ∀ b p m, I m → P p k m → P p (f b) m
  | kill _ f => ∀ r, D (f r)
  | fork f child => (∀ r, D (f r)) ∧ D child
  | wait _ f => ∀ r o, D (f r o)
  | exit _ => True

/-- The invariant `I` of the memory and `P` of each process with its point. -/
structure Client (code : κ → Instr κ M ω Λ) (D : κ → Prop) (P : Nat → κ → M → Prop)
    (I : M → Prop) (ok : Nat → κ → ω → M → Prop) : Prop where
  dull : ∀ p k m, D k → P p k m
  calls : ∀ k, (code k).Local D P I ok k

/-- The accesses of the step count. -/
def Accesses (code : κ → Instr κ M ω Λ) (ok : Nat → κ → ω → M → Prop) (s : Sys κ M Λ)
    (e : Ev ω) : Prop :=
  ∀ c x b i k f, e = .run c x b → (s.cpu c).pc = .process i → s.pc i = .run k →
    code k = .access f → ok i k x s.mem

def ClientInv (D : κ → Prop) (P : Nat → κ → M → Prop) (I : M → Prop) (s : Sys κ M Λ) : Prop :=
  I s.mem ∧ ∀ q, (s.pc q).Sat D fun k => P q k s.mem

variable [Fintype Λ] [DecidableEq Λ] {s t : Sys κ M Λ} {c i : Nat} {D : κ → Prop}
  {P : Nat → κ → M → Prop} {I : M → Prop} {ok : Nat → κ → ω → M → Prop}
  {code : κ → Instr κ M ω Λ}

theorem Thread.mem_same {b : Bool} (h : Thread s c i b t) : t.mem = s.mem := by
  cases h <;> rfl

theorem Thread.sat {b : Bool} {Q : Nat → κ → Prop} (h : Thread s c i b t)
    (hD : ∀ q k, D k → Q q k) (hs : ∀ q, (s.pc q).Sat D (Q q)) (q : Nat) :
    (t.pc q).Sat D (Q q) := by
  have hi := hs i
  by_cases hqi : q = i
  · subst hqi
    cases h <;> simp_all [Pc.Sat]
  · cases h with
    | @forkAlloc j k child hpc =>
      by_cases hqj : q = j
      · subst hqj
        rw [hpc] at hi
        simpa [hqi, Pc.Sat] using hD q child hi.2
      · simpa [hqi, hqj] using hs q
    | _ => simpa [hqi] using hs q

theorem ClientInv.step {e : Ev ω} (hcl : Client code D P I ok) (h : ClientInv D P I s)
    (hok : Accesses code ok s e) (hst : Step code s e t) : ClientInv D P I t := by
  obtain ⟨hI, hP⟩ := h
  cases hst with
  | @instr c i x b k t hc hpc hi =>
    have hloc := hcl.calls k
    have hPi := hP i
    rw [hpc] at hPi
    have hpcs := hi.quiet.2.2.1
    generalize hcode : code k = instr at *
    cases hi with
    | @access f =>
      obtain ⟨hI', hP', hother⟩ := hloc i x s.mem (hok c x b i k f rfl hc hpc hcode) hI hPi
      refine ⟨hI', fun q => ?_⟩
      by_cases hqi : q = i
      · subst hqi
        simpa [Pc.Sat] using hP'
      · rw [hpcs q hqi]
        exact (hP q).mono fun k' hk' => hother q k' hqi hk'
    | @killed f hl =>
      refine ⟨hI, fun q => ?_⟩
      by_cases hqi : q = i
      · subst hqi
        simpa [Pc.Sat] using hloc _ q s.mem hI hPi
      · rw [hpcs q hqi]
        exact hP q
    | _ =>
      refine ⟨hI, fun q => ?_⟩
      by_cases hqi : q = i
      · subst hqi
        simp_all [Pc.Sat, Instr.Local]
      · rw [hpcs q hqi]
        exact hP q
  | thread hc ht =>
    rw [ClientInv, ht.mem_same]
    exact ⟨hI, ht.sat (fun q k hk => hcl.dull q k s.mem hk) hP⟩
  | @tick c i hc hl hlocks =>
    refine ⟨hI, fun q => ?_⟩
    by_cases hqi : q = i
    · subst hqi
      simpa [Pc.Sat] using hP q
    · simpa [hqi] using hP q
  | _ => exact ⟨hI, hP⟩

theorem Step.mem_cases {e : Ev ω} (hst : Step code s e t) :
    t.mem = s.mem ∨ ∃ c x b i k f, e = .run c x b ∧ (s.cpu c).pc = .process i ∧
      s.pc i = .run k ∧ code k = .access f ∧ t.mem = (f i x s.mem).1 := by
  cases hst with
  | @instr c i x b k t hc hpc hi =>
    generalize hcode : code k = instr at hi
    cases hi with
    | @access f => exact .inr ⟨c, x, b, i, k, f, rfl, hc, hpc, hcode, rfl⟩
    | _ => exact .inl rfl
  | thread hc ht => exact .inl ht.mem_same
  | _ => exact .inl rfl

/-- The invariant holds in every state that a schedule of accesses that count leads to. -/
theorem ClientInv.run {k : κ} {m : M} {evs : List (Ev ω)} (hcl : Client code D P I ok)
    (hk : ∀ p, P p k m) (hm : I m)
    (h : Runs code (Accesses code ok) (Procs.init k m) evs s) : ClientInv D P I s := by
  refine h.invariant (fun _ _ _ h hok hst => h.step hcl hok hst) ⟨hm, fun q => ?_⟩
  unfold Procs.init
  by_cases hq : q = initproc <;> simp [hq, Pc.Sat, hk]

end

end Xv6.Procs
