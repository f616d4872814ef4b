import Xv6.Kernel.Proc.Sched

/-! # Trace masks

`fork` copies the trace mask after it has made the child runnable, and under no lock.
Until then the child has the mask that the last process in its entry left, and a mask it
sets itself is overwritten. If the entry has the parent's mask already, and the child
sets none before the copy, every process that can run has the mask it inherited until it
sets one itself.
-/

namespace Xv6.Procs

open Lib

section

variable {κ M ω Λ : Type}

/-- The child that `fork` still has to give its mask. -/
def Pc.masks (pc : Pc κ Λ) : Option Nat :=
  match pc.inner with
  | forkMask j _ _ => some j
  | _ => none

/-- The masks that processes should have: `fork` gives the child the mask of its parent, and
`sys_trace` sets the caller's. -/
def dueMasks (code : κ → Instr κ M ω Λ) (s : Sys κ M Λ) (e : Ev ω) (x : Nat → BitVec 32) :
    Nat → BitVec 32 :=
  match e with
  | .run c _ _ =>
      match (s.cpu c).pc with
      | .process i =>
          match s.pc i with
          | .forkRunnable j _ _ => upd x j (s.proc i).traceMask
          | .run k =>
              match code k with
              | .trace mask _ => upd x i mask
              | _ => x
          | _ => x
      | _ => x
  | _ => x

variable [Fintype Λ] [DecidableEq Λ]

def dueAfter (code : κ → Instr κ M ω Λ) (s : Sys κ M Λ) (x : Nat → BitVec 32) :
    List (Ev ω) → Nat → BitVec 32
  | [] => x
  | e :: evs =>
      match step code s e with
      | some t => dueAfter code t (dueMasks code s e x) evs
      | none => x

/-- A child that becomes runnable has the mask of its parent already, and no process calls
`sys_trace` while the `fork` that made it still has to copy the mask. -/
def MaskKept (code : κ → Instr κ M ω Λ) (s : Sys κ M Λ) (e : Ev ω) : Prop :=
  ∀ c y ok i, e = .run c y ok → (s.cpu c).pc = .process i →
    (∀ j pid k, s.pc i = .forkRunnable j pid k → (s.proc j).traceMask = (s.proc i).traceMask) ∧
    ∀ k mask k', s.pc i = .run k → code k = .trace mask k' → ∀ q, (s.pc q).masks ≠ some i

/-- The masks `x` are what every process has, and a copy that is still to be made changes
nothing. -/
structure MaskInv (s : Sys κ M Λ) (x : Nat → BitVec 32) : Prop where
  sched : SchedInv s
  pending : ∀ q j, (s.pc q).masks = some j → (s.proc j).traceMask = (s.proc q).traceMask
  due : ∀ p, (s.proc p).Live → (s.proc p).traceMask = x p

variable {s t : Sys κ M Λ} {c i : Nat} {x : Nat → BitVec 32}

theorem Pc.Returns.masks {pc : Pc κ Λ} (h : pc.Returns) : pc.masks = none := by
  cases pc <;> simp_all [Pc.Returns, Pc.masks, Pc.inner]

theorem MaskInv.frame (h : MaskInv s x) (ht : SchedInv t)
    (hmask : ∀ p, (t.proc p).traceMask = (s.proc p).traceMask)
    (hlive : ∀ p, (t.proc p).Live → (s.proc p).Live)
    (hpend : ∀ q j, (t.pc q).masks = some j → (s.pc q).masks = some j) : MaskInv t x := by
  refine ⟨ht, fun q j hq => ?_, fun p hp => ?_⟩
  · rw [hmask, hmask]
    exact h.pending q j (hpend q j hq)
  · rw [hmask]
    exact h.due p (hlive p hp)

/-- Only a `fork` that makes its child runnable has a copy to make then. -/
theorem Thread.masks_of {ok : Bool} (h : Thread s c i ok t) (hs : SchedInv s)
    (h₁ : ∀ j pid k, s.pc i ≠ .forkRunnable j pid k) {q j : Nat}
    (hq : (t.pc q).masks = some j) : (s.pc q).masks = some j := by
  have hwf := hs.wf i
  by_cases hqi : q = i
  · subst hqi
    cases h with
    | @relock _ l next hpc hl =>
      rw [hpc] at hwf
      simp [Pc.Returns.masks hwf] at hq
    | @wakeEnd _ ch j next hpc hj =>
      rw [hpc] at hwf
      simp [Pc.Returns.masks hwf] at hq
    | forkRunnable hpc => exact absurd hpc (h₁ _ _ _)
    | sched hpc => simpa [Pc.masks, Pc.inner, hpc] using hq
    | yieldAcquire hpc => simpa [Pc.masks, Pc.inner, hpc] using hq
    | yieldRelease hpc => simpa [Pc.masks, Pc.inner, hpc] using hq
    | _ => simp [Pc.masks, Pc.inner] at hq
  · cases h with
    | @forkAlloc j' k child hpc =>
      by_cases hj : q = j'
      · subst hj
        simp [hqi, Pc.masks, Pc.inner] at hq
      · simpa [hqi, hj] using hq
    | _ => simpa [hqi] using hq

theorem Thread.traceMask_same {ok : Bool} (h : Thread s c i ok t)
    (hm : ∀ j pid k, s.pc i ≠ .forkMask j pid k) (p : Nat) :
    (t.proc p).traceMask = (s.proc p).traceMask := by
  cases h with
  | forkMask hpc => exact absurd hpc (hm _ _ _)
  | @wake _ ch j next hpc hj hji hl =>
    by_cases hp : p = j
    · subst hp
      simp only [Sys.setPc_proc, Sys.setProc_proc, if_true, wakeOne]
      split <;> rfl
    · simp [hp]
  | _ =>
    simp only [Sys.setPc_proc, Sys.setProc_proc, Sys.setLock_proc, Sys.setCpu_proc]
    try split
    all_goals simp_all [killOne, freeproc]

/-- The copy that `fork` makes finds the mask it writes. -/
theorem MaskInv.thread_same {ok : Bool} (h : MaskInv s x) (ht : Thread s c i ok t) (p : Nat) :
    (t.proc p).traceMask = (s.proc p).traceMask := by
  by_cases hm : ∃ j pid k, s.pc i = .forkMask j pid k
  · obtain ⟨j, pid, k, hpc⟩ := hm
    have hj := h.pending i j (by rw [hpc]; rfl)
    cases ht with
    | @forkMask _ j' _ _ hpc' =>
      rw [hpc, Pc.forkMask.injEq] at hpc'
      obtain ⟨rfl, -, -⟩ := hpc'
      by_cases hp : p = j <;> simp [hp, hj]
    | _ => simp_all
  · exact ht.traceMask_same (fun j pid k hpc => hm ⟨j, pid, k, hpc⟩) p

theorem dueMasks_thread {code : κ → Instr κ M ω Λ} {y : ω} {ok : Bool}
    (hc : (s.cpu c).pc = .process i) (h₁ : ∀ j pid k, s.pc i ≠ .forkRunnable j pid k)
    (h₂ : ∀ k, s.pc i ≠ .run k) : dueMasks code s (.run c y ok) x = x := by
  simp only [dueMasks, hc]

theorem MaskInv.thread_step {code : κ → Instr κ M ω Λ} {y : ω} {ok : Bool} (h : MaskInv s x)
    (hc : (s.cpu c).pc = .process i) (hok : MaskKept code s (.run c y ok))
    (ht : Thread s c i ok t) : MaskInv t (dueMasks code s (.run c y ok) x) := by
  have hsched := h.sched.thread_step hc ht
  have hsame := h.thread_same ht
  by_cases h₁ : ∃ j pid k, s.pc i = .forkRunnable j pid k
  · obtain ⟨j, pid, k, hpc⟩ := h₁
    have hdue : dueMasks code s (.run c y ok) x = upd x j (s.proc i).traceMask := by
      simp only [dueMasks, hc, hpc]
    have hj := (hok c y ok i rfl hc).1 j pid k hpc
    rw [hdue]
    refine ⟨hsched, fun q r hq => ?_, fun p hp => ?_⟩
    · rw [hsame, hsame]
      cases ht with
      | @forkRunnable _ j' pid' k' hpc' hl =>
        rw [hpc, Pc.forkRunnable.injEq] at hpc'
        obtain ⟨rfl, rfl, rfl⟩ := hpc'
        by_cases hqi : q = i
        · subst hqi
          have hr : j = r := by simpa [Pc.masks, Pc.inner] using hq
          rw [← hr, hj]
        · exact h.pending q r (by simpa [hqi] using hq)
      | _ => simp_all
    · rw [hsame]
      by_cases hpj : p = j
      · rw [hpj, hj, upd_same]
      · rw [upd_other hpj]
        refine h.due p (h.sched.thread_live hc ht p (fun pid' k' hpc' => hpj ?_) hp)
        rw [hpc, Pc.forkRunnable.injEq] at hpc'
        exact hpc'.1.symm
  · have h₁' : ∀ j pid k, s.pc i ≠ .forkRunnable j pid k := fun j pid k hpc =>
      h₁ ⟨j, pid, k, hpc⟩
    have hnr : ∀ k, s.pc i ≠ .run k := by
      intro k hpc
      cases ht <;> simp_all
    rw [dueMasks_thread hc h₁' hnr]
    exact h.frame hsched hsame (fun p => h.sched.thread_live hc ht p (h₁' p)) fun q j hq =>
      ht.masks_of h.sched h₁' hq

/-- A call of anything but `sys_trace` leaves the masks. -/
theorem Call.traceMask_same {y : ω} {instr : Instr κ M ω Λ} (h : Call s c i y instr t)
    (hn : ∀ mask k, instr ≠ .trace mask k) (p : Nat) :
    (t.proc p).traceMask = (s.proc p).traceMask := by
  cases h with
  | trace => exact absurd rfl (hn _ _)
  | setkilled hl => by_cases hp : p = i <;> simp [hp]
  | _ => rfl

theorem Call.masks_none {y : ω} {instr : Instr κ M ω Λ} (h : Call s c i y instr t) :
    (t.pc i).masks = none := by
  cases h <;> simp [Pc.masks, Pc.inner]

theorem dueMasks_call {code : κ → Instr κ M ω Λ} {y : ω} {ok : Bool} {k : κ}
    (hc : (s.cpu c).pc = .process i) (hk : s.pc i = .run k)
    (hn : ∀ mask k', code k ≠ .trace mask k') : dueMasks code s (.run c y ok) x = x := by
  simp only [dueMasks, hc, hk]

theorem MaskInv.call_step {code : κ → Instr κ M ω Λ} {y : ω} {ok : Bool} {k : κ}
    (h : MaskInv s x) (hc : (s.cpu c).pc = .process i) (hk : s.pc i = .run k)
    (hok : MaskKept code s (.run c y ok)) (ht : Call s c i y (code k) t) :
    MaskInv t (dueMasks code s (.run c y ok) x) := by
  have hsched := h.sched.step (.instr hc hk ht : Step code s (.run c y ok) t)
  obtain ⟨-, hsame, hpcs, -⟩ := ht.quiet
  have hlive : ∀ p, (t.proc p).Live → (s.proc p).Live := by
    intro p hp
    unfold Proc.Live at hp ⊢
    rwa [(hsame p).2] at hp
  have hpend : ∀ q j, (t.pc q).masks = some j → q ≠ i ∧ (s.pc q).masks = some j := by
    intro q j hq
    have hqi : q ≠ i := by
      rintro rfl
      simp [ht.masks_none] at hq
    exact ⟨hqi, by rwa [hpcs q hqi] at hq⟩
  by_cases htr : ∃ mask k', code k = .trace mask k'
  · obtain ⟨mask, k', hcode⟩ := htr
    have hnone := (hok c y ok i rfl hc).2 k mask k' hk hcode
    have hdue : dueMasks code s (.run c y ok) x = upd x i mask := by
      simp only [dueMasks, hc, hk, hcode]
    rw [hdue]
    refine ⟨hsched, fun q j hq => ?_, fun p hp => ?_⟩
    · obtain ⟨hqi, hq'⟩ := hpend q j hq
      have hji : j ≠ i := by
        rintro rfl
        exact hnone q hq'
      rw [hcode] at ht
      cases ht
      simpa [hji, hqi] using h.pending q j hq'
    · have hp' := hlive p hp
      rw [hcode] at ht
      cases ht
      by_cases hpi : p = i
      · simp [hpi]
      · simpa [hpi, upd_other hpi] using h.due p hp'
  · have htr' : ∀ mask k', code k ≠ .trace mask k' := fun mask k' heq => htr ⟨mask, k', heq⟩
    rw [dueMasks_call hc hk htr']
    exact h.frame hsched (ht.traceMask_same htr') hlive fun q j hq => (hpend q j hq).2

theorem MaskInv.step {code : κ → Instr κ M ω Λ} {e : Ev ω} (h : MaskInv s x)
    (hok : MaskKept code s e) (hst : Step code s e t) : MaskInv t (dueMasks code s e x) := by
  have hsched := h.sched.step hst
  cases hst with
  | @dispatch c i hc hl hr =>
    refine h.frame hsched (fun p => ?_) (fun p hp => ?_) fun q j hq => hq
    · by_cases hp : p = i <;> simp [hp]
    · by_cases hpi : p = i
      · simp [hpi, hr, Proc.Live]
      · simpa [hpi] using hp
  | scan hc hl hr => exact ⟨hsched, h.pending, h.due⟩
  | swtch hc => exact ⟨hsched, h.pending, h.due⟩
  | back hc => exact ⟨hsched, h.pending, h.due⟩
  | @release c i hc =>
    refine h.frame hsched (fun p => ?_) (fun p hp => ?_) fun q j hq => hq
    · by_cases hp : p = i <;> simp [hp]
    · by_cases hpi : p = i
      · subst hpi
        simpa [Proc.Live] using hp
      · simpa [hpi] using hp
  | instr hc hpc hi => exact h.call_step hc hpc hok hi
  | thread hc ht => exact h.thread_step hc hok ht
  | @tick c i hc hl hlocks =>
    refine h.frame hsched (fun p => rfl) (fun p hp => hp) fun q j hq => ?_
    by_cases hqi : q = i
    · subst hqi
      simpa [Pc.masks, Pc.inner] using hq
    · simpa [hqi] using hq
  | @intr p hl hsl =>
    refine h.frame hsched (fun q => ?_) (fun q hq => ?_) fun q j hq => hq
    · by_cases hq : q = p <;> simp [hq]
    · by_cases hqp : q = p
      · simp [hqp, hsl, Proc.Live]
      · simpa [hqp] using hq

theorem MaskInv.init (k : κ) (m : M) : MaskInv (init k m : Sys κ M Λ) fun _ => 0 := by
  refine ⟨SchedInv.init k m, fun q j hq => ?_, fun p hp => ?_⟩
  · unfold Procs.init at hq
    by_cases hqi : q = initproc <;> simp [hqi, Pc.masks, Pc.inner] at hq
  · unfold Procs.init
    by_cases hpi : p = initproc <;> simp [hpi, Proc.fresh]

theorem MaskInv.run {code : κ → Instr κ M ω Λ} {evs : List (Ev ω)} (h : MaskInv s x)
    (hr : Runs code (MaskKept code) s evs t) : MaskInv t (dueAfter code s x evs) := by
  induction evs generalizing s x with
  | nil => exact hr ▸ h
  | cons e evs ih =>
    obtain ⟨hok, u, hu, hr⟩ := hr
    rw [dueAfter, hu]
    exact ih (h.step hok (step_cases hu)) hr

/-- A mask only changes by a `sys_trace` of its process. -/
theorem MaskInv.changes {code : κ → Instr κ M ω Λ} {e : Ev ω} {p : Nat} (h : MaskInv s x)
    (hst : Step code s e t) (hp : (t.proc p).traceMask ≠ (s.proc p).traceMask) :
    ∃ c y ok k mask k', e = .run c y ok ∧ (s.cpu c).pc = .process p ∧ s.pc p = .run k ∧
      code k = .trace mask k' ∧ (t.proc p).traceMask = mask := by
  cases hst with
  | @instr c i y ok k t hc hpc hi =>
    cases hcode : code k with
    | trace mask k' =>
      rw [hcode] at hi
      cases hi
      by_cases hpi : p = i
      · subst hpi
        exact ⟨c, y, ok, k, mask, k', rfl, hc, hpc, hcode, by simp⟩
      · exact absurd (by simp [hpi]) hp
    | _ => exact absurd (hi.traceMask_same (by simp [hcode]) p) hp
  | thread hc ht => exact absurd (h.thread_same ht p) hp
  | @dispatch c i hc hl hr => by_cases hpi : p = i <;> simp_all
  | @release c i hc => by_cases hpi : p = i <;> simp_all
  | @intr q hl hsl => by_cases hpq : p = q <;> simp_all
  | _ => exact absurd rfl hp

/-- In a run in which every child that becomes runnable finds the mask of its parent in its
entry and sets none before `fork` has copied it, every process that is live, in every state,
has the mask it inherited or set last, and nobody else changes it. -/
theorem trace_mask_is_inherited {code : κ → Instr κ M ω Λ} {k : κ} {m : M} {evs : List (Ev ω)}
    (h : Runs code (MaskKept code) (Procs.init k m) evs s) :
    (∀ p, (s.proc p).Live →
      (s.proc p).traceMask = dueAfter code (Procs.init k m) (fun _ => 0) evs p) ∧
    ∀ p e t, step code s e = some t → (t.proc p).traceMask ≠ (s.proc p).traceMask →
      ∃ c y ok k mask k', e = .run c y ok ∧ (s.cpu c).pc = .process p ∧ s.pc p = .run k ∧
        code k = .trace mask k' ∧ (t.proc p).traceMask = mask := by
  have hinv := (MaskInv.init k m).run h
  exact ⟨hinv.due, fun p e t hst hp => hinv.changes (step_cases hst) hp⟩

/-- `MaskKept` of a step that is no `sys_trace`, as a test. -/
def maskKept (code : κ → Instr κ M ω Λ) (s : Sys κ M Λ) : Ev ω → Bool
  | .run c _ _ =>
      match (s.cpu c).pc with
      | .process i =>
          match s.pc i with
          | .forkRunnable j _ _ => decide ((s.proc j).traceMask = (s.proc i).traceMask)
          | .run k =>
              match code k with
              | .trace .. => false
              | _ => true
          | _ => true
      | _ => true
  | _ => true

omit [Fintype Λ] [DecidableEq Λ] in
theorem maskKept_sound {code : κ → Instr κ M ω Λ} (s : Sys κ M Λ) (e : Ev ω)
    (h : maskKept code s e = true) : MaskKept code s e := by
  rintro c y ok i rfl hc
  refine ⟨fun j pid k hpc => ?_, fun k mask k' hpc hcode => ?_⟩
  · simpa [maskKept, hc, hpc] using h
  · simp [maskKept, hc, hpc, hcode] at h

end

/-- The first process forks, and its child sets a mask. -/
def forkTrace : Nat → Instr Nat Unit Unit Empty
  | 0 => .fork (fun _ => 1) 2
  | 2 => .trace 5 3
  | n => .killed fun _ => n

/-- The child is on CPU 1 before the parent, on CPU 0, makes the copy, and sets its mask
afterwards. -/
def childFirst : List (Ev Unit) :=
  .sched 0 :: .sched 0 :: List.replicate 9 (.run 0 () true) ++
    (List.replicate 3 (.sched 1) ++ [.run 1 () true, .run 0 () true])

theorem trace_mask_is_inherited_first :
    ∃ s, exec forkTrace (init 0 ()) (childFirst ++ [.run 1 () true]) = some s ∧
      (s.cpu 1).pc = .process 1 ∧ (s.proc 1).traceMask = 5 ∧
      (s.proc 1).traceMask =
        dueAfter forkTrace (init 0 ()) (fun _ => 0) (childFirst ++ [.run 1 () true]) 1 := by
  have hrun : ∃ s, Runs forkTrace (MaskKept forkTrace) (init 0 ())
      (childFirst ++ [.run 1 () true]) s ∧ (s.cpu 1).pc = .process 1 ∧
      (s.proc 1).state = .running ∧ (s.proc 1).traceMask = 5 := by
    refine ⟨_, Runs.snoc.2 ⟨_, .of_execIf maskKept_sound rfl, ?_, rfl⟩, rfl, rfl, rfl⟩
    rintro c y ok i ⟨⟩ ⟨⟩
    refine ⟨nofun, fun k mask k' hk hcode q => ?_⟩
    by_cases h0 : q = 0
    · simp [h0, Pc.masks, Pc.inner]
    · by_cases h1 : q = 1 <;> simp [init, initproc, nProc, h0, h1, Pc.masks, Pc.inner]
  obtain ⟨s, hs, hc, hr, hm⟩ := hrun
  exact ⟨s, hs.exec, hc, hm, (trace_mask_is_inherited hs).1 1 (by simp [Proc.Live, hr])⟩

/-- The first process sets its mask and forks; the child sets its own. -/
def traceFork : Nat → Instr Nat Unit Unit Empty
  | 0 => .trace 7 1
  | 1 => .fork (fun _ => 2) 3
  | 3 => .trace 5 4
  | n => .killed fun _ => n

def untilCopy : List (Ev Unit) := .sched 0 :: .sched 0 :: List.replicate 10 (.run 0 () true)

def runChild (n : Nat) : List (Ev Unit) :=
  List.replicate 3 (.sched 1) ++ List.replicate n (.run 1 () true)

/-- The child runs before the copy: with mask 0, though its parent had 7 when it forked, and
then the copy overwrites the mask it has set. -/
theorem trace_mask_overwritten :
    (∃ s, exec traceFork (init 0 ()) (untilCopy ++ runChild 1) = some s ∧
      (s.cpu 1).pc = .process 1 ∧ s.pc 1 = .run 3 ∧ (s.proc 1).traceMask = 0 ∧
      dueAfter traceFork (init 0 ()) (fun _ => 0) (untilCopy ++ runChild 1) 1 = 7) ∧
    ∃ s t, exec traceFork (init 0 ()) (untilCopy ++ runChild 2) = some s ∧
      s.pc 1 = .run 4 ∧ (s.proc 1).traceMask = 5 ∧
      step traceFork s (.run 0 () true) = some t ∧ (t.proc 1).traceMask = 7 :=
  ⟨⟨_, rfl, rfl, rfl, rfl, rfl⟩, ⟨_, _, rfl, rfl, rfl, rfl, rfl⟩⟩

end Xv6.Procs
