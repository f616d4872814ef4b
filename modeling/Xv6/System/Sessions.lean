import Xv6.Mkfs.Boot

/-! # Sessions on an image of `mkfs`

The kernel is started on an image, and processes make system calls.
-/

namespace Xv6.System

open Lib Fs Mkfs

/-- The kernel has been started on an image with these files. -/
def Booted (files : List Input) (s : Store) : Prop :=
  ∃ img, mkfs files = some img ∧ fsinit img.blocks = .ok s

section

variable {files : List Input} {s t : Store} {m : Mode}

theorem Booted.made (h : Booted files s) (hfew : files.length + 2 ≤ sb.ninodes) :
    ∃ img g, Made files img g ∧ s = firstStore sb img.blocks := by
  obtain ⟨img, hmk, hinit⟩ := h
  rcases mkfs_spec (Nat.le_trans hfew (by decide)) with ⟨img', g, hmk', hmade⟩ | ⟨hnone, -⟩
  · cases hmk.symm.trans hmk'
    rw [hmade.fsinit] at hinit
    cases hinit
    exact ⟨img, g, hmade, rfl⟩
  · rw [hmk] at hnone
    cases hnone

theorem Booted.kept (h : Booted files s) (hfew : files.length + 2 ≤ sb.ninodes)
    (hst : m.strict = true → HoleFree files) (hm : ¬ m.sound) : Kept m sb s := by
  obtain ⟨img, g, hmade, rfl⟩ := h.made hfew
  exact (hmade.wellFormed hfew hst).kept hm

end

/-! ## Evaluation -/

def boot (files : List Input) : Option Store :=
  (mkfs files).bind fun img => (fsinit img.blocks).toOption

/-- A session whose calls pass the test is evaluated. -/
def session (test : Store → Nat × Syscall → Bool) (files : List Input)
    (calls : List (Nat × Syscall)) : Option Store :=
  (boot files).bind fun s =>
    runTest (Prog.serve Store.handle request) test s calls

theorem booted_of_boot {files : List Input} {s : Store} (h : boot files = some s) :
    Booted files s := by
  obtain ⟨img, hmk, hinit⟩ := Option.bind_eq_some_iff.mp h
  cases hres : fsinit img.blocks with
  | error msg =>
    rw [hres] at hinit
    cases hinit
  | ok t =>
    rw [hres] at hinit
    cases hinit
    exact ⟨img, hmk, hres⟩

/-- What is evaluated is a session. -/
theorem session_reaches {test : Store → Nat × Syscall → Bool} {ok : Store → Nat × Syscall → Prop}
    {files : List Input} {calls : List (Nat × Syscall)} {t : Store}
    (htest : ∀ s e, test s e = true → ok s e) (h : session test files calls = some t) :
    ∃ s, Booted files s ∧ Reaches ok s t := by
  obtain ⟨s, hboot, hrun⟩ := Option.bind_eq_some_iff.mp h
  exact ⟨s, booted_of_boot hboot, .left (.of_runTest htest hrun)⟩

/-- The message with which a further call stops after a session. -/
def sessionPanic (test : Store → Nat × Syscall → Bool) (files : List Input)
    (calls : List (Nat × Syscall)) (e : Nat × Syscall) : Option String :=
  (session test files calls).bind fun t =>
    if test t e then
      match (Prog.run Store.handle (request e) t).result with
      | .error (.panic msg) => some msg
      | _ => none
    else none

theorem session_panics {test : Store → Nat × Syscall → Bool} {ok : Store → Nat × Syscall → Prop}
    {files : List Input} {calls : List (Nat × Syscall)} {e : Nat × Syscall} {msg : String}
    (htest : ∀ s e, test s e = true → ok s e) (h : sessionPanic test files calls e = some msg) :
    ∃ s, Booted files s ∧ Panics ok s msg := by
  obtain ⟨t, hsess, hlast⟩ := Option.bind_eq_some_iff.mp h
  obtain ⟨s, hboot, hrun⟩ := Option.bind_eq_some_iff.mp hsess
  refine ⟨s, booted_of_boot hboot, calls, t, e, .of_runTest htest hrun, ?_⟩
  split at hlast
  · rename_i hok
    refine ⟨htest t e hok, ?_⟩
    split at hlast
    · rename_i heq
      cases hlast
      exact heq
    · cases hlast
  · cases hlast

instance (call : Syscall) : Decidable call.Typed := by
  unfold Syscall.Typed
  split <;> infer_instance

/-- A file is made and opened for writing. It gets inode 2. -/
def makeFile : Nat × Syscall := (0, .open (some [102]) 0x202)

def writeFive : Nat × Syscall := (0, .write 0 ⟨fun _ => true, fun _ => 97⟩ 0 5 fun _ => 0)

end Xv6.System
