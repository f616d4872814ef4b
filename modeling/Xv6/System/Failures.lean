import Xv6.System.Sessions

/-! # Calls that fail

A system call that names a path and fails leaves the tree of files, the descriptors and the
current directories as they were. The exception is an `open` that makes a file and then
finds no file structure or no descriptor for it.
-/

namespace Xv6.System

open Lib Fs Mkfs

/-- A call that fails changes nothing, after any session, if it is no `open` that would make
a file without a file structure and a descriptor for it. -/
theorem failed_call_same {files : List Input} {s t u : Store} {calls : List (Nat × Syscall)}
    {p : Nat} {call : Syscall} (hboot : Booted files s) (hfew : files.length + 2 ≤ sb.ninodes)
    (hrun : Run (Prog.serve Store.handle request) (fun _ e => e.2.Typed) s calls t)
    (hsafe : call.Safe t p (t.cwdOf p))
    (hret : Prog.returns Store.handle (syscall p call) t = some (-1, u)) : Same t u := by
  have ht := (typed_suits false True).run (hboot.kept hfew (fun hst => by cases hst) id) hrun
  have htyped : call.Typed := by
    cases call with
    | exec path reads ret => exact hsafe.elim
    | _ => exact trivial
  have hend := syscall_in (I := fun _ => True) (E := fun _ _ => True) (p := p) call
    ⟨fun _ => trivial, fun _ _ _ _ => trivial, fun _ _ => trivial⟩ ht.fit htyped False.elim
    fun _ _ _ _ _ => trivial
  exact (Prog.wp_returns hend hret).2 rfl trivial hsafe

def lastCall (files : List Input) (calls : List (Nat × Syscall)) (e : Nat × Syscall) :
    Option (Int × Store × Store) :=
  (session (fun _ e => e.2.Typed) files calls).bind fun t =>
    (Prog.returns Store.handle (request e) t).map fun r => (r.1, t, r.2)

theorem lastCall_run {files : List Input} {calls : List (Nat × Syscall)} {e : Nat × Syscall}
    {r : Int} {t u : Store} (h : lastCall files calls e = some (r, t, u)) :
    ∃ s, Booted files s ∧
      Run (Prog.serve Store.handle request) (fun _ e => e.2.Typed) s calls t ∧
      Prog.returns Store.handle (request e) t = some (r, u) := by
  obtain ⟨t', hsess, hlast⟩ := Option.bind_eq_some_iff.mp h
  obtain ⟨s, hboot, hrun⟩ := Option.bind_eq_some_iff.mp hsess
  obtain ⟨⟨r', u'⟩, hret, heq⟩ := Option.map_eq_some_iff.mp hlast
  cases heq
  exact ⟨s, booted_of_boot hboot, .of_runTest (fun _ _ h => of_decide_eq_true h) hrun, hret⟩

/-- What is not there cannot be removed. -/
theorem failed_call_same_unlink : ∃ t u,
    Prog.returns Store.handle (syscall 0 (.unlink (some [120]))) t = some (-1, u) ∧
    Same t u := by
  have hrun : (lastCall [] [] (0, .unlink (some [120]))).map Prod.fst = some (-1) := by
    decide +kernel
  obtain ⟨⟨r, t, u⟩, hlast, rfl⟩ := Option.map_eq_some_iff.mp hrun
  obtain ⟨s, hboot, hcalls, hret⟩ := lastCall_run hlast
  have hsafe : Syscall.Safe t 0 (t.cwdOf 0) (.unlink (some [120])) := trivial
  exact ⟨t, u, hret, failed_call_same hboot (by decide) hcalls hsafe hret⟩

def allOpen : List (Nat × Syscall) := List.replicate nOfile (0, .open (some [slash]) 0)

/-- The file that is to be opened then is made, and the call fails. -/
theorem failed_open_makes_file : ∃ s t u, Booted [] s ∧
    Run (Prog.serve Store.handle request) (fun _ e => e.2.Typed) s allOpen t ∧
    Prog.returns Store.handle (syscall 0 (.open (some [120]) oCreate)) t = some (-1, u) ∧
    (t.node rootIno).lookup [120] = none ∧ (u.node rootIno).lookup [120] = some (2, 2) ∧
    (t.node 2).type = 0 ∧ (u.node 2).type = tFile := by
  have hrun : (lastCall [] allOpen (0, .open (some [120]) oCreate)).map (fun x =>
      (x.1, (x.2.1.node rootIno).lookup [120], (x.2.2.node rootIno).lookup [120],
        (x.2.1.node 2).type, (x.2.2.node 2).type)) =
      some (-1, none, some (2, 2), 0, tFile) := by decide +kernel
  obtain ⟨⟨r, t, u⟩, hlast, heq⟩ := Option.map_eq_some_iff.mp hrun
  simp only [Prod.mk.injEq] at heq
  obtain ⟨rfl, hold, hnew, hfree, hfile⟩ := heq
  obtain ⟨s, hboot, hcalls, hret⟩ := lastCall_run hlast
  exact ⟨s, t, u, hboot, hcalls, hret, hold, hnew, hfree, hfile⟩

end Xv6.System
