import Xv6.System.Sessions

/-! # The tree under the calls

In a session every call is an edit of the tree of nodes, or none, and inodes stay while they have
a link or are used.
-/

namespace Xv6.System

open Lib Fs Mkfs

/-- Inode `i` is open, or it is the current directory of a process. -/
def InUse (t : Store) (i : Nat) : Prop :=
  ∃ ip < nInode, (t.mem.itable ip).inum = i ∧ (0 < t.mem.fileRefs ip ∨ ip ∈ cwds t.mem.proc)

section

variable {st : Bool} {sb : Superblock} {blocks : Nat → Block} {calls : List (Nat × Syscall)}
  {t : Store} (hwf : WellFormed st sb blocks)
  (hrun : Run (Prog.serve Store.handle request) (fun _ e => e.2.Typed) (firstStore sb blocks)
    calls t)

include hwf hrun

/-- Every tree that a call of a session on a well-formed disk commits or leaves is the one before
it, with or without one edit that its arguments ask for in the state it is made in, and with
inodes without links freed. -/
theorem calls_are_edits (p : Nat) (call : Syscall) (u : Store) (htyped : call.Typed)
    (hu : u ∈ (Prog.run Store.handle (syscall p call) t).visited ∨
      ∃ r, Prog.returns Store.handle (syscall p call) t = some (r, u)) :
    Effect t.mem.sb.ninodes (call.Asks t p) t.node u.node := by
  have hfit : Fit ⟨st, False, True, False⟩ t := hwf.fit_run hrun
  have hcall := syscall_in (E := fun _ _ => True) (p := p) call
    benign_all hfit htyped False.elim fun _ _ _ _ heffect => heffect trivial
  obtain hu | ⟨r, hret⟩ := hu
  · exact hcall.1 u hu
  · exact (Prog.wp_returns hcall hret).1.effect trivial

/-- Between the calls of a session the count of an entry of the inode table is the number of open
files and current directories that refer to it, the inodes in use are allocated, and every
inode that is allocated has a link or is in use. -/
theorem inodes_stay_while_used :
    (∀ ip < nInode,
      (t.mem.itable ip).ref = (t.mem.fileRefs ip + (cwds t.mem.proc).count ip : Nat)) ∧
    ∀ i, (InUse t i → (t.node i).type ≠ 0) ∧
      ((t.node i).type ≠ 0 → (t.node i).nlink ≠ 0 ∨ InUse t i) := by
  have hfit : Fit ⟨st, False, True, False⟩ t := hwf.fit_run hrun
  obtain ⟨R, hin, hperm⟩ := hfit.idle
  refine ⟨fun ip hip => ?_, fun i => ⟨?_, fun htype => ?_⟩⟩
  · rw [hin.inv.refs ip hip, ← hperm.count_eq]
    rfl
  · rintro ⟨ip, hip, rfl, huse⟩
    rw [Store.node_type]
    exact hin.inv.alive ip hip (huse.imp_right fun hcwd => .inl (hperm.mem_iff.mpr hcwd))
  · by_cases hlink : (t.node i).nlink = 0
    · obtain ⟨ip, hholds, huse⟩ := hin.anchored trivial i htype hlink
      exact .inr ⟨ip, hholds.lt, hholds.inum, huse.imp_right hperm.mem_iff.mp⟩
    · exact .inl hlink

end

theorem session_run {calls : List (Nat × Syscall)} {t : Store}
    (h : session (fun _ e => e.2.Typed) [] calls = some t) : ∃ blocks, WellFormed true sb blocks ∧
    Run (Prog.serve Store.handle request) (fun _ e => e.2.Typed) (firstStore sb blocks)
      calls t := by
  obtain ⟨s, hboot, hcalls⟩ := Option.bind_eq_some_iff.mp h
  obtain ⟨img, g, hmade, rfl⟩ := (booted_of_boot hboot).made (by decide)
  exact ⟨img.blocks, hmade.wellFormed (by decide) fun _ => by decide,
    .of_runTest (fun _ _ h => of_decide_eq_true h) hcalls⟩

theorem calls_are_edits_write : ∃ t u : Store, (t.node 2).size = 0 ∧ (u.node 2).size = 5 ∧
    Effect t.mem.sb.ninodes (Syscall.Asks t 0 writeFive.2) t.node u.node := by
  have hrun : ((session (fun _ e => e.2.Typed) [] [makeFile]).bind fun t =>
      (Prog.returns Store.handle (syscall 0 writeFive.2) t).map
        fun x => ((t.node 2).size, (x.2.node 2).size)) = some (0, 5) := by decide +kernel
  obtain ⟨t, hsess, hlast⟩ := Option.bind_eq_some_iff.mp hrun
  obtain ⟨⟨r, u⟩, hret, hsizes⟩ := Option.map_eq_some_iff.mp hlast
  obtain ⟨hold, hnew⟩ := Prod.mk.inj hsizes
  obtain ⟨blocks, hwf, hcalls⟩ := session_run hsess
  exact ⟨t, u, hold, hnew, calls_are_edits hwf hcalls 0 _ u trivial (.inr ⟨r, hret⟩)⟩

/-- A file that is unlinked while it is open has no link, and stays. -/
theorem inodes_stay_while_used_unlinked : ∃ t : Store, (t.node 2).nlink = 0 ∧
    (t.node 2).type ≠ 0 := by
  have hrun : ((session (fun _ e => e.2.Typed) [] [makeFile, (0, .unlink (some [102]))]).map
      fun t => decide ((t.node 2).nlink = 0 ∧ (t.mem.ftable 0).ip < nInode ∧
        (t.mem.itable (t.mem.ftable 0).ip).inum = 2 ∧
        0 < t.mem.fileRefs (t.mem.ftable 0).ip)) = some true := by decide +kernel
  obtain ⟨t, hsess, hfacts⟩ := Option.map_eq_some_iff.mp hrun
  obtain ⟨hlink, hip, hnum, hrefs⟩ := of_decide_eq_true hfacts
  obtain ⟨blocks, hwf, hcalls⟩ := session_run hsess
  exact ⟨t, hlink, ((inodes_stay_while_used hwf hcalls).2 2).1 ⟨_, hip, hnum, .inl hrefs⟩⟩

end Xv6.System
