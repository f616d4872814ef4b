import Xv6.Kernel.Fs.Reading
import Xv6.System.Sessions

/-! # Reads in a session

A read of a pipe or of the console never delivers more than it was asked for. A read of a
file on disk does so exactly if the length is negative and the read starts before the end of
the file, and not so far on that the length wraps around.
-/

namespace Xv6.System

open Lib Fs Mkfs Reading

section

variable {files : List Input} {s t : Store} {ok : Store → Nat × Syscall → Prop}
  {calls : List (Nat × Syscall)}

/-- Between system calls no inode is locked. -/
theorem Booted.unlocked (hboot : Booted files s) (hfew : files.length + 2 ≤ sb.ninodes)
    (hrun : Run (Prog.serve Store.handle request) ok s calls t) (ip : Nat) :
    (t.mem.itable ip).locked = false := by
  obtain ⟨img, g, hmade, rfl⟩ := hboot.made hfew
  have hwf : WellFormed false sb img.blocks := hmade.wellFormed hfew fun hst => by cases hst
  exact (hwf.settled_run hrun).at_view.locks ip

/-- After any session on an image without holes the file system is well formed. -/
theorem Booted.inv (hboot : Booted files s) (hfew : files.length + 2 ≤ sb.ninodes)
    (hfree : HoleFree files)
    (hrun : Run (Prog.serve Store.handle request) (fun _ e => e.2.Typed) s calls t) :
    ∃ L U, Inv true False L U t := by
  have ht := (typed_suits true False).run (hboot.kept hfew (fun _ => hfree) id) hrun
  obtain ⟨v, hin⟩ := ht.fit.idle.world
  exact ⟨_, _, hin.inv⟩

end

/-- A read delivers no more than it was asked for, whatever it meets and wherever it copies to,
exactly if its length is not negative or wraps around, or nothing is left to read. -/
theorem fileread_within_iff {files : List Input} {s t : Store} {calls : List (Nat × Syscall)}
    {f : Nat} {n : Int} (hboot : Booted files s) (hfew : files.length + 2 ≤ sb.ninodes)
    (hfree : HoleFree files)
    (hrun : Run (Prog.serve Store.handle request) (fun _ e => e.2.Typed) s calls t)
    (hf : f < nFile) (hlo : -2 ^ 31 ≤ n) (hhi : n < 2 ^ 31) :
    (∀ inp um addr r u,
      Prog.returns Store.handle (Reading.fileread f inp ⟨um, addr, n⟩) t = some (r, u) →
        Within n r) ↔ Asked t f n := by
  obtain ⟨L, U, hinv⟩ := hboot.inv hfew hfree hrun
  constructor
  · intro hall
    by_contra hask
    simp only [Asked, not_or, not_le, ne_eq, not_not, Bool.not_eq_false] at hask
    obtain ⟨hn, hread, hty, hwrap, hoff⟩ := hask
    obtain ⟨r, u, hret, hr⟩ := Prog.returns_of_wp (fileread_negative hinv hf ⟨none, fun _ => none⟩
      hlo hread hty (hboot.unlocked hfew hrun _) hn hwrap hoff)
    have hle := (hall _ _ _ _ _ hret).2
    omega
  · intro hask inp um addr r u hret
    have hwp := fileread_within (a := ⟨um, addr, n⟩) hinv hf inp hlo hhi hask
    exact Prog.wp_returns (Q := fun r _ => Within n r) hwp hret

def openRoot : List (Nat × Syscall) := [(0, .open (some [slash]) 0)]

theorem fileread_within_iff_openRoot : ∃ t, (t.mem.ftable 0).type = .inode ∧
    ∀ inp um addr r u,
      Prog.returns Store.handle (Reading.fileread 0 inp ⟨um, addr, 7⟩) t = some (r, u) →
        Within 7 r := by
  have hrun : ((session (fun _ e => e.2.Typed) [] openRoot).map fun t => (t.mem.ftable 0).type) =
      some .inode := by decide +kernel
  obtain ⟨t, ht, htype⟩ := Option.map_eq_some_iff.mp hrun
  obtain ⟨s, hboot, hcalls⟩ := Option.bind_eq_some_iff.mp ht
  have hcalls : Run _ (fun _ (e : Nat × Syscall) => e.2.Typed) _ _ _ :=
    .of_runTest (fun _ _ h => of_decide_eq_true h) hcalls
  exact ⟨t, htype, (fileread_within_iff (booted_of_boot hboot) (by decide) (by decide) hcalls
    (by decide) (by decide) (by decide)).mpr (.inl (by decide))⟩

/-- A read of -1 bytes from the start of the root directory delivers all of it. -/
theorem fileread_negative_root : ∃ s t r u, Booted [] s ∧
    Run (Prog.serve Store.handle request) (fun _ e => e.2.Typed) s openRoot t ∧
    Prog.returns Store.handle (Reading.fileread 0 ⟨none, fun _ => none⟩ ⟨allMapped, 0, -1⟩) t =
      some (r, u) ∧ r.1 = 1024 ∧ r.2.length = 1024 := by
  have hrun : ((session (fun _ e => e.2.Typed) [] openRoot).bind fun t =>
      (Prog.returns Store.handle (Reading.fileread 0 ⟨none, fun _ => none⟩
        ⟨allMapped, 0, -1⟩) t).map
        fun r => (r.1.1, r.1.2.length)) = some (1024, 1024) := by decide +kernel
  obtain ⟨t, ht, hlast⟩ := Option.bind_eq_some_iff.mp hrun
  obtain ⟨⟨r, u⟩, hret, heq⟩ := Option.map_eq_some_iff.mp hlast
  obtain ⟨hr, hlen⟩ := Prod.mk.inj heq
  obtain ⟨s, hboot, hcalls⟩ := Option.bind_eq_some_iff.mp ht
  exact ⟨s, t, r, u, booted_of_boot hboot, .of_runTest (fun _ _ h => of_decide_eq_true h) hcalls,
    hret, hr, hlen⟩

end Xv6.System
