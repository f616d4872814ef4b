import Xv6.Kernel.Fs.Descriptors
import Xv6.Lib.Session

/-! # Sessions of system calls

Processes make system calls one after another. What every call keeps holds between the calls
and wherever a transaction is committed, and it says which panics cannot happen.
-/

namespace Xv6.Fs

open Lib

def request (e : Nat × Syscall) : FsProg Int := syscall e.1 e.2

/-- The file system goes through the state, between two system calls or where a transaction
is committed. Every call of the session meets `ok`. -/
def Reaches (ok : Store → Nat × Syscall → Prop) (s t : Store) : Prop :=
  Prog.Passes Store.handle request ok s t

def Panics (ok : Store → Nat × Syscall → Prop) (s : Store) (msg : String) : Prop :=
  Prog.Breaks Store.handle request ok s (.panic msg)

structure Kept (m : Mode) (sb : Superblock) (s : Store) : Prop where
  fit : Fit m s
  sb : s.mem.sb = sb

/-- Between two system calls or where a transaction is committed. -/
structure Passed (m : Mode) (sb : Superblock) (s : Store) : Prop where
  world : ∃ v, In m v s
  sb : s.mem.sb = sb

/-- The calls that meet `ok` keep what the mode asks for. -/
structure Suits (m : Mode) (ok : Store → Nat × Syscall → Prop) : Prop where
  typed : ∀ s e, ok s e → e.2.Typed
  whole : m.clean → ∀ s e, ok s e → e.2.Whole s e.1
  unsound : ¬ m.sound

def Tame (m : Mode) : Stop → Prop
  | .panic msg => msg ∉ fatal m.strict
  | _ => True

section

variable {m : Mode} {sb : Superblock} {ok : Store → Nat × Syscall → Prop} {s t : Store}
  {calls : List (Nat × Syscall)}

theorem tame_benign (m : Mode) : Benign m.strict m.sound fun r _ => Tame m r := by
  have hout : ∀ st, "ilock: no type" ∉ fatal st := by decide
  exact ⟨fun _ => trivial, fun _ hfatal _ _ => hfatal, fun _ _ => hout _⟩

/-- Calls of any kind suit the modes that ask for neither sound references nor whole writes. -/
theorem typed_suits (st : Bool) (x : Prop) :
    Suits ⟨st, False, x, False⟩ fun _ e => e.2.Typed :=
  ⟨fun _ _ h => h, False.elim, id⟩

theorem Suits.syscall (hok : Suits m ok) {e : Nat × Syscall} (h : Kept m sb s) (he : ok s e) :
    wp (Passed m sb) (syscall e.1 e.2) (fun _ => Kept m sb) (fun r _ => Tame m r) s := by
  refine wp_mono (syscall_in e.2 (tame_benign m) h.fit (hok.typed s e he)
    (fun hc => hok.whole hc s e he) fun v t hin hsb _ => ⟨⟨v, hin⟩, ?_⟩) (fun r t ht => ?_)
    fun _ _ he => he
  · rw [hin.sb, hsb, h.sb]
  · obtain ⟨hdone, -⟩ := ht
    refine ⟨⟨hdone.idle, ?_, fun hx => ?_, fun hs => absurd hs hok.unsound⟩, hdone.sb.trans h.sb⟩
    · rw [hdone.sb]
      exact h.fit.root
    · rw [hdone.sb]
      exact h.fit.small hx

theorem Idle.world (h : Idle m s) : ∃ v, In m v s := by
  obtain ⟨R, hin, -⟩ := h
  exact ⟨_, hin⟩

theorem Suits.run (hok : Suits m ok) (hs : Kept m sb s)
    (h : Run (Prog.serve Store.handle request) ok s calls t) : Kept m sb t :=
  Prog.keeps_run hs (fun _ _ hk he => hok.syscall hk he) h

theorem Suits.reaches (hok : Suits m ok) (hs : Kept m sb s) (h : Reaches ok s t) :
    Passed m sb t :=
  Prog.Passes.holds h hs (fun _ ht => ⟨ht.fit.idle.world, ht.sb⟩) fun _ _ hk he => hok.syscall hk he

theorem Suits.panics (hok : Suits m ok) (hs : Kept m sb s) {msg : String}
    (h : Panics ok s msg) : msg ∉ fatal m.strict :=
  Prog.Breaks.reason (F := Tame m) h hs fun _ _ hk he => hok.syscall hk he

end

end Xv6.Fs
