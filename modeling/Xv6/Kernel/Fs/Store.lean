import Xv6.Kernel.Fs.Calls

/-! # The block store

File system code seen from above the cache and the log: every block has contents,
a held block is locked, and a transaction is a count of open operations. The
store also remembers which blocks were written and which were logged. It stops
speaking for the layers below, and says so in `broken`, once a written block is
released without being logged, a log block is read, or a transaction is
committed while a block is held. The states shown are those at transaction
boundaries.
-/

namespace Xv6.Fs

open Lib

structure Store where
  blocks : Nat → Block
  held : List Nat
  outstanding : Int
  logged : List Nat
  touched : List Nat
  broken : Bool
  mem : FsMem

def Superblock.inLog (sb : Superblock) (b : Nat) : Bool :=
  sb.logstart ≤ b ∧ b < sb.logstart + sb.nlog

namespace Store

def lock (s : Store) (b : Nat) : Store :=
  { s with
    held := b :: s.held
    broken := s.broken || s.mem.sb.inLog b }

def write (s : Store) (b : Nat) (f : Block → Block) : Store :=
  { s with blocks := upd s.blocks b (f (s.blocks b)), touched := b :: s.touched }

def record (s : Store) (b : Nat) : Store := { s with logged := b :: s.logged }

def release (s : Store) (b : Nat) : Store :=
  { s with
    held := s.held.erase b
    touched := s.touched.filter (· ≠ b)
    broken := s.broken || (b ∈ s.touched ∧ b ∉ s.logged : Bool) }

/-- The count of open operations goes down; the last one out commits. -/
def leave (s : Store) : Store :=
  { s with
    outstanding := s.outstanding - 1
    logged := if s.outstanding - 1 = 0 then [] else s.logged
    broken := s.broken || (s.outstanding - 1 = 0 ∧ s.held ≠ [] : Bool) }

def handle : (r : Req) → Comp Store Stop (Ans r)
  | .bread b => do
      let s ← Comp.get
      if b ∈ s.held then Comp.stop .deadlock else Comp.assign fun s => s.lock b
  | .load b => do
      let s ← Comp.get
      return s.blocks b
  | .store b f => do
      let s ← Comp.get
      if b ∈ s.held then Comp.assign fun s => s.write b f else pure ()
  | .logWrite b => do
      let s ← Comp.get
      if b ∈ s.held then
        if s.outstanding < 1 then Comp.stop (.panic "log_write outside of trans")
        else Comp.assign fun s => s.record b
      else pure ()
  | .brelse b => do
      let s ← Comp.get
      if b ∈ s.held then Comp.assign fun s => s.release b else Comp.stop (.panic "brelse")
  | .beginOp => Comp.assign fun s => { s with outstanding := s.outstanding + 1 }
  | .endOp => do
      let s ← Comp.get
      if s.outstanding - 1 = 0 then Comp.modify leave else Comp.assign leave
  | .mem => do
      let s ← Comp.get
      return s.mem
  | .setMem f => Comp.assign fun s => { s with mem := f s.mem }
  | .stop e => Comp.stop e

/-- What a request can do to the store. -/
theorem handle_final {P : Store → Prop} {r : Req} {s : Store} (hself : P s)
    (hlock : ∀ b, P (s.lock b)) (hwrite : ∀ b f, P (s.write b f)) (hrecord : ∀ b, P (s.record b))
    (hrelease : ∀ b, P (s.release b)) (hmem : ∀ f, r = .setMem f → P { s with mem := f s.mem })
    (hbegin : r = .beginOp → P { s with outstanding := s.outstanding + 1 })
    (hend : r = .endOp → P s.leave) : P (handle r s).final := by
  refine Comp.wp_final.mp ?_
  cases r with
  | setMem f => exact (Comp.wp_assign _).mpr (hmem f rfl)
  | bread b =>
      simp only [handle, Comp.wp_bind, Comp.wp_get]
      exact Comp.wp_ite (fun _ => (Comp.wp_stop _).mpr hself) fun _ =>
        (Comp.wp_assign _).mpr (hlock b)
  | load b => simpa only [handle, Comp.wp_bind, Comp.wp_get, Comp.wp_pure] using hself
  | store b f =>
      simp only [handle, Comp.wp_bind, Comp.wp_get]
      exact Comp.wp_ite (fun _ => (Comp.wp_assign _).mpr (hwrite b f)) fun _ =>
        (Comp.wp_pure _).mpr hself
  | logWrite b =>
      simp only [handle, Comp.wp_bind, Comp.wp_get]
      refine Comp.wp_ite (fun _ => ?_) fun _ => (Comp.wp_pure _).mpr hself
      exact Comp.wp_ite (fun _ => (Comp.wp_stop _).mpr hself) fun _ =>
        (Comp.wp_assign _).mpr (hrecord b)
  | brelse b =>
      simp only [handle, Comp.wp_bind, Comp.wp_get]
      exact Comp.wp_ite (fun _ => (Comp.wp_assign _).mpr (hrelease b)) fun _ =>
        (Comp.wp_stop _).mpr hself
  | beginOp => exact (Comp.wp_assign _).mpr (hbegin rfl)
  | endOp =>
      simp only [handle, Comp.wp_bind, Comp.wp_get]
      exact Comp.wp_ite (fun _ => (Comp.wp_modify _).mpr ⟨trivial, hend rfl⟩) fun _ =>
        (Comp.wp_assign _).mpr (hend rfl)
  | mem => simpa only [handle, Comp.wp_bind, Comp.wp_get, Comp.wp_pure] using hself
  | stop e => exact (Comp.wp_stop e).mpr hself

end Store

def wp {α : Type} (I : Store → Prop) (p : FsProg α) (Q : α → Store → Prop)
    (E : Stop → Store → Prop) (s : Store) : Prop :=
  Prog.wp Store.handle I p Q E s

section

variable {α β : Type} {I : Store → Prop} {Q Q' : α → Store → Prop} {E E' : Stop → Store → Prop}
  {s : Store} {p : FsProg α}

@[simp] theorem wp_pure (a : α) : wp I (pure a) Q E s ↔ Q a s := Prog.wp_pure a

@[simp] theorem wp_bind {f : α → FsProg β} {Q : β → Store → Prop} :
    wp I (p >>= f) Q E s ↔ wp I p (fun a t => wp I (f a) Q E t) E s := Prog.wp_bind

@[simp] theorem wp_map {f : α → β} {Q : β → Store → Prop} :
    wp I (f <$> p) Q E s ↔ wp I p (fun a => Q (f a)) E s := Prog.wp_map

theorem wp_mono (hp : wp I p Q E s) (hQ : ∀ a t, Q a t → Q' a t)
    (hE : ∀ e t, E e t → E' e t) : wp I p Q' E' s := Prog.wp_mono hp hQ hE

theorem wp_seq {f : α → FsProg β} {R : β → Store → Prop} (hp : wp I p Q E s)
    (hf : ∀ a t, Q a t → wp I (f a) R E t) : wp I (p >>= f) R E s := Prog.wp_seq hp hf

theorem wp_ite {c : Prop} [Decidable c] {q : FsProg α} (hp : c → wp I p Q E s)
    (hq : ¬ c → wp I q Q E s) : wp I (if c then p else q) Q E s := Prog.wp_ite hp hq

theorem wp_loop {body : Nat → FsProg Unit} {J : Nat → Store → Prop} {k i : Nat}
    (hbody : ∀ j, i ≤ j → j < i + k → ∀ t, J j t → wp I (body j) (fun _ => J (j + 1)) E t)
    (hi : J i s) : wp I (Comp.loop body i k) (fun _ => J (i + k)) E s := Prog.wp_loop hbody hi

end

/-! ## Single requests -/

section

variable {I : Store → Prop} {E : Stop → Store → Prop} {s : Store}

@[simp] theorem wp_bread {Q : Unit → Store → Prop} (b : Nat) :
    wp I (bread b) Q E s ↔ if b ∈ s.held then E .deadlock s else Q () (s.lock b) := by
  simp only [bread, wp, Prog.wp_ask, Store.handle, Comp.wp_bind, Comp.wp_get]
  split <;> simp

@[simp] theorem wp_load {Q : Block → Store → Prop} (b : Nat) :
    wp I (load b) Q E s ↔ Q (s.blocks b) s := by
  simp [load, wp, Prog.wp_ask, Store.handle]

@[simp] theorem wp_store {Q : Unit → Store → Prop} (b : Nat) (f : Block → Block) :
    wp I (store b f) Q E s ↔ if b ∈ s.held then Q () (s.write b f) else Q () s := by
  simp only [store, wp, Prog.wp_ask, Store.handle, Comp.wp_bind, Comp.wp_get]
  split <;> simp

@[simp] theorem wp_logWrite {Q : Unit → Store → Prop} (b : Nat) :
    wp I (logWrite b) Q E s ↔
      if b ∈ s.held then
        if s.outstanding < 1 then E (.panic "log_write outside of trans") s
        else Q () (s.record b)
      else Q () s := by
  simp only [logWrite, wp, Prog.wp_ask, Store.handle, Comp.wp_bind, Comp.wp_get]
  split
  · split <;> simp
  · simp

@[simp] theorem wp_brelse {Q : Unit → Store → Prop} (b : Nat) :
    wp I (brelse b) Q E s ↔ if b ∈ s.held then Q () (s.release b) else E (.panic "brelse") s := by
  simp only [brelse, wp, Prog.wp_ask, Store.handle, Comp.wp_bind, Comp.wp_get]
  split <;> simp

@[simp] theorem wp_beginOp {Q : Unit → Store → Prop} :
    wp I beginOp Q E s ↔ Q () { s with outstanding := s.outstanding + 1 } := by
  simp [beginOp, wp, Prog.wp_ask, Store.handle]

@[simp] theorem wp_endOp {Q : Unit → Store → Prop} :
    wp I endOp Q E s ↔ (s.outstanding - 1 = 0 → I s.leave) ∧ Q () s.leave := by
  simp only [endOp, wp, Prog.wp_ask, Store.handle, Comp.wp_bind, Comp.wp_get]
  split <;> simp_all

@[simp] theorem wp_mem {Q : FsMem → Store → Prop} : wp I mem Q E s ↔ Q s.mem s := by
  simp [mem, wp, Prog.wp_ask, Store.handle]

@[simp] theorem wp_setMem {Q : Unit → Store → Prop} (f : FsMem → FsMem) :
    wp I (setMem f) Q E s ↔ Q () { s with mem := f s.mem } := by
  simp [setMem, wp, Prog.wp_ask, Store.handle]

@[simp] theorem wp_stop {α : Type} {Q : α → Store → Prop} (e : Stop) :
    wp I (stop e) Q E s ↔ E e s := by
  show Comp.wp I (Comp.stop e >>= _) Q E s ↔ _
  simp

@[simp] theorem wp_panic {α : Type} {Q : α → Store → Prop} (msg : String) :
    wp I (panic msg) Q E s ↔ E (.panic msg) s :=
  wp_stop _

@[simp] theorem wp_superblock {Q : Superblock → Store → Prop} :
    wp I superblock Q E s ↔ Q s.mem.sb s := by
  simp [superblock]

@[simp] theorem wp_inode {Q : Inode → Store → Prop} (ip : Nat) :
    wp I (inode ip) Q E s ↔ Q (s.mem.itable ip) s := by
  simp [inode]

@[simp] theorem wp_file {Q : File → Store → Prop} (f : Nat) :
    wp I (file f) Q E s ↔ Q (s.mem.ftable f) s := by
  simp [file]

@[simp] theorem wp_proc {Q : Proc → Store → Prop} (p : Nat) :
    wp I (proc p) Q E s ↔ Q (s.mem.proc p) s := by
  simp [proc]

end

end Xv6.Fs
