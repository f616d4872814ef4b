import Xv6.Kernel.Pipe.Fifo
import Xv6.Kernel.Proc.Wakeup

/-! # Sleepers of a pipe

Readers sleep on `&pi->nread` for a byte or for the last writer to close, and writers on
`&pi->nwrite` for a free cell or for the last reader to close. `pipewrite` wakes the
readers when the pipe is full and after its loop, but not when it returns because it
was killed: a reader may then sleep on although the pipe has bytes.
-/

namespace Xv6.Pipes

open Lib Procs Fs

/-! ## Who holds the lock and what it knows -/

/-- Between `acquire(&pi->lock)` and `release(&pi->lock)`. -/
def Point.inside : Point → Prop
  | .writeHead .. | .writeKilled .. | .writeBody .. | .writeFull .. | .writeSleep ..
  | .writeWake .. | .writeRelease .. | .readHead .. | .readKilled .. | .readSleep ..
  | .readCopy .. | .readWake .. | .readRelease .. | .closeSet .. | .closeWake .. | .closeTest
  | .closeRelease .. => True
  | _ => False

/-- What the tests before a point have found. The writer looks at `readopen` before each byte,
and nobody else runs inside until it sleeps. -/
def Point.known : Point → Mem → Prop
  | .writeHead _ _ i w, m => w ≤ i ∧ (w < i → m.pipe.readopen = true)
  | .writeKilled _ _ i w, m | .writeBody _ _ i w, m => w ≤ i ∧ m.pipe.readopen = true
  | .writeFull .., m | .writeSleep .., m => m.full = true ∧ m.pipe.readopen = true
  | .readKilled .., m | .readSleep .., m => m.empty = true ∧ m.pipe.writeopen = true
  | _, _ => True

/-- The writer has put bytes in since it last woke the readers. -/
def Point.dirty : Point → Prop
  | .writeHead _ _ i w | .writeKilled _ _ i w | .writeBody _ _ i w => w < i
  | _ => False

/-- A `wakeup(&pi->nread)` is due. -/
def Point.owesReaders : Point → Prop
  | .writeFull .. | .writeWake .. => True
  | .closeWake writable => writable = true
  | k => k.dirty

def Point.owesWriters : Point → Prop
  | .readCopy .. | .readWake .. => True
  | .closeWake writable => writable = false
  | _ => False

def Mem.Readable (m : Mem) : Prop := m.empty = false ∨ m.pipe.writeopen = false

def Mem.Writable (m : Mem) : Prop := m.full = false ∨ m.pipe.readopen = false

def roles (owes : Point → Prop) : Roles Point Mem where
  inside := Point.inside
  owes := owes
  woken _ := False
  known := Point.known

/-- The process is not killed in the midst of its bytes. -/
def Spared (k : Point) (killed : Bool) : Prop := killed = true → ¬ k.dirty

theorem code_keeps (k : Point) : (code k).Keeps (.other ()) Point.inside k.inside := by
  cases k with
  | user => exact fun p x m => by cases x <;> simp [Point.inside, enter]
  | writeHead id a i w =>
    intro p x m
    simp only [writeHead]
    split
    · split <;> rfl
    · rfl
  | writeBody id a i w =>
    intro p x m
    simp only [writeBody]
    split
    · rfl
    · split <;> rfl
  | readHead id a =>
    intro p x m
    simp only [readHead]
    split <;> rfl
  | readCopy id a i =>
    intro p x m
    simp only [readCopy]
    split
    · split <;> rfl
    · rfl
  | writeKilled id a i w => exact fun b => by cases b <;> rfl
  | readKilled id a => exact fun b => by cases b <;> rfl
  | closeRelease free => cases free <;> simp [code, Instr.Keeps, Point.inside]
  | _ => simp [code, Instr.Keeps, Point.inside]

structure Mem.Alike (m m' : Mem) : Prop where
  full : m'.full = m.full
  empty : m'.empty = m.empty
  readopen : m'.pipe.readopen = m.pipe.readopen
  writeopen : m'.pipe.writeopen = m.pipe.writeopen

theorem Mem.Alike.known {m m' : Mem} (h : m.Alike m') {k : Point} (hk : k.known m) :
    k.known m' := by
  cases k <;> simp_all [Point.known, h.full, h.empty, h.readopen, h.writeopen]

/-- Outside nothing is done to the counters and the flags. -/
theorem code_stable {k : Point} {f} (hf : code k = .access f) (hk : ¬ k.inside) (p : Nat) (x : Op)
    (m : Mem) : m.Alike (f p x m).1 := by
  cases k <;> simp [Point.inside, code] at hk hf
  case user =>
    subst hf
    cases x <;> exact ⟨rfl, rfl, rfl, rfl⟩
  all_goals subst hf; exact ⟨rfl, rfl, rfl, rfl⟩

theorem writeHead_known {id i w : Nat} {a : Args} {m : Mem} (h : w ≤ i) :
    (writeHead id a i w m).known m := by
  unfold writeHead
  split
  · split
    · rename_i ho
      exact ⟨h, ho⟩
    · trivial
  · trivial

theorem writeBody_known {id i w : Nat} {a : Args} {m : Mem} (h : w ≤ i)
    (ho : m.pipe.readopen = true) : (writeBody id a i w m).2.known (writeBody id a i w m).1 := by
  unfold writeBody
  split
  · rename_i hf
    exact ⟨hf, ho⟩
  · split
    · exact ⟨Nat.le_succ_of_le h, fun _ => ho⟩
    · trivial

theorem readHead_known {id : Nat} {a : Args} {m : Mem} : (readHead id a m).known m := by
  unfold readHead
  split
  · rename_i hm
    exact Bool.and_eq_true_iff.mp hm
  · trivial

theorem readCopy_known {id i : Nat} {a : Args} {m : Mem} :
    (readCopy id a i m).2.known (readCopy id a i m).1 := by
  unfold readCopy
  split
  · split <;> trivial
  · trivial

theorem code_known {k : Point} {f} (hf : code k = .access f) (p : Nat) (x : Op) (m : Mem)
    (h : k.known m) : (f p x m).2.known (f p x m).1 := by
  cases k <;> simp only [code, Instr.access.injEq, reduceCtorEq] at hf <;> subst hf
  case user => cases x <;> trivial
  case writeHead => exact writeHead_known h.1
  case writeBody => exact writeBody_known h.1 h.2
  case readHead => exact readHead_known
  case readCopy => exact readCopy_known
  all_goals trivial

/-- What is left to show of a channel: the wakeups fit the accesses and the sleepers. -/
theorem Discipline.of_owes {owes : Point → Prop} {a : Nat} {C : Mem → Prop}
    (hin : ∀ k, owes k → k.inside) (hC : ∀ m m', m.Alike m' → C m' → C m)
    (hacc : ∀ {k f p x m}, code k = .access f → k.known m → C (f p x m).1 →
      owes (f p x m).2 ∨ C m ∧ ¬ owes k)
    (hobeys : ∀ k, (∀ f, code k ≠ .access f) → (roles owes).Obeys () a C Spared k (code k)) :
    Discipline code () a C Spared (roles owes) where
  keeps := code_keeps
  within k hk := hk.elim (hin k) False.elim
  outside k m hk := by
    cases k <;> first | trivial | exact absurd trivial hk
  obeys k := by
    by_cases hk : ∃ f, code k = .access f
    · obtain ⟨f, hf⟩ := hk
      rw [hf]
      exact fun p x m hk => ⟨fun h => (hacc hf hk h).imp_right .inr, id, code_known hf p x m hk⟩
    · exact hobeys k fun f hf => hk ⟨f, hf⟩
  stable k f hf hk p x m :=
    ⟨hC _ _ (code_stable hf hk p x m), fun k' => (code_stable hf hk p x m).known⟩

/-! ## The two channels -/

theorem readers_access {k : Point} {f} (hf : code k = .access f) {p : Nat} {x : Op} {m : Mem}
    (hk : k.known m) (hC : (f p x m).1.Readable) :
    (f p x m).2.owesReaders ∨ m.Readable ∧ ¬ k.owesReaders := by
  cases k <;> simp only [code, Instr.access.injEq, reduceCtorEq] at hf <;> subst hf
  case user => cases x <;> exact .inr ⟨hC, not_false⟩
  case writeHead id a i w =>
    by_cases hd : w < i
    · left
      simp only [writeHead, hk.2 hd, if_true]
      split
      · exact hd
      · trivial
    · exact .inr ⟨hC, hd⟩
  case writeBody id a i w =>
    left
    simp only [writeBody]
    split
    · trivial
    · split
      · exact Nat.lt_succ_of_le hk.1
      · trivial
  case readCopy id a i =>
    refine .inr ⟨?_, not_false⟩
    simp only [readCopy] at hC
    split at hC
    · rename_i hm
      exact .inl hm.2
    · exact hC
  case closeSet writable =>
    cases writable with
    | true => exact .inl rfl
    | false => exact .inr ⟨hC, not_false⟩
  all_goals exact .inr ⟨hC, not_false⟩

theorem writers_access {k : Point} {f} (hf : code k = .access f) {p : Nat} {x : Op} {m : Mem}
    (hC : (f p x m).1.Writable) : (f p x m).2.owesWriters ∨ m.Writable ∧ ¬ k.owesWriters := by
  cases k <;> simp only [code, Instr.access.injEq, reduceCtorEq] at hf <;> subst hf
  case user => cases x <;> exact .inr ⟨hC, not_false⟩
  case writeBody id a i w =>
    refine .inr ⟨?_, not_false⟩
    simp only [writeBody] at hC
    split at hC
    · exact hC
    · rename_i hm
      exact .inl (by simpa using hm)
  case readCopy id a i =>
    left
    simp only [readCopy]
    split
    · split <;> trivial
    · trivial
  case closeSet writable =>
    cases writable with
    | true => exact .inr ⟨hC, not_false⟩
    | false => exact .inl rfl
  all_goals exact .inr ⟨hC, not_false⟩

/-- `pipewrite` and `pipeclose` wake the readers. -/
theorem readers : Discipline code () nreadAddr Mem.Readable Spared (roles Point.owesReaders) := by
  refine Discipline.of_owes (fun k hk => ?_) (fun m m' h hC => ?_)
    (fun hf hk hC => readers_access hf hk hC) fun k hk => ?_
  · cases k <;> trivial
  · rwa [Mem.Readable, h.empty, h.writeopen] at hC
  · cases k with
    | writeKilled id a i w =>
      intro b hb
      cases b with
      | true => exact ⟨fun hd => absurd hd (hb rfl), False.elim, fun _ _ => trivial⟩
      | false => exact ⟨fun hd => hd, False.elim, fun _ hk => hk⟩
    | readKilled id a =>
      intro b _
      cases b <;> simp [Roles.Frame, roles, Point.owesReaders, Point.dirty, Point.known]
    | readSleep id a =>
      refine ⟨fun _ => ⟨rfl, fun m hk hC => ?_⟩, fun _ => not_false, not_false, fun _ => trivial⟩
      simp [Mem.Readable, hk.1, hk.2] at hC
    | closeWake writable =>
      cases writable <;>
        simp [code, Roles.Obeys, roles, Point.owesReaders, Point.dirty, Point.known]
    | _ =>
      first
        | exact absurd rfl (hk _)
        | simp [code, Roles.Obeys, Roles.Frame, roles, Point.owesReaders, Point.dirty, Point.known,
            nreadAddr, nwriteAddr]

/-- `piperead` and `pipeclose` wake the writers. -/
theorem writers : Discipline code () nwriteAddr Mem.Writable Spared (roles Point.owesWriters) := by
  refine Discipline.of_owes (fun k hk => ?_) (fun m m' h hC => ?_)
    (fun hf _ hC => writers_access hf hC) fun k hk => ?_
  · cases k <;> trivial
  · rwa [Mem.Writable, h.full, h.readopen] at hC
  · cases k with
    | writeKilled id a i w =>
      intro b _
      cases b <;> simp [Roles.Frame, roles, Point.owesWriters, Point.known]
    | readKilled id a =>
      intro b _
      cases b <;> simp [Roles.Frame, roles, Point.owesWriters, Point.known]
    | writeSleep id a i =>
      refine ⟨fun _ => ⟨rfl, fun m hk hC => ?_⟩, fun _ => not_false, not_false,
        fun _ => ⟨Nat.le_refl i, fun h => absurd h (Nat.lt_irrefl i)⟩⟩
      simp [Mem.Writable, hk.1, hk.2] at hC
    | closeWake writable =>
      cases writable <;> simp [code, Roles.Obeys, roles, Point.owesWriters, Point.known]
    | _ =>
      first
        | exact absurd rfl (hk _)
        | simp [code, Roles.Obeys, Roles.Frame, roles, Point.owesWriters, Point.known,
            nreadAddr, nwriteAddr]

/-- In every run in which no writer is found killed with bytes put in since it last woke the
readers: while `pi->lock` is free, whoever sleeps on `&pi->nread` has an empty pipe with a writer,
and whoever sleeps on `&pi->nwrite` a full one with a reader. -/
theorem no_stuck_sleeper {page : Nat → UInt8} {evs : List (Ev Op)} {s : Sys Point Mem Unit}
    (h : Runs code (Answers code Spared) (init .user (pipealloc page)) evs s)
    (hl : s.lock (.other ()) = none) {p : Nat} (hst : (s.proc p).state = .sleeping) :
    ((s.proc p).chan = some (.addr nreadAddr) →
      s.mem.pipe.nread = s.mem.pipe.nwrite ∧ s.mem.pipe.writeopen = true) ∧
    ((s.proc p).chan = some (.addr nwriteAddr) →
      s.mem.pipe.nwrite = s.mem.pipe.nread + BitVec.ofNat 32 pipeSize ∧
        s.mem.pipe.readopen = true) := by
  have hin : ∀ owes, ¬ (roles owes).inside .user := fun _ => not_false
  constructor
  · intro hch
    have hC := (WakeInv.run readers (hin _) h).no_sleeper readers hl hst hch
    simpa [Mem.Readable, Mem.empty] using hC
  · intro hch
    have hC := (WakeInv.run writers (hin _) h).no_sleeper writers hl hst hch
    simpa [Mem.Writable, Mem.full] using hC

/-- No killed process takes a step. -/
def sparing (s : Sys Point Mem Unit) : Ev Op → Bool
  | .run c _ _ =>
    match (s.cpu c).pc with
    | .process p => !(s.proc p).killed
    | _ => true
  | _ => true

theorem sparing_answers (s : Sys Point Mem Unit) (e : Ev Op) (h : sparing s e = true) :
    Answers code Spared s e := by
  intro c x ok p k f he hc _ _ hkilled
  subst he
  simp [sparing, hc, hkilled] at h

def readerSleeps : List (Ev Op) := [.sched 0, .sched 0] ++ runOp (.read ⟨onePage, 0, 1⟩) 10

theorem no_stuck_sleeper_empty :
    ∃ s, Runs code (Answers code Spared) (init .user (pipealloc fun _ => 0)) readerSleeps s ∧
      s.lock (.other ()) = none ∧ (s.proc 0).state = .sleeping ∧
      (s.proc 0).chan = some (.addr nreadAddr) ∧ s.mem.pipe.nread = s.mem.pipe.nwrite := by
  have hr : Runs code (Answers code Spared) (init .user (pipealloc fun _ => 0)) readerSleeps _ :=
    Runs.of_execIf sparing_answers rfl
  exact ⟨_, hr, rfl, rfl, rfl, ((no_stuck_sleeper hr rfl (p := 0) rfl).1 rfl).1⟩

def runOn (c : Nat) (op : Op) (n : Nat) : List (Ev Op) := List.replicate n (.run c op true)

/-- The first process forks two children. The one sleeps in `piperead`; the other has put one
of two bytes in when the first process kills it. -/
def killedWriter : List (Ev Op) :=
  [.sched 0, .sched 0] ++ runOn 0 .fork 22 ++
    List.replicate 3 (.sched 1) ++ runOn 1 (.read ⟨onePage, 0, 1⟩) 10 ++
    List.replicate 4 (.sched 1) ++ runOn 1 (.write ⟨onePage, 7, 2⟩) 7 ++
    runOn 0 (.kill 3) 5 ++ runOn 1 (.write ⟨onePage, 7, 2⟩) 3

/-- The writer returns without a wakeup, and the reader sleeps on with a byte in the pipe. -/
theorem reader_stuck :
    ∃ s, exec code (init .user (pipealloc fun _ => 0)) killedWriter = some s ∧
      s.lock (.other ()) = none ∧ (s.proc 1).state = .sleeping ∧
      (s.proc 1).chan = some (.addr nreadAddr) ∧ s.mem.pipe.nread ≠ s.mem.pipe.nwrite :=
  ⟨_, rfl, rfl, rfl, rfl, by decide⟩

end Xv6.Pipes
