import Xv6.Kernel.Pipe.Fifo

/-! # Bytes that a read removes and does not deliver

`piperead` takes a byte out of the pipe before it knows whether the copy to user memory
succeeds. If it does not, the byte is gone. As long as every byte has somewhere to go,
a read removes what it delivers and returns its number.
-/

namespace Xv6.Pipes

open Lib Procs Fs

def Args.Mapped (a : Args) (i : Nat) : Prop := a.um.mapped (a.va i - a.va i % pgSize) = true

theorem Args.copies_iff (a : Args) (i : Nat) : a.copies i = true ↔ a.Mapped i := by
  have hpg : a.va i - (a.va i - a.va i % pgSize) < pgSize := by
    have := Nat.mod_lt (a.va i) (show 0 < pgSize by decide)
    omega
  unfold Args.copies Args.Mapped copySpan
  by_cases hm : a.um.mapped (a.va i - a.va i % pgSize) = true
  · simp [hm, copySpan]
    omega
  · simp [hm]

/-- The access copies no byte to a page that is not mapped. -/
def Lands (_p : Nat) (k : Point) (_x : Op) (m : Mem) : Prop :=
  ∀ id a i, k = .readCopy id a i → (i : Int) < a.n → m.empty = false → a.Mapped i

/-- The return value of a `piperead` is what it has removed, or -1 if that is nothing. -/
def Mem.Settled (m : Mem) (id : Nat) (r : Int) : Prop :=
  r = -1 ∧ ofCall id m.log.removed = [] ∨ r = (ofCall id m.log.removed).length

structure Mem.Open (m : Mem) (p id : Nat) (c : Call) : Prop where
  call : m.log.calls[id]? = some c
  proc : c.proc = p
  returned : ∀ r, (id, r) ∉ m.log.returned

structure Reads (m : Mem) : Prop where
  delivered : m.log.delivered = m.log.removed
  old : ∀ x ∈ m.log.removed, x.1 < m.log.calls.length
  known : ∀ x ∈ m.log.returned, x.1 < m.log.calls.length
  settled : ∀ x ∈ m.log.returned, ∀ c, m.log.calls[x.1]? = some c → c.write = false →
    m.Settled x.1 x.2

/-- How many bytes a process in `piperead` has got. -/
def Gets (p : Nat) (k : Point) (m : Mem) : Prop :=
  match k with
  | .writeAcquire id a | .writeHead id a _ _ | .writeKilled id a _ _ | .writeBody id a _ _
  | .writeFull id a _ | .writeSleep id a _ | .writeWake id a _ | .writeRelease id a _ =>
      m.Open p id ⟨p, true, a⟩
  | .readAcquire id a | .readHead id a | .readKilled id a | .readSleep id a =>
      m.Open p id ⟨p, false, a⟩ ∧ ofCall id m.log.removed = []
  | .readCopy id a i | .readWake id a i =>
      m.Open p id ⟨p, false, a⟩ ∧ (ofCall id m.log.removed).length = i
  | .readRelease id a r => m.Open p id ⟨p, false, a⟩ ∧ m.Settled id r
  | .ret id r => ∃ c, m.Open p id c ∧ (c.write = false → m.Settled id r)
  | _ => True

/-- The memory `m'` differs from `m` in nothing that the calls of process `q` are about. -/
structure Mem.Apart (q : Nat) (m m' : Mem) : Prop where
  calls : m.log.calls <+: m'.log.calls
  removed : ∀ id c, m.log.calls[id]? = some c → c.proc = q →
    ofCall id m'.log.removed = ofCall id m.log.removed
  returned : ∀ id c r, m.log.calls[id]? = some c → c.proc = q → (id, r) ∈ m'.log.returned →
    (id, r) ∈ m.log.returned

theorem Mem.Open.mono {q id : Nat} {c : Call} {m m' : Mem} (h : m.Open q id c)
    (hm : m.Apart q m') : m'.Open q id c where
  call := by
    obtain ⟨rest, hrest⟩ := hm.calls
    rw [← hrest, List.getElem?_append_left (List.getElem?_eq_some_iff.mp h.call).1]
    exact h.call
  proc := h.proc
  returned r hr := h.returned r (hm.returned id c r h.call h.proc hr)

theorem Gets.mono {q : Nat} {k : Point} {m m' : Mem} (h : Gets q k m) (hm : m.Apart q m') :
    Gets q k m' := by
  have hrem : ∀ {id c}, m.Open q id c → ofCall id m'.log.removed = ofCall id m.log.removed :=
    fun ho => hm.removed _ _ ho.call ho.proc
  cases k with
  | ret id r =>
    obtain ⟨c, ho, hs⟩ := h
    refine ⟨c, ho.mono hm, fun hw => ?_⟩
    rw [Mem.Settled, hrem ho]
    exact hs hw
  | readRelease id a r =>
    obtain ⟨ho, hs⟩ := h
    refine ⟨ho.mono hm, ?_⟩
    rw [Mem.Settled, hrem ho]
    exact hs
  | _ =>
    first
      | trivial
      | exact Mem.Open.mono h hm
      | exact ⟨h.1.mono hm, (hrem h.1).trans h.2⟩
      | exact ⟨h.1.mono hm, (congrArg List.length (hrem h.1)).trans h.2⟩

/-! ## What an access does -/

theorem Mem.apart_of_eq {q : Nat} {m m' : Mem} (hc : m'.log.calls = m.log.calls)
    (hrem : m'.log.removed = m.log.removed) (hret : m'.log.returned = m.log.returned) :
    m.Apart q m' where
  calls := by rw [hc]
  removed _ _ _ _ := by rw [hrem]
  returned _ _ _ _ _ h := by rwa [hret] at h

theorem Mem.apart_call (q : Nat) (m : Mem) (c : Call) : m.Apart q (m.call c) where
  calls := List.prefix_append _ _
  removed _ _ _ _ := rfl
  returned _ _ _ _ _ h := h

theorem Mem.Open.ne {p q id id' : Nat} {c c' : Call} {m : Mem} (h : m.Open p id c) (hqp : q ≠ p)
    (hc' : m.log.calls[id']? = some c') (hp : c'.proc = q) : id ≠ id' := by
  rintro rfl
  rw [h.call, Option.some.injEq] at hc'
  exact hqp (hp.symm.trans (hc' ▸ h.proc))

theorem Mem.apart_take {p q id : Nat} {c : Call} {m : Mem} (h : m.Open p id c) (hqp : q ≠ p) :
    m.Apart q (m.take id) where
  calls := List.prefix_refl _
  removed _ _ hc' hp := ofCall_append_other _ _ (h.ne hqp hc' hp)
  returned _ _ _ _ _ h := h

theorem Mem.apart_ret {p q id : Nat} {c : Call} {m : Mem} {r : Int} (h : m.Open p id c)
    (hqp : q ≠ p) : m.Apart q (m.ret id r) where
  calls := List.prefix_refl _
  removed _ _ _ _ := rfl
  returned id' c' r' hc' hp hin := by
    simp only [Mem.ret, List.mem_append, List.mem_singleton, Prod.mk.injEq] at hin
    rcases hin with hin | ⟨hid, -⟩
    · exact hin
    · exact absurd hid.symm (h.ne hqp hc' hp)

theorem Reads.call {m : Mem} (h : Reads m) (c : Call) : Reads (m.call c) where
  delivered := h.delivered
  old x hx := by
    have := h.old x hx
    simp [Mem.call]
    omega
  known x hx := by
    have := h.known x hx
    simp [Mem.call]
    omega
  settled x hx c' hc' hw := by
    refine h.settled x hx c' ?_ hw
    simpa [Mem.call, List.getElem?_append_left (h.known x hx)] using hc'

theorem Reads.fresh {m : Mem} (h : Reads m) (c : Call) :
    (m.call c).Open c.proc m.log.calls.length c ∧ ofCall m.log.calls.length m.log.removed = [] := by
  refine ⟨⟨by simp [Mem.call], rfl, fun r hr => ?_⟩, ?_⟩
  · have := h.known _ hr
    simp at this
  · simp only [ofCall, List.map_eq_nil_iff, List.filter_eq_nil_iff]
    intro x hx
    have := h.old x hx
    simp
    omega

theorem Reads.take {p id : Nat} {c : Call} {m : Mem} (h : Reads m) (ho : m.Open p id c) :
    Reads ((m.take id).deliver id m.next) where
  delivered := by simp [Mem.deliver, Mem.take, h.delivered]
  old x hx := by
    simp only [Mem.deliver, Mem.take, List.mem_append, List.mem_singleton] at hx
    rcases hx with hx | rfl
    · exact h.old x hx
    · exact (List.getElem?_eq_some_iff.mp ho.call).1
  known := h.known
  settled x hx c' hc' hw := by
    have hne : id ≠ x.1 := by
      rintro rfl
      exact ho.returned x.2 hx
    rw [Mem.Settled]
    rw [show ofCall x.1 ((m.take id).deliver id m.next).log.removed = ofCall x.1 m.log.removed from
      ofCall_append_other _ _ hne]
    exact h.settled x hx c' hc' hw

theorem Reads.ret {p id : Nat} {c : Call} {m : Mem} {r : Int} (h : Reads m) (ho : m.Open p id c)
    (hs : c.write = false → m.Settled id r) : Reads (m.ret id r) where
  delivered := h.delivered
  old := h.old
  known x hx := by
    simp only [Mem.ret, List.mem_append, List.mem_singleton] at hx
    rcases hx with hx | rfl
    · exact h.known x hx
    · exact (List.getElem?_eq_some_iff.mp ho.call).1
  settled x hx c' hc' hw := by
    simp only [Mem.ret, List.mem_append, List.mem_singleton] at hx
    rcases hx with hx | rfl
    · exact h.settled x hx c' hc' hw
    · have : c' = c := Option.some.inj (hc'.symm.trans ho.call)
      exact hs (this ▸ hw)

theorem readCopy_reads {p id i : Nat} {a : Args} {m : Mem} (h : Reads m)
    (hlands : (i : Int) < a.n → m.empty = false → a.Mapped i)
    (hg : Gets p (.readCopy id a i) m) :
    Reads (readCopy id a i m).1 ∧ Gets p (readCopy id a i m).2 (readCopy id a i m).1 ∧
      ∀ q k, q ≠ p → Gets q k m → Gets q k (readCopy id a i m).1 := by
  obtain ⟨ho, hlen⟩ := hg
  unfold readCopy
  split
  · rename_i hc
    rw [if_pos ((a.copies_iff i).mpr (hlands hc.1 hc.2))]
    refine ⟨h.take ho, ⟨⟨ho.call, ho.proc, ho.returned⟩, ?_⟩, fun q k hqp hq => ?_⟩
    · rw [show ofCall id ((m.take id).deliver id m.next).log.removed = ofCall id m.log.removed ++
        [m.next] from ofCall_append_same _ _ _, List.length_append, hlen]
      rfl
    · exact (hq.mono (m.apart_take ho hqp)).mono (Mem.apart_of_eq rfl rfl rfl)
  · exact ⟨h, ⟨ho, hlen⟩, fun q k _ hq => hq⟩

theorem enter_reads {p : Nat} {m : Mem} (x : Op) (h : Reads m) :
    Reads (enter p m x).1 ∧ Gets p (enter p m x).2 (enter p m x).1 ∧
      ∀ q k, q ≠ p → Gets q k m → Gets q k (enter p m x).1 := by
  cases x with
  | write a =>
    exact ⟨h.call _, (h.fresh ⟨p, true, a⟩).1, fun q k _ hq => hq.mono (m.apart_call q _)⟩
  | read a => exact ⟨h.call _, h.fresh ⟨p, false, a⟩, fun q k _ hq => hq.mono (m.apart_call q _)⟩
  | _ => exact ⟨h, trivial, fun q k _ hq => hq⟩

theorem client_reads : Client code (fun k => k = .user) Gets Reads Lands where
  dull p k m hk := by
    rw [hk]
    trivial
  calls k := by
    cases k with
    | user => exact fun p x m _ h _ => enter_reads x h
    | readCopy id a i => exact fun p x m hl h hg => readCopy_reads h (hl id a i rfl) hg
    | writeBody id a i w =>
      intro p x m _ h hg
      simp only [writeBody]
      split
      · exact ⟨h, hg, fun q k _ hq => hq⟩
      · split
        · exact ⟨⟨h.delivered, h.old, h.known, h.settled⟩,
            Mem.Open.mono hg (Mem.apart_of_eq rfl rfl rfl),
            fun q k _ hq => hq.mono (Mem.apart_of_eq rfl rfl rfl)⟩
        · exact ⟨h, hg, fun q k _ hq => hq⟩
    | writeHead id a i w =>
      refine fun p x m _ h hg => ⟨h, ?_, fun q k _ hq => hq⟩
      simp only [writeHead]
      split
      · split <;> exact hg
      · exact hg
    | writeKilled id a i w => exact fun b p m _ hg => by cases b <;> exact hg
    | writeRelease id a r => exact fun p m _ hg => ⟨_, hg, fun hw => by cases hw⟩
    | readHead id a =>
      refine fun p x m _ h hg => ⟨h, ?_, fun q k _ hq => hq⟩
      simp only [readHead]
      split
      · exact hg
      · exact ⟨hg.1, by simp [hg.2]⟩
    | readKilled id a =>
      intro b p m _ hg
      cases b with
      | true => exact ⟨hg.1, .inl ⟨rfl, hg.2⟩⟩
      | false => exact hg
    | readWake id a i => exact fun p m _ hg => ⟨hg.1, .inr (by rw [hg.2])⟩
    | readRelease id a r => exact fun p m _ hg => ⟨_, hg.1, fun _ => hg.2⟩
    | ret id r =>
      intro p x m _ h hg
      obtain ⟨c, ho, hs⟩ := hg
      exact ⟨h.ret ho hs, trivial, fun q k hqp hq => hq.mono (m.apart_ret ho hqp)⟩
    | closeSet writable =>
      exact fun p x m _ h _ => ⟨⟨h.delivered, h.old, h.known, h.settled⟩, trivial,
        fun q k _ hq => hq.mono (Mem.apart_of_eq rfl rfl rfl)⟩
    | closeTest => exact fun p x m _ h _ => ⟨h, trivial, fun q k _ hq => hq⟩
    | closeFree =>
      exact fun p x m _ h _ => ⟨⟨h.delivered, h.old, h.known, h.settled⟩, trivial,
        fun q k _ hq => hq.mono (Mem.apart_of_eq rfl rfl rfl)⟩
    | closeRelease free => exact fun p m _ _ => by cases free <;> trivial
    | fork => exact ⟨fun _ => rfl, rfl⟩
    | kill pid => exact fun _ => rfl
    | wait => exact fun _ _ => rfl
    | exit status => trivial
    | _ => exact fun p m _ hg => hg

theorem Reads.start (page : Nat → UInt8) : Reads (pipealloc page) where
  delivered := rfl
  old x hx := by simp [pipealloc] at hx
  known x hx := by simp [pipealloc] at hx
  settled x hx := by simp [pipealloc] at hx

/-- In every run in which no read reaches a byte of its buffer that is not mapped, what a read has
removed it has delivered, what it returns is its number, or -1 if there is none, and the bytes
delivered are the first of those accepted. -/
theorem pipe_loses_nothing {page : Nat → UInt8} {evs : List (Ev Op)} {s : Sys Point Mem Unit}
    (h : Runs code (Accesses code Lands) (init .user (pipealloc page)) evs s) :
    (∀ id, ofCall id s.mem.log.delivered = ofCall id s.mem.log.removed) ∧
      (∀ id r c, (id, r) ∈ s.mem.log.returned → s.mem.log.calls[id]? = some c → c.write = false →
        s.mem.Settled id r) ∧
      s.mem.log.delivered.map Prod.snd <+: s.mem.log.accepted.map Prod.snd := by
  obtain ⟨hr, -⟩ := ClientInv.run client_reads (fun p => show Gets p .user _ from trivial)
    (Reads.start page) h
  have hf := Fifo.of_exec h.exec
  refine ⟨fun id => by rw [hr.delivered], fun id r c hin hc hw => hr.settled _ hin c hc hw, ?_⟩
  rw [hr.delivered, ← hf.unread_eq]
  exact List.prefix_append _ _

def landing (s : Sys Point Mem Unit) : Ev Op → Bool
  | .run c _ _ =>
    match (s.cpu c).pc with
    | .process p =>
      match s.pc p with
      | .run (.readCopy _ a i) => decide (a.n ≤ i) || s.mem.empty || a.copies i
      | _ => true
    | _ => true
  | _ => true

theorem landing_accesses (s : Sys Point Mem Unit) (e : Ev Op) (h : landing s e = true) :
    Accesses code Lands s e := by
  intro c x b p k f he hc hpc _ id a i hk hi hm
  subst he hk
  simp only [landing, hc, hpc, hm, Bool.or_false, Bool.or_eq_true, decide_eq_true_eq] at h
  rcases h with h | h
  · omega
  · exact (a.copies_iff i).mp h

/-- The first process writes two bytes and reads one of them into its page. -/
theorem pipe_loses_nothing_mapped :
    ∃ s, Runs code (Accesses code Lands) (init .user (pipealloc fun _ => 0)) writeThenRead s ∧
      s.mem.log.delivered = [(1, 7)] ∧
      s.mem.log.delivered.map Prod.snd <+: s.mem.log.accepted.map Prod.snd := by
  have hlog : (execIf code landing (init .user (pipealloc fun _ => 0)) writeThenRead).map
      (fun s => s.mem.log.delivered) = some [(1, 7)] := by
    decide +kernel
  obtain ⟨s, hs, hlog⟩ := Option.map_eq_some_iff.mp hlog
  have hr := Runs.of_execIf landing_accesses hs
  exact ⟨s, hr, hlog, (pipe_loses_nothing hr).2.2⟩

/-- The first process writes two bytes, reads one to an address that is not mapped, and reads
again. -/
def readUnmapped : List (Ev Op) :=
  [.sched 0, .sched 0] ++ runOp .fork 1 ++ runOp (.write ⟨onePage, 7, 2⟩) 77 ++
    runOp (.read ⟨onePage, pgSize, 1⟩) 72 ++ runOp (.read ⟨onePage, 0, 1⟩) 73

/-- The first read removes a byte, delivers none and returns 0. The byte is lost. -/
theorem pipe_loses_byte :
    ∃ s, exec code (init .user (pipealloc fun _ => 0)) readUnmapped = some s ∧
      s.mem.log.accepted = [(0, 7), (0, 8)] ∧ s.mem.log.removed = [(1, 7), (2, 8)] ∧
      s.mem.log.returned = [(0, 2), (1, 0), (2, 1)] ∧ s.mem.log.delivered = [(2, 8)] ∧
      ¬ s.mem.log.delivered.map Prod.snd <+: s.mem.log.accepted.map Prod.snd := by
  have hpipe : (exec code (init .user (pipealloc fun _ => 0)) readUnmapped).map
      (fun s => (s.mem.log.accepted, s.mem.log.removed)) =
      some ([(0, 7), (0, 8)], [(1, 7), (2, 8)]) := by
    decide +kernel
  have huser : (exec code (init .user (pipealloc fun _ => 0)) readUnmapped).map
      (fun s => (s.mem.log.returned, s.mem.log.delivered)) =
      some ([(0, 2), (1, 0), (2, 1)], [(2, 8)]) := by
    decide +kernel
  obtain ⟨s, hs, hpipe⟩ := Option.map_eq_some_iff.mp hpipe
  rw [hs] at huser
  simp only [Option.map_some, Option.some.injEq, Prod.mk.injEq] at hpipe huser
  obtain ⟨⟨hacc, hrem⟩, hret, hdel⟩ := And.intro hpipe huser
  refine ⟨s, hs, hacc, hrem, hret, hdel, ?_⟩
  rw [hacc, hdel]
  decide

end Xv6.Pipes
