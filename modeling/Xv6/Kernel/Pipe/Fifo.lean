import Xv6.Kernel.Pipe.Code
import Xv6.Lib.Ring

/-! # A pipe is a queue

The bytes between the two counters are those that were accepted and not yet removed,
in order, however often the counters have wrapped.
-/

namespace Xv6.Pipes

open Lib Procs Fs

theorem pipeSize_lt : pipeSize < 2 ^ 32 := by decide

theorem pipeSize_dvd : pipeSize ∣ 2 ^ 32 := by decide

def Args.bytes (a : Args) (k : Nat) : List UInt8 := (List.range k).map fun i => a.um.byte (a.va i)

theorem Args.bytes_succ (a : Args) (k : Nat) :
    a.bytes (k + 1) = a.bytes k ++ [a.um.byte (a.va k)] := by
  simp [Args.bytes, List.range_succ]

def ofCall (id : Nat) (xs : List (Nat × UInt8)) : List UInt8 :=
  (xs.filter fun x => x.1 == id).map Prod.snd

theorem ofCall_append_same (id : Nat) (xs : List (Nat × UInt8)) (ch : UInt8) :
    ofCall id (xs ++ [(id, ch)]) = ofCall id xs ++ [ch] := by
  simp [ofCall]

theorem ofCall_append_other {id id' : Nat} (xs : List (Nat × UInt8)) (ch : UInt8)
    (h : id' ≠ id) : ofCall id (xs ++ [(id', ch)]) = ofCall id xs := by
  simp [ofCall, h]

def Point.writing : Point → Option (Nat × Args × Nat)
  | .writeAcquire id a => some (id, a, 0)
  | .writeHead id a i _ | .writeKilled id a i _ | .writeBody id a i _ | .writeFull id a i
  | .writeSleep id a i => some (id, a, i)
  | _ => none

structure Fifo (m : Mem) : Prop where
  ring : Tracks pipeSize m.pipe.data m.pipe.nread m.pipe.nwrite
    (m.log.accepted.map Prod.snd) m.log.removed.length
  oldest : m.log.removed.map Prod.snd = (m.log.accepted.map Prod.snd).take m.log.removed.length
  old : ∀ x ∈ m.log.accepted, x.1 < m.log.calls.length
  sent : ∀ id c, m.log.calls[id]? = some c → ∃ k, ofCall id m.log.accepted = c.args.bytes k

def Sends (p : Nat) (k : Point) (m : Mem) : Prop :=
  ∀ id a i, k.writing = some (id, a, i) →
    m.log.calls[id]? = some ⟨p, true, a⟩ ∧ ofCall id m.log.accepted = a.bytes i

theorem Fifo.fresh {m : Mem} (h : Fifo m) : ofCall m.log.calls.length m.log.accepted = [] := by
  simp only [ofCall, List.map_eq_nil_iff, List.filter_eq_nil_iff]
  intro x hx
  have := h.old x hx
  simp
  omega

/-! ## What an access does -/

theorem Fifo.call {m : Mem} (h : Fifo m) (c : Call) : Fifo (m.call c) where
  ring := h.ring
  oldest := h.oldest
  old x hx := by
    have := h.old x hx
    simp [Mem.call]
    omega
  sent id c' hc := by
    by_cases hid : id < m.log.calls.length
    · simp only [Mem.call] at hc ⊢
      rw [List.getElem?_append_left hid] at hc
      exact h.sent id c' hc
    · refine ⟨0, ?_⟩
      simp only [ofCall, Args.bytes, List.range_zero, List.map_nil, List.map_eq_nil_iff,
        List.filter_eq_nil_iff]
      intro x hx
      have := h.old x hx
      simp
      omega

theorem Fifo.store {m : Mem} {id i p : Nat} {a : Args} (h : Fifo m) (hfull : m.full = false)
    (hcall : m.log.calls[id]? = some ⟨p, true, a⟩) (hsent : ofCall id m.log.accepted = a.bytes i) :
    Fifo (m.store id (a.um.byte (a.va i))) := by
  have hne : m.pipe.nwrite ≠ m.pipe.nread + BitVec.ofNat 32 pipeSize := by
    simpa [Mem.full] using hfull
  refine ⟨?_, ?_, fun x hx => ?_, fun id' c hc => ?_⟩
  · simpa [Mem.store] using h.ring.push pipeSize_lt pipeSize_dvd hne (a.um.byte (a.va i))
  · have hle := h.ring.out_le
    simp only [Mem.store, List.map_append]
    rw [List.take_append_of_le_length hle]
    exact h.oldest
  · simp only [Mem.store, List.mem_append, List.mem_singleton] at hx
    rcases hx with hx | rfl
    · exact h.old x hx
    · exact (List.getElem?_eq_some_iff.mp hcall).1
  · by_cases hid : id = id'
    · subst hid
      refine ⟨i + 1, ?_⟩
      have hcc : c = ⟨p, true, a⟩ := Option.some.inj (hc.symm.trans hcall)
      rw [hcc, Args.bytes_succ, ← hsent]
      exact ofCall_append_same _ _ _
    · obtain ⟨k, hk⟩ := h.sent id' c hc
      exact ⟨k, (ofCall_append_other _ _ hid).trans hk⟩

theorem Fifo.take {m : Mem} (h : Fifo m) (hne : m.empty = false) (id : Nat) :
    Fifo (m.take id) := by
  have hne' : m.pipe.nread ≠ m.pipe.nwrite := by simpa [Mem.empty] using hne
  refine ⟨?_, ?_, h.old, h.sent⟩
  · simpa [Mem.take] using h.ring.pop pipeSize_lt hne'
  · have hfront := h.ring.front pipeSize_lt pipeSize_dvd hne'
    simp only [Mem.take, List.map_append, List.length_append, List.length_singleton]
    rw [List.take_add_one, h.oldest, hfront]
    rfl

/-- A change of the memory that leaves the calls and what they have sent. -/
theorem Sends.congr {p : Nat} {k k' : Point} {m m' : Mem} (h : Sends p k m)
    (hk : ∀ x, k'.writing = some x → k.writing = some x) (hcalls : m'.log.calls = m.log.calls)
    (hacc : m'.log.accepted = m.log.accepted) : Sends p k' m' := by
  intro id a i hw
  rw [hcalls, hacc]
  exact h id a i (hk _ hw)

theorem Sends.idle {p : Nat} {k : Point} {m : Mem} (h : k.writing = none) : Sends p k m := by
  intro id a i hw
  simp [h] at hw

theorem Sends.call {q : Nat} {k : Point} {m : Mem} (h : Sends q k m) (c : Call) :
    Sends q k (m.call c) := by
  intro id a i hw
  obtain ⟨hc, hs⟩ := h id a i hw
  refine ⟨?_, hs⟩
  simp only [Mem.call]
  rw [List.getElem?_append_left (List.getElem?_eq_some_iff.mp hc).1]
  exact hc

theorem Sends.store_other {p q id : Nat} {k : Point} {m : Mem} {a : Args} {ch : UInt8}
    (h : Sends q k m) (hqp : q ≠ p) (hcall : m.log.calls[id]? = some ⟨p, true, a⟩) :
    Sends q k (m.store id ch) := by
  intro id' a' i' hw
  obtain ⟨hc, hs⟩ := h id' a' i' hw
  have hne : id ≠ id' := by
    rintro rfl
    rw [hcall] at hc
    simp only [Option.some.injEq, Call.mk.injEq] at hc
    exact hqp hc.1.symm
  exact ⟨hc, (ofCall_append_other _ _ hne).trans hs⟩

theorem writeBody_fifo {p id i w : Nat} {a : Args} {m : Mem} (h : Fifo m)
    (hs : Sends p (.writeBody id a i w) m) :
    Fifo (writeBody id a i w m).1 ∧ Sends p (writeBody id a i w m).2 (writeBody id a i w m).1 ∧
      ∀ q k, q ≠ p → Sends q k m → Sends q k (writeBody id a i w m).1 := by
  obtain ⟨hcall, hsent⟩ := hs id a i rfl
  unfold writeBody
  split
  · exact ⟨h, hs.congr (fun x hx => hx) rfl rfl, fun q k _ hq => hq⟩
  · rename_i hfull
    split
    · refine ⟨h.store (by simpa using hfull) hcall hsent, fun id' a' i' hw => ?_,
        fun q k hqp hq => hq.store_other hqp hcall⟩
      simp only [Point.writing, Option.some.injEq, Prod.mk.injEq] at hw
      obtain ⟨rfl, rfl, rfl⟩ := hw
      refine ⟨hcall, ?_⟩
      rw [Args.bytes_succ, ← hsent]
      exact ofCall_append_same _ _ _
    · exact ⟨h, hs.congr (fun x hx => by cases hx) rfl rfl, fun q k _ hq => hq⟩

theorem readCopy_fifo (id : Nat) (a : Args) (i : Nat) {m : Mem} (h : Fifo m) :
    Fifo (readCopy id a i m).1 ∧ (readCopy id a i m).1.log.calls = m.log.calls ∧
      (readCopy id a i m).1.log.accepted = m.log.accepted ∧
      (readCopy id a i m).2.writing = none := by
  unfold readCopy
  split
  · rename_i hc
    have ht := h.take hc.2 id
    split
    · exact ⟨⟨ht.ring, ht.oldest, ht.old, ht.sent⟩, rfl, rfl, rfl⟩
    · exact ⟨ht, rfl, rfl, rfl⟩
  · exact ⟨h, rfl, rfl, rfl⟩

theorem enter_fifo {p : Nat} {m : Mem} (x : Op) (h : Fifo m) :
    Fifo (enter p m x).1 ∧ Sends p (enter p m x).2 (enter p m x).1 ∧
      ∀ q k, q ≠ p → Sends q k m → Sends q k (enter p m x).1 := by
  cases x with
  | write a =>
    refine ⟨h.call _, fun id a' i hw => ?_, fun q k _ hq => hq.call _⟩
    simp only [enter, Point.writing, Option.some.injEq, Prod.mk.injEq] at hw
    obtain ⟨rfl, rfl, rfl⟩ := hw
    exact ⟨by simp [enter, Mem.call], by simpa [enter, Mem.call, Args.bytes] using h.fresh⟩
  | read a =>
    exact ⟨h.call _, Sends.idle rfl, fun q k _ hq => hq.call _⟩
  | _ => exact ⟨h, Sends.idle rfl, fun q k _ hq => hq⟩

/-- Every access keeps the pipe a queue. -/
theorem client_fifo : Client code (fun k => k = .user) Sends Fifo fun _ _ _ _ => True where
  dull p k m hk := Sends.idle (by rw [hk]; rfl)
  calls k := by
    cases k with
    | user => exact fun p x m _ h _ => enter_fifo x h
    | writeBody id a i w => exact fun p x m _ h hs => writeBody_fifo h hs
    | readCopy id a i =>
      intro p x m _ h _
      obtain ⟨hf, hc, ha, hw⟩ := readCopy_fifo id a i h
      exact ⟨hf, Sends.idle hw, fun q k _ hq => hq.congr (fun x hx => hx) hc ha⟩
    | writeHead id a i w =>
      refine fun p x m _ h hs => ⟨h, hs.congr (fun y hy => ?_) rfl rfl, fun q k _ hq => hq⟩
      simp only [writeHead] at hy
      split at hy
      · split at hy
        · exact hy
        · cases hy
      · cases hy
    | writeKilled id a i w =>
      intro b p m _ hs
      refine hs.congr (fun y hy => ?_) rfl rfl
      cases b with
      | true => cases hy
      | false => exact hy
    | writeAcquire id a => exact fun p m _ hs => hs.congr (fun y hy => hy) rfl rfl
    | writeFull id a i => exact fun p m _ hs => hs.congr (fun y hy => hy) rfl rfl
    | writeSleep id a i => exact fun p m _ hs => hs.congr (fun y hy => hy) rfl rfl
    | readHead id a =>
      refine fun p x m _ h _ => ⟨h, Sends.idle ?_, fun q k _ hq => hq⟩
      simp only [readHead]
      split <;> rfl
    | ret id r =>
      exact fun p x m _ h _ => ⟨⟨h.ring, h.oldest, h.old, h.sent⟩, Sends.idle rfl,
        fun q k _ hq => hq.congr (fun y hy => hy) rfl rfl⟩
    | closeSet writable =>
      refine fun p x m _ h _ => ⟨?_, Sends.idle rfl,
        fun q k _ hq => hq.congr (fun y hy => hy) rfl rfl⟩
      cases writable <;> exact ⟨h.ring, h.oldest, h.old, h.sent⟩
    | closeTest => exact fun p x m _ h _ => ⟨h, Sends.idle rfl, fun q k _ hq => hq⟩
    | closeFree =>
      exact fun p x m _ h _ => ⟨⟨h.ring, h.oldest, h.old, h.sent⟩, Sends.idle rfl,
        fun q k _ hq => hq.congr (fun y hy => hy) rfl rfl⟩
    | closeRelease free =>
      refine fun p m _ _ => Sends.idle ?_
      cases free <;> rfl
    | readKilled id a =>
      refine fun b p m _ _ => Sends.idle ?_
      cases b <;> rfl
    | fork => exact ⟨fun _ => rfl, rfl⟩
    | kill pid => exact fun _ => rfl
    | wait => exact fun _ _ => rfl
    | exit status => trivial
    | _ => exact fun p m _ _ => Sends.idle rfl

theorem Fifo.start (page : Nat → UInt8) : Fifo (pipealloc page) where
  ring := Tracks.start page
  oldest := rfl
  old x hx := by simp [pipealloc] at hx
  sent id c hc := by simp [pipealloc] at hc

theorem Fifo.of_exec {page : Nat → UInt8} {evs : List (Ev Op)} {s : Sys Point Mem Unit}
    (h : exec code (init .user (pipealloc page)) evs = some s) : Fifo s.mem :=
  (ClientInv.run client_fifo (fun _ => Sends.idle rfl) (Fifo.start page)
    (.of_exec (fun _ _ _ _ _ _ _ _ _ _ _ _ _ => trivial) h)).1

/-- The cell of the `j`-th byte in the pipe. -/
def Mem.slot (m : Mem) (j : Nat) : Nat :=
  (m.pipe.nread + BitVec.ofNat 32 j).toNat % pipeSize

/-- The number of bytes in the pipe, modulo `2 ^ 32`. -/
def Mem.count (m : Mem) : Nat := (m.pipe.nwrite - m.pipe.nread).toNat

/-- The bytes in the pipe. -/
def Mem.unread (m : Mem) : List UInt8 :=
  (List.range m.count).map fun j => m.pipe.data (m.slot j)

/-- What was removed and what is in the pipe is what was accepted. -/
theorem Fifo.unread_eq {m : Mem} (h : Fifo m) :
    m.log.removed.map Prod.snd ++ m.unread = m.log.accepted.map Prod.snd := by
  have hdrop : m.unread = (m.log.accepted.map Prod.snd).drop m.log.removed.length := by
    apply List.ext_getElem?
    intro j
    rw [List.getElem?_drop]
    by_cases hj : j < m.count
    · rw [h.ring.element pipeSize_lt pipeSize_dvd hj]
      simp [Mem.unread, Mem.slot, hj]
    · have hc : m.count = _ := h.ring.count pipeSize_lt
      rw [List.getElem?_eq_none (by simpa [Mem.unread] using hj),
        List.getElem?_eq_none (by omega)]
  rw [hdrop, h.oldest, List.take_append_drop]

theorem Fifo.access_keeps {p : Nat} {x : Op} {k : Point} {m : Mem} (h : Fifo m) {f}
    (hk : code k = .access f) {j : Nat} (hj : j < m.count) :
    (f p x m).1.pipe.data (m.slot j) = m.pipe.data (m.slot j) := by
  cases k with
  | writeBody id a i w =>
    simp only [code, Instr.access.injEq] at hk
    subst hk
    simp only [writeBody]
    split
    · rfl
    · rename_i hfull
      split
      · refine upd_other (h.ring.write_index pipeSize_lt pipeSize_dvd ?_ hj)
        simpa [Mem.full] using hfull
      · rfl
  | readCopy id a i =>
    simp only [code, Instr.access.injEq] at hk
    subst hk
    simp only [readCopy]
    split
    · split <;> rfl
    · rfl
  | user =>
    simp only [code, Instr.access.injEq] at hk
    subst hk
    cases x <;> rfl
  | closeSet writable =>
    simp only [code, Instr.access.injEq] at hk
    subst hk
    cases writable <;> rfl
  | _ =>
    simp only [code, Instr.access.injEq, reduceCtorEq] at hk
    try subst hk
    try rfl

/-- In every run the counters differ by at most `PIPESIZE`, the bytes between them are those
accepted and not yet removed in order of acceptance, the removed ones are the oldest, each
`pipewrite` has put a first part of its buffer in, and no step overwrites an unread byte. -/
theorem pipe_is_fifo {page : Nat → UInt8} {evs : List (Ev Op)} {s : Sys Point Mem Unit}
    (h : exec code (init .user (pipealloc page)) evs = some s) :
    s.mem.count ≤ pipeSize ∧
    s.mem.log.removed.map Prod.snd ++ s.mem.unread = s.mem.log.accepted.map Prod.snd ∧
    (∀ id c, s.mem.log.calls[id]? = some c →
      ∃ k, ofCall id s.mem.log.accepted = c.args.bytes k) ∧
    ∀ e t, step code s e = some t → ∀ j < s.mem.count,
      t.mem.pipe.data (s.mem.slot j) = s.mem.pipe.data (s.mem.slot j) := by
  have hf := Fifo.of_exec h
  refine ⟨?_, hf.unread_eq, hf.sent, fun e t het j hj => ?_⟩
  · have hroom := hf.ring.room
    rw [Mem.count, hf.ring.count pipeSize_lt]
    omega
  · rcases (step_cases het).mem_cases with hm | ⟨c, x, b, i, k, f, -, -, -, hk, hm⟩
    · rw [hm]
    · rw [hm]
      exact hf.access_keeps hk hj

/-- A user address space with one page, whose bytes are their addresses. -/
def onePage : UserMem := ⟨fun va => va == 0, UInt8.ofNat⟩

def runOp (op : Op) (n : Nat) : List (Ev Op) := List.replicate n (.run 0 op true)

def writeThenRead : List (Ev Op) :=
  [.sched 0, .sched 0] ++ runOp .fork 1 ++ runOp (.write ⟨onePage, 7, 2⟩) 77 ++
    runOp (.read ⟨onePage, 0, 1⟩) 4

theorem pipe_is_fifo_wrote :
    ∃ s, exec code (init .user (pipealloc fun _ => 0)) writeThenRead = some s ∧
      s.mem.log.accepted = [(0, 7), (0, 8)] ∧ s.mem.log.removed = [(1, 7)] ∧
      s.mem.log.removed.map Prod.snd ++ s.mem.unread = s.mem.log.accepted.map Prod.snd := by
  have hlog : (exec code (init .user (pipealloc fun _ => 0)) writeThenRead).map
      (fun s => (s.mem.log.accepted, s.mem.log.removed)) = some ([(0, 7), (0, 8)], [(1, 7)]) := by
    decide +kernel
  obtain ⟨s, hs, hlog⟩ := Option.map_eq_some_iff.mp hlog
  rw [Prod.mk.injEq] at hlog
  exact ⟨s, hs, hlog.1, hlog.2, (pipe_is_fifo hs).2.1⟩

end Xv6.Pipes
