import Xv6.Lib.Monitor
import Xv6.Lib.Ring

/-! # UART output

`uartputc` and the transmit half of `uartintr` as sections of `uart_tx_lock`, with `&uart_tx_r`
as their wait channel. Both run `uartstart`, which moves characters from the ring to the
transmitter for as long as the line status register says that it is idle. The free-running
counters of the ring are 64 bits wide.
-/

namespace Xv6.Uart

open Lib

abbrev txBufSize : Nat := 32

/-- The transmit buffer, and what `uartstart` has written to THR. -/
structure Uart where
  txBuf : Nat → BitVec 8
  txW : BitVec 64
  txR : BitVec 64
  thr : List (BitVec 8)

namespace Uart

def full (u : Uart) : Bool := u.txW == u.txR + BitVec.ofNat 64 txBufSize

/-- The drain loop on the successive readings of `LSR_TX_IDLE`, which is clear after the
last one; also whether it has called `wakeup(&uart_tx_r)`. -/
def uartstart (u : Uart) : List Bool → Uart × Bool
  | [] => (u, false)
  | idle :: rest =>
      if u.txW = u.txR then (u, false)
      else if idle = false then (u, false)
      else
        let c := u.txBuf (u.txR.toNat % txBufSize)
        ((uartstart { u with txR := u.txR + 1, thr := u.thr ++ [c] } rest).1, true)

/-- `uart_tx_buf[uart_tx_w % UART_TX_BUF_SIZE] = c; uart_tx_w += 1`. -/
def put (u : Uart) (c : BitVec 32) : Uart :=
  { u with
    txBuf := upd u.txBuf (u.txW.toNat % txBufSize) (c.setWidth 8)
    txW := u.txW + 1 }

/-- From `acquire(&uart_tx_lock)`, or the return of `sleep`, on; `none` sleeps on the full
buffer. -/
def uartputc (u : Uart) (c : BitVec 32) (idle : List Bool) : Option (Uart × Bool) :=
  if u.full then none else some ((u.put c).uartstart idle)

def buffered (u : Uart) : List (BitVec 8) :=
  (List.range (u.txW - u.txR).toNat).map fun j =>
    u.txBuf ((u.txR + BitVec.ofNat 64 j).toNat % txBufSize)

end Uart

/-- The device, the arguments of the calls of `uartputc` that have slept, and the characters
that `uartputc` has accepted. -/
structure Sys where
  uart : Uart
  waits : Nat → Option (BitVec 32)
  accepted : List (BitVec 8)

inductive Ev where
  | uartputc (p : Nat) (c : BitVec 32) (idle : List Bool)
  | uartintr (idle : List Bool)
deriving DecidableEq

/-- Boot, with anything in the buffer's cells. -/
def init (txBuf : Nat → BitVec 8) : Sys := ⟨⟨txBuf, 0, 0, []⟩, fun _ => none, []⟩

/-- A process that has slept in `uartputc` goes on with the character it came with. -/
def monitor : Monitor Sys Ev where
  step s
    | .uartputc p c idle =>
        if s.waits p = none ∨ s.waits p = some c then
          match s.uart.uartputc c idle with
          | none => some { s with waits := upd s.waits p (some c) }
          | some (u, _) => some ⟨u, upd s.waits p none, s.accepted ++ [c.setWidth 8]⟩
        else none
    | .uartintr idle => some { s with uart := (s.uart.uartstart idle).1 }
  proc
    | .uartputc p _ _ => some p
    | .uartintr _ => none
  sleeps s
    | .uartputc _ c idle => (s.uart.uartputc c idle).isNone
    | .uartintr _ => false
  wakes s
    | .uartputc _ c idle => ((s.uart.uartputc c idle).map Prod.snd).getD false
    | .uartintr idle => (s.uart.uartstart idle).2

/-- What `uartputc` has accepted went to THR, in order, or is in the ring. -/
structure Sound (u : Uart) (accepted : List (BitVec 8)) : Prop where
  tracks : Tracks txBufSize u.txBuf u.txR u.txW accepted u.thr.length
  thr : u.thr = accepted.take u.thr.length

variable {u : Uart} {s t : Sys} {e : Ev} {asleep : Nat → Bool} {accepted : List (BitVec 8)}

theorem Sound.send (h : Sound u accepted) (hne : u.txW ≠ u.txR) :
    Sound { u with
      txR := u.txR + 1
      thr := u.thr ++ [u.txBuf (u.txR.toNat % txBufSize)] } accepted where
  tracks := by
    rw [List.length_append, List.length_singleton]
    exact h.tracks.pop (by decide) hne.symm
  thr := by
    have hfront := h.tracks.front (by decide) (by decide) hne.symm
    rw [List.length_append, List.length_singleton, List.take_add_one, hfront, ← h.thr]
    rfl

theorem Sound.uartstart (h : Sound u accepted) (idle : List Bool) :
    Sound (u.uartstart idle).1 accepted := by
  induction idle generalizing u with
  | nil => exact h
  | cons b rest ih =>
    unfold Uart.uartstart
    split
    · exact h
    · split
      · exact h
      · exact ih (h.send ‹_›)

theorem Sound.put (h : Sound u accepted) (hroom : u.full = false) (c : BitVec 32) :
    Sound (u.put c) (accepted ++ [c.setWidth 8]) where
  tracks := h.tracks.push (by decide) (by decide) (by simpa [Uart.full] using hroom) _
  thr := by
    show u.thr = List.take u.thr.length _
    rw [List.take_append_of_le_length h.tracks.out_le, ← h.thr]

/-- A loop that has not called `wakeup` has taken nothing from the ring. -/
theorem uartstart_quiet {idle : List Bool} (h : (u.uartstart idle).2 = false) :
    (u.uartstart idle).1 = u := by
  cases idle with
  | nil => rfl
  | cons b rest =>
    unfold Uart.uartstart at h ⊢
    split
    · rfl
    · rename_i hne
      rw [if_neg hne] at h
      split
      · rfl
      · rename_i hidle
        rw [if_neg hidle] at h
        cases h

/-- The three outcomes of a section: the writer sleeps on the full ring, it puts its
character in, or the interrupt handler drains the ring. -/
theorem monitor_step (hst : monitor.step s e = some t) :
    (s.uart.full = true ∧ t.uart = s.uart ∧ t.accepted = s.accepted) ∨
    (∃ c idle, s.uart.full = false ∧ t.uart = ((s.uart.put c).uartstart idle).1 ∧
      t.accepted = s.accepted ++ [c.setWidth 8] ∧ monitor.sleeps s e = false) ∨
    (∃ idle, t.uart = (s.uart.uartstart idle).1 ∧ t.accepted = s.accepted ∧
      monitor.sleeps s e = false ∧ monitor.wakes s e = (s.uart.uartstart idle).2) := by
  cases e with
  | uartputc p c idle =>
    simp only [monitor, Option.ite_none_right_eq_some] at hst
    have hst := hst.2
    cases hfull : s.uart.full with
    | true =>
      simp only [Uart.uartputc, hfull, if_true, Option.some.injEq] at hst
      subst hst
      exact .inl ⟨rfl, rfl, rfl⟩
    | false =>
      simp only [Uart.uartputc, hfull, Bool.false_eq_true, if_false, Option.some.injEq] at hst
      subst hst
      refine .inr (.inl ⟨c, idle, rfl, rfl, rfl, ?_⟩)
      simp [monitor, Uart.uartputc, hfull]
  | uartintr idle =>
    simp only [monitor, Option.some.injEq] at hst
    subst hst
    exact .inr (.inr ⟨idle, rfl, rfl, rfl, rfl⟩)

theorem Reach.sound {txBuf : Nat → BitVec 8} (h : monitor.Reach (init txBuf) s asleep) :
    Sound s.uart s.accepted := by
  apply h.invariant (J := fun s => Sound s.uart s.accepted)
  · exact ⟨Tracks.start txBuf, rfl⟩
  · intro s e t hs hst
    obtain ⟨-, hu, ha⟩ | ⟨c, idle, hroom, hu, ha, -⟩ | ⟨idle, hu, ha, -⟩ := monitor_step hst
    · rwa [hu, ha]
    · rw [hu, ha]
      exact (hs.put hroom c).uartstart idle
    · rw [hu, ha]
      exact hs.uartstart idle

theorem Reach.full {txBuf : Nat → BitVec 8} (h : monitor.Reach (init txBuf) s asleep) {p : Nat}
    (hp : asleep p = true) : s.uart.full = true := by
  apply h.blocked (J := fun _ => True) (B := fun s => s.uart.full = true) _ _ _ hp
  · exact fun _ _ _ => trivial
  · intro s e t _ hst hsl
    obtain ⟨hfull, hu, -⟩ | ⟨_, _, -, -, -, hns⟩ | ⟨_, -, -, hns, -⟩ := monitor_step hst
    · rw [hu, hfull]
    · rw [hns] at hsl
      cases hsl
    · rw [hns] at hsl
      cases hsl
  · intro s e t _ hst hfull hw
    obtain ⟨-, hu, -⟩ | ⟨_, _, hroom, -⟩ | ⟨idle, hu, -, -, hwakes⟩ := monitor_step hst
    · rw [hu, hfull]
    · rw [hfull] at hroom
      cases hroom
    · rw [hwakes] at hw
      rw [hu, uartstart_quiet hw, hfull]

theorem Sound.fifo (h : Sound u accepted) : u.thr ++ u.buffered = accepted := by
  have hcount := h.tracks.count (by decide)
  apply List.ext_getElem?
  intro j
  by_cases hj : j < u.thr.length
  · rw [List.getElem?_append_left hj, h.thr, List.getElem?_take_of_lt hj]
  · rw [List.getElem?_append_right (by omega), Uart.buffered, List.getElem?_map]
    by_cases hlt : j - u.thr.length < (u.txW - u.txR).toNat
    · have hel := h.tracks.element (by decide) (by decide) hlt
      rw [List.getElem?_range hlt, Option.map_some, ← hel]
      congr 1
      omega
    · have hout := h.tracks.out_le
      rw [List.getElem?_eq_none (by simpa using hlt), Option.map_none,
        List.getElem?_eq_none (by omega)]

theorem Sound.length_buffered (h : Sound u accepted) :
    u.buffered.length = accepted.length - u.thr.length := by
  rw [Uart.buffered, List.length_map, List.length_range, h.tracks.count (by decide)]

/-- The loop ends at an empty ring or at a reading that says busy, and not before. -/
theorem Sound.sends (h : Sound u accepted) (idle : List Bool) :
    (u.uartstart idle).1.thr.length =
      u.thr.length + min (idle.takeWhile id).length u.buffered.length ∧
    (u.uartstart idle).2 = decide (0 < min (idle.takeWhile id).length u.buffered.length) := by
  induction idle generalizing u with
  | nil => simp [Uart.uartstart]
  | cons b rest ih =>
    have hempty := h.tracks.empty_iff (by decide)
    have hlen := h.length_buffered
    have hle := h.tracks.out_le
    unfold Uart.uartstart
    by_cases hne : u.txW = u.txR
    · have hb : u.buffered.length = 0 := by
        have := hempty.mp hne.symm
        omega
      simp [hne, hb]
    · have hb : accepted.length ≠ u.thr.length := fun heq => hne (hempty.mpr heq).symm
      cases b with
      | false => simp [hne]
      | true =>
        obtain ⟨hthr, -⟩ := ih (h.send hne)
        have hlen' := (h.send hne).length_buffered
        rw [List.length_append, List.length_singleton] at hthr hlen'
        simp only [hne, if_false, Bool.true_eq_false, hthr, List.takeWhile_cons, id, if_true,
          List.length_cons]
        refine ⟨by omega, ?_⟩
        simp only [Bool.true_eq, decide_eq_true_eq]
        omega

/-- From a ring that holds `q`, the oldest characters go to THR, as many as the transmitter is
found idle for, and the writers are woken if there are any. -/
structure Drains (u : Uart) (q : List (BitVec 8)) (idle : List Bool) (v : Uart) (woken : Bool) :
    Prop where
  thr : v.thr = u.thr ++ q.take (idle.takeWhile id).length
  ring : v.buffered = q.drop (idle.takeWhile id).length
  woken : woken = true ↔ v.thr ≠ u.thr

theorem Sound.drains (h : Sound u accepted) (idle : List Bool) :
    Drains u u.buffered idle (u.uartstart idle).1 (u.uartstart idle).2 := by
  obtain ⟨hlen, hwoken⟩ := h.sends idle
  have hfifo := (h.uartstart idle).fifo
  rw [← h.fifo] at hfifo
  have htake := congrArg (List.take (u.uartstart idle).1.thr.length) hfifo
  have hdrop := congrArg (List.drop (u.uartstart idle).1.thr.length) hfifo
  rw [List.take_left, hlen, List.take_length_add_append] at htake
  rw [List.drop_left, hlen, List.drop_length_add_append] at hdrop
  refine ⟨by rw [htake, ← List.take_eq_take_min], by rw [hdrop, ← List.drop_eq_drop_min], ?_⟩
  rw [hwoken, decide_eq_true_eq]
  constructor
  · intro hpos heq
    rw [heq] at hlen
    omega
  · intro hne
    by_contra hz
    rw [Nat.eq_zero_of_not_pos hz, List.take_zero, List.append_nil] at htake
    exact hne htake

theorem Uart.put_buffered (h : Sound u accepted) (hroom : u.full = false) (c : BitVec 32) :
    (u.put c).buffered = u.buffered ++ [c.setWidth 8] := by
  have hput := (h.put hroom c).fifo
  rw [← h.fifo, List.append_assoc] at hput
  exact List.append_cancel_left hput

/-- UART output is a FIFO with no stuck writer. While `uart_tx_lock` is free, the ring holds
between 0 and 32 characters; those written to THR, followed by those in the ring, are the
accepted ones in the order of acceptance; a writer is asleep only if the ring is full; and
the next section, of the interrupt handler or of a writer that finds room, sends the oldest
characters for as long as the transmitter is idle and wakes the writers if it sends any. -/
theorem uart_fifo {txBuf : Nat → BitVec 8} (h : monitor.Reach (init txBuf) s asleep) :
    (s.uart.txW - s.uart.txR).toNat ≤ txBufSize ∧
    s.uart.thr ++ s.uart.buffered = s.accepted ∧
    (∀ p, asleep p = true → s.uart.full = true) ∧
    (∀ idle, ∃ t, monitor.step s (.uartintr idle) = some t ∧
      Drains s.uart s.uart.buffered idle t.uart (monitor.wakes s (.uartintr idle))) ∧
    ∀ p c idle t, monitor.step s (.uartputc p c idle) = some t →
      monitor.sleeps s (.uartputc p c idle) = s.uart.full ∧
      (s.uart.full = true → t.uart = s.uart) ∧
      (s.uart.full = false → Drains s.uart (s.uart.buffered ++ [c.setWidth 8]) idle t.uart
        (monitor.wakes s (.uartputc p c idle))) := by
  have hs := Reach.sound h
  refine ⟨?_, hs.fifo, fun p hp => Reach.full h hp, fun idle => ⟨_, rfl, hs.drains idle⟩, ?_⟩
  · rw [hs.tracks.count (by decide)]
    have := hs.tracks.room
    omega
  · intro p c idle t hst
    simp only [monitor, Option.ite_none_right_eq_some] at hst
    have hst := hst.2
    cases hfull : s.uart.full with
    | true =>
      simp only [Uart.uartputc, hfull, if_true, Option.some.injEq] at hst
      subst hst
      simp [monitor, Uart.uartputc, hfull]
    | false =>
      simp only [Uart.uartputc, hfull, Bool.false_eq_true, if_false, Option.some.injEq] at hst
      subst hst
      refine ⟨by simp [monitor, Uart.uartputc, hfull], nofun, fun _ => ?_⟩
      have hd := (hs.put hfull c).drains idle
      rw [Uart.put_buffered hs hfull c] at hd
      have hd' : Drains s.uart _ idle _ _ := ⟨hd.thr, hd.ring, hd.woken⟩
      simpa [monitor, Uart.uartputc, hfull] using hd'

/-- Thirty-two characters fill the ring of a busy transmitter, and the next writer sleeps. Then
the transmitter is idle twice: the two oldest characters are sent, and the writer is woken. -/
theorem uart_fifo_full : ∃ s asleep t, monitor.Reach (init fun _ => 0) s asleep ∧
    asleep 1 = true ∧ s.uart.full = true ∧
    monitor.step s (.uartintr [true, true, false]) = some t ∧ t.uart.thr = [65, 66] ∧
    monitor.wakes s (.uartintr [true, true, false]) = true := by
  have hrun : (monitor.exec (init fun _ => 0) (fun _ => false)
      ((List.range 32).map (fun i => .uartputc 0 (65 + BitVec.ofNat 32 i) [false]) ++
        [.uartputc 1 66 []])).map
        (fun x => (x.2 1, x.1.uart.thr, x.1.uart.buffered.take 2)) =
      some (true, [], [65, 66]) := by
    decide +kernel
  obtain ⟨⟨s, asleep⟩, hx, hs⟩ := Option.map_eq_some_iff.mp hrun
  simp only [Prod.mk.injEq] at hs
  obtain ⟨hasleep, hthr, hring⟩ := hs
  have hreach := Monitor.Reach.start.exec hx
  obtain ⟨-, -, hfull, hintr, -⟩ := uart_fifo hreach
  obtain ⟨t, ht, hd⟩ := hintr [true, true, false]
  have hsent : t.uart.thr = [65, 66] := by
    rw [hd.thr, hthr, List.nil_append]
    exact hring
  refine ⟨s, asleep, t, hreach, hasleep, hfull 1 hasleep, ht, hsent, hd.woken.mpr ?_⟩
  rw [hsent, hthr]
  decide

end Xv6.Uart
