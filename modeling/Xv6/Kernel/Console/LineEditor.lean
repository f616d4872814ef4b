import Xv6.Kernel.Console.Code

/-! # The console is a line editor

An editor has a line that is being typed and everything that was ever sent off, of which
readers have taken a part. The console refines it: the bytes between its read and write
index are what is sent and not taken, and those between its write and edit index are the
line. What readers get is then a fact about the editor.
-/

namespace Xv6.Console

open Lib

/-- A committed queue, kept as all that was ever sent and how much of it is taken, and a pending
line. -/
structure Editor where
  sent : List UInt8
  taken : Nat
  line : List UInt8
  taken_le : taken ≤ sent.length

namespace Editor

def empty : Editor := ⟨[], 0, [], Nat.le_refl 0⟩

/-- What is sent and not taken. -/
def queue (a : Editor) : List UInt8 := a.sent.drop a.taken

def size (a : Editor) : Nat := a.queue.length + a.line.length

def type (a : Editor) (ch : UInt8) : Editor := { a with line := a.line ++ [ch] }

def commit (a : Editor) : Editor :=
  ⟨a.sent ++ a.line, a.taken, [], by
    rw [List.length_append]
    exact Nat.le_trans a.taken_le (Nat.le_add_right _ _)⟩

def skip (a : Editor) (h : a.taken < a.sent.length) : Editor := ⟨a.sent, a.taken + 1, a.line, h⟩

def key (a : Editor) (ch : UInt8) : Editor :=
  if ch = ctrl 'P' ∨ ch = 0 then a
  else if ch = ctrl 'U' then { a with line := [] }
  else if ch = ctrl 'H' ∨ ch = delete then { a with line := a.line.dropLast }
  else if a.size = inputBufSize then a
  else
    let ch := if ch = carriageReturn then newline else ch
    if ch = newline ∨ ch = ctrl 'D' ∨ (a.type ch).size = inputBufSize then (a.type ch).commit
    else a.type ch

/-- A read takes bytes up to a newline. It is ended by a ^D, which it takes only if it has taken
nothing else. -/
def read (target : Nat) : Nat → Editor → Progress Editor
  | 0, a => ⟨a, .done, 0, []⟩
  | n + 1, a =>
    if h : a.taken < a.sent.length then
      let ch := a.sent[a.taken]
      if ch = ctrl 'D' then
        if n + 1 < target then ⟨a, .done, n + 1, []⟩ else ⟨a.skip h, .done, n + 1, []⟩
      else if ch = newline then ⟨a.skip h, .done, n, [ch]⟩
      else (read target n (a.skip h)).after ch
    else ⟨a, .asleep, n + 1, []⟩

end Editor

def editorStep : Sys Editor → Ev → Option (Sys Editor) := Sys.step Editor.key Editor.read

/-! ## The buffer holds the editor -/

structure Holds (c : Cons) (a : Editor) : Prop where
  write : c.w = c.r + BitVec.ofNat 32 a.queue.length
  edit : c.e = c.w + BitVec.ofNat 32 a.line.length
  window : Window inputBufSize c.buf c.r (a.queue ++ a.line)

/-- Besides, a newline or a full buffer has sent the line off. -/
structure Shows (c : Cons) (a : Editor) : Prop extends Holds c a where
  open_line : newline ∉ a.line
  full : a.size = inputBufSize → a.line = []

variable {c : Cons} {a : Editor} {ch : UInt8}

theorem Holds.room (h : Holds c a) : a.size ≤ inputBufSize := by
  have := h.window.room
  rwa [List.length_append] at this

theorem ofNat_toNat_small {n : Nat} (h : n ≤ inputBufSize) : (BitVec.ofNat 32 n).toNat = n := by
  rw [BitVec.toNat_ofNat]
  apply Nat.mod_eq_of_lt
  unfold inputBufSize at h
  omega

theorem Holds.edit_eq (h : Holds c a) : c.e = c.r + BitVec.ofNat 32 a.size := by
  rw [h.edit, h.write, Editor.size, BitVec.ofNat_add, BitVec.add_assoc]

theorem Holds.count (h : Holds c a) : (c.e - c.r).toNat = a.size := by
  rw [h.edit_eq, add_sub_cancel_left, ofNat_toNat_small h.room]

theorem Holds.line_count (h : Holds c a) : (c.e - c.w).toNat = a.line.length := by
  have := h.room
  rw [h.edit, add_sub_cancel_left, ofNat_toNat_small (by unfold Editor.size at this; omega)]

theorem Holds.queue_count (h : Holds c a) : (c.w - c.r).toNat = a.queue.length := by
  have := h.room
  rw [h.write, add_sub_cancel_left, ofNat_toNat_small (by unfold Editor.size at this; omega)]

theorem Holds.line_nil (h : Holds c a) : c.e = c.w ↔ a.line = [] := by
  rw [← List.length_eq_zero_iff, ← h.line_count]
  constructor
  · intro heq
    rw [heq, sub_self]
    rfl
  · intro hz
    exact sub_eq_zero.mp (BitVec.eq_of_toNat_eq hz)

theorem Holds.queue_nil (h : Holds c a) : c.r = c.w ↔ a.queue = [] := by
  rw [← List.length_eq_zero_iff, ← h.queue_count]
  constructor
  · intro heq
    rw [heq, sub_self]
    rfl
  · intro hz
    exact (sub_eq_zero.mp (BitVec.eq_of_toNat_eq hz)).symm

def Cons.between (c : Cons) (i j : BitVec 32) : List UInt8 :=
  (List.range (j - i).toNat).map fun k => c.char (i + BitVec.ofNat 32 k)

theorem Holds.between_queue (h : Holds c a) : c.between c.r c.w = a.queue := by
  apply List.ext_getElem?
  intro k
  rw [Cons.between, h.queue_count, List.getElem?_map]
  by_cases hk : k < a.queue.length
  · rw [List.getElem?_range hk, List.getElem?_eq_getElem hk]
    have hcell := h.window.cell k a.queue[k] (by
      rw [List.getElem?_append_left hk, List.getElem?_eq_getElem hk])
    exact congrArg some hcell
  · rw [List.getElem?_eq_none (by simpa using hk), List.getElem?_eq_none (by omega)]
    rfl

theorem Holds.between_line (h : Holds c a) : c.between c.w c.e = a.line := by
  apply List.ext_getElem?
  intro k
  rw [Cons.between, h.line_count, List.getElem?_map]
  by_cases hk : k < a.line.length
  · rw [List.getElem?_range hk, List.getElem?_eq_getElem hk]
    have hcell := h.window.cell (a.queue.length + k) a.line[k] (by
      rw [List.getElem?_append_right (by omega), Nat.add_sub_cancel_left,
        List.getElem?_eq_getElem hk])
    rw [BitVec.ofNat_add, ← BitVec.add_assoc, ← h.write] at hcell
    exact congrArg some hcell
  · rw [List.getElem?_eq_none (by simpa using hk), List.getElem?_eq_none (by omega)]
    rfl

/-! ## Keys -/

theorem Holds.backspace {l : List UInt8} {x : UInt8} (h : Holds c a) (hl : a.line = l ++ [x]) :
    Holds { c with e := c.e - 1 } { a with line := l } ∧ c.char (c.e - 1) = x := by
  have hlast : c.e - 1 = c.w + BitVec.ofNat 32 l.length := by
    rw [h.edit, hl, List.length_append, List.length_singleton, BitVec.ofNat_add, ← BitVec.add_assoc]
    exact add_sub_cancel_right _ _
  have hwin := h.window
  rw [hl, ← List.append_assoc] at hwin
  refine ⟨⟨h.write, hlast, hwin.left⟩, ?_⟩
  have hcell := hwin.last
  rwa [List.length_append, BitVec.ofNat_add, ← BitVec.add_assoc, ← h.write, ← hlast] at hcell

theorem Holds.type (h : Holds c a) (ch : UInt8) (hlt : a.size < inputBufSize) :
    Holds { c with buf := upd c.buf (c.e.toNat % inputBufSize) ch, e := c.e + 1 } (a.type ch) := by
  refine ⟨h.write, ?_, ?_⟩
  · rw [Editor.type, List.length_append, List.length_singleton, BitVec.ofNat_add,
      ← BitVec.add_assoc, ← h.edit]
    rfl
  · have hpush := h.window.push (by decide) (by rwa [List.length_append]) ch
    rw [List.length_append, List.append_assoc] at hpush
    rw [h.edit_eq]
    exact hpush

theorem Holds.commit (h : Holds c a) : Holds { c with w := c.e } a.commit := by
  have hqueue : a.commit.queue = a.queue ++ a.line := List.drop_append_of_le_length a.taken_le
  refine ⟨?_, by simp [Editor.commit], ?_⟩
  · rw [hqueue, List.length_append]
    exact h.edit_eq
  · rw [hqueue]
    simpa [Editor.commit] using h.window

theorem Shows.killLine {n : Nat} (h : Shows c a) (hn : a.line.length = n) :
    Shows (killLine n c) { a with line := [] } := by
  induction n generalizing c a with
  | zero =>
    have hnil := List.length_eq_zero_iff.mp hn
    have hsame : { a with line := [] } = a := by rw [← hnil]
    rw [hsame]
    exact h
  | succ n ih =>
    obtain ⟨l, x, hl⟩ := List.eq_nil_or_concat' a.line |>.resolve_left (by
      intro hnil
      simp [hnil] at hn)
    obtain ⟨hback, hchar⟩ := h.backspace hl
    have hx : x ≠ newline := by
      intro heq
      exact h.open_line (by simp [hl, heq])
    have hne : c.e ≠ c.w := by
      rw [Ne, h.line_nil, hl]
      simp
    rw [Console.killLine, if_pos ⟨hne, by rwa [hchar]⟩]
    have hshow : Shows { c with e := c.e - 1 } { a with line := l } := by
      refine ⟨hback, fun hin => h.open_line (by simp [hl, hin]), fun hfull => ?_⟩
      have := h.room
      simp only [Editor.size, Editor.queue, hl, List.length_append, List.length_singleton] at *
      omega
    exact ih (a := { a with line := l }) hshow (by simpa [hl] using hn)

theorem Shows.backspace (h : Shows c a) :
    Shows (if c.e ≠ c.w then { c with e := c.e - 1 } else c)
      { a with line := a.line.dropLast } := by
  rcases List.eq_nil_or_concat' a.line with hnil | ⟨l, x, hl⟩
  · have hsame : { a with line := a.line.dropLast } = a := by
      rw [hnil, List.dropLast_nil, ← hnil]
    rw [if_neg (by rw [not_not, h.line_nil, hnil]), hsame]
    exact h
  · have hne : c.e ≠ c.w := by
      rw [Ne, h.line_nil, hl]
      simp
    rw [if_pos hne, hl, List.dropLast_concat]
    refine ⟨(h.toHolds.backspace hl).1, fun hin => h.open_line (by simp [hl, hin]), fun hfull => ?_⟩
    have := h.room
    simp only [Editor.size, Editor.queue, hl, List.length_append, List.length_singleton] at *
    omega

/-- The interrupt handler does what the editor does. -/
theorem Shows.key (h : Shows c a) : Shows (consoleintr c ch) (a.key ch) := by
  unfold consoleintr Editor.key
  by_cases hP : ch = ctrl 'P'
  · rw [if_pos hP, if_pos (.inl hP)]
    exact h
  rw [if_neg hP]
  by_cases hU : ch = ctrl 'U'
  · rw [if_pos hU, if_neg (by rw [hU]; decide), if_pos hU, h.line_count]
    exact h.killLine rfl
  rw [if_neg hU]
  by_cases hH : ch = ctrl 'H' ∨ ch = delete
  · have hnone : ¬ (ch = ctrl 'P' ∨ ch = 0) := by rcases hH with rfl | rfl <;> decide
    rw [if_pos hH, if_neg hnone, if_neg hU, if_pos hH]
    exact h.backspace
  rw [if_neg hH, h.count]
  by_cases h0 : ch = 0
  · rw [if_neg (fun hc => hc.1 h0), if_pos (.inr h0)]
    exact h
  rw [if_neg (not_or.mpr ⟨hP, h0⟩), if_neg hU, if_neg hH]
  by_cases hfull : a.size = inputBufSize
  · rw [if_neg (fun hc => by omega), if_pos hfull]
    exact h
  have hlt : a.size < inputBufSize := by
    have := h.room
    omega
  rw [if_pos ⟨h0, hlt⟩, if_neg hfull]
  generalize (if ch = carriageReturn then newline else ch) = x
  have htype := h.type x hlt
  simp only [htype.count]
  split
  · exact ⟨htype.commit, by simp [Editor.commit], fun _ => rfl⟩
  · rename_i hstay
    simp only [not_or] at hstay
    refine ⟨htype, ?_, fun hf => absurd hf hstay.2.2⟩
    rw [Editor.type, List.mem_append, List.mem_singleton, not_or]
    exact ⟨h.open_line, Ne.symm hstay.1⟩

/-! ## Reads -/

theorem Editor.queue_cons (h : a.taken < a.sent.length) :
    a.queue = a.sent[a.taken] :: (a.skip h).queue := List.drop_eq_getElem_cons h

theorem Shows.skip (h : Shows c a) (hlt : a.taken < a.sent.length) :
    Shows { c with r := c.r + 1 } (a.skip hlt) := by
  have hq := Editor.queue_cons hlt
  have hwin := h.window
  rw [hq, List.cons_append] at hwin
  refine ⟨⟨?_, h.edit, hwin.pop⟩, h.open_line, fun hfull => ?_⟩
  · rw [h.write, hq, List.length_cons, Nat.add_comm, BitVec.ofNat_add, BitVec.add_assoc]
    rfl
  · have := h.room
    have hlen := congrArg List.length hq
    have hline : (a.skip hlt).line = a.line := rfl
    simp only [Editor.size, List.length_cons, hline] at *
    omega

structure Agree (p : Progress Cons) (q : Progress Editor) : Prop where
  state : Shows p.state q.state
  status : p.status = q.status
  n : p.n = q.n
  bytes : p.bytes = q.bytes

theorem Shows.read {target n : Nat} (h : Shows c a) :
    Agree (consoleread target n c) (a.read target n) := by
  induction n generalizing c a with
  | zero => exact ⟨h, rfl, rfl, rfl⟩
  | succ n ih =>
    unfold consoleread Editor.read
    by_cases hlt : a.taken < a.sent.length
    · have hq := Editor.queue_cons hlt
      have hchar : c.char c.r = a.sent[a.taken] := by
        have hwin := h.window
        rw [hq] at hwin
        exact hwin.front
      have hne : c.r ≠ c.w := by
        rw [Ne, h.queue_nil, hq]
        simp
      have hnext := h.skip hlt
      rw [if_neg hne, dif_pos hlt]
      simp only [hchar]
      split
      · split
        · refine ⟨?_, rfl, rfl, rfl⟩
          have hback : { c with r := c.r + 1 - 1 } = c := by
            rw [show c.r + 1 - 1 = c.r from add_sub_cancel_right _ _]
          rw [hback]
          exact h
        · exact ⟨hnext, rfl, rfl, rfl⟩
      · split
        · exact ⟨hnext, rfl, rfl, rfl⟩
        · have hrest := ih hnext
          exact ⟨hrest.state, hrest.status, hrest.n, congrArg (_ :: ·) hrest.bytes⟩
    · have hnil : a.queue = [] := List.drop_eq_nil_of_le (by omega)
      rw [if_pos (h.queue_nil.mpr hnil), dif_neg hlt]
      exact ⟨h, rfl, rfl, rfl⟩

/-! ## Refinement -/

structure Sim (s : Sys Cons) (x : Sys Editor) : Prop where
  shows : Shows s.console x.console
  readers : s.readers = x.readers
  out : s.out = x.out
  returns : s.returns = x.returns

theorem Sim.go {s : Sys Cons} {x : Sys Editor} (h : Sim s x) (i : Nat) (rd : Reader) :
    Sim (s.go consoleread i rd) (x.go Editor.read i rd) := by
  have hagree : Agree (consoleread rd.target rd.n s.console) (x.console.read rd.target rd.n) :=
    h.shows.read
  unfold Sys.go
  simp only [hagree.status, hagree.n, hagree.bytes, h.readers, h.out, h.returns]
  split
  · exact ⟨hagree.state, rfl, rfl, rfl⟩
  · exact ⟨hagree.state, rfl, rfl, rfl⟩

theorem Sim.step {s t : Sys Cons} {x : Sys Editor} {e : Ev} (h : Sim s x)
    (hst : step s e = some t) : ∃ y, editorStep x e = some y ∧ Sim t y := by
  cases e with
  | intr ch =>
    obtain rfl := Option.some.inj hst
    exact ⟨_, rfl, h.shows.key, h.readers, h.out, h.returns⟩
  | read i n =>
    simp only [Console.step, Sys.step, Option.ite_none_right_eq_some, Option.some.injEq] at hst
    obtain ⟨hok, rfl⟩ := hst
    rw [h.readers] at hok
    exact ⟨_, if_pos hok, h.go i _⟩
  | resume i =>
    simp only [Console.step, Sys.step, Option.map_eq_some_iff] at hst
    obtain ⟨rd, hrd, rfl⟩ := hst
    rw [h.readers] at hrd
    refine ⟨_, ?_, h.go i rd⟩
    simp [editorStep, Sys.step, hrd]

theorem Sim.start : Sim (.start consoleinit) (.start Editor.empty) where
  shows := ⟨⟨rfl, rfl, Window.nil _ _⟩, by simp [Sys.start, Editor.empty], fun _ => rfl⟩
  readers := rfl
  out := rfl
  returns := rfl

theorem Sim.run {s : Sys Cons} {evs : List Ev}
    (h : Run Console.step (fun _ _ => True) (.start consoleinit) evs s) :
    ∃ x, Run editorStep (fun _ _ => True) (.start Editor.empty) evs x ∧ Sim s x := by
  induction h with
  | nil => exact ⟨_, .nil, Sim.start⟩
  | snoc _ _ hst ih =>
    obtain ⟨x, hx, hsim⟩ := ih
    obtain ⟨y, hy, hsim'⟩ := hsim.step hst
    exact ⟨y, .snoc hx trivial hy, hsim'⟩

/-! ## What readers get -/

/-- The part of the stream that readers have taken. -/
def Editor.gone (a : Editor) : List UInt8 := a.sent.take a.taken

theorem Editor.gone_key : (a.key ch).gone = a.gone := by
  have hcommit : ∀ b : Editor, b.commit.gone = b.gone := fun b =>
    List.take_append_of_le_length b.taken_le
  unfold Editor.key
  split
  · rfl
  split
  · rfl
  split
  · rfl
  split
  · rfl
  · generalize (if ch = carriageReturn then newline else ch) = x
    dsimp only
    split
    · exact hcommit _
    · rfl

theorem Editor.gone_skip (h : a.taken < a.sent.length) :
    (a.skip h).gone = a.gone ++ [a.sent[a.taken]] := by
  rw [Editor.gone, Editor.skip, List.take_add_one, List.getElem?_eq_getElem h]
  rfl

/-- What a read for `n` of `target` bytes takes: it copies all of it but a ^D, and it takes a ^D
exactly if it returns without having copied anything. -/
structure Took (a : Editor) (target n : Nat) (p : Progress Editor) : Prop where
  count : p.n + p.bytes.length = n
  taken : ∃ z, p.state.gone = a.gone ++ z ∧ z.filter (· ≠ ctrl 'D') = p.bytes ∧
    z.count (ctrl 'D') = if p.status = .done ∧ p.n = target then 1 else 0
  line : newline ∉ p.bytes.dropLast
  unfinished : p.status = .asleep → newline ∉ p.bytes

theorem Took.after {target n : Nat} {p : Progress Editor} (hlt : a.taken < a.sent.length)
    (hD : a.sent[a.taken] ≠ ctrl 'D') (hnl : a.sent[a.taken] ≠ newline)
    (h : Took (a.skip hlt) target n p) : Took a target (n + 1) (p.after a.sent[a.taken]) := by
  obtain ⟨z, hgone, hbytes, hcount⟩ := h.taken
  refine ⟨?_, ⟨a.sent[a.taken] :: z, ?_, ?_, ?_⟩, ?_, ?_⟩
  · have := h.count
    simp only [Progress.after, List.length_cons]
    omega
  · rw [Progress.after, hgone, Editor.gone_skip, List.append_assoc]
    rfl
  · rw [List.filter_cons_of_pos (by simpa using hD), hbytes]
    rfl
  · rw [List.count_cons_of_ne hD, hcount]
    rfl
  · intro hin
    simp only [Progress.after] at hin
    cases hb : p.bytes with
    | nil => simp [hb] at hin
    | cons b bs =>
      rw [hb, List.dropLast_cons_cons] at hin
      rcases List.mem_cons.mp hin with heq | hin
      · exact hnl heq.symm
      · exact h.line (hb ▸ hin)
  · intro hst hin
    rcases List.mem_cons.mp hin with heq | hin
    · exact hnl heq.symm
    · exact h.unfinished hst hin

theorem Editor.read_took {target n : Nat} (hn : n ≤ target) (ht : 0 < target) :
    Took a target n (a.read target n) := by
  induction n generalizing a with
  | zero =>
    refine ⟨rfl, ⟨[], by simp [Editor.read], rfl, ?_⟩, by simp [Editor.read], by simp [Editor.read]⟩
    rw [if_neg (fun hc => by simp [Editor.read] at hc; omega)]
    rfl
  | succ n ih =>
    unfold Editor.read
    by_cases hlt : a.taken < a.sent.length
    · rw [dif_pos hlt]
      dsimp only
      split
      · rename_i hD
        split
        · exact ⟨rfl, ⟨[], by simp, rfl, by simp; omega⟩, by simp, by simp⟩
        · refine ⟨rfl, ⟨[a.sent[a.taken]], Editor.gone_skip hlt, by simp [hD],
            ?_⟩, by simp, by simp⟩
          rw [if_pos ⟨rfl, show n + 1 = target by omega⟩, hD]
          simp
      · rename_i hD
        split
        · refine ⟨rfl, ⟨[a.sent[a.taken]], Editor.gone_skip hlt, by simp [hD],
            ?_⟩, by simp, by simp⟩
          rw [if_neg (fun hc => by have := hc.2; dsimp only at this; omega),
            List.count_eq_zero]
          simpa using Ne.symm hD
        · rename_i hnl
          exact (ih (a := a.skip hlt) (by omega)).after hlt hD hnl
    · rw [dif_neg hlt]
      exact ⟨rfl, ⟨[], by simp, rfl, by simp⟩, by simp, by simp⟩

/-- What has gone out is the stream without its ^Ds, a read that returned nothing stands for each
of those, and a newline ends a read. -/
structure Stream (x : Sys Editor) : Prop where
  out : x.out.map Prod.snd = x.console.gone.filter (· ≠ ctrl 'D')
  ends : x.returns.countP (·.value = 0) = x.console.gone.count (ctrl 'D')
  returns : ∀ r ∈ x.returns, r.value = r.bytes.length ∧ newline ∉ r.bytes.dropLast
  readers : ∀ i rd, x.readers i = some rd →
    rd.n + rd.got.length = rd.target ∧ 0 < rd.target ∧ newline ∉ rd.got

theorem newline_dropLast {l l' : List UInt8} (h : newline ∉ l) (h' : newline ∉ l'.dropLast) :
    newline ∉ (l ++ l').dropLast := by
  cases l' with
  | nil =>
    rw [List.append_nil]
    exact fun hin => h (List.mem_of_mem_dropLast hin)
  | cons b bs =>
    rw [List.dropLast_append_of_ne_nil (by simp), List.mem_append, not_or]
    exact ⟨h, h'⟩

theorem Stream.go {x : Sys Editor} {i : Nat} {rd : Reader} (h : Stream x)
    (hcount : rd.n + rd.got.length = rd.target) (hpos : 0 < rd.target) (hnl : newline ∉ rd.got) :
    Stream (x.go Editor.read i rd) := by
  have htook : Took x.console rd.target rd.n (x.console.read rd.target rd.n) :=
    Editor.read_took (by omega) hpos
  generalize hp : x.console.read rd.target rd.n = p at htook
  obtain ⟨z, hgone, hbytes, hz⟩ := htook.taken
  have hn := htook.count
  have hout : (x.out ++ p.bytes.map fun b => (i, b)).map Prod.snd =
      p.state.gone.filter (· ≠ ctrl 'D') := by
    rw [List.map_append, h.out, hgone, List.filter_append, hbytes, List.map_map]
    simp
  have hothers : ∀ o j y, upd x.readers i o j = some y → j ≠ i →
      y.n + y.got.length = y.target ∧ 0 < y.target ∧ newline ∉ y.got := by
    intro o j y hy hj
    rw [upd_other hj] at hy
    exact h.readers j y hy
  cases hst : p.status with
  | asleep =>
    rw [Sys.go_asleep hp hst]
    simp only [hst, reduceCtorEq, false_and, if_false] at hz
    refine ⟨hout, ?_, h.returns, fun j y hy => ?_⟩
    · rw [hgone, List.count_append, hz]
      exact h.ends
    · by_cases hj : j = i
      · simp only [hj, upd_same, Option.some.injEq] at hy
        subst hy
        refine ⟨?_, hpos, ?_⟩
        · dsimp only
          rw [List.length_append]
          omega
        · rw [List.mem_append, not_or]
          exact ⟨hnl, htook.unfinished hst⟩
      · exact hothers _ j y hy hj
  | done =>
    rw [Sys.go_done hp hst]
    simp only [hst, true_and] at hz
    refine ⟨hout, ?_, fun r hr => ?_, fun j y hy => ?_⟩
    · rw [hgone, List.count_append, hz, List.countP_append, h.ends, List.countP_singleton]
      congr 1
      by_cases hend : p.n = rd.target
      · simp [hend]
      · rw [if_neg hend, if_neg]
        simp only [decide_eq_true_eq]
        omega
    · rcases List.mem_append.mp hr with hr | hr
      · exact h.returns r hr
      · rw [List.mem_singleton.mp hr]
        refine ⟨?_, newline_dropLast hnl htook.line⟩
        dsimp only
        rw [List.length_append]
        omega
    · by_cases hj : j = i
      · simp [hj] at hy
      · exact hothers _ j y hy hj

theorem Stream.step {x y : Sys Editor} {e : Ev} (h : Stream x) (hst : editorStep x e = some y) :
    Stream y := by
  cases e with
  | intr ch =>
    obtain rfl := Option.some.inj hst
    exact ⟨by rw [Editor.gone_key]; exact h.out, by rw [Editor.gone_key]; exact h.ends, h.returns,
      h.readers⟩
  | read i n =>
    simp only [editorStep, Sys.step, Option.ite_none_right_eq_some, Option.some.injEq] at hst
    obtain ⟨hok, rfl⟩ := hst
    exact h.go rfl hok.1 (by simp)
  | resume i =>
    simp only [editorStep, Sys.step, Option.map_eq_some_iff] at hst
    obtain ⟨rd, hrd, rfl⟩ := hst
    obtain ⟨hcount, hpos, hnl⟩ := h.readers i rd hrd
    exact h.go hcount hpos hnl

theorem Stream.start : Stream (.start Editor.empty) :=
  ⟨rfl, rfl, fun r hr => by simp [Sys.start] at hr, fun i rd hrd => by simp [Sys.start] at hrd⟩

/-! ## One read after another -/

/-- A read is only called when no other is under way. -/
def OneAtATime {σ : Type} (s : Sys σ) (e : Ev) : Prop :=
  ∀ i n, e = .read i n → ∀ j, s.readers j = none

/-- Of at most one read that is under way, the bytes it has come last. -/
def InOrder (s : Sys Cons) : Prop :=
  ∃ got, s.returns.flatMap (·.bytes) ++ got = s.out.map Prod.snd ∧
    ((∀ j, s.readers j = none) ∧ got = [] ∨
      ∃ i rd, s.readers i = some rd ∧ rd.got = got ∧ ∀ j, j ≠ i → s.readers j = none)

theorem InOrder.go {s : Sys Cons} {i : Nat} {rd : Reader}
    (h : s.returns.flatMap (·.bytes) ++ rd.got = s.out.map Prod.snd)
    (halone : ∀ j, j ≠ i → s.readers j = none) : InOrder (s.go consoleread i rd) := by
  have hout : ∀ l : List UInt8, s.returns.flatMap (·.bytes) ++ (rd.got ++ l) =
      (s.out ++ l.map fun b => (i, b)).map Prod.snd := by
    intro l
    rw [← List.append_assoc, h, List.map_append, List.map_map]
    simp
  cases hst : (consoleread rd.target rd.n s.console).status with
  | asleep =>
    rw [Sys.go_asleep rfl hst]
    refine ⟨_, hout _, .inr ⟨i, _, upd_same _ _ _, rfl, fun j hj => ?_⟩⟩
    exact (upd_other hj).trans (halone j hj)
  | done =>
    rw [Sys.go_done rfl hst]
    refine ⟨[], ?_, .inl ⟨fun j => ?_, rfl⟩⟩
    · rw [List.append_nil, List.flatMap_append, List.flatMap_singleton]
      exact hout _
    · by_cases hj : j = i
      · rw [hj]
        exact upd_same _ _ _
      · exact (upd_other hj).trans (halone j hj)

theorem InOrder.step {s t : Sys Cons} {e : Ev} (h : InOrder s) (he : OneAtATime s e)
    (hst : Console.step s e = some t) : InOrder t := by
  obtain ⟨got, hflat, hcase⟩ := h
  cases e with
  | intr ch =>
    obtain rfl := Option.some.inj hst
    exact ⟨got, hflat, hcase⟩
  | read i n =>
    simp only [Console.step, Sys.step, Option.ite_none_right_eq_some, Option.some.injEq] at hst
    obtain ⟨-, rfl⟩ := hst
    have hnone := he i n rfl
    rcases hcase with ⟨-, rfl⟩ | ⟨j, rd, hrd, -⟩
    · exact InOrder.go hflat fun j _ => hnone j
    · simp [hnone j] at hrd
  | resume i =>
    simp only [Console.step, Sys.step, Option.map_eq_some_iff] at hst
    obtain ⟨rd, hrd, rfl⟩ := hst
    rcases hcase with ⟨hnone, -⟩ | ⟨j, rd', hrd', rfl, halone⟩
    · simp [hnone i] at hrd
    · obtain rfl : i = j := by
        by_contra hne
        simp [halone i hne] at hrd
      rw [hrd, Option.some.injEq] at hrd'
      subst hrd'
      exact InOrder.go hflat halone

/-- The console implements a line editor, for any number of keys and reads in any order: the
bytes from the read to the write index are the queue and those from the write to the edit index
the line, the buffer is never full with a line pending, and readers get the stream of what was
sent. They get it without the ^Ds, each of which makes one read return nothing; a newline ends a
read; and if reads come one after another, what they return is the stream in order. -/
theorem console_is_line_editor {evs : List Ev} {s : Sys Cons}
    (h : Run step (fun _ _ => True) (.start consoleinit) evs s) :
    ∃ x : Sys Editor, Run editorStep (fun _ _ => True) (.start Editor.empty) evs x ∧
      s.console.between s.console.r s.console.w = x.console.queue ∧
      s.console.between s.console.w s.console.e = x.console.line ∧
      x.console.size ≤ inputBufSize ∧ (x.console.size = inputBufSize → x.console.line = []) ∧
      s.out.map Prod.snd = x.console.gone.filter (· ≠ ctrl 'D') ∧
      x.console.sent = x.console.gone ++ x.console.queue ∧
      s.returns.countP (·.value = 0) = x.console.gone.count (ctrl 'D') ∧
      (∀ r ∈ s.returns, r.value = r.bytes.length ∧ newline ∉ r.bytes.dropLast) ∧
      (Run step OneAtATime (.start consoleinit) evs s → (∀ i, s.readers i = none) →
        s.returns.flatMap (·.bytes) = x.console.gone.filter (· ≠ ctrl 'D')) := by
  obtain ⟨x, hx, hsim⟩ := Sim.run h
  have hstream : Stream x := hx.invariant Stream.start fun _ _ _ hx _ hst => hx.step hst
  have hout := hsim.out ▸ hstream.out
  refine ⟨x, hx, hsim.shows.between_queue, hsim.shows.between_line, hsim.shows.room,
    hsim.shows.full, hout, (List.take_append_drop _ _).symm, hsim.returns ▸ hstream.ends,
    hsim.returns ▸ hstream.returns, fun hone hnone => ?_⟩
  have horder : InOrder s := hone.invariant ⟨[], rfl, .inl ⟨fun _ => rfl, rfl⟩⟩
    fun _ _ _ ht he hst => ht.step he hst
  obtain ⟨got, hflat, ⟨-, rfl⟩ | ⟨i, rd, hrd, -⟩⟩ := horder
  · rw [← hout, ← hflat, List.append_nil]
  · simp [hnone i] at hrd

/-- A reader waits, `a`, `b`, backspace and a carriage return are typed, and it is woken up. -/
def typedLine : List Ev :=
  [.read 0 10, .intr 97, .intr 98, .intr (ctrl 'H'), .intr carriageReturn, .resume 0]

theorem console_is_line_editor_typed :
    ∃ s, Run step (fun _ _ => True) (.start consoleinit) typedLine s ∧
      s.returns.map (·.bytes) = [[97, newline]] ∧
      ∃ x : Sys Editor, Run editorStep (fun _ _ => True) (.start Editor.empty) typedLine x ∧
        s.out.map Prod.snd = x.console.gone.filter (· ≠ ctrl 'D') := by
  have hrun : (runTest step (fun _ _ => true) (.start consoleinit) typedLine).map
      (fun s => s.returns.map (·.bytes)) = some [[97, newline]] := by decide +kernel
  obtain ⟨s, hs, hret⟩ := Option.map_eq_some_iff.mp hrun
  have h : Run step (fun _ _ => True) (.start consoleinit) typedLine s :=
    Run.of_runTest (fun _ _ _ => trivial) hs
  obtain ⟨x, hx, -, -, -, -, hout, -⟩ := console_is_line_editor h
  exact ⟨s, h, hret, x, hx, hout⟩

end Xv6.Console
