import Mathlib.Computability.Language

/-! # grep

`user/grep.c`: the matcher, and the loop that cuts its input into lines. Strings are the
lists of their bytes before the terminator. The matcher is compared with the language
that a pattern denotes. The loop keeps the unfinished line at the start of its buffer
and reads behind it; once a line fills the buffer it asks for no bytes, takes the
answer for the end of the file, and stops.
-/

namespace Xv6.Grep

/-! ## The matcher -/

def starLoop (c : UInt8) (here : List UInt8 → Bool) : List UInt8 → Bool
  | [] => here []
  | t :: text => here (t :: text) || ((t == c || c == 46) && starLoop c here text)

def matchhere : List UInt8 → List UInt8 → Bool
  | [], _ => true
  | c :: 42 :: re, text => starLoop c (matchhere re) text
  | c :: re, text =>
      if c = 36 ∧ re = [] then text.isEmpty
      else match text with
        | [] => false
        | t :: text => (c == 46 || c == t) && matchhere re text

def matchstar (c : UInt8) (re text : List UInt8) : Bool := starLoop c (matchhere re) text

def matchFrom (re : List UInt8) : List UInt8 → Bool
  | [] => matchhere re []
  | t :: text => matchhere re (t :: text) || matchFrom re text

def reMatch (re text : List UInt8) : Bool :=
  match re with
  | 94 :: re => matchhere re text
  | re => matchFrom re text

/-! ## What a pattern denotes -/

def charLang (c : UInt8) : Language UInt8 := {w | ∃ t, w = [t] ∧ (c = 46 ∨ c = t)}

/-- The language of a pattern without its anchors. -/
def bodyLang : List UInt8 → Language UInt8
  | [] => 1
  | c :: 42 :: re => KStar.kstar (charLang c) * bodyLang re
  | c :: re => if c = 36 ∧ re = [] then 1 else charLang c * bodyLang re

/-- The pattern ends in a `$` that no `*` follows. -/
def atEnd : List UInt8 → Bool
  | [] => false
  | _ :: 42 :: re => atEnd re
  | c :: re => (c == 36 && re.isEmpty) || atEnd re

/-- Some part of the text is in the language: one at the start if `start`, one that goes to the
end if the pattern ends in `$`. -/
def Found (start : Bool) (re text : List UInt8) : Prop :=
  ∃ pre w post, text = pre ++ w ++ post ∧ w ∈ bodyLang re ∧ (start = true → pre = []) ∧
    (atEnd re = true → post = [])

def Denotes (re text : List UInt8) : Prop :=
  match re with
  | 94 :: re => Found true re text
  | re => Found false re text

theorem mem_kstar_charLang {c : UInt8} {w : List UInt8} :
    w ∈ KStar.kstar (charLang c) ↔ ∀ t ∈ w, c = 46 ∨ c = t := by
  rw [Language.mem_kstar]
  constructor
  · rintro ⟨L, rfl, hL⟩ t ht
    obtain ⟨v, hv, ht⟩ := List.mem_flatten.mp ht
    obtain ⟨u, rfl, hu⟩ := hL v hv
    rw [List.mem_singleton.mp ht]
    exact hu
  · intro h
    refine ⟨w.map fun t => [t], by simp [← List.flatMap_def], fun v hv => ?_⟩
    obtain ⟨t, ht, rfl⟩ := List.mem_map.mp hv
    exact ⟨t, rfl, h t ht⟩

theorem starLoop_iff {c : UInt8} {here : List UInt8 → Bool} {text : List UInt8} :
    starLoop c here text = true ↔
      ∃ w post, text = w ++ post ∧ (∀ t ∈ w, c = 46 ∨ c = t) ∧ here post = true := by
  induction text with
  | nil =>
    rw [starLoop]
    constructor
    · intro h
      exact ⟨[], [], rfl, by simp, h⟩
    · rintro ⟨w, post, heq, -, h⟩
      rw [(List.append_eq_nil_iff.mp heq.symm).2] at h
      exact h
  | cons t text ih =>
    simp only [starLoop, Bool.or_eq_true, Bool.and_eq_true, beq_iff_eq, ih]
    constructor
    · rintro (h | ⟨ht, w, post, rfl, hw, h⟩)
      · exact ⟨[], t :: text, rfl, by simp, h⟩
      · refine ⟨t :: w, post, rfl, fun u hu => ?_, h⟩
        rcases List.mem_cons.mp hu with rfl | hu
        · exact ht.symm.imp_right Eq.symm
        · exact hw u hu
    · rintro ⟨w, post, heq, hw, h⟩
      cases w with
      | nil =>
        left
        rwa [heq]
      | cons u w =>
        obtain ⟨rfl, rfl⟩ := List.cons_eq_cons.mp heq
        refine .inr ⟨(hw t List.mem_cons_self).symm.imp_left Eq.symm, w, post, rfl,
          fun u hu => hw u (List.mem_cons_of_mem _ hu), h⟩

/-- `matchhere` finds what starts at the text. -/
theorem matchhere_iff (re text : List UInt8) :
    matchhere re text = true ↔ Found true re text := by
  have hstart : Found true re text ↔
      ∃ w post, text = w ++ post ∧ w ∈ bodyLang re ∧ (atEnd re = true → post = []) := by
    constructor
    · rintro ⟨pre, w, post, rfl, hw, hpre, hpost⟩
      rw [hpre rfl]
      exact ⟨w, post, rfl, hw, hpost⟩
    · rintro ⟨w, post, rfl, hw, hpost⟩
      exact ⟨[], w, post, rfl, hw, fun _ => rfl, hpost⟩
  rw [hstart]
  clear hstart
  induction re using bodyLang.induct generalizing text with
  | case1 =>
    refine ⟨fun _ => ⟨[], text, rfl, rfl, by simp [atEnd]⟩, fun _ => by rw [matchhere]⟩
  | case2 c re ih =>
    rw [matchhere, starLoop_iff]
    simp only [ih, atEnd, bodyLang, Language.mem_mul]
    constructor
    · rintro ⟨w, post, rfl, hw, v, tail, rfl, hv, htail⟩
      exact ⟨w ++ v, tail, by simp, ⟨w, mem_kstar_charLang.mpr hw, v, hv, rfl⟩, htail⟩
    · rintro ⟨u, tail, rfl, ⟨w, hw, v, hv, rfl⟩, htail⟩
      exact ⟨w, v ++ tail, by simp, mem_kstar_charLang.mp hw, v, tail, rfl, hv, htail⟩
  | case3 c re hstar hend =>
    obtain ⟨rfl, rfl⟩ := hend
    simp [matchhere, bodyLang, atEnd, Language.mem_one]
  | case4 c re hstar hend ih =>
    have hlang : bodyLang (c :: re) = charLang c * bodyLang re := by
      rw [bodyLang.eq_3 _ _ hstar, if_neg hend]
    have hat : atEnd (c :: re) = atEnd re := by
      rw [atEnd.eq_3 _ _ hstar]
      simp only [not_and] at hend
      by_cases hc : c = 36 <;> simp [hc, hend]
    have hnil : matchhere (c :: re) [] = false := by
      rw [matchhere.eq_3 _ _ hstar, if_neg hend]
    have hcons : ∀ t text, matchhere (c :: re) (t :: text) =
        ((c == 46 || c == t) && matchhere re text) := fun t text => by
      rw [matchhere.eq_4 _ _ _ _ hstar, if_neg hend]
    rw [hlang, hat]
    constructor
    · intro h
      cases text with
      | nil =>
        rw [hnil] at h
        cases h
      | cons t text =>
        simp only [hcons, Bool.and_eq_true, Bool.or_eq_true, beq_iff_eq, ih] at h
        obtain ⟨hc, w, post, rfl, hw, hpost⟩ := h
        exact ⟨t :: w, post, rfl, Language.mem_mul.mpr ⟨[t], ⟨t, rfl, hc⟩, w, hw, rfl⟩, hpost⟩
    · rintro ⟨u, post, rfl, hu, hpost⟩
      obtain ⟨v, ⟨t, rfl, hc⟩, w, hw, rfl⟩ := Language.mem_mul.mp hu
      have hrest := (ih (w ++ post)).mpr ⟨w, post, rfl, hw, hpost⟩
      rw [List.append_assoc, List.singleton_append, hcons, hrest]
      simpa using hc

theorem matchFrom_iff (re text : List UInt8) :
    matchFrom re text = true ↔ ∃ pre post, text = pre ++ post ∧ matchhere re post = true := by
  induction text with
  | nil =>
    rw [matchFrom]
    constructor
    · intro h
      exact ⟨[], [], rfl, h⟩
    · rintro ⟨pre, post, heq, h⟩
      rwa [(List.append_eq_nil_iff.mp heq.symm).2] at h
  | cons t text ih =>
    rw [matchFrom, Bool.or_eq_true, ih]
    constructor
    · rintro (h | ⟨pre, post, rfl, h⟩)
      · exact ⟨[], t :: text, rfl, h⟩
      · exact ⟨t :: pre, post, rfl, h⟩
    · rintro ⟨pre, post, heq, h⟩
      cases pre with
      | nil => exact .inl (heq ▸ h)
      | cons u pre => exact .inr ⟨pre, post, (List.cons_eq_cons.mp heq).2, h⟩

/-- `match` finds exactly the texts with a part that the pattern denotes. -/
theorem reMatch_iff (re text : List UInt8) : reMatch re text = true ↔ Denotes re text := by
  unfold reMatch Denotes
  split
  · exact matchhere_iff _ text
  · rw [matchFrom_iff]
    constructor
    · rintro ⟨pre, post, rfl, h⟩
      obtain ⟨x, w, tail, rfl, hw, hx, htail⟩ := (matchhere_iff _ post).mp h
      rw [hx rfl]
      exact ⟨pre, w, tail, by simp, hw, by simp, htail⟩
    · rintro ⟨pre, w, post, rfl, hw, -, hpost⟩
      refine ⟨pre, w ++ post, by simp, (matchhere_iff _ _).mpr ?_⟩
      exact ⟨[], w, post, rfl, hw, fun _ => rfl, hpost⟩

/-! ## The lines of the input -/

def bufSize : Nat := 1024

/-- The loop over the newlines in the buffer: `line` are the bytes from `p` on that it has gone
over. It gives what is written and the bytes from the last `p` on. -/
def scan (re line : List UInt8) : List UInt8 → List UInt8 × List UInt8
  | [] => ([], line)
  | c :: s =>
      if c = 10 then
        let (out, rest) := scan re [] s
        ((if reMatch re line then line ++ [10] else []) ++ out, rest)
      else if c = 0 then ([], line ++ c :: s)
      else scan re (line ++ [c]) s

/-- The loop of `grep`: `buf` are the bytes in the buffer and `file` those not yet read. The read
number `i` gives `answer i + 1` bytes if it is asked for as many and there are as many. -/
def grepLoop (re : List UInt8) (answer : Nat → Nat) (i : Nat) (buf file : List UInt8) :
    List UInt8 :=
  let n := min (answer i + 1) (min (bufSize - buf.length - 1) file.length)
  if n = 0 then []
  else
    let (out, rest) := scan re [] (buf ++ file.take n)
    out ++ grepLoop re answer (i + 1) rest (file.drop n)
termination_by file.length
decreasing_by
  rw [List.length_drop]
  omega

def grep (re : List UInt8) (answer : Nat → Nat) (file : List UInt8) : List UInt8 :=
  grepLoop re answer 0 [] file

/-- The lines of a text that end in a newline, without it; `line` is how the first one starts. -/
def textLines (line : List UInt8) : List UInt8 → List (List UInt8)
  | [] => []
  | c :: s => if c = 10 then line :: textLines [] s else textLines (line ++ [c]) s

def lastLine (line : List UInt8) : List UInt8 → List UInt8
  | [] => line
  | c :: s => if c = 10 then lastLine [] s else lastLine (line ++ [c]) s

/-- The lines that match, each with its newline. -/
def report (re : List UInt8) (lines : List (List UInt8)) : List UInt8 :=
  (lines.filter (reMatch re)).flatMap (· ++ [10])

/-- The line and its newline fit into the buffer. -/
def short (line : List UInt8) : Bool := line.length + 1 < bufSize

theorem textLines_append (line s t : List UInt8) :
    textLines line (s ++ t) = textLines line s ++ textLines (lastLine line s) t := by
  induction s generalizing line with
  | nil => rfl
  | cons c s ih =>
    simp only [List.cons_append, textLines, lastLine]
    split
    · rw [ih, List.cons_append]
    · exact ih _

theorem scan_append {re line s pre : List UInt8} (h0 : 0 ∉ line) (hnl : 10 ∉ line) :
    scan re pre (line ++ s) = scan re (pre ++ line) s := by
  induction line generalizing pre with
  | nil => simp
  | cons c line ih =>
    simp only [List.mem_cons, not_or] at h0 hnl
    rw [List.cons_append, scan, if_neg (Ne.symm hnl.1), if_neg (Ne.symm h0.1), ih h0.2 hnl.2]
    simp

theorem lastLine_no_newline {line s : List UInt8} (h : 10 ∉ line) : 10 ∉ lastLine line s := by
  induction s generalizing line with
  | nil => exact h
  | cons c s ih =>
    rw [lastLine]
    split
    · exact ih (by simp)
    · rename_i hc
      exact ih (by simp [h, Ne.symm hc])

theorem lastLine_length_le (line s : List UInt8) :
    (lastLine line s).length ≤ line.length + s.length := by
  induction s generalizing line with
  | nil => exact Nat.le_refl _
  | cons c s ih =>
    rw [lastLine]
    split
    · exact (ih []).trans (by simp; omega)
    · exact (ih _).trans (by simp; omega)

theorem lastLine_mem {line s : List UInt8} {c : UInt8} (h : c ∈ lastLine line s) :
    c ∈ line ++ s := by
  induction s generalizing line with
  | nil => simpa [lastLine] using h
  | cons d s ih =>
    rw [lastLine] at h
    split at h
    · have := ih h
      simp at this ⊢
      exact .inr (.inr this)
    · simpa using ih h

/-- A line that starts too long is too long. -/
theorem textLines_long {line s : List UInt8} (h : bufSize ≤ line.length + 1) :
    (textLines line s).takeWhile short = [] := by
  induction s generalizing line with
  | nil => rfl
  | cons c s ih =>
    rw [textLines]
    split
    · have hlong : short line = false := by simp [short, h]
      simp [hlong]
    · exact ih (by simp; omega)

theorem textLines_length_lt {line s l : List UInt8} (h : l ∈ textLines line s) :
    l.length < line.length + s.length := by
  induction s generalizing line with
  | nil => cases h
  | cons c s ih =>
    rw [textLines] at h
    split at h
    · rcases List.mem_cons.mp h with rfl | h
      · simp
      · have := ih h
        simp at this ⊢
        omega
    · have := ih h
      simp at this ⊢
      omega

theorem scan_eq {re line s : List UInt8} (h0 : 0 ∉ s) :
    scan re line s = (report re (textLines line s), lastLine line s) := by
  induction s generalizing line with
  | nil => rfl
  | cons c s ih =>
    simp only [List.mem_cons, not_or] at h0
    by_cases hc : c = 10
    · simp only [scan, textLines, lastLine, if_pos hc, ih h0.2]
      by_cases hm : reMatch re line = true <;> simp [report, hm]
    · simp only [scan, textLines, lastLine, if_neg hc, if_neg (Ne.symm h0.1), ih h0.2]

/-- With the start `buf` of a line in the buffer, the loop reports the lines up to the first that
does not fit. -/
theorem grepLoop_eq {re : List UInt8} {answer : Nat → Nat} {i : Nat} {buf file : List UInt8}
    (h0 : 0 ∉ buf ++ file) (hnl : 10 ∉ buf) (hlen : buf.length < bufSize) :
    grepLoop re answer i buf file = report re ((textLines buf file).takeWhile short) := by
  induction file using (measure List.length).wf.induction generalizing i buf with
  | h file ih =>
    rw [grepLoop]
    generalize hmin : min (answer i + 1) (min (bufSize - buf.length - 1) file.length) = n
    split
    · rename_i hn
      have hcases : file = [] ∨ bufSize ≤ buf.length + 1 := by
        rw [← List.length_eq_zero_iff]
        omega
      rcases hcases with rfl | hfull
      · rfl
      · rw [textLines_long hfull]
        rfl
    · rename_i hn
      have hle : n ≤ bufSize - buf.length - 1 ∧ n ≤ file.length := ⟨by omega, by omega⟩
      have htake : (file.take n).length = n := by simp [hle.2]
      simp only [List.mem_append, not_or] at h0
      have h0take : 0 ∉ file.take n := fun h => h0.2 (List.mem_of_mem_take h)
      have hshort : ∀ l ∈ textLines buf (file.take n), short l = true := fun l hl => by
        have := textLines_length_lt hl
        simp only [short, decide_eq_true_eq]
        omega
      have hrest : grepLoop re answer (i + 1) (lastLine buf (file.take n)) (file.drop n) =
          report re ((textLines (lastLine buf (file.take n)) (file.drop n)).takeWhile short) := by
        refine ih (file.drop n) ?_ ?_ (lastLine_no_newline hnl) ?_
        · show (file.drop n).length < file.length
          rw [List.length_drop]
          omega
        · simp only [List.mem_append, not_or]
          refine ⟨fun h => ?_, fun h => h0.2 (List.mem_of_mem_drop h)⟩
          rcases List.mem_append.mp (lastLine_mem h) with h | h
          · exact h0.1 h
          · exact h0take h
        · have := lastLine_length_le buf (file.take n)
          omega
      have hlines : textLines buf file = textLines buf (file.take n) ++
          textLines (lastLine buf (file.take n)) (file.drop n) := by
        rw [← textLines_append, List.take_append_drop]
      rw [scan_append h0.1 hnl, List.nil_append, scan_eq h0take, hlines,
        List.takeWhile_append_of_pos hshort]
      simp only [hrest, report, List.filter_append, List.flatMap_append]

theorem grep_eq {re file : List UInt8} {answer : Nat → Nat} (h0 : 0 ∉ file) :
    grep re answer file = report re ((textLines [] file).takeWhile short) :=
  grepLoop_eq (by simpa using h0) (by simp) (by decide)

/-- Whatever the reads answer, `grep` reports exactly the matching lines of a file iff none of them
comes at or behind the first line that does not fit into its buffer. -/
theorem grep_reports_iff (re file : List UInt8) (answer : Nat → Nat) (h0 : 0 ∉ file) :
    grep re answer file = report re (textLines [] file) ↔
      ∀ l ∈ (textLines [] file).dropWhile short, reMatch re l = false := by
  have hsplit : report re (textLines [] file) =
      report re ((textLines [] file).takeWhile short) ++
        report re ((textLines [] file).dropWhile short) := by
    simp only [report]
    rw [← List.flatMap_append, ← List.filter_append, List.takeWhile_append_dropWhile]
  rw [grep_eq h0, hsplit, eq_comm]
  simp [report]

/-- Two lines, read byte by byte. -/
theorem grep_reports_iff_bytes :
    grep [97] (fun _ => 0) [97, 98, 10, 99, 10] = report [97] (textLines [] [97, 98, 10, 99, 10]) :=
  (grep_reports_iff [97] _ _ (by decide)).mpr (by decide)

/-- A line of 1023 bytes fills the buffer, and `grep` stops. -/
theorem grep_stops_at_long_line :
    grep [120] (fun _ => 0) (List.replicate 1023 120 ++ [10]) = [] ∧
      report [120] (textLines [] (List.replicate 1023 120 ++ [10])) ≠ [] := by
  rw [grep_eq (by decide +kernel)]
  decide +kernel

end Xv6.Grep
