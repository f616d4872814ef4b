import Xv6.User.Sh.Grammar

/-! # Tokens at a pointer

What `peek` and `gettoken` do, in terms of the tokens of the text that is left.
-/

namespace Xv6.Sh

open Lib

variable {s : List UInt8} {i : Nat}

/-- The tokens from `i` on. -/
def rest (s : List UInt8) (i : Nat) : List Token := tokens (s.drop i)

def spanText (s : List UInt8) (w : Span) : List UInt8 := (s.drop w.1).take (w.2 - w.1)

/-- A word of the text, as long as can be. -/
structure WordAt (s : List UInt8) (w : Span) : Prop where
  lt : w.1 < w.2
  le : w.2 ≤ s.length
  inside : ∀ i, w.1 ≤ i → i < w.2 → isWord (charAt s i)
  ends : w.2 = s.length ∨ ¬ isWord (charAt s w.2)

/-! ## Scanning -/

theorem charAt_of_drop {c : UInt8} {cs : List UInt8} (h : s.drop i = c :: cs) :
    charAt s i = c ∧ s.drop (i + 1) = cs ∧ i < s.length := by
  have hlt : i < s.length := by
    by_contra hge
    rw [List.drop_eq_nil_of_le (by omega)] at h
    cases h
  rw [List.drop_eq_getElem_cons hlt, List.cons.injEq] at h
  refine ⟨?_, h.2, hlt⟩
  rw [charAt, List.getD_eq_getElem?_getD, List.getElem?_eq_getElem hlt, Option.getD_some, h.1]

theorem charAt_of_drop_nil (h : s.drop i = []) : charAt s i = 0 ∧ s.length ≤ i := by
  have hle := List.drop_eq_nil_iff.mp h
  refine ⟨?_, hle⟩
  rw [charAt, List.getD_eq_getElem?_getD, List.getElem?_eq_none hle, Option.getD_none]

theorem scan_eq (p : UInt8 → Bool) {fuel : Nat} (h : s.length ≤ i + fuel) :
    scan p s fuel i = i + ((s.drop i).takeWhile p).length := by
  induction fuel generalizing i with
  | zero =>
    rw [scan, List.drop_eq_nil_of_le (by omega)]
    rfl
  | succ fuel ih =>
    rw [scan]
    cases hd : s.drop i with
    | nil =>
      rw [if_neg (by have := (charAt_of_drop_nil hd).2; omega)]
      rfl
    | cons c cs =>
      obtain ⟨hc, hcs, hlt⟩ := charAt_of_drop hd
      rw [hc]
      by_cases hp : p c
      · rw [if_pos ⟨hlt, hp⟩, ih (by omega), hcs, List.takeWhile_cons_of_pos hp, List.length_cons]
        omega
      · rw [if_neg (by simp [hp]), List.takeWhile_cons_of_neg hp]
        rfl

theorem drop_takeWhile (p : UInt8 → Bool) (l : List UInt8) :
    l.drop (l.takeWhile p).length = l.dropWhile p := by
  calc l.drop (l.takeWhile p).length
      = (l.takeWhile p ++ l.dropWhile p).drop (l.takeWhile p).length := by
        rw [List.takeWhile_append_dropWhile]
    _ = l.dropWhile p := List.drop_left

theorem take_takeWhile (p : UInt8 → Bool) (l : List UInt8) :
    l.take (l.takeWhile p).length = l.takeWhile p := by
  calc l.take (l.takeWhile p).length
      = (l.takeWhile p ++ l.dropWhile p).take (l.takeWhile p).length := by
        rw [List.takeWhile_append_dropWhile]
    _ = l.takeWhile p := List.take_left

theorem drop_scan (p : UInt8 → Bool) : s.drop (scan p s s.length i) = (s.drop i).dropWhile p := by
  rw [scan_eq p (by omega), ← List.drop_drop, drop_takeWhile]

theorem rest_skip : rest s (skip s i) = rest s i := by
  rw [rest, skip, drop_scan, tokens_dropWhile]
  rfl

theorem dropWhile_stops {p : UInt8 → Bool} {l cs : List UInt8} {c : UInt8}
    (h : l.dropWhile p = c :: cs) : p c = false := by
  have hhead := List.head?_dropWhile_not p l
  rw [h] at hhead
  exact hhead

theorem skip_stops {c : UInt8} {cs : List UInt8} (h : s.drop (skip s i) = c :: cs) :
    isSpace c = false := by
  rw [skip, drop_scan] at h
  exact dropWhile_stops h

/-! ## One token -/

def Sym.char : Sym → UInt8
  | .lt => 60
  | .gt => 62
  | .append => 62
  | .pipe => 124
  | .amp => 38
  | .semi => 59
  | .lparen => 40
  | .rparen => 41

/-- The token from `i` to `e`, where text starts that is not white space. -/
inductive TokenFrom (s : List UInt8) (i : Nat) : Tok → Nat → Prop where
  | eof : rest s i = [] → charAt s i = 0 → TokenFrom s i .eof i
  | sym {t : Sym} {e : Nat} : rest s i = .sym t :: rest s e → charAt s i = t.char →
      TokenFrom s i (.sym t) e
  | word {e : Nat} : WordAt s (i, e) → rest s i = .word (spanText s (i, e)) :: rest s e →
      TokenFrom s i .word e

theorem not_symbol {c : UInt8} (h : isWord c) : c ∉ symbols := by
  intro hc
  have : symbols.contains c = true := List.contains_iff_mem.mpr hc
  rw [isWord, this] at h
  simp at h

/-- A word as `gettoken` cuts it. -/
theorem tokenFrom_word {c : UInt8} {cs : List UInt8} (hd : s.drop i = c :: cs) (hw : isWord c) :
    TokenFrom s i .word (scan isWord s s.length i) := by
  obtain ⟨hc, hcs, hlt⟩ := charAt_of_drop hd
  have hscan : scan isWord s s.length i = i + ((s.drop i).takeWhile isWord).length :=
    scan_eq isWord (by omega)
  have hpos : 0 < ((s.drop i).takeWhile isWord).length := by
    rw [hd, List.takeWhile_cons_of_pos hw]
    exact Nat.succ_pos _
  have hle : ((s.drop i).takeWhile isWord).length ≤ s.length - i := by
    have := (List.takeWhile_prefix isWord (l := s.drop i)).length_le
    rwa [List.length_drop] at this
  refine .word ⟨by omega, by omega, fun j hlo hhi => ?_, ?_⟩ ?_
  · have hj : j - i < ((s.drop i).takeWhile isWord).length := by omega
    have hget := (List.takeWhile_prefix isWord (l := s.drop i)).getElem hj
    have hin := List.mem_takeWhile_imp (List.getElem_mem hj)
    rw [hget, List.getElem_drop] at hin
    have hjs : j < s.length := by omega
    rw [charAt, List.getD_eq_getElem?_getD, List.getElem?_eq_getElem hjs, Option.getD_some]
    simpa [Nat.add_sub_cancel' hlo] using hin
  · have hdrop := drop_scan (s := s) (i := i) isWord
    cases hrest : (s.drop i).dropWhile isWord with
    | nil =>
      left
      rw [hrest] at hdrop
      have := (charAt_of_drop_nil hdrop).2
      omega
    | cons d ds =>
      right
      rw [hrest] at hdrop
      rw [(charAt_of_drop hdrop).1, dropWhile_stops hrest]
      decide
  · have htext : spanText s (i, scan isWord s s.length i) = (s.drop i).takeWhile isWord := by
      rw [spanText, hscan, Nat.add_sub_cancel_left, take_takeWhile]
    rw [htext, rest, rest, drop_scan, hd, tokens_word hw, List.takeWhile_cons_of_pos hw,
      List.dropWhile_cons_of_pos hw]

theorem tokenFrom_symbol {c : UInt8} {cs : List UInt8} (hd : s.drop i = c :: cs)
    (hsp : isSpace c = false) (hw : isWord c = false) :
    ∃ t e, tokenAt s i = (.sym t, e) ∧ TokenFrom s i (.sym t) e := by
  obtain ⟨hc, hcs, hlt⟩ := charAt_of_drop hd
  have hmem : c ∈ symbols := by
    rw [isWord, hsp] at hw
    simpa using hw
  have hrest : rest s i = if c = 62 ∧ cs.head? = some 62 then .sym .append :: tokens cs.tail
      else .sym (symOf c) :: tokens cs := by
    rw [rest, hd, tokens, if_neg (by simp [hsp]), if_neg (by simp [hw])]
  have hnext : charAt s (i + 1) = cs.headD 0 := by
    cases cs with
    | nil => exact (charAt_of_drop_nil hcs).1
    | cons d ds => exact (charAt_of_drop hcs).1
  by_cases happ : c = 62 ∧ cs.head? = some 62
  · obtain ⟨rfl, hhead⟩ := happ
    cases cs with
    | nil => cases hhead
    | cons d ds =>
      obtain rfl : d = 62 := Option.some.inj hhead
      refine ⟨.append, i + 2, ?_, .sym ?_ hc⟩
      · simp [tokenAt, hc, hnext]
      · rw [hrest, if_pos ⟨rfl, hhead⟩, rest, (charAt_of_drop hcs).2.1]
        rfl
  · refine ⟨symOf c, i + 1, ?_, .sym ?_ ?_⟩
    · have hno : c = 62 → charAt s (i + 1) ≠ 62 := by
        intro heq hnext'
        refine happ ⟨heq, ?_⟩
        cases cs with
        | nil =>
          rw [hnext] at hnext'
          cases hnext'
        | cons d ds =>
          rw [hnext] at hnext'
          exact congrArg some hnext'
      simp only [symbols, List.mem_cons, List.not_mem_nil, or_false] at hmem
      rcases hmem with rfl | rfl | rfl | rfl | rfl | rfl | rfl <;>
        simp_all [tokenAt, symOf]
    · rw [hrest, if_neg happ, rest, hcs]
    · rw [hc]
      have hchar : ∀ d ∈ symbols, d = (symOf d).char := by decide +kernel
      exact hchar c hmem

theorem tokenFrom_spec (h0 : 0 ∉ s)
    (hsp : ∀ c cs, s.drop i = c :: cs → isSpace c = false) :
    ∃ tok e, tokenAt s i = (tok, e) ∧ TokenFrom s i tok e := by
  cases hd : s.drop i with
  | nil =>
    have hc := (charAt_of_drop_nil hd).1
    refine ⟨.eof, i, ?_, .eof ?_ hc⟩
    · simp [tokenAt, hc]
    · rw [rest, hd, tokens_nil]
  | cons c cs =>
    obtain ⟨hc, -, hlt⟩ := charAt_of_drop hd
    cases hw : isWord c with
    | false =>
      obtain ⟨t, e, heq, ht⟩ := tokenFrom_symbol hd (hsp c cs hd) hw
      exact ⟨.sym t, e, heq, ht⟩
    | true =>
      refine ⟨.word, _, ?_, tokenFrom_word hd hw⟩
      have hne : c ≠ 0 := by
        intro hz
        refine h0 (hz ▸ List.mem_of_mem_drop (i := i) ?_)
        rw [hd]
        exact List.mem_cons_self
      have hno := not_symbol hw
      simp only [symbols, List.mem_cons, List.not_mem_nil, or_false, not_or] at hno
      simp [tokenAt, hc, hne, hno]

/-! ## `gettoken` and `peek` -/

/-- Whether the first token is a symbol with its first character in `toks`. -/
def starts (toks : List UInt8) : List Token → Bool
  | .sym t :: _ => toks.contains t.char
  | _ => false

section

variable {I : Nat → Prop} {E : Stop → Nat → Prop} {p : Nat}

theorem wp_peek {Q : Bool → Nat → Prop} {toks : List UInt8} (h0 : 0 ∉ s)
    (htoks : toks ⊆ symbols)
    (h : ∀ p', rest s p' = rest s p → Q (starts toks (rest s p)) p') :
    Comp.wp I (peek s toks) Q E p := by
  unfold peek
  simp only [Comp.wp_bind, Comp.wp_get, Comp.wp_assign, Comp.wp_pure]
  obtain ⟨tok, e, -, ht⟩ := tokenFrom_spec h0 fun c cs hd => skip_stops (i := p) hd
  have hstarts : decide (charAt s (skip s p) ≠ 0 ∧ toks.contains (charAt s (skip s p)) = true) =
      starts toks (rest s (skip s p)) := by
    cases ht with
    | eof hrest hc => simp [hrest, hc, starts]
    | @sym t e hrest hc =>
      have hne : t.char ≠ 0 := by cases t <;> decide
      simp [hrest, hc, starts, hne]
    | word hw hrest =>
      have hno : charAt s (skip s p) ∉ toks := fun hc =>
        not_symbol (hw.inside _ (Nat.le_refl _) hw.lt) (htoks hc)
      simp [hrest, starts, hno]
  rw [hstarts, rest_skip]
  exact h _ rest_skip

theorem wp_gettoken {Q : Tok × Span → Nat → Prop} (h0 : 0 ∉ s)
    (heof : rest s p = [] → ∀ w p', rest s p' = [] → Q (.eof, w) p')
    (hsym : ∀ t w p', rest s p = .sym t :: rest s p' → Q (.sym t, w) p')
    (hword : ∀ w p', WordAt s w → rest s p = .word (spanText s w) :: rest s p' → Q (.word, w) p') :
    Comp.wp I (gettoken s) Q E p := by
  unfold gettoken
  simp only [Comp.wp_bind, Comp.wp_get, Comp.wp_assign, Comp.wp_pure]
  obtain ⟨tok, e, heq, ht⟩ := tokenFrom_spec h0 fun c cs hd => skip_stops (i := p) hd
  rw [heq]
  cases ht with
  | eof hrest hc =>
    rw [rest_skip] at hrest
    refine heof hrest _ _ ?_
    rw [rest_skip, rest_skip, hrest]
  | sym hrest hc =>
    rw [rest_skip] at hrest
    refine hsym _ _ _ ?_
    rw [rest_skip, hrest]
  | word hw hrest =>
    rw [rest_skip] at hrest
    refine hword _ _ hw ?_
    rw [rest_skip, hrest]

theorem wp_gettoken_sym {Q : Tok × Span → Nat → Prop} {t : Sym} {ts : List Token} (h0 : 0 ∉ s)
    (hrest : rest s p = .sym t :: ts) (h : ∀ w p', rest s p' = ts → Q (.sym t, w) p') :
    Comp.wp I (gettoken s) Q E p := by
  apply wp_gettoken h0
  · intro hnil
    rw [hrest] at hnil
    cases hnil
  · intro t' w p' heq
    rw [hrest] at heq
    cases heq
    exact h w p' rfl
  · intro w p' _ heq
    rw [hrest] at heq
    cases heq

theorem wp_gettoken_word {Q : Tok × Span → Nat → Prop} {x : List UInt8} {ts : List Token}
    (h0 : 0 ∉ s) (hrest : rest s p = .word x :: ts)
    (h : ∀ w p', rest s p' = ts → spanText s w = x → WordAt s w → Q (.word, w) p') :
    Comp.wp I (gettoken s) Q E p := by
  apply wp_gettoken h0
  · intro hnil
    rw [hrest] at hnil
    cases hnil
  · intro t' w p' heq
    rw [hrest] at heq
    cases heq
  · intro w p' hw heq
    rw [hrest] at heq
    cases heq
    exact h w p' rfl rfl hw

end

end Xv6.Sh
