import Xv6.User.Sh.Parse
import Mathlib.Data.List.TakeWhile

/-! # The grammar of the shell

A text is cut into symbols and words that are as long as can be. A line is a pipe, followed by any
number of `&` and perhaps by `;` and another line; a pipe is a command, perhaps followed by `|` and
another pipe; a command is a line in parentheses with redirections after it, or redirections and
fewer than `MAXARGS` words in any order.
-/

namespace Xv6.Sh

/-- A symbol or a word of the text. -/
inductive Token where
  | sym (t : Sym)
  | word (w : List UInt8)
  deriving DecidableEq

def symOf (c : UInt8) : Sym :=
  if c = 124 then .pipe
  else if c = 40 then .lparen
  else if c = 41 then .rparen
  else if c = 59 then .semi
  else if c = 38 then .amp
  else if c = 60 then .lt
  else .gt

def tokens : List UInt8 → List Token
  | [] => []
  | c :: cs =>
      if isSpace c then tokens cs
      else if isWord c then .word (c :: cs.takeWhile isWord) :: tokens (cs.dropWhile isWord)
      else if c = 62 ∧ cs.head? = some 62 then .sym .append :: tokens cs.tail
      else .sym (symOf c) :: tokens cs
termination_by cs => cs.length
decreasing_by
  · simp
  · have := (List.dropWhile_suffix (l := cs) isWord).length_le
    rw [List.length_cons]
    omega
  · rw [List.length_tail, List.length_cons]
    omega
  · simp

/-! ## Trees -/

abbrev Tree := Cmd (List UInt8)

inductive Redir where
  | input (file : List UInt8)
  | output (file : List UInt8)
  | append (file : List UInt8)

def Redir.tokens : Redir → List Token
  | .input file => [.sym .lt, .word file]
  | .output file => [.sym .gt, .word file]
  | .append file => [.sym .append, .word file]

def Redir.wrap (c : Tree) : Redir → Tree
  | .input file => .redir c file oRdonly 0
  | .output file => .redir c file (oWronly ||| oCreate ||| oTrunc) 1
  | .append file => .redir c file (oWronly ||| oCreate) 1

inductive Item where
  | redir (r : Redir)
  | word (w : List UInt8)

def Item.tokens : Item → List Token
  | .redir r => r.tokens
  | .word w => [.word w]

def Item.redir? : Item → Option Redir
  | .redir r => some r
  | .word _ => none

def Item.word? : Item → Option (List UInt8)
  | .redir _ => none
  | .word w => some w

/-- The simple command of the words in order, inside the redirections in order. -/
def simple (items : List Item) : Tree :=
  (items.filterMap Item.redir?).foldl Redir.wrap (.exec (items.filterMap Item.word?))

def backs : Nat → Tree → Tree
  | 0, c => c
  | n + 1, c => backs n (.back c)

inductive Nonterm where
  | line | pipe | exec

inductive Derives : Nonterm → List Token → Tree → Prop where
  | line {ts : List Token} {c : Tree} (n : Nat) : Derives .pipe ts c →
      Derives .line (ts ++ List.replicate n (.sym .amp)) (backs n c)
  | lineList {ts ts' : List Token} {c c' : Tree} (n : Nat) : Derives .pipe ts c →
      Derives .line ts' c' →
      Derives .line (ts ++ (List.replicate n (.sym .amp) ++ .sym .semi :: ts'))
        (.list (backs n c) c')
  | pipe {ts : List Token} {c : Tree} : Derives .exec ts c → Derives .pipe ts c
  | pipePipe {ts ts' : List Token} {c c' : Tree} : Derives .exec ts c → Derives .pipe ts' c' →
      Derives .pipe (ts ++ .sym .pipe :: ts') (.pipe c c')
  | block {ts : List Token} {c : Tree} (rs : List Redir) : Derives .line ts c →
      Derives .exec (.sym .lparen :: (ts ++ .sym .rparen :: rs.flatMap Redir.tokens))
        (rs.foldl Redir.wrap c)
  | simple (items : List Item) : (items.filterMap Item.word?).length < maxArgs →
      Derives .exec (items.flatMap Item.tokens) (simple items)

/-! ## Tokens of what is left -/

theorem tokens_nil : tokens [] = [] := by
  rw [tokens]

theorem tokens_space {c : UInt8} {cs : List UInt8} (h : isSpace c) :
    tokens (c :: cs) = tokens cs := by
  rw [tokens, if_pos h]

theorem tokens_word {c : UInt8} {cs : List UInt8} (h : isWord c) :
    tokens (c :: cs) = .word (c :: cs.takeWhile isWord) :: tokens (cs.dropWhile isWord) := by
  have hs : ¬ isSpace c = true := by
    intro hs
    simp [isWord, hs] at h
  rw [tokens, if_neg hs, if_pos h]

theorem tokens_dropWhile (cs : List UInt8) : tokens (cs.dropWhile isSpace) = tokens cs := by
  induction cs with
  | nil => rfl
  | cons c cs ih =>
    by_cases hc : isSpace c
    · rw [List.dropWhile_cons_of_pos hc, ih, tokens_space hc]
    · rw [List.dropWhile_cons_of_neg hc]

theorem tokens_length (cs : List UInt8) : (tokens cs).length ≤ cs.length := by
  induction cs using tokens.induct with
  | case1 => simp [tokens_nil]
  | case2 c cs hs ih =>
    rw [tokens_space hs, List.length_cons]
    omega
  | case3 c cs hs hw ih =>
    have := (List.dropWhile_suffix (l := cs) isWord).length_le
    rw [tokens_word hw, List.length_cons, List.length_cons]
    omega
  | case4 c cs hs hw happ ih =>
    rw [tokens, if_neg hs, if_neg hw, if_pos happ, List.length_cons, List.length_cons]
    have := List.length_tail (l := cs)
    omega
  | case5 c cs hs hw happ ih =>
    rw [tokens, if_neg hs, if_neg hw, if_neg happ, List.length_cons, List.length_cons]
    omega

/-! ## Simple commands -/

theorem Redir.wrap_addArg (r : Redir) (c : Tree) (w : List UInt8) :
    (r.wrap c).addArg w = r.wrap (c.addArg w) := by
  cases r <;> rfl

theorem foldl_wrap_addArg (rs : List Redir) (c : Tree) (w : List UInt8) :
    (rs.foldl Redir.wrap c).addArg w = rs.foldl Redir.wrap (c.addArg w) := by
  induction rs generalizing c with
  | nil => rfl
  | cons r rs ih => rw [List.foldl_cons, List.foldl_cons, ih, r.wrap_addArg]

theorem simple_append_word (items : List Item) (w : List UInt8) :
    simple (items ++ [.word w]) = (simple items).addArg w := by
  have hr : [Item.word w].filterMap Item.redir? = [] := rfl
  have hw : [Item.word w].filterMap Item.word? = [w] := rfl
  rw [simple, simple, List.filterMap_append, List.filterMap_append, hr, hw, List.append_nil,
    foldl_wrap_addArg, Cmd.addArg]

theorem simple_append_redirs (items : List Item) (rs : List Redir) :
    simple (items ++ rs.map .redir) = rs.foldl Redir.wrap (simple items) := by
  have hr : (rs.map Item.redir).filterMap Item.redir? = rs := by
    rw [List.filterMap_map]
    exact List.filterMap_some
  have hw : (rs.map Item.redir).filterMap Item.word? = [] := by
    rw [List.filterMap_map, List.filterMap_eq_nil_iff]
    exact fun _ _ => rfl
  rw [simple, simple, List.filterMap_append, List.filterMap_append, hr, hw, List.append_nil,
    List.foldl_append]

end Xv6.Sh
