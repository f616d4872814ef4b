import Xv6.Lib.Comp

/-! # The parser of the shell

The code of `user/sh.c` that turns a line into a command. The text is a list of bytes, followed by
a NUL; a pointer into it is a number, and the pointer that all functions move is the state. The
loops and the recursion are counted, and `spin` is the end of a count that was too small. Memory
for commands is there.
-/

namespace Xv6.Sh

open Lib

/-! ## Commands -/

/-- A command; its words are of type `α`. -/
inductive Cmd (α : Type) where
  | exec (argv : List α)
  | redir (cmd : Cmd α) (file : α) (mode fd : Nat)
  | pipe (left right : Cmd α)
  | list (left right : Cmd α)
  | back (cmd : Cmd α)
  deriving Repr, DecidableEq

/-- Where a word starts and ends. -/
abbrev Span := Nat × Nat

/-- A word is added to the simple command inside redirections: `cmd->argv[argc] = q`. -/
def Cmd.addArg {α : Type} : Cmd α → α → Cmd α
  | .exec argv, w => .exec (argv ++ [w])
  | .redir cmd file mode fd, w => .redir (cmd.addArg w) file mode fd
  | cmd, _ => cmd

def maxArgs : Nat := 10

def oRdonly : Nat := 0x000

def oWronly : Nat := 0x001

def oCreate : Nat := 0x200

def oTrunc : Nat := 0x400

/-! ## Tokens -/

/-- The characters of `" \t\r\n\v"`. -/
def whitespace : List UInt8 := [32, 9, 13, 10, 11]

/-- The characters of `"<|>&;()"`. -/
def symbols : List UInt8 := [60, 124, 62, 38, 59, 40, 41]

inductive Sym where
  | lt | gt | append | pipe | amp | semi | lparen | rparen
  deriving Repr, DecidableEq

/-- The result of `gettoken`: 0, a symbol, or a word. -/
inductive Tok where
  | eof
  | sym (t : Sym)
  | word
  deriving Repr, DecidableEq

/-- The byte at `i`; the text ends with a NUL. -/
def charAt (s : List UInt8) (i : Nat) : UInt8 := s.getD i 0

/-- The loop `while(s < es && p(*s)) s++`. -/
def scan (p : UInt8 → Bool) (s : List UInt8) : Nat → Nat → Nat
  | 0, i => i
  | fuel + 1, i => if i < s.length ∧ p (charAt s i) then scan p s fuel (i + 1) else i

def isSpace (c : UInt8) : Bool := whitespace.contains c

def isWord (c : UInt8) : Bool := !isSpace c && !symbols.contains c

def skip (s : List UInt8) (i : Nat) : Nat := scan isSpace s s.length i

inductive Stop where
  | panic (msg : String)
  | spin
  deriving DecidableEq

abbrev Code := Comp Nat Stop

section

variable (s : List UInt8)

/-- The token at `i`, which is not white space, and where it ends. -/
def tokenAt (i : Nat) : Tok × Nat :=
  let c := charAt s i
  if c = 0 then (.eof, i)
  else if c = 124 then (.sym .pipe, i + 1)
  else if c = 40 then (.sym .lparen, i + 1)
  else if c = 41 then (.sym .rparen, i + 1)
  else if c = 59 then (.sym .semi, i + 1)
  else if c = 38 then (.sym .amp, i + 1)
  else if c = 60 then (.sym .lt, i + 1)
  else if c = 62 then
    if charAt s (i + 1) = 62 then (.sym .append, i + 2) else (.sym .gt, i + 1)
  else (.word, scan isWord s s.length i)

def gettoken : Code (Tok × Span) := do
  let q := skip s (← Comp.get)
  let (ret, eq) := tokenAt s q
  Comp.assign fun _ => skip s eq
  return (ret, q, eq)

def peek (toks : List UInt8) : Code Bool := do
  let i := skip s (← Comp.get)
  Comp.assign fun _ => i
  return charAt s i ≠ 0 ∧ toks.contains (charAt s i)

/-! ## Lines -/

def parseredirs : Nat → Cmd Span → Code (Cmd Span)
  | 0, _ => Comp.stop .spin
  | fuel + 1, cmd => do
      -- "<>"
      if ← peek s [60, 62] then
        let (tok, _) ← gettoken s
        let (tok', w) ← gettoken s
        if tok' ≠ .word then Comp.stop (.panic "missing file for redirection")
        else
          match tok with
          | .sym .lt => parseredirs fuel (.redir cmd w oRdonly 0)
          | .sym .gt => parseredirs fuel (.redir cmd w (oWronly ||| oCreate ||| oTrunc) 1)
          | .sym .append => parseredirs fuel (.redir cmd w (oWronly ||| oCreate) 1)
          | _ => parseredirs fuel cmd
      else return cmd

def parseArgs : Nat → Cmd Span → Nat → Code (Cmd Span)
  | 0, _, _ => Comp.stop .spin
  | fuel + 1, ret, argc => do
      -- "|)&;"
      if ← peek s [124, 41, 38, 59] then return ret
      else
        let (tok, w) ← gettoken s
        if tok = .eof then return ret
        else if tok ≠ .word then Comp.stop (.panic "syntax")
        else if argc + 1 ≥ maxArgs then Comp.stop (.panic "too many args")
        else
          let ret ← parseredirs s fuel (ret.addArg w)
          parseArgs fuel ret (argc + 1)

def parseBacks : Nat → Cmd Span → Code (Cmd Span)
  | 0, _ => Comp.stop .spin
  | fuel + 1, cmd => do
      -- "&"
      if ← peek s [38] then
        let _ ← gettoken s
        parseBacks fuel (.back cmd)
      else return cmd

mutual

def parseline : Nat → Code (Cmd Span)
  | 0 => Comp.stop .spin
  | fuel + 1 => do
      let cmd ← parsepipe fuel
      let cmd ← parseBacks s fuel cmd
      -- ";"
      if ← peek s [59] then
        let _ ← gettoken s
        let right ← parseline fuel
        return .list cmd right
      else return cmd

def parsepipe : Nat → Code (Cmd Span)
  | 0 => Comp.stop .spin
  | fuel + 1 => do
      let cmd ← parseexec fuel
      -- "|"
      if ← peek s [124] then
        let _ ← gettoken s
        let right ← parsepipe fuel
        return .pipe cmd right
      else return cmd

def parseblock : Nat → Code (Cmd Span)
  | 0 => Comp.stop .spin
  | fuel + 1 => do
      -- "("
      if !(← peek s [40]) then Comp.stop (.panic "parseblock")
      else
        let _ ← gettoken s
        let cmd ← parseline fuel
        -- ")"
        if !(← peek s [41]) then Comp.stop (.panic "syntax - missing )")
        else
          let _ ← gettoken s
          parseredirs s fuel cmd

def parseexec : Nat → Code (Cmd Span)
  | 0 => Comp.stop .spin
  | fuel + 1 => do
      -- "("
      if ← peek s [40] then parseblock fuel
      else
        let ret ← parseredirs s fuel (.exec [])
        parseArgs s fuel ret 0

end

/-- The ends of all words are overwritten with a NUL. -/
def nulterminate : Cmd Span → List UInt8 → List UInt8
  | .exec argv, buf => argv.foldl (fun buf w => buf.set w.2 0) buf
  | .redir cmd file _ _, buf => (nulterminate cmd buf).set file.2 0
  | .pipe left right, buf => nulterminate right (nulterminate left buf)
  | .list left right, buf => nulterminate right (nulterminate left buf)
  | .back cmd, buf => nulterminate cmd buf

/-- The command, and the text with its words terminated. No line needs a larger count. -/
def parsecmd : Code (Cmd Span × List UInt8) := do
  let cmd ← parseline s (5 * s.length + 4)
  let _ ← peek s []
  if (← Comp.get) ≠ s.length then Comp.stop (.panic "syntax")
  else return (cmd, nulterminate cmd (s ++ [0]))

end

end Xv6.Sh
