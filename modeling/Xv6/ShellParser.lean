import Xv6.Sequential
import Xv6.ShellCode

set_option autoImplicit false

/-! A pointer into the line is the rest of the line from there on, so that `s < es` is that
something is left and `*s` is its first character. Words are kept as the two pointers `q` and `eq`.
The functions count down a number that bounds how deep they call each other; running out of it is
not a behaviour of the program. -/
namespace Xv6.ShellParser
open Resumption Xv6.Sequential
open ShellCode (CmdTree)

abbrev Cursor := List Char

def whitespace : List Char := [' ', '\t', '\r', '\n', '\x0b']

def symbols : List Char := ['<', '|', '>', '&', ';', '(', ')']

def MAXARGS : ℕ := 10

def O_RDONLY : ℕ := 0
def O_WRONLY : ℕ := 1
def O_CREATE : ℕ := 0x200
def O_TRUNC : ℕ := 0x400

inductive Sym where
  | bar
  | lparen
  | rparen
  | semi
  | amp
  | lt
  | gt
  | gtgt
  deriving DecidableEq

inductive Tok where
  | eof
  | sym (y : Sym)
  | word
  deriving DecidableEq

/-- The text from `q` to `eq`. -/
structure Span where
  q : Cursor
  eq : Cursor

def skip (s : Cursor) : Cursor := s.dropWhile (· ∈ whitespace)

/-- Neither whitespace nor a symbol. -/
def wordChar (c : Char) : Bool := !(c ∈ whitespace) && !(c ∈ symbols)

def symbol (c : Char) : Option Sym :=
  if c = '|' then some .bar
  else if c = '(' then some .lparen
  else if c = ')' then some .rparen
  else if c = ';' then some .semi
  else if c = '&' then some .amp
  else if c = '<' then some .lt
  else none

/-- The token at a pointer, and the pointer behind it. -/
def scan : Cursor → Tok × Cursor
  | [] => (.eof, [])
  | c :: s =>
    match symbol c with
    | some y => (.sym y, s)
    | none =>
      if c = '>' then
        if s.head? = some '>' then (.sym .gtgt, s.tail) else (.sym .gt, s)
      else (.word, (c :: s).dropWhile wordChar)

abbrev ParseCode := Code Cursor

def gettoken : ParseCode (Tok × Span) := fun s =>
  .done ((scan (skip s)).1, ⟨skip s, (scan (skip s)).2⟩) (skip (scan (skip s)).2)

def peek (toks : List Char) : ParseCode Bool := fun s =>
  match skip s with
  | [] => .done false []
  | c :: s => .done (c ∈ toks) (c :: s)

def parseredirs : ℕ → CmdTree Span → ParseCode (CmdTree Span)
  | 0, _ => .undefined
  | n + 1, cmd => do
    if ← peek ['<', '>'] then
      let tok ← gettoken
      let file ← gettoken
      if file.1 ≠ .word then .panic "missing file for redirection"
      else
        match tok.1 with
        | .sym .lt => parseredirs n (.redir cmd file.2 O_RDONLY .stdin)
        | .sym .gt => parseredirs n (.redir cmd file.2 (O_WRONLY ||| O_CREATE ||| O_TRUNC) .stdout)
        | .sym .gtgt => parseredirs n (.redir cmd file.2 (O_WRONLY ||| O_CREATE) .stdout)
        | _ => parseredirs n cmd
    else return cmd

/-- The words of the EXEC node that a chain of redirections ends in. -/
def setArgv {ω : Type} (argv : List ω) : CmdTree ω → CmdTree ω
  | .redir cmd file mode fd => .redir (setArgv argv cmd) file mode fd
  | .exec _ => .exec argv
  | cmd => cmd

def parseargs : ℕ → List Span → CmdTree Span → ParseCode (CmdTree Span)
  | 0, _, _ => .undefined
  | n + 1, argv, ret => do
    if ← peek ['|', ')', '&', ';'] then return ret
    else
      let tok ← gettoken
      if tok.1 = .eof then return ret
      else if tok.1 ≠ .word then .panic "syntax"
      else if MAXARGS ≤ (argv ++ [tok.2]).length then .panic "too many args"
      else
        let ret ← parseredirs n (setArgv (argv ++ [tok.2]) ret)
        parseargs n (argv ++ [tok.2]) ret

def parsebacks : ℕ → CmdTree Span → ParseCode (CmdTree Span)
  | 0, _ => .undefined
  | n + 1, cmd => do
    if ← peek ['&'] then
      let _ ← gettoken
      parsebacks n (.back cmd)
    else return cmd

mutual

def parseline : ℕ → ParseCode (CmdTree Span)
  | 0 => .undefined
  | n + 1 => do
    let cmd ← parsepipe n
    let cmd ← parsebacks n cmd
    if ← peek [';'] then
      let _ ← gettoken
      let rest ← parseline n
      return .list cmd rest
    else return cmd

def parsepipe : ℕ → ParseCode (CmdTree Span)
  | 0 => .undefined
  | n + 1 => do
    let cmd ← parseexec n
    if ← peek ['|'] then
      let _ ← gettoken
      let rest ← parsepipe n
      return .pipe cmd rest
    else return cmd

def parseblock : ℕ → ParseCode (CmdTree Span)
  | 0 => .undefined
  | n + 1 => do
    if ← peek ['('] then
      let _ ← gettoken
      let cmd ← parseline n
      if ← peek [')'] then
        let _ ← gettoken
        parseredirs n cmd
      else .panic "syntax - missing )"
    else .panic "parseblock"

def parseexec : ℕ → ParseCode (CmdTree Span)
  | 0 => .undefined
  | n + 1 => do
    if ← peek ['('] then parseblock n
    else
      let ret ← parseredirs n (.exec [])
      parseargs n [] ret

end

/-- `parsecmd` without `nulterminate`, which only writes to the line. -/
def parsecmd (line : Cursor) : Outcome (CmdTree Span) Cursor :=
  (do
    let cmd ← parseline (4 * line.length + 4)
    let _ ← peek []
    let rest ← (Code.get : ParseCode Cursor)
    if rest ≠ [] then .panic "syntax" else return cmd : ParseCode (CmdTree Span)) line

end Xv6.ShellParser
