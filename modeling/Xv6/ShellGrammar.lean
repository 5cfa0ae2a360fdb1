import Mathlib.Data.List.Basic
import Xv6.ShellParser

set_option autoImplicit false

namespace Xv6.ShellGrammar
open ShellCode (CmdTree Word Cmd)
open ShellParser (Sym symbol whitespace MAXARGS O_RDONLY O_WRONLY O_CREATE O_TRUNC)

inductive Token where
  | sym (y : Sym)
  | word (w : Word)
  deriving DecidableEq

def flush (w : Word) (ts : List Token) : List Token := if w = [] then ts else .word w :: ts

/-- The tokens of the rest of a line, where `w` is the word read so far. -/
def lex : Word → List Char → List Token
  | w, [] => flush w []
  | w, c :: s =>
    if c ∈ whitespace then flush w (lex [] s)
    else
      match symbol c with
      | some y => flush w (.sym y :: lex [] s)
      | none =>
        if c = '>' then
          match s with
          | [] => flush w [.sym .gt]
          | c' :: s' =>
            if c' = '>' then flush w (.sym .gtgt :: lex [] s')
            else flush w (.sym .gt :: lex [] (c' :: s'))
        else lex (w ++ [c]) s

def tokens (line : List Char) : List Token := lex [] line

inductive Op where
  | lt
  | gt
  | gtgt
  deriving DecidableEq

def Op.sym : Op → Sym
  | .lt => .lt
  | .gt => .gt
  | .gtgt => .gtgt

def Op.redir {ω : Type} (op : Op) (file : ω) (cmd : CmdTree ω) : CmdTree ω :=
  match op with
  | .lt => .redir cmd file O_RDONLY .stdin
  | .gt => .redir cmd file (O_WRONLY ||| O_CREATE ||| O_TRUNC) .stdout
  | .gtgt => .redir cmd file (O_WRONLY ||| O_CREATE) .stdout

def wrap {ω : Type} (rs : List (Op × ω)) (cmd : CmdTree ω) : CmdTree ω :=
  rs.foldl (fun cmd r => r.1.redir r.2 cmd) cmd

def backs {ω : Type} : ℕ → CmdTree ω → CmdTree ω
  | 0, cmd => cmd
  | n + 1, cmd => backs n (.back cmd)

/-- `redir*` -/
inductive Redirs : List Token → List (Op × Word) → Prop
  | nil : Redirs [] []
  | cons {ts : List Token} {rs : List (Op × Word)} (op : Op) (w : Word) (rest : Redirs ts rs) :
      Redirs (.sym op.sym :: .word w :: ts) ((op, w) :: rs)

/-- `(word redir*)*` -/
inductive Args : List Token → List Word → List (Op × Word) → Prop
  | nil : Args [] [] []
  | cons {ts ts' : List Token} {rs rs' : List (Op × Word)} {ws : List Word} (w : Word)
      (redirs : Redirs ts rs) (rest : Args ts' ws rs') :
      Args (.word w :: ts ++ ts') (w :: ws) (rs ++ rs')

inductive Symbol where
  | line
  | pipe
  | exec

/-- The tokens that a symbol of the grammar generates, with the tree of the derivation. -/
inductive Gen : Symbol → List Token → Cmd → Prop
  | words {ts ts' : List Token} {rs rs' : List (Op × Word)} {ws : List Word}
      (redirs : Redirs ts rs) (args : Args ts' ws rs') (few : ws.length < MAXARGS) :
      Gen .exec (ts ++ ts') (wrap (rs ++ rs') (.exec ws))
  | block {ts ts' : List Token} {rs : List (Op × Word)} {cmd : Cmd} (line : Gen .line ts cmd)
      (redirs : Redirs ts' rs) :
      Gen .exec (.sym .lparen :: ts ++ .sym .rparen :: ts') (wrap rs cmd)
  | last {ts : List Token} {cmd : Cmd} (exec : Gen .exec ts cmd) : Gen .pipe ts cmd
  | pipe {ts ts' : List Token} {cmd cmd' : Cmd} (exec : Gen .exec ts cmd)
      (rest : Gen .pipe ts' cmd') : Gen .pipe (ts ++ .sym .bar :: ts') (.pipe cmd cmd')
  | line {ts : List Token} {cmd : Cmd} (n : ℕ) (pipe : Gen .pipe ts cmd) :
      Gen .line (ts ++ List.replicate n (.sym .amp)) (backs n cmd)
  | list {ts ts' : List Token} {cmd cmd' : Cmd} (n : ℕ) (pipe : Gen .pipe ts cmd)
      (rest : Gen .line ts' cmd') :
      Gen .line (ts ++ List.replicate n (.sym .amp) ++ .sym .semi :: ts')
        (.list (backs n cmd) cmd')

end Xv6.ShellGrammar
