import Xv6.Spawning

set_option autoImplicit false

/-! The tree of a command and `runcmd` of `sh.c`, with the system calls it makes on the tables of
open files. `pipe`, `open`, `fork` and `exec` can fail. Once a process has replaced its image it
only ends. `node` is not a system call: it records which part of the tree the process is working on,
and `made` the object that this part has created. -/
namespace Xv6.ShellCode
open Resumption Spawning
open Function (update)

abbrev Word := List Char

inductive Std where
  | stdin
  | stdout
  | stderr
  deriving DecidableEq

def Std.fd : Std → ℕ
  | .stdin => 0
  | .stdout => 1
  | .stderr => 2

/-- `struct cmd`, where `ω` are the words. -/
inductive CmdTree (ω : Type) where
  | exec (argv : List ω)
  | redir (cmd : CmdTree ω) (file : ω) (mode : ℕ) (fd : Std)
  | pipe (left right : CmdTree ω)
  | list (left right : CmdTree ω)
  | back (cmd : CmdTree ω)
  deriving DecidableEq

abbrev Cmd := CmdTree Word

/-- A child of a node of the tree. A command with one part has it on its left. -/
inductive Side where
  | left
  | right
  deriving DecidableEq

/-- A node of the tree, by the way from it up to the root. -/
abbrev Path := List Side

/-- An open file of a numbered object. -/
inductive File where
  | file (k : ℕ)
  | pipeRead (k : ℕ)
  | pipeWrite (k : ℕ)
  deriving DecidableEq

def File.object : File → ℕ
  | .file k => k
  | .pipeRead k => k
  | .pipeWrite k => k

abbrev Fds := ℕ → Option File

def NOFILE : ℕ := 16

def fdalloc (fds : Fds) (f : File) : Option (ℕ × Fds) :=
  match (List.range NOFILE).find? fun fd => (fds fd).isNone with
  | none => none
  | some fd => some (fd, update fds fd (some f))

inductive Forked where
  | failed
  | child
  | parent

inductive Call : Type → Type
  | node (π : Path) : Call Unit
  | close (fd : ℕ) : Call Unit
  | dup (fd : ℕ) : Call (Option ℕ)
  | openFile (file : Word) (mode : ℕ) : Call (Option ℕ)
  | pipe : Call (Option (ℕ × ℕ))
  | fork : Call Forked
  | wait : Call Unit
  | exec (argv : List Word) : Call Bool
  | exit (status : ℕ) : Call Empty

/-- The private state of a process. `image` is the program it was replaced by. -/
structure Loc where
  fds : Fds
  node : Path
  image : Option (List Word)

/-- `children` are the processes that can still be waited for. -/
structure Shared where
  next : ℕ
  made : Path → Option ℕ
  children : ℕ → List ℕ
  zombie : ℕ → Bool

/-- What the calls leave open: whether they succeed, and the child that is found. -/
structure Chance where
  succeeds : Bool
  found : ℕ

def init : ℕ := 1

/-- The object made by a call at a node. -/
def Shared.make (g : Shared) (π : Path) : Shared :=
  { g with next := g.next + 1, made := update g.made π (some g.next) }

def returns {β : Type} (g : Shared) (b : β) (l : Loc) : Option (Result β Shared Loc) :=
  some ⟨g, some (b, l), none⟩

def exec (p q : ℕ) (o : Chance) :
    ∀ {β : Type}, Call β → Shared → Loc → Option (Result β Shared Loc)
  | _, .node π, g, l => returns g () { l with node := π }
  | _, .close fd, g, l => returns g () { l with fds := update l.fds fd none }
  | _, .dup fd, g, l =>
    match l.fds fd with
    | none => returns g none l
    | some f =>
      match fdalloc l.fds f with
      | none => returns g none l
      | some (fd', fds) => returns g (some fd') { l with fds := fds }
  | _, .openFile _ _, g, l =>
    match o.succeeds, fdalloc l.fds (.file g.next) with
    | true, some (fd, fds) => returns (g.make l.node) (some fd) { l with fds := fds }
    | _, _ => returns g none l
  | _, .pipe, g, l =>
    match o.succeeds, fdalloc l.fds (.pipeRead g.next) with
    | true, some (fd0, fds) =>
      match fdalloc fds (.pipeWrite g.next) with
      | some (fd1, fds) => returns (g.make l.node) (some (fd0, fd1)) { l with fds := fds }
      | none => returns g none l
    | _, _ => returns g none l
  | _, .fork, g, l =>
    if o.succeeds ∧ g.zombie q = false then
      some ⟨{ g with children := update g.children p (q :: g.children p) },
        some (.parent, l), some (.child, l)⟩
    else returns g .failed l
  | _, .wait, g, l =>
    if g.children p = [] then returns g () l
    else if o.found ∈ g.children p ∧ g.zombie o.found then
      returns { g with
        children := update g.children p ((g.children p).erase o.found)
        zombie := update g.zombie o.found false } () l
    else none
  | _, .exec argv, g, l =>
    if o.succeeds then returns g true { l with image := some argv } else returns g false l
  | _, .exit _, g, _ =>
    some ⟨{ g with
      children := update (update g.children init
        (g.children p ++ g.children init)) p []
      zombie := update g.zombie p true }, none, none⟩

def kernel : Kernel Call Shared Loc Chance := ⟨fun p q o => exec p q o⟩

abbrev Code := Prog Call

def exits {α : Type} (status : ℕ) : Code α := .act (.exit status) fun e => e.elim

/-- `fork1`, which is true in the child. -/
def fork1 : Code Bool := do
  match ← Prog.perform .fork with
  | .failed => exits 1
  | .child => return true
  | .parent => return false

def runcmd : Cmd → Path → Code Empty
  | .exec argv, π => do
    Prog.perform (.node π)
    if argv = [] then exits 1
    else
      -- an image that was replaced ends in its own time
      let _ ← Prog.perform (.exec argv)
      exits 0
  | .redir cmd file mode fd, π => do
    Prog.perform (.node π)
    Prog.perform (.close fd.fd)
    match ← Prog.perform (.openFile file mode) with
    | none => exits 1
    | some _ => runcmd cmd (.left :: π)
  | .list left right, π => do
    Prog.perform (.node π)
    if ← fork1 then runcmd left (.left :: π)
    else
      Prog.perform .wait
      runcmd right (.right :: π)
  | .pipe left right, π => do
    Prog.perform (.node π)
    match ← Prog.perform .pipe with
    | none => exits 1
    | some (p0, p1) =>
      if ← fork1 then
        Prog.perform (.close 1)
        let _ ← Prog.perform (.dup p1)
        Prog.perform (.close p0)
        Prog.perform (.close p1)
        runcmd left (.left :: π)
      else if ← fork1 then
        Prog.perform (.close 0)
        let _ ← Prog.perform (.dup p0)
        Prog.perform (.close p0)
        Prog.perform (.close p1)
        runcmd right (.right :: π)
      else
        Prog.perform (.close p0)
        Prog.perform (.close p1)
        Prog.perform .wait
        Prog.perform .wait
        exits 0
  | .back cmd, π => do
    Prog.perform (.node π)
    if ← fork1 then runcmd cmd (.left :: π)
    else exits 0

end Xv6.ShellCode
