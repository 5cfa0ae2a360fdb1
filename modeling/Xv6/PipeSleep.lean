import Xv6.PipeCode
import Xv6.Scripts
import Xv6.SleepRules

set_option autoImplicit false

/-! `pipe.c` with its sleeps and wakeups. An end is closed with its last descriptor. A writer that
finds itself killed when the pipe is full returns without waking the readers, although it has filled
it. -/
namespace Xv6.PipeSleep
open Resumption Interleaving SleepCode
open PipeCode (Pipe PIPESIZE)

inductive Chan where
  | nread
  | nwrite
  deriving DecidableEq

structure Data (n : ℕ) where
  pipe : Pipe
  /-- The descriptors of each process for the read end (`false`) and the write end. -/
  fds : Fin n → Bool → ℕ
  freed : Bool

variable {n : ℕ}

abbrev PipeProg (n : ℕ) (α : Type) := Code n Unit Chan (Data n) α

/-- An access to the pipe; after `kfree` the memory may be anything. -/
def onPipe {β : Type} (f : Pipe → β × Pipe) (d : Data n) : Outcome β (Data n) :=
  if d.freed then .undefined else .done (f d.pipe).1 { d with pipe := (f d.pipe).2 }

def pipe : PipeProg n Pipe := data (onPipe fun pi => (pi, pi))

def setPipe (f : Pipe → Pipe) : PipeProg n Unit := data (onPipe fun pi => ((), f pi))

/-- Where a process is: outside the kernel, with the result of its last call, or asleep. -/
inductive Loc where
  | user (r : ℤ)
  | writing (src : List UInt8) (m : ℤ) (i : ℕ)
  | reading (m : ℤ) (room : ℕ)
  deriving DecidableEq

def full (pi : Pipe) : Prop := pi.nwrite = pi.nread + UInt32.ofNat PIPESIZE

instance (pi : Pipe) : Decidable (full pi) := inferInstanceAs (Decidable (_ = _))

def giveUp : PipeProg n Loc := do
  act (.release (.data ()))
  return .user (-1)

def pipewriteEnd (i : ℕ) : PipeProg n Loc := do
  wakeup .nread
  act (.release (.data ()))
  return .user i

/-- The rounds from `i` on, with the lock held. `src` is the readable bytes at the address. -/
def pipewriteFrom (p : Fin n) (src : List UInt8) (m : ℤ) : ℕ → ℕ → PipeProg n Loc
  | 0, i => pipewriteEnd i
  | fuel + 1, i => do
    let pi ← pipe
    if full pi then
      if pi.readopen = false then giveUp
      else if ← act .killed then giveUp
      else
        wakeup .nread
        sleep p .nwrite ()
        return .writing src m i
    else
      match src[i]? with
      | none => pipewriteEnd i
      | some b =>
        setPipe fun pi => pi.put b
        pipewriteFrom p src m fuel (i + 1)

def pipewrite (p : Fin n) (src : List UInt8) (m : ℤ) : PipeProg n Loc := do
  act (.acquire (.data ()))
  pipewriteFrom p src m m.toNat 0

/-- `piperead` from the copying loop on; `room` bytes can be copied out. -/
def pipereadFrom (room : ℕ) : ℕ → ℕ → PipeProg n Loc
  | 0, i => pipereadEnd i
  | fuel + 1, i => do
    let pi ← pipe
    if pi.nread = pi.nwrite then pipereadEnd i
    else
      setPipe fun pi => { pi with nread := pi.nread + 1 }
      if i < room then pipereadFrom room fuel (i + 1) else pipereadEnd i
where
  pipereadEnd (i : ℕ) : PipeProg n Loc := do
    wakeup .nwrite
    act (.release (.data ()))
    return .user i

def pipereadLoop (p : Fin n) (m : ℤ) (room : ℕ) : PipeProg n Loc := do
  let pi ← pipe
  if pi.nread = pi.nwrite ∧ pi.writeopen = true then
    if ← act .killed then giveUp
    else
      sleep p .nread ()
      return .reading m room
  else pipereadFrom room m.toNat 0

def piperead (p : Fin n) (m : ℤ) (room : ℕ) : PipeProg n Loc := do
  act (.acquire (.data ()))
  pipereadLoop p m room

def pipeclose (writable : Bool) : PipeProg n Unit := do
  act (.acquire (.data ()))
  setPipe fun pi => pi.closed writable
  wakeup (if writable then .nread else .nwrite)
  let pi ← pipe
  if pi.readopen = false ∧ pi.writeopen = false then
    act (.release (.data ()))
    modify fun d => { d with freed := true }
  else act (.release (.data ()))

def argfd (p : Fin n) (writable : Bool) : PipeProg n Bool :=
  SleepCode.read fun d => decide (0 < d.fds p writable)

def sysWrite (p : Fin n) (src : List UInt8) (m : ℤ) : PipeProg n Loc := do
  if ← argfd p true then pipewrite p src m else return .user (-1)

def sysRead (p : Fin n) (m : ℤ) (room : ℕ) : PipeProg n Loc := do
  if ← argfd p false then piperead p m room else return .user (-1)

def Data.setFds (d : Data n) (p : Fin n) (writable : Bool) (k : ℕ) : Data n :=
  { d with fds := Function.update d.fds p (Function.update (d.fds p) writable k) }

/-- A process gives a descriptor to a process, which is itself for `dup` and a child for
    `fork`. -/
def share (p q : Fin n) (writable : Bool) : PipeProg n Loc := do
  modify fun d =>
    if 0 < d.fds p writable then d.setFds q writable (d.fds q writable + 1) else d
  return .user 0

/-- A process closes a descriptor; the answer is whether it was the last one of the end. -/
def fileclose (p : Fin n) (writable : Bool) : PipeProg n Bool :=
  data fun d =>
    if 0 < d.fds p writable then
      .done (decide (∀ q, (d.setFds p writable (d.fds p writable - 1)).fds q writable = 0))
        (d.setFds p writable (d.fds p writable - 1))
    else .done false d

def sysClose (p : Fin n) (writable : Bool) : PipeProg n Loc := do
  if ← fileclose p writable then pipeclose writable
  return .user 0

inductive Calls : Thread n → Loc → PipeProg n Loc → Prop where
  | write (p : Fin n) (r : ℤ) (src : List UInt8) (m : ℤ) :
      Calls (.proc p) (.user r) (sysWrite p src m)
  | writeOn (p : Fin n) (src : List UInt8) (m : ℤ) (i : ℕ) :
      Calls (.proc p) (.writing src m i) do
        awake p ()
        pipewriteFrom p src m (m.toNat - i) i
  | read (p : Fin n) (r m : ℤ) (room : ℕ) : Calls (.proc p) (.user r) (sysRead p m room)
  | readOn (p : Fin n) (m : ℤ) (room : ℕ) :
      Calls (.proc p) (.reading m room) do
        awake p ()
        pipereadLoop p m room
  | close (p : Fin n) (r : ℤ) (writable : Bool) :
      Calls (.proc p) (.user r) (sysClose p writable)
  | share (p q : Fin n) (r : ℤ) (writable : Bool) :
      Calls (.proc p) (.user r) (PipeSleep.share p q writable)
  | kill (p : Fin n) (r : ℤ) (pid : ℕ) : Calls (.proc p) (.user r) do
      return .user (← SleepCode.kill pid)

def pipeUsers (n : ℕ) : Setting (Thread n) (Act n Unit Chan (Data n)) Loc
    (Kernel n Unit Chan (Data n)) := sleepers Calls

/-- A new pipe. The bytes in the buffer are whatever the page held before. -/
def boot (bytes : Fin PIPESIZE → UInt8) (pid : Fin n → ℕ) (fds : Fin n → Bool → ℕ) :
    Sys (Thread n) (Act n Unit Chan (Data n)) Loc (Kernel n Unit Chan (Data n)) where
  g := bootKernel pid ⟨⟨bytes, 0, 0, true, true⟩, fds, false⟩
  thr := fun _ => .ret (.user 0)

/-- Who sleeps on the pipe could not go on. -/
structure Asleep (g : Kernel n Unit Chan (Data n)) : Prop where
  reader : ∀ p, (g.proc p).state = .sleeping → (g.proc p).chan = some .nread →
    g.data.pipe.nread = g.data.pipe.nwrite ∧ g.data.pipe.writeopen = true
  writer : ∀ p, (g.proc p).state = .sleeping → (g.proc p).chan = some .nwrite →
    full g.data.pipe ∧ g.data.pipe.readopen = true
  notBoth : ∀ p q, (g.proc p).state = .sleeping → (g.proc p).chan = some .nread →
    (g.proc q).state = .sleeping → (g.proc q).chan ≠ some .nwrite

/-- No process that finds the pipe full finds itself killed. -/
def Alive : Thread n → {β : Type} → Act n Unit Chan (Data n) β → Kernel n Unit Chan (Data n) → Prop
  | .proc p, _, .proc .killed, g => full g.data.pipe → (g.proc p).killed = false
  | _, _, _, _ => True

end Xv6.PipeSleep
