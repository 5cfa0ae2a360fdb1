import Mathlib.Algebra.GroupWithZero.Nat
import Mathlib.Algebra.BigOperators.Group.Finset.Basic
import Mathlib.Data.Fintype.Basic
import Xv6.Accounting
import Xv6.Interleaving

set_option autoImplicit false

/-! `pipe.c` and the part of `fileclose` that closes an end of a pipe. A process that is put to
sleep gives up the lock and may be woken at any time. Copies to and from the process succeed, and a
byte is copied in the same action that takes it from the pipe or stores it. The calls and what they
store, fetch and return are recorded. -/
namespace Xv6.PipeCode
open Resumption Interleaving Accounting

def PIPESIZE : ℕ := 512

instance : NeZero PIPESIZE := ⟨by decide⟩

inductive Call where
  -- `src i` is the byte at the given address plus `i`
  | write (src : ℕ → UInt8) (n : ℤ)
  | read (n : ℤ)

inductive Event (T : Type) where
  | call (t : T) (c : Call)
  | store (t : T) (b : UInt8)
  | fetch (t : T) (b : UInt8)
  | ret (t : T) (r : ℤ)
  | close (writable : Bool)

structure Pipe where
  data : Fin PIPESIZE → UInt8
  nread : UInt32
  nwrite : UInt32
  readopen : Bool
  writeopen : Bool

structure State (T : Type) where
  pipe : Pipe
  lock : Option T
  freed : Bool
  -- the references to the open file of the read end and of the write end
  ref : Bool → ℕ
  trace : List (Event T)

inductive Act : Type → Type where
  | call (c : Call) : Act Unit
  | acquire : Act Unit
  | release : Act Unit
  | get : Act Pipe
  | store (b : UInt8) : Act Unit
  | fetch : Act Unit
  | ret (r : ℤ) : Act Unit
  | close (writable : Bool) : Act Unit
  | kfree : Act Unit
  | filedup (writable : Bool) : Act Unit
  -- the critical section of `fileclose`; it answers whether this was the last reference
  | drop (writable : Bool) : Act Bool

variable {T : Type} [DecidableEq T]

def slot (n : UInt32) : Fin PIPESIZE := Fin.ofNat PIPESIZE n.toNat

def Pipe.put (pi : Pipe) (b : UInt8) : Pipe :=
  { pi with data := Function.update pi.data (slot pi.nwrite) b, nwrite := pi.nwrite + 1 }

def Pipe.closed (pi : Pipe) (writable : Bool) : Pipe :=
  if writable then { pi with writeopen := false } else { pi with readopen := false }

/-- An access to the pipe; after `kfree` the memory may be anything. -/
def access {β : Type} (s : State T) (r : Outcome β (State T)) : Outcome β (State T) :=
  if s.freed then .undefined else r

@[simp] def exec (t : T) : {β : Type} → Act β → State T → Outcome β (State T)
  | _, .call c, s => .done () { s with trace := s.trace ++ [.call t c] }
  | _, .acquire, s =>
    access s (if s.lock = none then .done () { s with lock := some t } else .blocked)
  | _, .release, s =>
    access s (if s.lock = some t then .done () { s with lock := none } else .panic "release")
  | _, .get, s => access s (.done s.pipe s)
  | _, .store b, s =>
    access s (.done () { s with pipe := s.pipe.put b, trace := s.trace ++ [.store t b] })
  | _, .fetch, s =>
    access s (.done () { s with
      pipe := { s.pipe with nread := s.pipe.nread + 1 }
      trace := s.trace ++ [.fetch t (s.pipe.data (slot s.pipe.nread))] })
  | _, .ret r, s => .done () { s with trace := s.trace ++ [.ret t r] }
  | _, .close writable, s =>
    access s (.done () { s with
      pipe := s.pipe.closed writable, trace := s.trace ++ [.close writable] })
  | _, .kfree, s => .done () { s with freed := true }
  | _, .filedup writable, s =>
    if s.ref writable < 1 then .panic "filedup"
    else .done () { s with ref := Function.update s.ref writable (s.ref writable + 1) }
  | _, .drop writable, s =>
    if s.ref writable < 1 then .panic "fileclose"
    else .done (decide (s.ref writable - 1 = 0))
      { s with ref := Function.update s.ref writable (s.ref writable - 1) }

/-- What a process holds of each end, and the call it is asleep in. -/
inductive Work where
  | idle
  | writing (src : ℕ → UInt8) (n : ℤ) (i : ℕ)
  | reading (n : ℤ)

structure Loc where
  fds : Bool → ℕ
  work : Work

abbrev act {β : Type} (a : Act β) : Prog Act β := .perform a

/-- The rounds `i`, …, `n - 1` of `pipewrite`, with the lock held, until it returns or sleeps. -/
def pipewriteFrom (src : ℕ → UInt8) (n : ℤ) (killed : Bool) : ℕ → ℕ → Prog Act Work
  | 0, i => do
    act (.ret i)
    act .release
    return .idle
  | fuel + 1, i => do
    let pi ← act .get
    if pi.nwrite = pi.nread + UInt32.ofNat PIPESIZE then
      if pi.readopen = false ∨ killed then
        act (.ret (-1))
        act .release
        return .idle
      else
        act .release
        return .writing src n i
    else
      act (.store (src i))
      pipewriteFrom src n killed fuel (i + 1)

def pipewriteLoop (src : ℕ → UInt8) (n : ℤ) (killed : Bool) (i : ℕ) : Prog Act Work := do
  act .acquire
  pipewriteFrom src n killed (n.toNat - i) i

def pipewrite (src : ℕ → UInt8) (n : ℤ) (killed : Bool) : Prog Act Work := do
  act (.call (.write src n))
  pipewriteLoop src n killed 0

def pipereadFrom : ℕ → ℕ → Prog Act Work
  | 0, i => finish i
  | fuel + 1, i => do
    let pi ← act .get
    if pi.nread = pi.nwrite then finish i
    else
      act .fetch
      pipereadFrom fuel (i + 1)
where
  finish (i : ℕ) : Prog Act Work := do
    act (.ret i)
    act .release
    return .idle

/-- `piperead` from the test for an empty pipe on. -/
def pipereadLoop (n : ℤ) (killed : Bool) : Prog Act Work := do
  act .acquire
  let pi ← act .get
  if pi.nread = pi.nwrite ∧ pi.writeopen = true then
    if killed then
      act (.ret (-1))
      act .release
      return .idle
    else
      act .release
      return .reading n
  else pipereadFrom n.toNat 0

def piperead (n : ℤ) (killed : Bool) : Prog Act Work := do
  act (.call (.read n))
  pipereadLoop n killed

def pipeclose (writable : Bool) : Prog Act Unit := do
  act .acquire
  act (.close writable)
  let pi ← act .get
  if pi.readopen = false ∧ pi.writeopen = false then
    act .release
    act .kfree
  else act .release

def fileclose (writable : Bool) : Prog Act Unit := do
  if ← act (.drop writable) then pipeclose writable

/-- One descriptor more or less for an end. -/
def Loc.more (l : Loc) (writable : Bool) : Loc :=
  { l with fds := Function.update l.fds writable (l.fds writable + 1) }

def Loc.less (l : Loc) (writable : Bool) : Loc :=
  { l with fds := Function.update l.fds writable (l.fds writable - 1) }

/-- A process uses an end as long as it has a descriptor for it. -/
inductive Calls : Loc → Prog Act Loc → Prop where
  | write {fds : Bool → ℕ} (src : ℕ → UInt8) (n : ℤ) (killed : Bool) (h : 0 < fds true) :
      Calls ⟨fds, .idle⟩ do
        return ⟨fds, ← pipewrite src n killed⟩
  | wakeWriter {fds : Bool → ℕ} (src : ℕ → UInt8) (n : ℤ) (i : ℕ) (killed : Bool) :
      Calls ⟨fds, .writing src n i⟩ do
        return ⟨fds, ← pipewriteLoop src n killed i⟩
  | read {fds : Bool → ℕ} (n : ℤ) (killed : Bool) (h : 0 < fds false) :
      Calls ⟨fds, .idle⟩ do
        return ⟨fds, ← piperead n killed⟩
  | wakeReader {fds : Bool → ℕ} (n : ℤ) (killed : Bool) :
      Calls ⟨fds, .reading n⟩ do
        return ⟨fds, ← pipereadLoop n killed⟩
  | dup {fds : Bool → ℕ} (writable : Bool) (h : 0 < fds writable) :
      Calls ⟨fds, .idle⟩ do
        act (.filedup writable)
        return Loc.more ⟨fds, .idle⟩ writable
  | close {fds : Bool → ℕ} (writable : Bool) (h : 0 < fds writable) :
      Calls ⟨fds, .idle⟩ do
        fileclose writable
        return Loc.less ⟨fds, .idle⟩ writable

def pipeSystem (T : Type) [DecidableEq T] : Setting T Act Loc (State T) where
  exec := exec
  starts := fun _ => Calls
  interrupts := fun _ _ _ => False

/-- The descriptors the processes have for the two ends of a new pipe, a descriptor that a
    child will get from `fork` being its own from the start. -/
structure Share (T : Type) where
  fds : T → Bool → ℕ
  both : ∀ w, ∃ t, 0 < fds t w

/-- A new pipe. The bytes in the buffer are whatever the page held before. -/
def boot [Fintype T] (data : Fin PIPESIZE → UInt8) (share : Share T) : Sys T Act Loc (State T) where
  g := ⟨⟨data, 0, 0, true, true⟩, none, false, fun w => ∑ t, share.fds t w, []⟩
  thr := fun t => .ret ⟨share.fds t, .idle⟩

def Event.stored : Event T → Option UInt8
  | .store _ b => some b
  | _ => none

def Event.fetched : Event T → Option UInt8
  | .fetch _ b => some b
  | _ => none

def stored (l : List (Event T)) : List UInt8 := l.filterMap Event.stored

def fetched (l : List (Event T)) : List UInt8 := l.filterMap Event.fetched

/-- The call a process is in and the bytes it has stored or fetched since it made it, after one
    more event. -/
def advance (t : T) (p : Option Call × List UInt8) : Event T → Option Call × List UInt8
  | .call u c => if u = t then (some c, []) else p
  | .store u b | .fetch u b => if u = t then (p.1, p.2 ++ [b]) else p
  | _ => p

def progress (t : T) (l : List (Event T)) : Option Call × List UInt8 :=
  l.foldl (advance t) (none, [])

/-- What the record must show when a call returns: `pipewrite` has stored its bytes unless it
    fails, and `piperead` has fetched as many as it returns, at most `n`, and none if it fails. It
    finds nothing to read only at the end of the file. -/
def Right (l : List (Event T)) : Event T → Prop
  | .ret t r =>
    (∀ src n, (progress t l).1 = some (.write src n) → 0 ≤ r →
      r = max n 0 ∧ (progress t l).2 = (List.range n.toNat).map src) ∧
    (∀ n, (progress t l).1 = some (.read n) →
      max r 0 = (progress t l).2.length ∧ -1 ≤ r ∧ r ≤ max n 0 ∧
      (0 < n → r = 0 → .close true ∈ l ∧ fetched l = stored l))
  | _ => True

def Account (l : List (Event T)) : Prop := Accounted Right l

end Xv6.PipeCode
