import Xv6.ConsoleCode
import Xv6.KillRules
import Xv6.PipeSleep

set_option autoImplicit false

/-! `wait` holds the lock of the process from its test of `killed` until it sleeps. The other calls
take that lock only in `sleep`, so that a `kill` can come in between and wakes nobody. -/
namespace Xv6.KillSleep
open Interleaving SleepCode

/-- What processes sleep on. In `wait` it is the address of the process itself. -/
inductive Chan (n : ℕ) where
  | pipe (i : ℕ) (χ : PipeSleep.Chan)
  | cons
  | ticks
  | proc (p : Fin n)
  deriving DecidableEq

inductive Key where
  | pipe (i : ℕ)
  | cons
  | tickslock
  | pidLock
  deriving DecidableEq

structure World (n : ℕ) where
  pipe : ℕ → PipeSleep.Data n
  cons : ConsoleCode.Data n
  ticks : UInt32
  nextpid : ℕ
  parent : Fin n → Option (Fin n)
  xstate : Fin n → ℤ

inductive Loc where
  /-- Outside the kernel, with the result of the last call. -/
  | user (r : ℤ)
  | piping (i : ℕ) (l : PipeSleep.Loc)
  | reading (l : ConsoleCode.Loc)
  | ticking (ticks0 n : UInt32)
  | waiting (addr : ℕ) (copyout : Bool)
  /-- Not in use, or not coming back from `exit`. -/
  | dead
  deriving DecidableEq

variable {n : ℕ}

abbrev KillProg (n : ℕ) (α : Type) := Code n Key (Chan n) (World n) α

def onPipe (i : ℕ) {α : Type} : PipeSleep.PipeProg n α → KillProg n α :=
  lift (fun _ => .pipe i) (.pipe i) (fun w => w.pipe i)
    fun w d => { w with pipe := Function.update w.pipe i d }

def pipeLoc (i : ℕ) : PipeSleep.Loc → Loc
  | .user r => .user r
  | l => .piping i l

def onCons {α : Type} : ConsoleCode.ConsProg n α → KillProg n α :=
  lift (fun _ => .cons) (fun _ => .cons) World.cons fun w d => { w with cons := d }

def consLoc : ConsoleCode.Loc → Loc
  | .user r => .user r
  | l => .reading l

def sysSleepLoop (p : Fin n) (ticks0 m : UInt32) : KillProg n Loc := do
  let ticks ← read World.ticks
  if ticks - ticks0 < m then
    if ← act .killed then
      act (.release (.data .tickslock))
      return .user (-1)
    else
      sleep p .ticks .tickslock
      return .ticking ticks0 m
  else
    act (.release (.data .tickslock))
    return .user 0

/-- The number of ticks is an `int` that is compared as an unsigned number. -/
def sysSleep (p : Fin n) (m : UInt32) : KillProg n Loc := do
  act (.acquire (.data .tickslock))
  let ticks0 ← read World.ticks
  sysSleepLoop p ticks0 m

def clockintr : KillProg n Unit := do
  act (.acquire (.data .tickslock))
  modify fun w => { w with ticks := w.ticks + 1 }
  wakeup .ticks
  act (.release (.data .tickslock))

def freeproc (q : Fin n) : KillProg n Unit := do
  act (.freeproc q)
  modify fun w => { w with
    parent := Function.update w.parent q none, xstate := Function.update w.xstate q 0 }

/-- The end of the scan of `wait`: a result, or whether there are children. -/
inductive Scan where
  | result (r : ℤ)
  | scanned (havekids : Bool)

/-- A child was found; whether its status can be copied out is given. -/
def tryReap (p np : Fin n) (addr : ℕ) (copyout : Bool) : KillProg n (Option ℤ) := do
  act (.acquire (.proc np))
  if (← act (.state np)) = .zombie then
    let pid ← act (.pid np)
    if addr ≠ 0 ∧ copyout = false then
      act (.release (.proc np))
      act (.release (.proc p))
      return some (-1)
    else
      freeproc np
      act (.release (.proc np))
      act (.release (.proc p))
      return some pid
  else
    act (.release (.proc np))
    return none

def scanFrom (p : Fin n) (addr : ℕ) (copyout : Bool) : List (Fin n) → Bool → KillProg n Scan
  | [], havekids => return .scanned havekids
  | np :: ps, havekids => do
    -- read without the lock of the child
    if (← read fun w => w.parent np) = some p then
      match ← tryReap p np addr copyout with
      | some r => return .result r
      | none => scanFrom p addr copyout ps true
    else scanFrom p addr copyout ps havekids

/-- The loop of `wait`, with the lock of the process held. -/
def waitLoop (p : Fin n) (addr : ℕ) (copyout : Bool) : KillProg n Loc := do
  match ← scanFrom p addr copyout (List.finRange n) false with
  | .result r => return .user r
  | .scanned havekids =>
    if havekids = false then
      act (.release (.proc p))
      return .user (-1)
    else if ← act .killed then
      act (.release (.proc p))
      return .user (-1)
    else
      sleepLocked (.proc p)
      return .waiting addr copyout

def wait (p : Fin n) (addr : ℕ) (copyout : Bool) : KillProg n Loc := do
  act (.acquire (.proc p))
  waitLoop p addr copyout

def reparentFrom (initproc p : Fin n) : List (Fin n) → KillProg n Unit
  | [] => return ()
  | pp :: ps => do
    if (← read fun w => w.parent pp) = some p then
      act (.acquire (.proc pp))
      modify fun w => { w with parent := Function.update w.parent pp (some initproc) }
      act (.release (.proc pp))
      reparentFrom initproc p ps
    else reparentFrom initproc p ps

/-- `exit` from the acquisition of the remembered parent's lock on. -/
def exitWith (initproc p original_parent : Fin n) (status : ℤ) : KillProg n Loc := do
  act (.acquire (.proc original_parent))
  act (.acquire (.proc p))
  reparentFrom initproc p (List.finRange n)
  act (.wake original_parent (.proc original_parent))
  modify fun w => { w with xstate := Function.update w.xstate p status }
  act .exited
  act (.release (.proc original_parent))
  act .swtch
  return .dead

/-- The files are closed before, by calls of their own. -/
def exit (initproc p : Fin n) (status : ℤ) : KillProg n Loc := do
  if p = initproc then data fun _ => .panic "init exiting"
  else
    act (.acquire (.proc initproc))
    act (.wake initproc (.proc initproc))
    act (.release (.proc initproc))
    act (.acquire (.proc p))
    let parent ← read fun w => w.parent p
    act (.release (.proc p))
    match parent with
    | none => data fun _ => .undefined
    | some original_parent => exitWith initproc p original_parent status

def allocpid : KillProg n ℕ := do
  act (.acquire (.data .pidLock))
  let pid ← data fun w =>
    if w.nextpid + 1 < 2 ^ 31 then .done w.nextpid { w with nextpid := w.nextpid + 1 }
    else .undefined
  act (.release (.data .pidLock))
  return pid

/-- What `fork` finds of free memory: the page of the trapframe and the page table in
    `allocproc`, the pages of the copy in `uvmcopy`. -/
structure Memory where
  trapframe : Bool
  pagetable : Bool
  uvmcopy : Bool

/-- `fork` with the search for a free slot of its `allocproc`. -/
def forkFrom (p : Fin n) (mem : Memory) : List (Fin n) → KillProg n Loc
  | [] => return .user (-1)
  | np :: ps => do
    act (.acquire (.proc np))
    if (← act (.state np)) = .unused then
      let pid ← allocpid
      act (.setPid np pid)
      if mem.trapframe = false then
        -- without `freeproc`: the slot keeps its pid
        act (.release (.proc np))
        return .user (-1)
      else if mem.pagetable = false ∨ mem.uvmcopy = false then
        freeproc np
        act (.release (.proc np))
        return .user (-1)
      else
        modify fun w => { w with parent := Function.update w.parent np (some p) }
        act (.start np)
        act (.release (.proc np))
        return .user pid
    else
      act (.release (.proc np))
      forkFrom p mem ps

/-- A scheduler switches to a process that was not switched away from. -/
def forkret (p : Fin n) : KillProg n Loc := do
  act .resume
  act (.release (.proc p))
  return .user 0

inductive Calls (initproc : Fin n) : Thread n → Loc → KillProg n Loc → Prop where
  | pipe (i : ℕ) {t : Thread n} {l : PipeSleep.Loc} {c : PipeSleep.PipeProg n PipeSleep.Loc}
      (h : PipeSleep.Calls t l c) : Calls initproc t (pipeLoc i l) do
        return pipeLoc i (← onPipe i c)
  | read (p : Fin n) (r m : ℤ) (room : ℕ) : Calls initproc (.proc p) (.user r) do
      return consLoc (← onCons (ConsoleCode.consoleread p m room))
  | readOn (p : Fin n) (target : ℤ) (m room : ℕ) :
      Calls initproc (.proc p) (.reading (.reading target m room)) do
        let l ← onCons do
          awake p ()
          ConsoleCode.consolereadFrom p target m room
        return consLoc l
  | sleep (p : Fin n) (r : ℤ) (m : UInt32) : Calls initproc (.proc p) (.user r) (sysSleep p m)
  | sleepOn (p : Fin n) (ticks0 m : UInt32) : Calls initproc (.proc p) (.ticking ticks0 m) do
      awake p .tickslock
      sysSleepLoop p ticks0 m
  | wait (p : Fin n) (r : ℤ) (addr : ℕ) (copyout : Bool) :
      Calls initproc (.proc p) (.user r) (KillSleep.wait p addr copyout)
  | waitOn (p : Fin n) (addr : ℕ) (copyout : Bool) :
      Calls initproc (.proc p) (.waiting addr copyout) do
        awakeLocked
        waitLoop p addr copyout
  | exit (p : Fin n) (r status : ℤ) :
      Calls initproc (.proc p) (.user r) (KillSleep.exit initproc p status)
  | fork (p : Fin n) (r : ℤ) (mem : Memory) :
      Calls initproc (.proc p) (.user r) (forkFrom p mem (List.finRange n))
  | forkret (p : Fin n) : Calls initproc (.proc p) .dead (KillSleep.forkret p)
  | consoleintr (i : ℕ) (c : UInt8) : Calls initproc (.intr i) (.user 0) do
      onCons (ConsoleCode.consoleintr c)
      return .user 0
  | clockintr (i : ℕ) : Calls initproc (.intr i) (.user 0) do
      KillSleep.clockintr
      return .user 0
  | kill (p : Fin n) (r : ℤ) (pid : ℕ) : Calls initproc (.proc p) (.user r) do
      return .user (← SleepCode.kill pid)

def callers (initproc : Fin n) : Setting (Thread n) (Act n Key (Chan n) (World n)) Loc
    (Kernel n Key (Chan n) (World n)) := sleepers (Calls initproc)

def boot (live : Fin n → Bool) (pid : Fin n → ℕ) (w : World n) :
    Sys (Thread n) (Act n Key (Chan n) (World n)) Loc (Kernel n Key (Chan n) (World n)) where
  g := { (bootKernel pid w : Kernel n Key (Chan n) (World n)) with
    proc := fun p => ⟨if live p then .running else .unused, none, false, pid p, false⟩ }
  thr := fun t =>
    match t with
    | .proc p => if live p then .ret (.user 0) else .ret .dead
    | .intr _ => .ret (.user 0)

/-- No flag is set of a process that has found itself not killed and is not asleep yet. -/
def Unseen : Thread n → {β : Type} → Act n Key (Chan n) (World n) β →
    Kernel n Key (Chan n) (World n) → Prop
  | _, _, .proc (.setKilled q), g => (g.proc q).passed = false
  | _, _, _, _ => True

def Waits : Chan n → Prop
  | .proc _ => True
  | _ => False

end Xv6.KillSleep
