import Xv6.Interleaving
import Xv6.LogCode

set_option autoImplicit false

/-! `proc.c` on any number of CPUs. Each CPU has a scheduler thread and each slot of the process
table a process thread; a thread acts only while a CPU executes it, and `swtch` moves the CPU to
another one. An atomic action is one operation on a spin-lock, or the accesses to one process's
fields between two such operations as long as nobody else can see them in between. The memory of a
process is reduced to whether its trapframe and page table exist and to its size; whether an
allocation or a copy succeeds is left open. The loops that sleep are cut where the lock that guards
them has been taken again. -/
namespace Xv6.ProcCode
open Resumption Interleaving
open LogCode (Proc NPROC)
open Function (update)

inductive Thread (n : ℕ) where
  | cpu (c : Fin n)
  | proc (p : Proc)
  deriving DecidableEq

/-- The spin-locks: that of a process, `pid_lock`, and all others. -/
inductive Lock where
  | proc (p : Proc)
  | pid
  | other (i : ℕ)
  deriving DecidableEq

/-- What processes sleep on: the address of a process, in `wait`, or something else. -/
inductive Chan where
  | proc (p : Proc)
  | other (χ : ℕ)
  deriving DecidableEq

inductive ProcState where
  | unused
  | sleeping
  | runnable
  | running
  | zombie
  deriving DecidableEq

inductive Context where
  | saved
  | forkret
  deriving DecidableEq

structure Entry where
  state : ProcState
  parent : Option Proc
  chan : Option Chan
  killed : Bool
  xstate : ℤ
  pid : ℕ
  trapframe : Bool
  pagetable : Bool
  sz : ℕ
  context : Context
  deriving DecidableEq

inductive Event where
  -- the parent and its process id, the child and its process id
  | fork (p : Proc) (ppid : ℕ) (q : Proc) (pid : ℕ)
  | exiting (p : Proc) (pid : ℕ)
  | exit (p : Proc) (pid : ℕ) (status : ℤ)
  | wait (p : Proc) (q : Proc) (pid : ℕ) (status : ℤ)
  | copyFailed (p : Proc) (q : Proc) (pid : ℕ)
  | kill (p : Proc) (q : Proc) (pid : ℕ)
  | fault (p : Proc) (pid : ℕ)
  | ret (p : Proc) (r : ℤ)
  deriving DecidableEq

structure State (n : ℕ) where
  entry : Proc → Entry
  lock : Lock → Option (Fin n)
  noff : Fin n → ℕ
  proc : Fin n → Option Proc
  hart : Thread n → Option (Fin n)
  nextpid : ℕ
  cond : ℕ → Bool
  trace : List Event

def initproc : Proc := 0

/-- What `allocproc` and `fork` set in a slot that is not in use yet. -/
inductive Write where
  | pid (k : ℕ)
  | trapframe (ok : Bool)
  | pagetable (ok : Bool)
  | context
  | sz (k : ℕ)

inductive Act : Type → Type where
  | acquire (l : Lock) : Act Unit
  | acquireParent (p : Proc) : Act Unit
  | release (l : Lock) : Act Unit
  | myproc : Act (Option Proc)
  -- `pp->parent`, read without the lock
  | parentOf (q : Proc) : Act (Option Proc)
  | get (q : Proc) : Act Entry
  | takePid : Act ℕ
  | set (q : Proc) (w : Write) : Act Unit
  | setParent (q p : Proc) : Act Unit
  | start (q : Proc) : Act Unit
  -- `freeproc` of a slot whose allocation failed
  | freeproc (q : Proc) : Act Unit
  -- `freeproc` of a zombie whose process id and status were read
  | reap (q : Proc) (pid : ℕ) (status : ℤ) : Act Unit
  | copyFailed (q : Proc) : Act Unit
  | ret (r : ℤ) : Act Unit
  | wakeup1 (q : Proc) : Act Unit
  | wake (q : Proc) (χ : ℕ) : Act Unit
  | kill (q : Proc) (pid : ℤ) : Act Bool
  | fault (p : Proc) : Act Unit
  | exiting (p : Proc) : Act Unit
  | exited (p : Proc) (status : ℤ) : Act Unit
  | yielding (p : Proc) : Act Unit
  | sleepOn (p : Proc) (chan : Chan) : Act Unit
  | clearChan (p : Proc) : Act Unit
  | sched (p : Proc) : Act Unit
  | pick (q : Proc) : Act Bool
  | setProc (o : Option Proc) : Act Unit
  | swtch (q : Proc) : Act Unit
  -- the first instruction after a switch to a process that does not come back from `sched`
  | enter (p : Proc) : Act Unit
  | image (p : Proc) (sz : ℕ) : Act Unit
  | getCond (χ : ℕ) : Act Bool
  | setCond (χ : ℕ) (b : Bool) : Act Unit
  | panic (msg : String) : Act Unit
  | null : Act Unit

def Entry.write (e : Entry) : Write → Entry
  | .pid k => { e with pid := k }
  | .trapframe ok => { e with trapframe := ok }
  | .pagetable ok => { e with pagetable := ok }
  | .context => { e with context := .forkret }
  | .sz k => { e with sz := k }

def Entry.freed (e : Entry) : Entry :=
  { e with
    state := .unused, parent := none, chan := none, killed := false, xstate := 0, pid := 0
    trapframe := false, pagetable := false, sz := 0 }

/-- The effect of `wakeup1` and `wakeup` on one process. -/
def Entry.wake (e : Entry) (chan : Chan) : Entry :=
  if e.state = .sleeping ∧ e.chan = some chan then { e with state := .runnable } else e

def Entry.kill (e : Entry) : Entry :=
  { e with killed := true, state := if e.state = .sleeping then .runnable else e.state }

variable {n : ℕ}

def State.modify (g : State n) (q : Proc) (f : Entry → Entry) : State n :=
  { g with entry := update g.entry q (f (g.entry q)) }

def State.log (g : State n) (e : Event) : State n := { g with trace := g.trace ++ [e] }

def State.acquire (g : State n) (c : Fin n) (l : Lock) : Outcome Unit (State n) :=
  if g.lock l = some c then .panic "acquire"
  else if g.lock l ≠ none then .blocked
  else .done () { g with
    lock := update g.lock l (some c)
    noff := update g.noff c (g.noff c + 1) }

def State.release (g : State n) (c : Fin n) (l : Lock) : Outcome Unit (State n) :=
  if g.lock l ≠ some c then .panic "release"
  else if g.noff c < 1 then .panic "pop_off"
  else .done () { g with
    lock := update g.lock l none
    noff := update g.noff c (g.noff c - 1) }

/-- The tests of `sched` and the switch to the scheduler of the CPU. -/
def State.sched (g : State n) (t : Thread n) (c : Fin n) (p : Proc) : Outcome Unit (State n) :=
  if g.lock (.proc p) ≠ some c then .panic "sched p->lock"
  else if g.noff c ≠ 1 then .panic "sched locks"
  else if (g.entry p).state = .running then .panic "sched running"
  else .done () { g.modify p fun e => { e with context := .saved } with
    hart := update (update g.hart t none) (.cpu c) (some c) }

/-- The author of an event; only a process makes one. -/
def author (t : Thread n) (f : Proc → Event) (g : State n) : State n :=
  match t with
  | .proc p => g.log (f p)
  | .cpu _ => g

@[simp] def execOn (t : Thread n) (c : Fin n) : {β : Type} → Act β → State n → Outcome β (State n)
  | _, .acquire l, g => g.acquire c l
  | _, .acquireParent p, g => g.acquire c (.proc p)
  | _, .release l, g => g.release c l
  | _, .myproc, g => .done (g.proc c) g
  | _, .parentOf q, g => .done (g.entry q).parent g
  | _, .get q, g => .done (g.entry q) g
  | _, .takePid, g =>
    if g.nextpid + 1 < 2 ^ 31 then .done g.nextpid { g with nextpid := g.nextpid + 1 }
    else .undefined
  | _, .set q w, g => .done () (g.modify q (·.write w))
  | _, .setParent q p, g => .done () (g.modify q fun e => { e with parent := some p })
  | _, .start q, g =>
    .done () (author t (fun p => .fork p (g.entry p).pid q (g.entry q).pid)
      (g.modify q fun e => { e with state := .runnable }))
  | _, .freeproc q, g => .done () (g.modify q Entry.freed)
  | _, .reap q pid status, g =>
    .done () (author t (fun p => .wait p q pid status) (g.modify q Entry.freed))
  | _, .copyFailed q, g => .done () (author t (fun p => .copyFailed p q (g.entry q).pid) g)
  | _, .ret r, g => .done () (author t (fun p => .ret p r) g)
  | _, .wakeup1 q, g =>
    if g.lock (.proc q) ≠ some c then .panic "wakeup1"
    else .done () (g.modify q (·.wake (.proc q)))
  | _, .wake q χ, g => .done () (g.modify q (·.wake (.other χ)))
  | _, .kill q pid, g =>
    if ((g.entry q).pid : ℤ) = pid then
      .done true (author t (fun p => .kill p q (g.entry q).pid) (g.modify q Entry.kill))
    else .done false g
  | _, .fault p, g =>
    .done () ((g.modify p fun e => { e with killed := true }).log (.fault p (g.entry p).pid))
  | _, .exiting p, g => .done () (g.log (.exiting p (g.entry p).pid))
  | _, .exited p status, g =>
    .done () ((g.modify p fun e => { e with xstate := status, state := .zombie }).log
      (.exit p (g.entry p).pid status))
  | _, .yielding p, g => .done () (g.modify p fun e => { e with state := .runnable })
  | _, .sleepOn p chan, g =>
    .done () (g.modify p fun e => { e with chan := some chan, state := .sleeping })
  | _, .clearChan p, g => .done () (g.modify p fun e => { e with chan := none })
  | _, .sched p, g => g.sched t c p
  | _, .pick q, g =>
    if (g.entry q).state = .runnable then
      .done true (g.modify q fun e => { e with state := .running })
    else .done false g
  | _, .setProc o, g => .done () { g with proc := update g.proc c o }
  | _, .swtch q, g =>
    if g.hart (.proc q) ≠ none then .undefined
    else .done () { g with
      hart := update (update g.hart t none) (.proc q) (some c) }
  | _, .enter p, g =>
    if (g.entry p).context = .forkret then .done () g else .panic "zombie exit"
  | _, .image p sz, g => .done () (g.modify p fun e => { e with pagetable := true, sz := sz })
  | _, .getCond χ, g => .done (g.cond χ) g
  | _, .setCond χ b, g => .done () { g with cond := update g.cond χ b }
  | _, .panic msg, _ => .panic msg
  | _, .null, _ => .undefined

def exec (t : Thread n) {β : Type} (a : Act β) (g : State n) : Outcome β (State n) :=
  match g.hart t with
  | none => .blocked
  | some c => execOn t c a g

inductive Loc where
  | idle
  -- not in use, or not coming back from its last `sched`
  | dead
  | user
  | waiting (addr : ℕ)
  | awaiting (χ : ℕ)
  deriving DecidableEq

abbrev act {β : Type} (a : Act β) : Prog Act β := .perform a

def acquire (p : Proc) : Prog Act Unit := act (.acquire (.proc p))

def release (p : Proc) : Prog Act Unit := act (.release (.proc p))

def table : List Proc := List.finRange NPROC

def allocpid : Prog Act ℕ := do
  act (.acquire .pid)
  let pid ← act .takePid
  act (.release .pid)
  return pid

/-- `allocproc` from the label `found` on; whether the two allocations succeed is given. -/
def found (trapframe pagetable : Bool) (p : Proc) : Prog Act (Option Proc) := do
  let pid ← allocpid
  act (.set p (.pid pid))
  act (.set p (.trapframe trapframe))
  if trapframe = false then
    release p
    return none
  act (.set p (.pagetable pagetable))
  if pagetable = false then
    act (.freeproc p)
    release p
    return none
  act (.set p .context)
  return some p

def allocFrom (trapframe pagetable : Bool) : List Proc → Prog Act (Option Proc)
  | [] => return none
  | p :: ps => do
    acquire p
    let e ← act (.get p)
    if e.state = .unused then found trapframe pagetable p
    else
      release p
      allocFrom trapframe pagetable ps

def allocproc (trapframe pagetable : Bool) : Prog Act (Option Proc) :=
  allocFrom trapframe pagetable table

/-- Which of the allocations made for `fork` succeed. -/
structure Memory where
  trapframe : Bool
  pagetable : Bool
  uvmcopy : Bool

def fork (p : Proc) (mem : Memory) : Prog Act ℤ := do
  match ← allocproc mem.trapframe mem.pagetable with
  | none => return -1
  | some np =>
    if mem.uvmcopy = false then
      act (.freeproc np)
      release np
      return -1
    let e ← act (.get p)
    act (.set np (.sz e.sz))
    act (.setParent np p)
    let pid := (← act (.get np)).pid
    act (.start np)
    release np
    return pid

def reparentFrom (p : Proc) : List Proc → Prog Act Unit
  | [] => return
  | pp :: ps => do
    if (← act (.parentOf pp)) = some p then
      acquire pp
      act (.setParent pp initproc)
      release pp
    reparentFrom p ps

def reparent (p : Proc) : Prog Act Unit := reparentFrom p table

/-- `exit` from the acquisition of the remembered parent's lock on. -/
def exitWith (p original_parent : Proc) (status : ℤ) : Prog Act Loc := do
  act (.acquireParent original_parent)
  acquire p
  reparent p
  act (.wakeup1 original_parent)
  act (.exited p status)
  release original_parent
  act (.sched p)
  return .dead

/-- Closing the files comes first and has no effect on the process table. -/
def exit (p : Proc) (status : ℤ) : Prog Act Loc := do
  if p = initproc then
    act (.panic "init exiting")
    return .dead
  act (.exiting p)
  acquire initproc
  act (.wakeup1 initproc)
  release initproc
  acquire p
  let e ← act (.get p)
  release p
  match e.parent with
  | none =>
    act .null
    return .dead
  | some original_parent => exitWith p original_parent status

/-- The end of the scan of `wait`: a result, or whether there are children. -/
inductive Scan where
  | result (r : ℤ)
  | scanned (havekids : Bool)

/-- A child was found; whether `copyout` succeeds is given. -/
def tryReap (p np : Proc) (addr : ℕ) (copyout : Bool) : Prog Act (Option ℤ) := do
  acquire np
  let e ← act (.get np)
  if e.state = .zombie then
    if addr ≠ 0 ∧ copyout = false then
      act (.copyFailed np)
      release np
      release p
      return some (-1)
    act (.reap np e.pid e.xstate)
    release np
    release p
    return some e.pid
  release np
  return none

def scanFrom (p : Proc) (addr : ℕ) (copyout : Bool) : List Proc → Bool → Prog Act Scan
  | [], havekids => return .scanned havekids
  | np :: ps, havekids => do
    if (← act (.parentOf np)) = some p then
      match ← tryReap p np addr copyout with
      | some r => return .result r
      | none => scanFrom p addr copyout ps true
    else scanFrom p addr copyout ps havekids

/-- One round of the loop of `wait`: its result, or nothing after it has slept. -/
def waitRound (p : Proc) (addr : ℕ) (copyout : Bool) : Prog Act (Option ℤ) := do
  match ← scanFrom p addr copyout table false with
  | .result r => return some r
  | .scanned havekids =>
    let e ← act (.get p)
    if havekids = false ∨ e.killed = true then
      release p
      return some (-1)
    act (.sleepOn p (.proc p))
    act (.sched p)
    act (.clearChan p)
    return none

def killFrom (pid : ℤ) : List Proc → Prog Act ℤ
  | [] => return -1
  | p :: ps => do
    acquire p
    if ← act (.kill p pid) then
      release p
      return 0
    release p
    killFrom pid ps

def kill (pid : ℤ) : Prog Act ℤ := killFrom pid table

def yield (p : Proc) : Prog Act Unit := do
  acquire p
  act (.yielding p)
  act (.sched p)
  release p

/-- `sleep(chan, lk)` for a lock other than the process's own. -/
def sleep (p : Proc) (χ : ℕ) (lk : Lock) : Prog Act Unit := do
  acquire p
  act (.release lk)
  act (.sleepOn p (.other χ))
  act (.sched p)
  act (.clearChan p)
  release p
  act (.acquire lk)

def wakeupFrom (χ : ℕ) : List Proc → Prog Act Unit
  | [] => return
  | p :: ps => do
    acquire p
    act (.wake p χ)
    release p
    wakeupFrom χ ps

def wakeup (χ : ℕ) : Prog Act Unit := wakeupFrom χ table

def schedulerFrom : List Proc → Prog Act Unit
  | [] => return
  | p :: ps => do
    acquire p
    if ← act (.pick p) then
      act (.setProc (some p))
      act (.swtch p)
      act (.setProc none)
    release p
    schedulerFrom ps

def scheduler : Prog Act Loc := do
  schedulerFrom table
  return .idle

def newborn (p : Proc) : Prog Act Loc := do
  act (.enter p)
  match ← act .myproc with
  | none =>
    act .null
    return .dead
  | some p =>
    release p
    return .user

/-- `p = myproc()` -/
def withProc (body : Proc → Prog Act Loc) : Prog Act Loc := do
  match ← act .myproc with
  | none =>
    act .null
    return .dead
  | some p => body p

/-- The way out of `usertrap`. -/
def usertrapEnd (p : Proc) : Prog Act Loc := do
  if (← act (.get p)).killed then exit p (-1) else return .user

def syscall (body : Proc → Prog Act Unit) : Prog Act Loc := withProc fun p => do
  if (← act (.get p)).killed then exit p (-1)
  else
    body p
    usertrapEnd p

def sysExit (status : ℤ) : Prog Act Loc := withProc fun p => do
  if (← act (.get p)).killed then exit p (-1) else exit p status

/-- The loop of `wait`, with `p->lock` held. -/
def waitLoop (p : Proc) (addr : ℕ) (copyout : Bool) : Prog Act Loc := do
  match ← waitRound p addr copyout with
  | none => return .waiting addr
  | some r =>
    act (.ret r)
    usertrapEnd p

def sysWait (addr : ℕ) (copyout : Bool) : Prog Act Loc := withProc fun p => do
  if (← act (.get p)).killed then exit p (-1)
  else
    acquire p
    waitLoop p addr copyout

def sysKill (pid : ℤ) : Prog Act Loc := syscall fun _ => do
  let r ← kill pid
  act (.ret r)

def sysFork (mem : Memory) : Prog Act Loc := syscall fun p => do
  let _ ← fork p mem

/-- `exec` and `sbrk`; whether they succeed and the new size are given. -/
def sysExec (sz : Option ℕ) : Prog Act Loc := syscall fun p =>
  match sz with
  | none => return
  | some sz => act (.image p sz)

def pageFault : Prog Act Loc := withProc fun p => do
  act (.fault p)
  usertrapEnd p

def userTimer : Prog Act Loc := withProc fun p => do
  if (← act (.get p)).killed then exit p (-1)
  else
    yield p
    return .user

section Conditions

-- The spin-lock that guards each condition.
variable (lockOf : ℕ → ℕ)

/-- `while(!C) sleep(chan, lk)`, with `lk` held; then the condition may be made false. -/
def awaitLoop (p : Proc) (χ : ℕ) (consume : Bool) : Prog Act Loc := do
  if ← act (.getCond χ) then
    if consume then act (.setCond χ false)
    act (.release (.other (lockOf χ)))
    usertrapEnd p
  else
    sleep p χ (.other (lockOf χ))
    return .awaiting χ

def sysAwait (χ : ℕ) (consume : Bool) : Prog Act Loc := withProc fun p => do
  if (← act (.get p)).killed then exit p (-1)
  else
    act (.acquire (.other (lockOf χ)))
    awaitLoop lockOf p χ consume

/-- A process that was killed gives up waiting. -/
def giveUp (p : Proc) (χ : ℕ) : Prog Act Loc := do
  act (.release (.other (lockOf χ)))
  usertrapEnd p

/-- A waker: it makes the condition true. -/
def makeTrue (χ : ℕ) : Prog Act Unit := do
  act (.acquire (.other (lockOf χ)))
  act (.setCond χ true)
  wakeup χ
  act (.release (.other (lockOf χ)))

def makeFalse (χ : ℕ) : Prog Act Unit := do
  act (.acquire (.other (lockOf χ)))
  act (.setCond χ false)
  act (.release (.other (lockOf χ)))

inductive Starts : Thread n → Loc → Prog Act Loc → Prop where
  | scheduler {c : Fin n} : Starts (.cpu c) .idle scheduler
  | newborn {p : Proc} : Starts (.proc p) .dead (newborn p)
  | fork {p : Proc} (mem : Memory) : Starts (.proc p) .user (sysFork mem)
  | exec {p : Proc} (sz : Option ℕ) : Starts (.proc p) .user (sysExec sz)
  | exit {p : Proc} (status : ℤ) : Starts (.proc p) .user (sysExit status)
  | wait {p : Proc} (addr : ℕ) (copyout : Bool) : Starts (.proc p) .user (sysWait addr copyout)
  | waiting {p : Proc} (addr : ℕ) (copyout : Bool) :
      Starts (.proc p) (.waiting addr) (waitLoop p addr copyout)
  | kill {p : Proc} (pid : ℤ) : Starts (.proc p) .user (sysKill pid)
  | fault {p : Proc} : Starts (.proc p) .user pageFault
  | timer {p : Proc} : Starts (.proc p) .user userTimer
  | await {p : Proc} (χ : ℕ) (consume : Bool) : Starts (.proc p) .user (sysAwait lockOf χ consume)
  | awaiting {p : Proc} (χ : ℕ) (consume : Bool) :
      Starts (.proc p) (.awaiting χ) (awaitLoop lockOf p χ consume)
  | giveUp {p : Proc} (χ : ℕ) : Starts (.proc p) (.awaiting χ) (giveUp lockOf p χ)
  | makeTrue {p : Proc} (χ : ℕ) : Starts (.proc p) .user (syscall fun _ => makeTrue lockOf χ)
  | makeFalse {p : Proc} (χ : ℕ) : Starts (.proc p) .user (syscall fun _ => makeFalse lockOf χ)

def kernelTimer : Prog Act Unit := do
  match ← act .myproc with
  | none => return
  | some p => if (← act (.get p)).state = .running then yield p

/-- Interrupts are taken when no spin-lock is held on the CPU. -/
inductive Interrupts (t : Thread n) (g : State n) : Prog Act Unit → Prop where
  | timer {c : Fin n} (on : g.hart t = some c) (off : g.noff c = 0) : Interrupts t g kernelTimer
  | device {c : Fin n} (on : g.hart t = some c) (off : g.noff c = 0) (χ : ℕ) :
      Interrupts t g (makeTrue lockOf χ)

def kernel (n : ℕ) (lockOf : ℕ → ℕ) : Setting (Thread n) Act Loc (State n) where
  exec := exec
  starts := Starts lockOf
  interrupts := Interrupts lockOf

end Conditions

def Entry.empty : Entry where
  state := .unused
  parent := none
  chan := none
  killed := false
  xstate := 0
  pid := 0
  trapframe := false
  pagetable := false
  sz := 0
  context := .saved

/-- The first process, as `userinit` leaves it. -/
def Entry.first : Entry :=
  { Entry.empty with
    state := .runnable, pid := 1, trapframe := true, pagetable := true, sz := 4096
    context := .forkret }

/-- After `userinit`, when every CPU has entered `scheduler`. -/
def boot (n : ℕ) (cond : ℕ → Bool) : Sys (Thread n) Act Loc (State n) where
  g :=
    { entry := update (fun _ => Entry.empty) initproc Entry.first
      lock := fun _ => none
      noff := fun _ => 0
      proc := fun _ => none
      hart := fun t => match t with
        | .cpu c => some c
        | .proc _ => none
      nextpid := 2
      cond := cond
      trace := [] }
  thr := fun t => match t with
    | .cpu _ => .ret .idle
    | .proc _ => .ret .dead

end Xv6.ProcCode
