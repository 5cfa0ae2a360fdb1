import Mathlib.Data.List.FinRange
import Xv6.Interleaving

set_option autoImplicit false

/-! The part of `proc.c` that puts processes to sleep, at the grain of single lock operations and
accesses to flags. The data that the processes wait for, the spin-locks that guard it and the
channels are parameters. The code of a process ends where `sched` switches away from it, and goes on
from `awake`. An interrupt handler is a thread of its own. `passed` records that a process has found
`killed` to be 0 and has not been put to sleep since. -/
namespace Xv6.SleepCode
open Resumption Interleaving

inductive Thread (n : ℕ) where
  | proc (p : Fin n)
  | intr (i : ℕ)
  deriving DecidableEq

/-- The spin-locks: that of a process, and those that guard the data. -/
inductive Lock (n : ℕ) (K : Type) where
  | proc (p : Fin n)
  | data (k : K)
  deriving DecidableEq

inductive ProcState where
  | unused
  | sleeping
  | runnable
  | running
  | zombie
  deriving DecidableEq

structure Entry (X : Type) where
  state : ProcState
  chan : Option X
  killed : Bool
  pid : ℕ
  passed : Bool

structure Kernel (n : ℕ) (K X D : Type) where
  -- who holds the locks of the processes, and those of the data
  plock : Fin n → Option (Thread n)
  lock : K → Option (Thread n)
  proc : Fin n → Entry X
  data : D

inductive ProcAct (n : ℕ) (K X : Type) : Type → Type where
  | acquire (l : Lock n K) : ProcAct n K X Unit
  | release (l : Lock n K) : ProcAct n K X Unit
  | killed : ProcAct n K X Bool
  | setChan (χ : Option X) : ProcAct n K X Unit
  | setSleeping : ProcAct n K X Unit
  -- `sched` switches to the scheduler, which releases the lock of the process
  | swtch : ProcAct n K X Unit
  -- a scheduler has locked the process, finds it runnable and switches to it
  | resume : ProcAct n K X Unit
  -- the body of the loop of `wakeup`
  | wake (q : Fin n) (χ : X) : ProcAct n K X Unit
  | pid (q : Fin n) : ProcAct n K X ℕ
  | setKilled (q : Fin n) : ProcAct n K X Unit
  -- the rest of what `kill` does to the process
  | wakeKilled (q : Fin n) : ProcAct n K X Unit
  | state (q : Fin n) : ProcAct n K X ProcState
  | setPid (q : Fin n) (pid : ℕ) : ProcAct n K X Unit
  | start (q : Fin n) : ProcAct n K X Unit
  | exited : ProcAct n K X Unit
  | freeproc (q : Fin n) : ProcAct n K X Unit

/-- An access to the data is any function of it. -/
inductive Act (n : ℕ) (K X D : Type) (β : Type) : Type where
  | proc (a : ProcAct n K X β)
  | data (f : D → Outcome β D)

variable {n : ℕ} {K X D : Type} [DecidableEq K] [DecidableEq X]

def Kernel.holder (g : Kernel n K X D) : Lock n K → Option (Thread n)
  | .proc p => g.plock p
  | .data k => g.lock k

def Kernel.setLock (g : Kernel n K X D) (o : Option (Thread n)) : Lock n K → Kernel n K X D
  | .proc p => { g with plock := Function.update g.plock p o }
  | .data k => { g with lock := Function.update g.lock k o }

def Kernel.modProc (g : Kernel n K X D) (p : Fin n) (f : Entry X → Entry X) : Kernel n K X D :=
  { g with proc := Function.update g.proc p (f (g.proc p)) }

def execProc : Thread n → {β : Type} → ProcAct n K X β → Kernel n K X D →
    Outcome β (Kernel n K X D)
  | t, _, .acquire l, g =>
    if g.holder l = none then .done () (g.setLock (some t) l)
    else if g.holder l = some t then .panic "acquire"
    else .blocked
  | t, _, .release l, g =>
    if g.holder l = some t then .done () (g.setLock none l) else .panic "release"
  | .proc p, _, .killed, g =>
    .done (g.proc p).killed (g.modProc p fun e => { e with passed := !e.killed })
  | .proc p, _, .setChan χ, g => .done () (g.modProc p fun e => { e with chan := χ })
  | .proc p, _, .setSleeping, g =>
    .done () (g.modProc p fun e => { e with state := .sleeping, passed := false })
  | .proc p, _, .swtch, g =>
    if g.plock p = some (.proc p) then
      if (g.proc p).state = .running then .panic "sched running"
      else .done () (g.setLock none (.proc p))
    else .panic "sched p->lock"
  | .proc p, _, .resume, g =>
    if g.plock p = none ∧ (g.proc p).state = .runnable then
      .done () ((g.setLock (some (.proc p)) (.proc p)).modProc p
        fun e => { e with state := .running })
    else .blocked
  | _, _, .wake q χ, g =>
    if (g.proc q).state = .sleeping ∧ (g.proc q).chan = some χ then
      .done () (g.modProc q fun e => { e with state := .runnable })
    else .done () g
  | _, _, .pid q, g => .done (g.proc q).pid g
  | _, _, .setKilled q, g => .done () (g.modProc q fun e => { e with killed := true })
  | _, _, .wakeKilled q, g =>
    if (g.proc q).state = .sleeping then
      .done () (g.modProc q fun e => { e with state := .runnable })
    else .done () g
  | _, _, .state q, g => .done (g.proc q).state g
  | _, _, .setPid q pid, g => .done () (g.modProc q fun e => { e with pid := pid })
  | _, _, .start q, g => .done () (g.modProc q fun e => { e with state := .runnable })
  | .proc p, _, .exited, g => .done () (g.modProc p fun e => { e with state := .zombie })
  | _, _, .freeproc q, g =>
    .done () (g.modProc q fun e => { e with
      state := .unused, chan := none, killed := false, pid := 0 })
  -- only a process has a `myproc`
  | .intr _, _, .killed, _ => .undefined
  | .intr _, _, .setChan _, _ => .undefined
  | .intr _, _, .setSleeping, _ => .undefined
  | .intr _, _, .swtch, _ => .undefined
  | .intr _, _, .resume, _ => .undefined
  | .intr _, _, .exited, _ => .undefined

def exec (t : Thread n) {β : Type} : Act n K X D β → Kernel n K X D → Outcome β (Kernel n K X D)
  | .proc a, g => execProc t a g
  | .data f, g =>
    match f g.data with
    | .blocked => .blocked
    | .panic msg => .panic msg
    | .undefined => .undefined
    | .done b d => .done b { g with data := d }

abbrev Code (n : ℕ) (K X D α : Type) := Prog (Act n K X D) α

abbrev act {β : Type} (a : ProcAct n K X β) : Code n K X D β := .perform (.proc a)

abbrev data {β : Type} (f : D → Outcome β D) : Code n K X D β := .perform (.data f)

abbrev modify (f : D → D) : Code n K X D Unit := data fun d => .done () (f d)

abbrev read {β : Type} (f : D → β) : Code n K X D β := data fun d => .done (f d) d

/-- `sleep` on `χ` with the lock `k` held, until the process is switched away from. -/
def sleep (p : Fin n) (χ : X) (k : K) : Code n K X D Unit := do
  act (.acquire (.proc p))
  act (.release (.data k))
  act (.setChan (some χ))
  act .setSleeping
  act .swtch

def awake (p : Fin n) (k : K) : Code n K X D Unit := do
  act .resume
  act (.setChan none)
  act (.release (.proc p))
  act (.acquire (.data k))

/-- `sleep` on `χ` with the lock of the process itself. -/
def sleepLocked (χ : X) : Code n K X D Unit := do
  act (.setChan (some χ))
  act .setSleeping
  act .swtch

def awakeLocked : Code n K X D Unit := do
  act .resume
  act (.setChan none)

def wakeupFrom (χ : X) : List (Fin n) → Code n K X D Unit
  | [] => return ()
  | q :: qs => do
    act (.acquire (.proc q))
    act (.wake q χ)
    act (.release (.proc q))
    wakeupFrom χ qs

def wakeup (χ : X) : Code n K X D Unit := wakeupFrom χ (List.finRange n)

def killFrom (pid : ℕ) : List (Fin n) → Code n K X D ℤ
  | [] => return -1
  | q :: qs => do
    act (.acquire (.proc q))
    if (← act (.pid q)) = pid then
      act (.setKilled q)
      act (.wakeKilled q)
      act (.release (.proc q))
      return 0
    else
      act (.release (.proc q))
      killFrom pid qs

def kill (pid : ℕ) : Code n K X D ℤ := killFrom pid (List.finRange n)

section Lift

variable {K' X' D' α : Type} (lock : K → K') (chan : X → X') (get : D' → D) (set : D' → D → D')

def Lock.map : Lock n K → Lock n K'
  | .proc p => .proc p
  | .data k => .data (lock k)

def ProcAct.map : {β : Type} → ProcAct n K X β → ProcAct n K' X' β
  | _, .acquire l => .acquire (l.map lock)
  | _, .release l => .release (l.map lock)
  | _, .killed => .killed
  | _, .setChan χ => .setChan (χ.map chan)
  | _, .setSleeping => .setSleeping
  | _, .swtch => .swtch
  | _, .resume => .resume
  | _, .wake q χ => .wake q (chan χ)
  | _, .pid q => .pid q
  | _, .setKilled q => .setKilled q
  | _, .wakeKilled q => .wakeKilled q
  | _, .state q => .state q
  | _, .setPid q k => .setPid q k
  | _, .start q => .start q
  | _, .exited => .exited
  | _, .freeproc q => .freeproc q

def Act.map {β : Type} : Act n K X D β → Act n K' X' D' β
  | .proc a => .proc (a.map lock chan)
  | .data f => .data fun d =>
    match f (get d) with
    | .blocked => .blocked
    | .panic msg => .panic msg
    | .undefined => .undefined
    | .done b d' => .done b (set d d')

/-- Code for one part of the data, as code for the whole. -/
def lift : Code n K X D α → Code n K' X' D' α
  | .ret a => .ret a
  | .act a k => .act (a.map lock chan get set) fun b => lift (k b)

end Lift

/-- The threads, with the programs that each may start. -/
def sleepers {Loc : Type} (starts : Thread n → Loc → Code n K X D Loc → Prop) :
    Setting (Thread n) (Act n K X D) Loc (Kernel n K X D) where
  exec := exec
  starts := starts
  interrupts := fun _ _ _ => False

def bootKernel (pid : Fin n → ℕ) (d : D) : Kernel n K X D where
  plock := fun _ => none
  lock := fun _ => none
  proc := fun p => ⟨.running, none, false, pid p, false⟩
  data := d

theorem execProc_data {t : Thread n} {β : Type} {a : ProcAct n K X β}
    {g g' : Kernel n K X D} {b : β}
    (h : execProc t a g = .done b g') : g'.data = g.data := by
  have hlock : ∀ (o : Option (Thread n)) (l : Lock n K), (g.setLock o l).data = g.data := by
    intro o l
    cases l <;> rfl
  cases t <;> cases a <;> simp only [execProc] at h <;> try split at h
  all_goals try cases h
  all_goals try split at h
  all_goals try cases h
  all_goals first
    | rfl
    | exact hlock _ _

theorem exec_data {t : Thread n} {β : Type} {f : D → Outcome β D} {g g' : Kernel n K X D} {b : β}
    (h : exec t (.data f : Act n K X D β) g = .done b g') :
    ∃ d', f g.data = .done b d' ∧ g' = { g with data := d' } := by
  simp only [exec] at h
  split at h
  · cases h
  · cases h
  · cases h
  · next b' d' hd =>
    cases h
    exact ⟨d', hd, rfl⟩

section Locks

variable {t : Thread n} {l : Lock n K} {u : Unit} {g g' : Kernel n K X D}

theorem execProc_acquire (h : execProc t (.acquire l : ProcAct n K X Unit) g = .done u g') :
    g.holder l = none ∧ g' = g.setLock (some t) l := by
  simp only [execProc] at h
  split at h
  · next hfree =>
    cases h
    exact ⟨hfree, rfl⟩
  · split at h <;> cases h

theorem execProc_release (h : execProc t (.release l : ProcAct n K X Unit) g = .done u g') :
    g.holder l = some t ∧ g' = g.setLock none l := by
  simp only [execProc] at h
  split at h
  · next hown =>
    cases h
    exact ⟨hown, rfl⟩
  · cases h

end Locks

end Xv6.SleepCode
