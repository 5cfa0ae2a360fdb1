import Mathlib.Data.Finset.Card
import Mathlib.Data.Finset.Basic
import Xv6.Accounting
import Xv6.ProcCode

set_option autoImplicit false

/-! A process that is switched out keeps its own lock in its ghost value, and so does a scheduler
that has lent its CPU to it; whichever of the two the CPU executes has the lock. -/
namespace Xv6.ProcInvariant
open Resumption Interleaving Accounting ProcCode
open LogCode (Proc)

inductive Stage where
  | found
  | reserved (k : ℕ)
  | numbered (k : ℕ)
  | ready (k : ℕ)
  | parented (k : ℕ)
  deriving DecidableEq

def Stage.id : Stage → Option ℕ
  | .found => none
  | .reserved k => some k
  | .numbered k => some k
  | .ready k => some k
  | .parented k => some k

def Stage.number : Stage → Option ℕ
  | .found => none
  | .reserved _ => none
  | .numbered k => some k
  | .ready k => some k
  | .parented k => some k

def Stage.isReady : Stage → Bool
  | .ready _ => true
  | .parented _ => true
  | _ => false

def Stage.isParented : Stage → Bool
  | .parented _ => true
  | _ => false

inductive Job where
  | idle
  | making (q : Proc) (stage : Stage)
  /-- In `exit`: the parent it remembers, whether it has woken that parent, the slots that are
      known not to be its children, and the child it has found. -/
  | leaving (orig : Option Proc) (awake : Bool) (given : Finset Proc) (kid : Option Proc)
  /-- In `wait`: the slots that are known not to be zombies of its own, the child it has found,
      and the process id and status of that child if it is a zombie. -/
  | waiting (seen : Finset Proc) (kid : Option Proc) (corpse : Option (ℕ × ℤ))
  | drowsy (χ : ℕ)

inductive Phase where
  | free
  | picked (q : Proc)
  | assigned (q : Proc)
  | lent (q : Proc)
  | run
  /-- A process that has given itself another state than `RUNNING`. -/
  | parting (s : ProcState)
  | off
  deriving DecidableEq

structure Ghost where
  held : Finset Lock
  phase : Phase
  dead : Bool
  job : Job
  /-- The condition it has made true and the processes it has tried to wake since. -/
  waking : Option (ℕ × Finset Proc)
  pending : Option ℤ

def Job.Locked (lockOf : ℕ → ℕ) (p : Proc) (held : Finset Lock) : Job → Prop
  | .idle => True
  | .making q _ => .proc q ∈ held
  | .leaving orig awake given kid => (awake = true → ∃ v, orig = some v ∧ .proc v ∈ held) ∧
      (given = ∅ ∧ kid = none ∨ .proc p ∈ held)
  | .waiting _ kid corpse => .proc p ∈ held ∧ (corpse ≠ none → ∃ q, kid = some q ∧ .proc q ∈ held)
  | .drowsy χ => .other (lockOf χ) ∈ held ∨ .proc p ∈ held

def Job.Calm : Job → Prop
  | .idle => True
  | .leaving _ awake given kid => awake = false ∧ given = ∅ ∧ kid = none
  | _ => False

def Phase.OfProc (p : Proc) (held : Finset Lock) : Phase → Prop
  | .run => True
  | .parting s => .proc p ∈ held ∧ s ≠ .running
  | .off => held = {.proc p}
  | _ => False

def Phase.OfCpu (held : Finset Lock) : Phase → Prop
  | .free => True
  | .picked q => held = {.proc q}
  | .assigned q => held = {.proc q}
  | .lent q => held = {.proc q}
  | _ => False

structure WfProc (lockOf : ℕ → ℕ) (p : Proc) (ℓ : Ghost) : Prop where
  phase : ℓ.phase.OfProc p ℓ.held
  job : ℓ.job.Locked lockOf p ℓ.held
  calm : ℓ.phase = .off → ℓ.job.Calm
  dead : ℓ.dead = true → ℓ.phase = .off ∧ ℓ.job = .idle
  waking : ∀ χ P, ℓ.waking = some (χ, P) → .other (lockOf χ) ∈ ℓ.held

structure WfCpu (lockOf : ℕ → ℕ) (ℓ : Ghost) : Prop where
  phase : ℓ.phase.OfCpu ℓ.held
  waking : ∀ χ P, ℓ.waking = some (χ, P) → .other (lockOf χ) ∈ ℓ.held

variable {n : ℕ}

def Wf (lockOf : ℕ → ℕ) : Thread n → Ghost → Prop
  | .cpu _, ℓ => WfCpu lockOf ℓ
  | .proc p, ℓ => WfProc lockOf p ℓ

structure Harts (hart : Thread n → Option (Fin n)) (lock : Lock → Option (Fin n))
    (noff : Fin n → ℕ) (held : Thread n → Finset Lock) : Prop where
  one : ∀ t u c, hart t = some c → hart u = some c → t = u
  lock : ∀ l c, lock l = some c ↔ ∃ t, hart t = some c ∧ l ∈ held t
  noff : ∀ t c, hart t = some c → noff c = (held t).card

structure Sched (hart : Thread n → Option (Fin n)) (proc : Fin n → Option Proc)
    (st : Proc → ProcState) (phase : Thread n → Phase) : Prop where
  off : ∀ p, hart (.proc p) = none → phase (.proc p) = .off
  on : ∀ p c, hart (.proc p) = some c → phase (.cpu c) = .lent p
  running : ∀ p, hart (.proc p) ≠ none → phase (.proc p) = .run ∨ phase (.proc p) = .off →
    st p = .running
  parting : ∀ p s, phase (.proc p) = .parting s → st p = s
  here : ∀ c d, hart (.cpu c) = some d → d = c
  free : ∀ c, phase (.cpu c) = .free → hart (.cpu c) = some c ∧ proc c = none
  picked : ∀ c q, phase (.cpu c) = .picked q →
    hart (.cpu c) = some c ∧ hart (.proc q) = none ∧ st q = .running ∧ proc c = none
  assigned : ∀ c q, phase (.cpu c) = .assigned q →
    hart (.cpu c) = some c ∧ hart (.proc q) = none ∧ st q = .running ∧ proc c = some q
  lent : ∀ c q, phase (.cpu c) = .lent q → proc c = some q ∧
    (hart (.cpu c) = none ∧ hart (.proc q) = some c ∨
      hart (.cpu c) = some c ∧ hart (.proc q) = none ∧ st q ≠ .running)

def Alive (s : ProcState) : Prop := s ≠ .unused ∧ s ≠ .zombie

def TreeJob (st : Proc → ProcState) (par : Proc → Option Proc) (u : Proc) : Job → Prop
  | .idle => True
  | .making q s => Alive (st u) ∧ st q = .unused ∧ par q = if s.isParented then some u else none
  | .leaving orig _ given kid => Alive (st u) ∧ u ≠ initproc ∧ (∀ q ∈ given, par q ≠ some u) ∧
      (∀ v, orig = some v →
        (par u = some v ∨ par u = some initproc) ∧ par v ≠ some u ∧ v ≠ u) ∧
      ∀ q, kid = some q → par q = some u
  | .waiting _ kid corpse => Alive (st u) ∧
      ∀ q, kid = some q → par q = some u ∧ (corpse ≠ none → st q = .zombie)
  | .drowsy _ => Alive (st u)

/-- The family tree. Parents are alive; `exit` gives away all children before the end. -/
structure Tree (st : Proc → ProcState) (par : Proc → Option Proc) (job : Proc → Job) : Prop where
  alive : ∀ q u, par q = some u → Alive (st u)
  irrefl : ∀ q, par q ≠ some q
  orphan : ∀ q, st q ≠ .unused → par q = none → q = initproc
  init : Alive (st initproc)
  root : par initproc = none
  unused : ∀ q, st q = .unused → par q = none ∨ ∃ u s, job u = .making q s
  job : ∀ u, TreeJob st par u (job u)

structure Deaths (st : Proc → ProcState) (ctx : Proc → Context) (job : Proc → Job)
    (dead : Proc → Bool) (phase : Proc → Phase) : Prop where
  unused : ∀ q, st q = .unused → dead q = true
  zombie : ∀ q, st q = .zombie → dead q = true ∨ phase q = .parting .zombie
  fresh : ∀ q, dead q = true → Alive (st q) → ctx q = .forkret
  ready : ∀ u q s, job u = .making q s → s.isReady = true → ctx q = .forkret

def WaitsJob (st : Proc → ProcState) (par : Proc → Option Proc) (chan : Proc → Option Chan)
    (u : Proc) : Job → Prop
  | .leaving (some v) true _ _ => st v = .sleeping → chan v ≠ some (.proc v)
  | .waiting seen _ _ => u ≠ initproc → ∀ q ∈ seen, par q = some u → st q ≠ .zombie
  | _ => True

/-- Nobody but the first process sleeps in `wait` past a zombie child. -/
structure Waits (st : Proc → ProcState) (par : Proc → Option Proc) (chan : Proc → Option Chan)
    (job : Proc → Job) : Prop where
  asleep : ∀ q, q ≠ initproc → st q = .sleeping → chan q = some (.proc q) → ∀ x, par x = some q →
    st x ≠ .zombie
  job : ∀ u, WaitsJob st par chan u (job u)

/-- The condition is false, or a process that made it true has not come to `p` yet. -/
def Covered (cond : ℕ → Bool) (waking : Thread n → Option (ℕ × Finset Proc)) (χ : ℕ) (p : Proc) :
    Prop :=
  cond χ = false ∨ ∃ t P, waking t = some (χ, P) ∧ p ∉ P

structure Wakes (st : Proc → ProcState) (chan : Proc → Option Chan) (cond : ℕ → Bool)
    (job : Proc → Job) (waking : Thread n → Option (ℕ × Finset Proc)) : Prop where
  asleep : ∀ p χ, st p = .sleeping → chan p = some (.other χ) → Covered cond waking χ p
  drowsy : ∀ u χ, job u = .drowsy χ → Covered cond waking χ u

/-- If `ordered` is set, the parent that `exit` has locked has a smaller process id; that slot may
    also be locked by an interrupt's `wakeup`, which holds some other lock. -/
def PidsJob (ordered : Prop) (pid : Proc → ℕ) (nextpid : ℕ) (u : Proc) (held : Finset Lock) :
    Job → Prop
  | .making q s => (∀ k, s.id = some k → pid u < k ∧ k < nextpid) ∧
      (∀ k, s.number = some k → pid q = k) ∧ ∀ k, s = .reserved k → ∀ x, pid x ≠ k
  | .leaving (some v) _ _ _ =>
    ordered → .proc v ∈ held → (∀ i, .other i ∉ held) → pid v < pid u
  | _ => True

/-- Process ids are never used twice, and a child's is larger than its parent's. -/
structure Pids (ordered : Prop) (st : Proc → ProcState) (par : Proc → Option Proc) (pid : Proc → ℕ)
    (nextpid : ℕ) (job : Proc → Job) (held : Proc → Finset Lock) : Prop where
  lt : ∀ q, pid q < nextpid
  inj : ∀ q x, pid q = pid x → pid q ≠ 0 → q = x
  live : ∀ q, st q ≠ .unused → 0 < pid q
  first : pid initproc = 1
  order : ∀ q u, st q ≠ .unused → par q = some u → pid u < pid q
  distinct : ∀ u q s u' q' s' k, job u = .making q s → s.id = some k → job u' = .making q' s' →
    s'.id = some k → u = u'
  job : ∀ u, PidsJob ordered pid nextpid u (held u) (job u)

def about : Event → Option ℕ
  | .fork _ _ _ k => some k
  | .exiting _ k => some k
  | .exit _ k _ => some k
  | .wait _ _ k _ => some k
  | .copyFailed _ _ k => some k
  | .kill _ _ k => some k
  | .fault _ k => some k
  | .ret _ _ => none

def settle (u : Proc) (r : Option ℤ) : Event → Option ℤ
  | .wait p _ k _ => if p = u then some k else r
  | .copyFailed p _ _ => if p = u then some (-1) else r
  | .kill p _ _ => if p = u then some 0 else r
  | .ret p _ => if p = u then none else r
  | _ => r

def pendingOf (u : Proc) (l : List Event) : Option ℤ := l.foldl (settle u) none

/-- What must have happened before an event: `wait` returns a process that has exited with that
    status and was not returned before, and `wait` and `kill` return what they have found. -/
def Right (l : List Event) : Event → Prop
  | .wait _ q k s => (∃ p₀ k₀, .fork p₀ k₀ q k ∈ l) ∧ .exit q k s ∈ l ∧
      (∀ x s', .exit x k s' ∈ l → s' = s) ∧ ∀ p x s', .wait p x k s' ∉ l
  | .ret p r => r = (pendingOf p l).getD (-1)
  | _ => True

def Account (l : List Event) : Prop := Accounted Right l

def HistoryJob (pid : Proc → ℕ) (xst : Proc → ℤ) (trace : List Event) (u : Proc) : Job → Prop
  | .making _ s => ∀ k, s.id = some k → ∀ e ∈ trace, about e ≠ some k
  | .leaving _ _ _ _ => .exiting u (pid u) ∈ trace
  | .waiting _ (some q) (some c) => pid q = c.1 ∧ xst q = c.2
  | _ => True

structure History (st : Proc → ProcState) (par : Proc → Option Proc) (pid : Proc → ℕ)
    (xst : Proc → ℤ) (nextpid : ℕ) (trace : List Event) (job : Proc → Job)
    (pending : Proc → Option ℤ) : Prop where
  bound : ∀ e ∈ trace, ∀ k, about e = some k → k < nextpid
  reaped : ∀ q, st q ≠ .unused → ∀ p x s, .wait p x (pid q) s ∉ trace
  forked : ∀ q, st q ≠ .unused → q ≠ initproc → ∃ p k, .fork p k q (pid q) ∈ trace ∧
    ∀ u, par q = some u → u = p ∧ pid u = k ∨ u = initproc ∧ .exiting p k ∈ trace
  zombie : ∀ q, st q = .zombie → .exit q (pid q) (xst q) ∈ trace
  status : ∀ q, st q = .zombie → ∀ x s, .exit x (pid q) s ∈ trace → s = xst q
  alive : ∀ q, Alive (st q) → ∀ x s, .exit x (pid q) s ∉ trace
  lost : ∀ q k s, .exit q k s ∈ trace →
    (∃ p, .wait p q k s ∈ trace) ∨ st q = .zombie ∧ pid q = k ∧ xst q = s
  account : Account trace
  pending : ∀ u, pendingOf u trace = pending u
  job : ∀ u, HistoryJob pid xst trace u (job u)

structure Clean (e : Entry) : Prop where
  pid : e.pid = 0
  parent : e.parent = none
  trapframe : e.trapframe = false
  pagetable : e.pagetable = false
  sz : e.sz = 0
  chan : e.chan = none

def Tidy (entry : Proc → Entry) (job : Proc → Job) : Prop :=
  ∀ q, (entry q).state = .unused → Clean (entry q) ∨ ∃ u s, job u = .making q s

/-- After the process was created, `kill` or a page fault has marked it. -/
def Marked (l : List Event) (q : Proc) (k : ℕ) : Prop :=
  ∃ before after, l = before ++ after ∧ (q = initproc ∨ ∃ p₀ k₀, .fork p₀ k₀ q k ∈ before) ∧
    ((∃ p, .kill p q k ∈ after) ∨ .fault q k ∈ after)

def Kills (entry : Proc → Entry) (trace : List Event) : Prop :=
  ∀ q, (entry q).killed = true → (entry q).state ≠ .unused ∧ Marked trace q (entry q).pid

/-- The conditions on a run: the trapframe gets its page, `kill` is not called with 0, and the
    slot that `exit` remembers is not in use for a younger process when `exit` locks it. -/
structure Opts where
  clean : Prop
  kill : Prop
  order : Prop

def st (g : State n) (q : Proc) : ProcState := (g.entry q).state

def par (g : State n) (q : Proc) : Option Proc := (g.entry q).parent

def chan (g : State n) (q : Proc) : Option Chan := (g.entry q).chan

def pid (g : State n) (q : Proc) : ℕ := (g.entry q).pid

def xst (g : State n) (q : Proc) : ℤ := (g.entry q).xstate

def ctx (g : State n) (q : Proc) : Context := (g.entry q).context

def field {α : Type} (f : Ghost → α) (Λ : Thread n → Ghost) (p : Proc) : α := f (Λ (.proc p))

structure Inv (lockOf : ℕ → ℕ) (o : Opts) (g : State n) (Λ : Thread n → Ghost) : Prop where
  wf : ∀ t, Wf lockOf t (Λ t)
  harts : Harts g.hart g.lock g.noff fun t => (Λ t).held
  sched : Sched g.hart g.proc (st g) fun t => (Λ t).phase
  tree : Tree (st g) (par g) (field Ghost.job Λ)
  deaths : Deaths (st g) (ctx g) (field Ghost.job Λ) (field Ghost.dead Λ) (field Ghost.phase Λ)
  waits : Waits (st g) (par g) (chan g) (field Ghost.job Λ)
  wakes : Wakes (st g) (chan g) g.cond (field Ghost.job Λ) fun t => (Λ t).waking
  pids : Pids o.order (st g) (par g) (pid g) g.nextpid (field Ghost.job Λ) (field Ghost.held Λ)
  history : History (st g) (par g) (pid g) (xst g) g.nextpid g.trace (field Ghost.job Λ)
    (field Ghost.pending Λ)
  tidy : o.clean → Tidy g.entry (field Ghost.job Λ)
  kills : o.clean → o.kill → Kills g.entry g.trace

def Good (o : Opts) (t : Thread n) {β : Type} (a : Act β) (g : State n) : Prop :=
  match a with
  | .set _ (.trapframe ok) => o.clean → ok = true
  | .kill _ k => o.kill → k ≠ 0
  | .acquireParent v => o.order → ∀ p, t = .proc p → (g.entry v).pid < (g.entry p).pid
  | _ => True

def Edge : ProcState → ProcState → Prop
  | .unused, .runnable => True
  | .runnable, .running => True
  | .running, .runnable => True
  | .running, .sleeping => True
  | .running, .zombie => True
  | .sleeping, .runnable => True
  | .zombie, .unused => True
  | s, s' => s = s'

def wants {β : Type} : Act β → Option Proc
  | .acquire (.proc q) => some q
  | .acquireParent q => some q
  | _ => none

/-- What one step does to the processes: a slot becomes free only in `wait` of the parent, which
    is recorded; what is recorded of `wait` is so; and a `wait` that fails changes nothing. -/
structure Legal (t : Thread n) (g g' : State n) : Prop where
  edge : ∀ q, Edge (st g q) (st g' q)
  reaped : ∀ q, st g q ≠ .unused → st g' q = .unused → ∃ p, t = .proc p ∧
    g'.trace = g.trace ++ [.wait p q (pid g q) (xst g q)]
  waits : ∀ p q k s, g'.trace = g.trace ++ [.wait p q k s] → t = .proc p ∧ st g q = .zombie ∧
    par g q = some p ∧ pid g q = k ∧ xst g q = s ∧ st g' q = .unused
  failed : ∀ p q k, g'.trace = g.trace ++ [.copyFailed p q k] → t = .proc p ∧ st g q = .zombie ∧
    par g q = some p ∧ pid g q = k ∧ g'.entry = g.entry

/-- `kill` finds only processes that are alive. -/
def Aimed {β : Type} (a : Act β) (g : State n) : Prop :=
  match a with
  | .kill q k => ((g.entry q).pid : ℤ) = k → (g.entry q).state ≠ .unused
  | _ => True

/-- What is known when an action is next: it does not panic, except in `exit` of the first
    process; it makes a legal step; and locks are taken in the order of process ids. -/
structure Safe (o : Opts) (t : Thread n) {β : Type} (a : Act β) (g : State n)
    (Λ : Thread n → Ghost) : Prop where
  sound : Good o t a g → ∀ msg, exec t a g = .panic msg → a ≍ Act.panic msg
  legal : Good o t a g → ∀ b g', exec t a g = .done b g' → Legal t g g'
  aimed : o.clean → o.kill → Good o t a g → g.hart t ≠ none → Aimed a g
  order : o.order → g.hart t ≠ none → ∀ q, wants a = some q → ∀ x, .proc x ∈ (Λ t).held →
    pid g x < pid g q

def idleGhost (phase : Phase) (held : Finset Lock) (dead : Bool) : Ghost :=
  ⟨held, phase, dead, .idle, none, none⟩

def Rest (lockOf : ℕ → ℕ) : Thread n → Loc → Ghost → Prop
  | .cpu _, .idle, ℓ => ℓ = idleGhost .free ∅ false
  | .proc p, .dead, ℓ => ℓ = idleGhost .off {.proc p} true
  | .proc _, .user, ℓ => ℓ = idleGhost .run ∅ false
  | .proc p, .waiting _, ℓ =>
    ℓ = { idleGhost .run {.proc p} false with job := .waiting ∅ none none }
  | .proc _, .awaiting χ, ℓ => ℓ = idleGhost .run {.other (lockOf χ)} false
  | _, _, _ => False

def outline (n : ℕ) (lockOf : ℕ → ℕ) (o : Opts) : Outline (Thread n) Act Loc (State n) Ghost where
  I := Inv lockOf o
  safe := fun t _ a g Λ => Safe o t a g Λ
  rest := Rest lockOf

end Xv6.ProcInvariant
