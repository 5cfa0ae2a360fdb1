import Mathlib.Data.Fintype.Basic
import Xv6.Interleaving
import Xv6.LogHeader

set_option autoImplicit false

/-! Every process reads, modifies, logs and releases blocks of the file system's device, inside
operations bracketed by `begin_op` and `end_op`. A buffer is modified and logged while the process
holds it, inside an operation, and not released between the two. -/
namespace Xv6.LogSystem
open Resumption Interleaving LogCode LogHeader

/-- A buffer a process holds: its block, and whether it was modified since it was logged. -/
structure Holding where
  block : UInt32
  dirty : Bool
deriving DecidableEq

@[ext] structure Loc where
  inOp : Bool
  held : BufId → Option Holding
  logged : List UInt32

-- the derived instance does not evaluate on the function `held`
instance : DecidableEq Loc := fun _ _ => decidable_of_iff _ Loc.ext_iff.symm

def Loc.idle : Loc := ⟨false, fun _ => none, []⟩

/-- The calls a process may make. The blocks one operation logs satisfy `may`. -/
inductive Calls (start : UInt32) (may : List UInt32 → Prop) (l : Loc) : Prog Act Loc → Prop where
  | beginOp (out : l.inOp = false) :
      Calls start may l do
        LogCode.beginOp
        return { l with inOp := true, logged := [] }
  | bread (b : UInt32) (home : ¬ InLog start LOGSIZE b) :
      Calls start may l do
        let i ← LogCode.bread ROOTDEV b
        return { l with held := Function.update l.held i (some ⟨b, false⟩) }
  | modify (i : BufId) (h : Holding) (d : Block) (op : l.inOp = true) (held : l.held i = some h) :
      Calls start may l do
        .perform (.setData i d)
        return { l with held := Function.update l.held i (some ⟨h.block, true⟩) }
  | logWrite (i : BufId) (h : Holding) (op : l.inOp = true) (held : l.held i = some h)
      (ok : may (l.logged.insert h.block)) :
      Calls start may l do
        LogCode.logWrite i
        return { l with
          held := Function.update l.held i (some ⟨h.block, false⟩)
          logged := l.logged.insert h.block }
  | brelse (i : BufId) (h : Holding) (held : l.held i = some h) (clean : h.dirty = false) :
      Calls start may l do
        LogCode.brelse i
        return { l with held := Function.update l.held i none }
  | endOp (op : l.inOp = true) (clean : ∀ i h, l.held i = some h → h.dirty = false) :
      Calls start may l do
        LogCode.endOp
        return { l with inOp := false, logged := [] }

def logSetting (start : UInt32) (may : List UInt32 → Prop) : Setting Proc Act Loc Kern where
  toMachine := kern
  starts := fun _ => Calls start may
  interrupts := fun _ _ _ => False

/-- A kernel in which nobody uses the cache or the log, as `binit` and `initlog` leave it. -/
structure Quiet (start : UInt32) (g : Kern) : Prop where
  lru : ∀ i, i ∈ g.lru
  uniq : ∀ i j, (g.buf i).dev = ROOTDEV → (g.buf j).dev = ROOTDEV →
    (g.buf i).blockno = (g.buf j).blockno → i = j
  free : ∀ i, (g.buf i).refcnt = 0 ∧ (g.buf i).lock = none
  clean : ∀ i, (g.buf i).dev = ROOTDEV → (g.buf i).valid = true →
    (g.buf i).data = g.disk (g.buf i).blockno
  log : g.log = ⟨start, LOGSIZE, 0, false, ROOTDEV, []⟩
  head : headList (g.disk start) = []
  trace : g.trace = []

def launch (g : Kern) : Sys Proc Act Loc Kern := ⟨g, fun _ => .ret Loc.idle⟩

def opOpen (p : Proc) : List Event → Bool
  | [] => false
  | .began q :: tr => if q = p then true else opOpen p tr
  | .ended q :: tr => if q = p then false else opOpen p tr
  | _ :: tr => opOpen p tr

def inCommit (p : Proc) : List Event → Bool
  | [] => false
  | .commits q :: tr => if q = p then true else inCommit p tr
  | .committed q :: tr => if q = p then false else inCommit p tr
  | _ :: tr => inCommit p tr

def transaction : List Event → List UInt32
  | [] => []
  | .logged _ b _ :: tr => b :: transaction tr
  | .committed _ :: _ => []
  | _ :: tr => transaction tr

def headWrites (start : UInt32) : List Event → ℕ
  | [] => 0
  | .wrote b _ :: tr => if b = start then headWrites start tr + 1 else headWrites start tr
  | .committed _ :: _ => 0
  | _ :: tr => headWrites start tr

/-- The blocks the last commit wrote to their home locations: those written between
    its two writes of the header. -/
def installed (start : UInt32) : List Event → List UInt32
  | [] => []
  | .wrote b _ :: tr =>
    if b ≠ start ∧ headWrites start tr = 1 then b :: installed start tr else installed start tr
  | .committed _ :: _ => []
  | _ :: tr => installed start tr

/-- The blocks logged since a header was last written for a transaction. -/
def unsealed (start : UInt32) : List Event → List UInt32
  | [] => []
  | .logged _ b _ :: tr => b :: unsealed start tr
  | .wrote b _ :: tr => if b = start ∧ headWrites start tr = 0 then [] else unsealed start tr
  | _ :: tr => unsealed start tr

/-- The blocks that were not written to their home locations since they were logged. -/
def uninstalled : List Event → List UInt32
  | [] => []
  | .logged _ b _ :: tr => b :: uninstalled tr
  | .wrote b _ :: tr => (uninstalled tr).filter (· ≠ b)
  | _ :: tr => uninstalled tr

/-- The contents most recently logged for each block, over the initial contents `d₀`. -/
def latest (d₀ : UInt32 → Block) : List Event → UInt32 → Block
  | [] => d₀
  | .logged _ b d :: tr => Function.update (latest d₀ tr) b d
  | _ :: tr => latest d₀ tr

/-- The contents as of the last transaction whose header was written. -/
def durable (start : UInt32) (d₀ : UInt32 → Block) : List Event → UInt32 → Block
  | [] => d₀
  | .wrote b _ :: tr =>
    if b = start ∧ headWrites start tr = 0 then latest d₀ tr else durable start d₀ tr
  | _ :: tr => durable start d₀ tr

def Fitting (start : UInt32) : Event → List Event → Prop
  | .began p, tr => opOpen p tr = false ∧ ∀ q, inCommit q tr = false
  | .logged p _ _, tr => opOpen p tr = true ∧ ∀ q, inCommit q tr = false
  | .ended p, tr => opOpen p tr = true ∧ ∀ q, inCommit q tr = false
  | .commits _, tr => (∀ q, opOpen q tr = false) ∧ ∀ q, inCommit q tr = false
  | .wrote b _, tr =>
    (headWrites start tr = 0 → b = start ∨ ∃ j, j + 1 < LOGSIZE ∧ b = slot start j) ∧
      (¬ InLog start LOGSIZE b → b ∉ unsealed start tr)
  | .committed p, tr => inCommit p tr = true ∧ (∀ q, opOpen q tr = false) ∧
      ∀ b, b ∈ installed start tr ↔ b ∈ transaction tr

end Xv6.LogSystem
