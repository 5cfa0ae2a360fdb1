import Mathlib.Data.List.FinRange
import Xv6.ByteFields
import Xv6.Resumption

set_option autoImplicit false

/-! `bio.c` and `log.c`. An atomic action is a critical section of `bcache.lock` or `log.lock`, one
operation on a buffer's sleep-lock, one access to its data, one transfer of a block, or an access to
`log` that the code makes without its lock. The LRU list is the list of the buffers from `head.next`
to `head.prev`, and `lh` is the used part of the header's array; a store past its end is undefined.
The trace records what the code did, newest first. -/
namespace Xv6.LogCode
open Resumption ByteFields

def NPROC : ℕ := 64
def ROOTDEV : UInt32 := 1
def MAXOPBLOCKS : ℕ := 10
def LOGSIZE : ℕ := MAXOPBLOCKS * 3
def NBUF : ℕ := MAXOPBLOCKS * 3
def BSIZE : ℕ := 1024

instance : NeZero NPROC := ⟨by decide⟩
instance : NeZero NBUF := ⟨by decide⟩

abbrev Proc := Fin NPROC
abbrev Block := Bytes BSIZE
abbrev BufId := Fin NBUF

structure Buf where
  valid : Bool
  dev : UInt32
  blockno : UInt32
  lock : Option Proc
  refcnt : UInt32
  data : Block

structure Log where
  start : UInt32
  size : ℤ
  outstanding : ℤ
  committing : Bool
  dev : UInt32
  lh : List UInt32

inductive Event where
  | began (p : Proc)
  | logged (p : Proc) (b : UInt32) (d : Block)
  | ended (p : Proc)
  | commits (p : Proc)
  | wrote (b : UInt32) (d : Block)
  | committed (p : Proc)

structure Kern where
  buf : BufId → Buf
  lru : List BufId
  disk : UInt32 → Block
  log : Log
  trace : List Event

def Kern.modBuf (g : Kern) (i : BufId) (f : Buf → Buf) : Kern :=
  { g with buf := Function.update g.buf i (f (g.buf i)) }

def Kern.modLog (g : Kern) (f : Log → Log) : Kern := { g with log := f g.log }

def Kern.note (g : Kern) (e : Event) : Kern := { g with trace := e :: g.trace }

section Fields

variable (g : Kern) (i : BufId) (f : Buf → Buf) (h : Log → Log) (e : Event)

@[simp] theorem modBuf_self : (g.modBuf i f).buf i = f (g.buf i) := Function.update_self ..

theorem modBuf_of_ne {i j : BufId} (hj : j ≠ i) : (g.modBuf i f).buf j = g.buf j :=
  Function.update_of_ne hj ..

theorem modBuf_buf (j : BufId) :
    (g.modBuf i f).buf j = if j = i then f (g.buf i) else g.buf j := Function.update_apply ..

@[simp] theorem modBuf_lru : (g.modBuf i f).lru = g.lru := rfl
@[simp] theorem modBuf_disk : (g.modBuf i f).disk = g.disk := rfl
@[simp] theorem modBuf_log : (g.modBuf i f).log = g.log := rfl
@[simp] theorem modBuf_trace : (g.modBuf i f).trace = g.trace := rfl
@[simp] theorem modLog_buf : (g.modLog h).buf = g.buf := rfl
@[simp] theorem modLog_lru : (g.modLog h).lru = g.lru := rfl
@[simp] theorem modLog_disk : (g.modLog h).disk = g.disk := rfl
@[simp] theorem modLog_log : (g.modLog h).log = h g.log := rfl
@[simp] theorem modLog_trace : (g.modLog h).trace = g.trace := rfl
@[simp] theorem note_buf : (g.note e).buf = g.buf := rfl
@[simp] theorem note_lru : (g.note e).lru = g.lru := rfl
@[simp] theorem note_disk : (g.note e).disk = g.disk := rfl
@[simp] theorem note_log : (g.note e).log = g.log := rfl
@[simp] theorem note_trace : (g.note e).trace = e :: g.trace := rfl

end Fields

/-- The header block starts with `n` and the block numbers, as four-byte integers.
    A negative count makes every loop over the header empty. -/
def headCount (d : Block) : ℕ :=
  let n := (getU32 d 0).toNat
  if n < 2 ^ 31 then n else 0

def headList (d : Block) : List UInt32 :=
  (List.range (headCount d)).map fun i => getU32 d (4 + 4 * i)

def putBlocks (d : Block) : ℕ → List UInt32 → Block
  | _, [] => d
  | off, b :: bs => putBlocks (putU32 d off b) (off + 4) bs

def putHead (lh : List UInt32) (d : Block) : Block :=
  putBlocks (putU32 d 0 (UInt32.ofNat lh.length)) 4 lh

inductive Act : Type → Type where
  -- `bget` up to its `release(&bcache.lock)`
  | bget (dev b : UInt32) : Act BufId
  | acquiresleep (i : BufId) : Act Unit
  -- the transfer `bread` makes when the buffer is not valid
  | fill (i : BufId) : Act Unit
  | getData (i : BufId) : Act Block
  | setData (i : BufId) (d : Block) : Act Unit
  | bwrite (i : BufId) : Act Unit
  -- `brelse` up to its `releasesleep`
  | unlock (i : BufId) : Act Unit
  -- the critical section of `brelse`
  | unref (i : BufId) : Act Unit
  | bunpin (i : BufId) : Act Unit
  | getLog : Act Log
  -- the assignments `initlog` makes before it recovers
  | setLog (dev start : UInt32) (size : ℤ) : Act Unit
  | setLh (lh : List UInt32) : Act Unit
  -- the iteration of `begin_op` that admits the operation; it sleeps before it
  | enter : Act Unit
  -- `log_write` tests the room and the open operation before it takes the lock
  | checkRoom : Act Unit
  | checkTrans : Act Unit
  -- the critical section of `log_write`, with its `bpin`
  | logBlock (i : BufId) : Act Unit
  -- the first critical section of `end_op`; it answers `do_commit`
  | endCs : Act Bool
  -- the second critical section of `end_op`
  | endCommit : Act Unit

def lookup (g : Kern) (dev b : UInt32) : Option BufId :=
  g.lru.find? fun i => (g.buf i).dev = dev ∧ (g.buf i).blockno = b

def victim (g : Kern) : Option BufId := g.lru.reverse.find? fun i => (g.buf i).refcnt = 0

@[simp] def exec (p : Proc) : {β : Type} → Act β → Kern → Outcome β Kern
  | _, .bget dev b, g =>
    match lookup g dev b with
    | some i => .done i (g.modBuf i fun f => { f with refcnt := f.refcnt + 1 })
    | none =>
      match victim g with
      | some i => .done i
          (g.modBuf i fun f => { f with dev := dev, blockno := b, valid := false, refcnt := 1 })
      | none => .panic "bget: no buffers"
  | _, .acquiresleep i, g =>
    match (g.buf i).lock with
    | none => .done () (g.modBuf i fun f => { f with lock := some p })
    | some _ => .blocked
  | _, .fill i, g =>
    if (g.buf i).valid then .done () g
    else .done () (g.modBuf i fun f => { f with valid := true, data := g.disk f.blockno })
  | _, .getData i, g => .done (g.buf i).data g
  | _, .setData i d, g => .done () (g.modBuf i fun f => { f with data := d })
  | _, .bwrite i, g =>
    if (g.buf i).lock = some p then
      .done () ({ g with disk := Function.update g.disk (g.buf i).blockno (g.buf i).data }.note
        (.wrote (g.buf i).blockno (g.buf i).data))
    else .panic "bwrite"
  | _, .unlock i, g =>
    if (g.buf i).lock = some p then .done () (g.modBuf i fun f => { f with lock := none })
    else .panic "brelse"
  | _, .unref i, g =>
    let g' := g.modBuf i fun f => { f with refcnt := f.refcnt - 1 }
    if (g'.buf i).refcnt = 0 then .done () { g' with lru := i :: g.lru.erase i } else .done () g'
  | _, .bunpin i, g => .done () (g.modBuf i fun f => { f with refcnt := f.refcnt - 1 })
  | _, .getLog, g => .done g.log g
  | _, .setLog dev start size, g =>
    .done () (g.modLog fun l => { l with start := start, size := size, dev := dev })
  | _, .setLh lh, g =>
    if lh.length ≤ LOGSIZE then .done () (g.modLog fun l => { l with lh := lh }) else .undefined
  | _, .enter, g =>
    if g.log.committing then .blocked
    else if (g.log.lh.length : ℤ) + (g.log.outstanding + 1) * MAXOPBLOCKS > LOGSIZE then .blocked
    else .done () ((g.modLog fun l => { l with outstanding := l.outstanding + 1 }).note (.began p))
  | _, .checkRoom, g =>
    if g.log.lh.length ≥ LOGSIZE ∨ (g.log.lh.length : ℤ) ≥ g.log.size - 1 then
      .panic "too big a transaction"
    else .done () g
  | _, .checkTrans, g =>
    if g.log.outstanding < 1 then .panic "log_write outside of trans" else .done () g
  | _, .logBlock i, g =>
    let b := (g.buf i).blockno
    if b ∈ g.log.lh then .done () (g.note (.logged p b (g.buf i).data))
    else if g.log.lh.length < LOGSIZE then
      .done () (((g.modBuf i fun f => { f with refcnt := f.refcnt + 1 }).modLog
        fun l => { l with lh := l.lh ++ [b] }).note (.logged p b (g.buf i).data))
    else .undefined
  | _, .endCs, g =>
    let out := g.log.outstanding - 1
    if g.log.committing then .panic "log.committing"
    else if out = 0 then
      .done true (((g.modLog fun l => { l with outstanding := out, committing := true }).note
        (.ended p)).note (.commits p))
    else .done false ((g.modLog fun l => { l with outstanding := out }).note (.ended p))
  | _, .endCommit, g =>
    .done () ((g.modLog fun l => { l with committing := false }).note (.committed p))

def kern : Machine Proc Act Kern := ⟨exec⟩

def binit : Kern where
  buf := fun _ => ⟨false, 0, 0, none, 0, fun _ => 0⟩
  lru := (List.finRange NBUF).reverse
  disk := fun _ _ => 0
  log := ⟨0, 0, 0, false, 0, []⟩
  trace := []

def bread (dev b : UInt32) : Prog Act BufId := do
  let i ← .perform (.bget dev b)
  .perform (.acquiresleep i)
  .perform (.fill i)
  return i

def brelse (i : BufId) : Prog Act Unit := do
  .perform (.unlock i)
  .perform (.unref i)

/-- `memmove(to->data, from->data, BSIZE)` -/
def copyData (to_ from_ : BufId) : Prog Act Unit := do
  let d ← .perform (.getData from_)
  .perform (.setData to_ d)

def installTransFrom : ℕ → ℕ → Prog Act Unit
  | 0, _ => return ()
  | fuel + 1, tail => do
    let log ← .perform .getLog
    match log.lh[tail]? with
    | none => return ()
    | some b =>
      let lbuf ← bread log.dev (log.start + UInt32.ofNat tail + 1)
      let dbuf ← bread log.dev b
      copyData dbuf lbuf
      .perform (.bwrite dbuf)
      .perform (.bunpin dbuf)
      brelse lbuf
      brelse dbuf
      installTransFrom fuel (tail + 1)

/-- The loop reads `log.lh.n` afresh in each round; the array bounds the rounds. -/
def installTrans : Prog Act Unit := installTransFrom LOGSIZE 0

def readHead : Prog Act Unit := do
  let log ← .perform .getLog
  let buf ← bread log.dev log.start
  let d ← .perform (.getData buf)
  .perform (.setLh (headList d))
  brelse buf

def writeHead : Prog Act Unit := do
  let log ← .perform .getLog
  let buf ← bread log.dev log.start
  let d ← .perform (.getData buf)
  let log ← .perform .getLog
  .perform (.setData buf (putHead log.lh d))
  .perform (.bwrite buf)
  brelse buf

def recoverFromLog : Prog Act Unit := do
  readHead
  installTrans
  .perform (.setLh [])
  writeHead

/-- The header is smaller than a block, so the panic at the top is not reached. -/
def initlog (dev logstart : UInt32) (nlog : ℤ) : Prog Act Unit := do
  .perform (.setLog dev logstart nlog)
  recoverFromLog

def beginOp : Prog Act Unit := .perform .enter

def writeLogFrom : ℕ → ℕ → Prog Act Unit
  | 0, _ => return ()
  | fuel + 1, tail => do
    let log ← .perform .getLog
    match log.lh[tail]? with
    | none => return ()
    | some b =>
      let to_ ← bread log.dev (log.start + UInt32.ofNat tail + 1)
      let from_ ← bread log.dev b
      copyData to_ from_
      .perform (.bwrite to_)
      brelse from_
      brelse to_
      writeLogFrom fuel (tail + 1)

def writeLog : Prog Act Unit := writeLogFrom LOGSIZE 0

def commit : Prog Act Unit := do
  let log ← .perform .getLog
  if log.lh.length > 0 then
    writeLog
    writeHead
    installTrans
    .perform (.setLh [])
    writeHead

def endOp : Prog Act Unit := do
  let doCommit ← .perform .endCs
  if doCommit then
    commit
    .perform .endCommit

def logWrite (i : BufId) : Prog Act Unit := do
  .perform .checkRoom
  .perform .checkTrans
  .perform (.logBlock i)

end Xv6.LogCode
