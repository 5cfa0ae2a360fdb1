import Xv6.LogCode

set_option autoImplicit false

/-! `icache`, and the `cwd` of every process. An atomic action is a critical section of
`icache.lock`, one operation on an inode's sleep-lock, one access to the fields that lock protects,
or one access of a process to its own directory. An access to an inode's fields without its lock is
undefined, and so is recycling an entry whose lock is held. -/
namespace Xv6.KernelTables
open Resumption LogCode

def NINODE : ℕ := 50
def ROOTINO : ℕ := 1

instance : NeZero NINODE := ⟨by decide⟩

abbrev Slot := Fin NINODE

def T_DIR : ℤ := 1
def T_FILE : ℤ := 2

/-- What an inode records besides its contents; type 0 is a free inode. -/
structure Attr where
  type : ℤ
  major : ℤ
  minor : ℤ
  nlink : ℤ
  deriving DecidableEq

structure Inode where
  inum : ℕ
  ref : ℤ
  lock : Option Proc
  valid : Bool
  attr : Attr

structure Tables where
  icache : Slot → Inode
  cwd : Proc → Option Slot

def Tables.modInode (k : Tables) (s : Slot) (f : Inode → Inode) : Tables :=
  { k with icache := Function.update k.icache s (f (k.icache s)) }

inductive TableAct : Type → Type where
  | iget (inum : ℕ) : TableAct Slot
  | idup (s : Slot) : TableAct Unit
  /-- The test at the head of `ilock`. -/
  | checkRef (s : Slot) : TableAct Unit
  | acquiresleep (s : Slot) : TableAct Unit
  | iunlock (s : Slot) : TableAct Unit
  | releasesleep (s : Slot) : TableAct Unit
  /-- The first critical section of `iput`; it answers whether the inode is to be
      freed, and drops the reference if it is not. -/
  | iputCs (s : Slot) : TableAct Bool
  /-- The second critical section of `iput`. -/
  | iputDrop (s : Slot) : TableAct Unit
  | getInode (s : Slot) : TableAct Inode
  | setValid (s : Slot) (valid : Bool) : TableAct Unit
  | setType (s : Slot) (type : ℤ) : TableAct Unit
  | getCwd : TableAct Slot

def cached (k : Tables) (inum : ℕ) : Option Slot :=
  (List.finRange NINODE).find? fun s => (k.icache s).ref > 0 ∧ (k.icache s).inum = inum

def emptySlot (k : Tables) : Option Slot :=
  (List.finRange NINODE).find? fun s => (k.icache s).ref = 0

/-- An access to the fields that the inode's sleep-lock protects. -/
def withLock {β : Type} (p : Proc) (s : Slot) (k : Tables) (r : Outcome β Tables) :
    Outcome β Tables :=
  if (k.icache s).lock = some p then r else .undefined

@[simp] def execTable (p : Proc) : {β : Type} → TableAct β → Tables → Outcome β Tables
  | _, .iget inum, k =>
    match cached k inum with
    | some s => .done s (k.modInode s fun ip => { ip with ref := ip.ref + 1 })
    | none =>
      match emptySlot k with
      | none => .panic "iget: no inodes"
      | some s =>
        if (k.icache s).lock = none then
          .done s (k.modInode s fun ip => { ip with inum := inum, ref := 1, valid := false })
        else .undefined
  | _, .idup s, k => .done () (k.modInode s fun ip => { ip with ref := ip.ref + 1 })
  | _, .checkRef s, k => if (k.icache s).ref < 1 then .panic "ilock" else .done () k
  | _, .acquiresleep s, k =>
    match (k.icache s).lock with
    | none => .done () (k.modInode s fun ip => { ip with lock := some p })
    | some _ => .blocked
  | _, .iunlock s, k =>
    if (k.icache s).lock = some p ∧ (k.icache s).ref ≥ 1 then
      .done () (k.modInode s fun ip => { ip with lock := none })
    else .panic "iunlock"
  | _, .releasesleep s, k => .done () (k.modInode s fun ip => { ip with lock := none })
  | _, .iputCs s, k =>
    let ip := k.icache s
    if ip.ref = 1 ∧ ip.valid ∧ ip.attr.nlink = 0 then
      match ip.lock with
      | none => .done true (k.modInode s fun ip => { ip with lock := some p })
      | some _ => .blocked
    else .done false (k.modInode s fun ip => { ip with ref := ip.ref - 1 })
  | _, .iputDrop s, k => .done () (k.modInode s fun ip => { ip with ref := ip.ref - 1 })
  | _, .getInode s, k => withLock p s k (.done (k.icache s) k)
  | _, .setValid s valid, k =>
    withLock p s k (.done () (k.modInode s fun ip => { ip with valid := valid }))
  | _, .setType s type, k =>
    withLock p s k (.done () (k.modInode s fun ip => { ip with attr.type := type }))
  | _, .getCwd, k =>
    match k.cwd p with
    | some c => .done c k
    | none => .undefined

end Xv6.KernelTables
