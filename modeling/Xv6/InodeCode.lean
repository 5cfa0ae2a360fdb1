import Xv6.KernelTables

set_option autoImplicit false

/-! The upper half of `fs.c` over inodes whose contents are strings of bytes: what the layer below
does to one locked inode is one atomic action. `begin_op` and `end_op` only delay a process, and are
left out. A destination is the number of writable bytes from the given address on, a source the
readable ones. A copy stops at the first block that fails, so `whole` counts the bytes before it;
the bytes that a failed copy did transfer stay in the block. -/
namespace Xv6.InodeCode
open Resumption LogCode KernelTables

def NDIRECT : ℕ := 12
def NINDIRECT : ℕ := BSIZE / 4
def MAXFILE : ℕ := NDIRECT + NINDIRECT
def DIRSIZ : ℕ := 14
/-- `sizeof(struct dirent)` -/
def DIRENT : ℕ := 16

structure Dinode where
  attr : Attr
  data : List UInt8
  deriving DecidableEq

structure Fs where
  tables : Tables
  ino : ℕ → Dinode

inductive InodeAct : Type → Type where
  /-- `ilock` after it has acquired the lock. -/
  | load (s : Slot) : InodeAct Unit
  | iupdate (s : Slot) : InodeAct Unit
  | size (s : Slot) : InodeAct ℕ
  | readi (s : Slot) (off n : UInt32) (room : ℕ) : InodeAct (List UInt8)
  | itrunc (s : Slot) : InodeAct Unit

inductive Act (β : Type) : Type where
  | table (a : TableAct β)
  | inode (a : InodeAct β)
  | panic (msg : String)

/-- The bytes of the copies that fit, when `n` bytes from offset `off` on are copied
    block by block and `lim` bytes can be copied. -/
def whole (off n lim : ℕ) : ℕ := if n ≤ lim then n else (off + lim) / BSIZE * BSIZE - off

/-- `data` with `src` over the bytes from `off` on. -/
def overwrite (data : List UInt8) (off : ℕ) (src : List UInt8) : List UInt8 :=
  data.take off ++ src ++ data.drop (off + src.length)

/-- The bytes `readi` transfers. -/
def readData (data : List UInt8) (off n : UInt32) (room : ℕ) : List UInt8 :=
  if off.toNat > data.length ∨ off + n < off then []
  else
    let m := if off.toNat + n.toNat > data.length then data.length - off.toNat else n.toNat
    (data.drop off.toNat).take (whole off.toNat m room)

def refused (data : List UInt8) (off n : UInt32) : Prop :=
  off.toNat > data.length ∨ off + n < off ∨ off.toNat + n.toNat > MAXFILE * BSIZE

instance (data : List UInt8) (off n : UInt32) : Decidable (refused data off n) :=
  inferInstanceAs (Decidable (_ ∨ _))

/-- The contents `writei` leaves. -/
def writeData (data : List UInt8) (off n : UInt32) (src : List UInt8) : List UInt8 :=
  (overwrite data off.toNat (src.take n.toNat)).take
    (max data.length (off.toNat + whole off.toNat n.toNat src.length))

/-- The process has locked the inode and read it in, and the number is that of an inode. -/
def Usable (ninodes : ℕ) (p : Proc) (s : Slot) (k : Tables) : Prop :=
  (k.icache s).lock = some p ∧ (k.icache s).valid = true ∧ (k.icache s).inum < ninodes

instance (ninodes : ℕ) (p : Proc) (s : Slot) (k : Tables) : Decidable (Usable ninodes p s k) :=
  inferInstanceAs (Decidable (_ ∧ _))

def Fs.setIno (g : Fs) (n : ℕ) (d : Dinode) : Fs := { g with ino := Function.update g.ino n d }

@[simp] def execInode (ninodes : ℕ) (p : Proc) : {β : Type} → InodeAct β → Fs → Outcome β Fs
  | _, .load s, g =>
    let ip := g.tables.icache s
    if ip.lock ≠ some p then .undefined
    else if ip.valid then .done () g
    else if ip.inum < ninodes then
      if (g.ino ip.inum).attr.type = 0 then .panic "ilock: no type"
      else .done () { g with tables := g.tables.modInode s fun ip =>
        { ip with valid := true, attr := (g.ino ip.inum).attr } }
    else .undefined
  | _, .iupdate s, g =>
    let ip := g.tables.icache s
    if Usable ninodes p s g.tables then
      .done () (g.setIno ip.inum { g.ino ip.inum with attr := ip.attr })
    else .undefined
  | _, .size s, g =>
    if Usable ninodes p s g.tables then .done (g.ino (g.tables.icache s).inum).data.length g
    else .undefined
  | _, .readi s off n room, g =>
    if Usable ninodes p s g.tables then
      .done (readData (g.ino (g.tables.icache s).inum).data off n room) g
    else .undefined
  | _, .itrunc s, g =>
    let ip := g.tables.icache s
    if Usable ninodes p s g.tables then .done () (g.setIno ip.inum ⟨ip.attr, []⟩)
    else .undefined

def exec (ninodes : ℕ) (p : Proc) {β : Type} : Act β → Fs → Outcome β Fs
  | .table a, g =>
    match execTable p a g.tables with
    | .blocked => .blocked
    | .panic msg => .panic msg
    | .undefined => .undefined
    | .done b k => .done b { g with tables := k }
  | .inode a, g => execInode ninodes p a g
  | .panic msg, _ => .panic msg

def machine (ninodes : ℕ) : Machine Proc Act Fs := ⟨exec ninodes⟩

def fail {α : Type} (msg : String) : Prog Act α := .perform (.panic msg)

def table {β : Type} (a : TableAct β) : Prog Act β := .perform (.table a)

def inode {β : Type} (a : InodeAct β) : Prog Act β := .perform (.inode a)

def ilock (ip : Slot) : Prog Act Unit := do
  table (.checkRef ip)
  table (.acquiresleep ip)
  inode (.load ip)

def iput (ip : Slot) : Prog Act Unit := do
  if ← table (.iputCs ip) then
    inode (.itrunc ip)
    table (.setType ip 0)
    inode (.iupdate ip)
    table (.setValid ip false)
    table (.releasesleep ip)
    table (.iputDrop ip)

def iunlockput (ip : Slot) : Prog Act Unit := do
  table (.iunlock ip)
  iput ip

/-- A directory entry. The name is the bytes up to the first NUL. -/
structure Dirent where
  inum : ℕ
  name : List UInt8
  deriving DecidableEq

def decode (bytes : List UInt8) : Dirent :=
  ⟨(bytes.getD 0 0).toNat + 256 * (bytes.getD 1 0).toNat, (bytes.drop 2).takeWhile (· ≠ 0)⟩

/-- The entry as `strncpy` and the assignment to the 16-bit `inum` lay it out. -/
def encode (e : Dirent) : List UInt8 :=
  UInt8.ofNat e.inum :: UInt8.ofNat (e.inum / 256) ::
    (e.name.take DIRSIZ ++ List.replicate (DIRSIZ - (e.name.take DIRSIZ).length) 0)

/-- Reads the entry at `off`; the read of a whole entry succeeds. -/
def readDirent (dp : Slot) (off : ℕ) (msg : String) : Prog Act Dirent := do
  let bytes ← inode (.readi dp (UInt32.ofNat off) (UInt32.ofNat DIRENT) DIRENT)
  if bytes.length ≠ DIRENT then fail msg
  else return decode bytes

def dirlookupFrom (dp : Slot) (name : List UInt8) : ℕ → ℕ → Prog Act (Option (Slot × ℕ))
  | 0, _ => return none
  | fuel + 1, off => do
    if off < (← inode (.size dp)) then
      let de ← readDirent dp off "dirlookup read"
      if de.inum ≠ 0 ∧ de.name = name then
        let ip ← table (.iget de.inum)
        return some (ip, off)
      else dirlookupFrom dp name fuel (off + DIRENT)
    else return none

/-- The entry's inode and the offset of the entry. -/
def dirlookup (dp : Slot) (name : List UInt8) : Prog Act (Option (Slot × ℕ)) := do
  let d ← table (.getInode dp)
  if d.attr.type ≠ T_DIR then fail "dirlookup not DIR"
  else dirlookupFrom dp name ((← inode (.size dp)) / DIRENT + 1) 0

/-- A string of the source, without its NUL. -/
abbrev CStr := { s : List UInt8 // 0 ∉ s }

def slash : UInt8 := 47
def dot : List UInt8 := [46]
def dotdot : List UInt8 := [46, 46]

/-- The next element of the path, cut to `DIRSIZ` bytes, and the rest of the path. -/
def skipelem (path : List UInt8) : Option (List UInt8 × List UInt8) :=
  match path.dropWhile (· = slash) with
  | [] => none
  | c :: cs =>
    let rest := (c :: cs).dropWhile (· ≠ slash)
    some (((c :: cs).takeWhile (· ≠ slash)).take DIRSIZ, rest.dropWhile (· = slash))

/-- `name` is the last element seen, which `nameiparent` returns. An element takes at least
    one byte of the path, so its length bounds the rounds. -/
def namexFrom (nameiparent : Bool) : ℕ → Slot → List UInt8 → Prog Act (Option (Slot × List UInt8))
  | 0, ip, _ => namexEnd nameiparent ip
  | fuel + 1, ip, path =>
    match skipelem path with
    | none => namexEnd nameiparent ip
    | some (name, path) => do
      ilock ip
      if (← table (.getInode ip)).attr.type ≠ T_DIR then
        iunlockput ip
        return none
      else if nameiparent ∧ path = [] then
        table (.iunlock ip)
        return some (ip, name)
      else
        match ← dirlookup ip name with
        | none =>
          iunlockput ip
          return none
        | some (next, _) =>
          iunlockput ip
          namexFrom nameiparent fuel next path
where
  namexEnd (nameiparent : Bool) (ip : Slot) : Prog Act (Option (Slot × List UInt8)) := do
    if nameiparent then
      iput ip
      return none
    else return some (ip, [])

def namex (path : List UInt8) (nameiparent : Bool) : Prog Act (Option (Slot × List UInt8)) := do
  let ip ←
    if path.head? = some slash then table (.iget ROOTINO)
    else do
      let cwd ← table .getCwd
      table (.idup cwd)
      pure cwd
  namexFrom nameiparent path.length ip path

def namei (path : List UInt8) : Prog Act (Option Slot) := do
  return (← namex path false).map Prod.fst

def nameiparent (path : List UInt8) : Prog Act (Option (Slot × List UInt8)) := namex path true

end Xv6.InodeCode
