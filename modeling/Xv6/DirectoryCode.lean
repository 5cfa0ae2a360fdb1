import Xv6.BlockCode

set_option autoImplicit false

/-! `namecmp`, `dirlookup`, `dirlink` and `skipelem` of `fs.c`, with the functions of `string.c`
they use. A name is a buffer of `DIRSIZ` bytes that ends at the first NUL, if it has one. An inode
in memory is known by its number; of its entry in `icache` only the number, the reference count and
`valid` are kept. -/
namespace Xv6.DirectoryCode
open Xv6.Sequential ByteFields DiskFormat BlockCode
open KernelTables (NINODE)
open InodeCode (DIRSIZ DIRENT slash)

/-- `strncmp` from position `i` on, with `n` characters left. -/
def strncmpFrom (p q : ℕ → UInt8) : ℕ → ℕ → ℤ
  | 0, _ => 0
  | n + 1, i =>
    if p i ≠ 0 ∧ p i = q i then strncmpFrom p q n (i + 1)
    else (p i).toNat - (q i).toNat

def strncmp (p q : ℕ → UInt8) (n : ℕ) : ℤ := strncmpFrom p q n 0

variable {N : ℕ}

/-- `*(s + i) = c` -/
def setByte (s : Bytes N) (i : ℕ) (c : UInt8) : Bytes N := setBytes s i 1 fun _ => c

/-- The second loop of `strncpy`. -/
def zeroFrom (s : Bytes N) : ℕ → ℕ → Bytes N
  | 0, _ => s
  | n + 1, i => zeroFrom (setByte s i 0) n (i + 1)

/-- The first loop of `strncpy`, which goes over to the second at a NUL. -/
def strncpyFrom (s : Bytes N) (t : ℕ → UInt8) : ℕ → ℕ → Bytes N
  | 0, _ => s
  | n + 1, i =>
    if t i ≠ 0 then strncpyFrom (setByte s i (t i)) t n (i + 1)
    else zeroFrom (setByte s i (t i)) n (i + 1)

def strncpy (s : Bytes N) (t : ℕ → UInt8) (n : ℕ) : Bytes N := strncpyFrom s t n 0

abbrev Name := Bytes DIRSIZ

def namecmp (s t : Name) : ℤ := strncmp (byte s) (byte t) DIRSIZ

/-- The rest of the path and the buffer with the element that was taken off. -/
def skipelem (path : List UInt8) (name : Name) : Option (List UInt8 × Name) :=
  let s := path.dropWhile (· = slash)
  if s = [] then none
  else
    let len := (s.takeWhile (· ≠ slash)).length
    let rest := (s.drop len).dropWhile (· = slash)
    if len ≥ DIRSIZ then some (rest, setBytes name 0 DIRSIZ fun j => s.getD j 0)
    else some (rest, setByte (setBytes name 0 len fun j => s.getD j 0) len 0)

/-- `struct dirent` -/
structure Dirent where
  inum : UInt16
  name : Name

namespace Dirent

def ofBytes (b : ℕ → UInt8) : Dirent where
  inum := UInt16.ofNat ((b 0).toNat + 256 * (b 1).toNat)
  name := fun j => b (2 + j.val)

def byteAt (de : Dirent) (j : ℕ) : UInt8 :=
  if j < 2 then leByte de.inum.toNat j else byte de.name (j - 2)

def zero : Dirent := ⟨0, fun _ => 0⟩

end Dirent

structure Entry where
  inum : ℕ
  ref : ℤ
  valid : Bool

structure Inodes where
  fs : Fs
  icache : Fin NINODE → Entry

abbrev DirCode (α : Type) := Code Inodes α

def onFs {α : Type} (c : FsCode α) : DirCode α :=
  c.within Inodes.fs fun fs st => { st with fs := fs }

def setEntry (ip : Fin NINODE) (f : Entry → Entry) : DirCode Unit :=
  .modify fun st => { st with icache := Function.update st.icache ip (f (st.icache ip)) }

def cached (st : Inodes) (inum : ℕ) : Option (Fin NINODE) :=
  (List.finRange NINODE).find? fun ip => (st.icache ip).ref > 0 ∧ (st.icache ip).inum = inum

def emptyEntry (st : Inodes) : Option (Fin NINODE) :=
  (List.finRange NINODE).find? fun ip => (st.icache ip).ref = 0

def iget (inum : ℕ) : DirCode (Fin NINODE) := do
  let st ← Code.get
  match cached st inum with
  | some ip =>
    setEntry ip fun e => { e with ref := e.ref + 1 }
    return ip
  | none =>
    match emptyEntry st with
    | none => .panic "iget: no inodes"
    | some ip =>
      setEntry ip fun _ => ⟨inum, 1, false⟩
      return ip

variable (sb : Superblock)

def iput (ip : Fin NINODE) : DirCode Unit := do
  let st ← Code.get
  let e := st.icache ip
  if e.ref = 1 ∧ e.valid = true ∧ (st.fs.mem e.inum).nlink = 0 then
    onFs (itrunc sb e.inum)
    onFs (BlockCode.setInode e.inum fun d => { d with type := 0 })
    onFs (iupdate sb e.inum)
    setEntry ip fun e => { e with valid := false }
  setEntry ip fun e => { e with ref := e.ref - 1 }

def T_DIR : UInt16 := 1

/-- `sizeof(de)` -/
def sizeofDe : UInt32 := 16

def readDirent (dp : ℕ) (off : UInt32) (msg : String) : DirCode Dirent := do
  let bytes ← onFs (readi sb dp DIRENT off sizeofDe)
  if bytes.length ≠ DIRENT then .panic msg
  else return Dirent.ofBytes fun j => bytes.getD j 0

def writeDirent (dp : ℕ) (off : UInt32) (de : Dirent) (msg : String) : DirCode Unit := do
  let r ← onFs (writei sb dp (fun j => some (de.byteAt j)) off sizeofDe)
  if r ≠ DIRENT then .panic msg
  else return ()

def dirlookupFrom (dp : ℕ) (name : Name) : ℕ → UInt32 → DirCode (Option (Fin NINODE × UInt32))
  | 0, _ => .undefined
  | rounds + 1, off => do
    if off < (← onFs (inode dp)).size then
      let de ← readDirent sb dp off "dirlookup read"
      if de.inum = 0 then dirlookupFrom dp name rounds (off + sizeofDe)
      else if namecmp name de.name = 0 then
        let ip ← iget de.inum.toNat
        return some (ip, off)
      else dirlookupFrom dp name rounds (off + sizeofDe)
    else return none

/-- The entry of the inode in the cache, and the offset in the directory. -/
def dirlookup (dp : ℕ) (name : Name) : DirCode (Option (Fin NINODE × UInt32)) := do
  let d ← onFs (inode dp)
  if d.type ≠ T_DIR then .panic "dirlookup not DIR"
  else dirlookupFrom sb dp name (d.size.toNat / DIRENT + 1) 0

/-- The loop of `dirlink`: the offset where it stops, and what is in `de` then. -/
def emptyFrom (dp : ℕ) : ℕ → UInt32 → Dirent → DirCode (UInt32 × Dirent)
  | 0, _, _ => .undefined
  | rounds + 1, off, de => do
    if off < (← onFs (inode dp)).size then
      let de ← readDirent sb dp off "dirlink read"
      if de.inum = 0 then return (off, de)
      else emptyFrom dp rounds (off + sizeofDe) de
    else return (off, de)

/-- `de` is what the local variable holds at the start. -/
def dirlink (de : Dirent) (dp : ℕ) (name : Name) (inum : UInt32) : DirCode ℤ := do
  match ← dirlookup sb dp name with
  | some (ip, _) =>
    iput sb ip
    return -1
  | none =>
    let d ← onFs (inode dp)
    let (off, de) ← emptyFrom sb dp (d.size.toNat / DIRENT + 1) 0 de
    let de : Dirent := { de with name := strncpy de.name (byte name) DIRSIZ }
    writeDirent sb dp off { de with inum := inum.toUInt16 } "dirlink"
    return 0

/-- `sys_unlink` clears the entry it has looked up. -/
def clearDirent (dp : ℕ) (off : UInt32) : DirCode Unit :=
  writeDirent sb dp off Dirent.zero "unlink: writei"

end Xv6.DirectoryCode
