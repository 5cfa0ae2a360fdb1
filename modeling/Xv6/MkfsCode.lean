import Xv6.DiskFormat
import Xv6.Sequential

set_option autoImplicit false

/-! The image is a sequence of blocks. It grows when a block past its end is written, and a read
past its end fails. A failed assertion and an exit with an error are panics; the host's own writes
do not fail. The host is little-endian, so `xint` and `xshort` do nothing. The trace records the
numbers that are given out and what blocks are written for. -/
namespace Xv6.MkfsCode
open Xv6.Sequential ByteFields DiskFormat
open LogCode (Block BSIZE LOGSIZE)
open KernelTables (ROOTINO)
open InodeCode (NDIRECT MAXFILE CStr slash dot dotdot encode)

def FSSIZE : ℕ := 1000
def NINODES : ℕ := 200

def nbitmap : ℕ := FSSIZE / (BSIZE * 8) + 1
def ninodeblocks : ℕ := NINODES / IPB + 1
def nlog : ℕ := LOGSIZE

/-- Number of meta blocks (boot, sb, nlog, inode, bitmap) -/
def nmeta : ℕ := 2 + nlog + ninodeblocks + nbitmap

def sb : Superblock where
  magic := FSMAGIC
  size := FSSIZE
  nblocks := FSSIZE - nmeta
  ninodes := NINODES
  nlog := nlog
  logstart := 2
  inodestart := 2 + nlog
  bmapstart := 2 + nlog + ninodeblocks

def T_DIR : UInt16 := 1
def T_FILE : UInt16 := 2

inductive Event where
  | inode (inum : ℕ)
  | block (b : ℕ)
  | wroteInode (sec : ℕ)
  | wroteBitmap (sec : ℕ)
  | wroteData (sec : ℕ)

structure Mkfs where
  disk : ℕ → Block
  len : ℕ
  freeinode : ℕ
  freeblock : ℕ
  trace : List Event

def zeroes : Block := fun _ => 0

def wsect (sec : ℕ) (buf : Block) : Code Mkfs Unit :=
  .modify fun s => { s with disk := Function.update s.disk sec buf, len := max s.len (sec + 1) }

def rsect (sec : ℕ) : Code Mkfs Block := fun s =>
  if sec < s.len then .done (s.disk sec) s else .panic "read"

def note (e : Event) : Code Mkfs Unit := .modify fun s => { s with trace := s.trace ++ [e] }

def winode (inum : ℕ) (ip : DiskInode) : Code Mkfs Unit := do
  let bn := sb.IBLOCK inum
  let buf ← rsect bn
  note (.wroteInode bn)
  wsect bn (DiskInode.put buf (inum % IPB) ip)

def rinode (inum : ℕ) : Code Mkfs DiskInode := do
  let buf ← rsect (sb.IBLOCK inum)
  return DiskInode.get buf (inum % IPB)

/-- `freeinode++` -/
def nextInode : Code Mkfs ℕ := fun s =>
  .done s.freeinode
    { s with freeinode := s.freeinode + 1, trace := s.trace ++ [.inode s.freeinode] }

/-- `freeblock++` -/
def nextBlock : Code Mkfs ℕ := fun s =>
  .done s.freeblock
    { s with freeblock := s.freeblock + 1, trace := s.trace ++ [.block s.freeblock] }

def ialloc (type : UInt16) : Code Mkfs ℕ := do
  let inum ← nextInode
  winode inum { DiskInode.zero with type := type, nlink := 1, size := 0 }
  return inum

def bitmap : ℕ → Block
  | 0 => zeroes
  | n + 1 => putNat (bitmap n) (n / 8) 1 ((byte (bitmap n) (n / 8)).toNat ||| (1 <<< (n % 8)))

def balloc (n : ℕ) : Code Mkfs Unit := do
  if BSIZE * 8 ≤ n then .panic "assert"
  else
    note (.wroteBitmap sb.bmapstart)
    wsect sb.bmapstart (bitmap n)

/-- The block with file contents number `fbn`, which is allocated if there is none. -/
def appendBlock (din : DiskInode) (fbn : ℕ) : Code Mkfs (DiskInode × ℕ) := do
  if h : fbn < NDIRECT then
    if din.addr fbn = 0 then
      let b ← nextBlock
      return (din.setAddr ⟨fbn, Nat.lt_succ_of_lt h⟩ (UInt32.ofNat b), (UInt32.ofNat b).toNat)
    else return (din, (din.addr fbn).toNat)
  else
    let din ← if din.addr NDIRECT = 0 then (do
        let b ← nextBlock
        return din.setAddr (Fin.last NDIRECT) (UInt32.ofNat b))
      else pure din
    let ind := (din.addr NDIRECT).toNat
    let indirect ← rsect ind
    if getU32 indirect (4 * (fbn - NDIRECT)) = 0 then
      let b ← nextBlock
      note (.wroteData ind)
      wsect ind (putU32 indirect (4 * (fbn - NDIRECT)) (UInt32.ofNat b))
      return (din, (UInt32.ofNat b).toNat)
    else return (din, (getU32 indirect (4 * (fbn - NDIRECT))).toNat)

/-- The loop of `iappend`; every round takes at least one byte. -/
def iappendFrom : ℕ → DiskInode → ℕ → List UInt8 → Code Mkfs (DiskInode × ℕ)
  | 0, din, off, _ => return (din, off)
  | n + 1, din, off, p =>
    if p = [] then return (din, off)
    else do
      let fbn := off / BSIZE
      if MAXFILE ≤ fbn then .panic "assert"
      else
        let (din, x) ← appendBlock din fbn
        let n1 := min p.length ((fbn + 1) * BSIZE - off)
        let buf ← rsect x
        note (.wroteData x)
        wsect x (setBytes buf (off - fbn * BSIZE) n1 fun i => p.getD i 0)
        iappendFrom n din (off + n1) (p.drop n1)

def iappend (inum : ℕ) (p : List UInt8) : Code Mkfs Unit := do
  let din ← rinode inum
  let (din, off) ← iappendFrom p.length din din.size.toNat p
  winode inum { din with size := UInt32.ofNat off }

/-- What one `read` of the host returns before the end of a file. -/
abbrev Chunk := { c : List UInt8 // 0 < c.length ∧ c.length ≤ BSIZE }

/-- An argument, and what the reads of the file return unless it cannot be opened. -/
structure Input where
  arg : CStr
  chunks : Option (List Chunk)

/-- `"user/"` -/
def userDir : List UInt8 := [117, 115, 101, 114, 47]

def stripped (arg : List UInt8) : List UInt8 :=
  if arg.take 5 = userDir then arg.drop 5 else arg

def shortname (arg : List UInt8) : List UInt8 :=
  if (stripped arg).head? = some 95 then (stripped arg).tail else stripped arg

def appendChunks (inum : ℕ) : List Chunk → Code Mkfs Unit
  | [] => return ()
  | c :: cs => do
    iappend inum c.1
    appendChunks inum cs

def addFile (rootino : ℕ) (f : Input) : Code Mkfs Unit := do
  if slash ∈ stripped f.arg.1 then .panic "assert"
  else
    match f.chunks with
    | none => .panic "exit"
    | some chunks =>
      let inum ← ialloc T_FILE
      iappend rootino (encode ⟨inum, shortname f.arg.1⟩)
      appendChunks inum chunks

def addFiles (rootino : ℕ) : List Input → Code Mkfs Unit
  | [] => return ()
  | f :: fs => do
    addFile rootino f
    addFiles rootino fs

/-- The blocks that are written before the first inode. -/
def wzeroes : ℕ → Code Mkfs Unit
  | 0 => return ()
  | n + 1 => do
    wzeroes n
    wsect n zeroes

def sbBlock : Block :=
  [sb.magic, sb.size, sb.nblocks, sb.ninodes, sb.nlog, sb.logstart, sb.inodestart,
    sb.bmapstart].zipIdx.foldl (fun b v => putNat b (4 * v.2) 4 v.1) zeroes

def fixRoot (rootino : ℕ) : Code Mkfs Unit := do
  let din ← rinode rootino
  let off := (din.size.toNat / BSIZE + 1) * BSIZE
  winode rootino { din with size := UInt32.ofNat off }

def main (files : List Input) : Code Mkfs Unit := do
  wzeroes FSSIZE
  wsect 1 sbBlock
  let rootino ← ialloc T_DIR
  if rootino ≠ ROOTINO then .panic "assert"
  else
    iappend rootino (encode ⟨rootino, dot⟩)
    iappend rootino (encode ⟨rootino, dotdot⟩)
    addFiles rootino files
    fixRoot rootino
    balloc (← .get).freeblock

/-- The image is empty at first, and `freeblock` is set before it is used. -/
def start : Mkfs :=
  { disk := fun _ => zeroes, len := 0, freeinode := 1, freeblock := nmeta, trace := [] }

def mkfs (files : List Input) : Resumption.Outcome Unit Mkfs := main files start

end Xv6.MkfsCode
