import Mathlib.Data.List.Range
import Xv6.DiskFormat
import Xv6.Sequential

set_option autoImplicit false

/-! The lower half of `fs.c` on a locked inode, and the loop of `filewrite`, run to their end one
after the other. `disk` is the blocks as seen through the buffer cache; `logged` records the numbers
passed to `log_write`. A source of bytes has no byte where the memory cannot be read, and a copy
stops there; what it has copied stays in the buffer. -/
namespace Xv6.BlockCode
open Xv6.Sequential ByteFields DiskFormat
open LogCode (Block BSIZE MAXOPBLOCKS)
open InodeCode (NDIRECT NINDIRECT MAXFILE)

structure Fs where
  disk : ℕ → Block
  mem : ℕ → DiskInode
  logged : List ℕ

abbrev FsCode (α : Type) := Code Fs α

def bread (b : ℕ) : FsCode Block := fun s => .done (s.disk b) s

def setBlock (b : ℕ) (f : Block → Block) : FsCode Unit :=
  .modify fun s => { s with disk := Function.update s.disk b (f (s.disk b)) }

def logWrite (b : ℕ) : FsCode Unit := .modify fun s => { s with logged := s.logged ++ [b] }

def inode (i : ℕ) : FsCode DiskInode := fun s => .done (s.mem i) s

def setInode (i : ℕ) (f : DiskInode → DiskInode) : FsCode Unit :=
  .modify fun s => { s with mem := Function.update s.mem i (f (s.mem i)) }

variable (sb : Superblock)

def bzero (b : ℕ) : FsCode Unit := do
  setBlock b fun _ _ => 0
  logWrite b

/-- The inner loop of `balloc`: the first free bit from `bi` on. -/
def freeBit (blk : Block) (b : ℕ) : ℕ → ℕ → Option ℕ
  | 0, _ => none
  | rounds + 1, bi =>
    if bi < BPB ∧ b + bi < sb.size then
      if bit blk bi = false then some bi else freeBit blk b rounds (bi + 1)
    else none

def ballocFrom : ℕ → ℕ → FsCode ℕ
  | 0, _ => .panic "balloc: out of blocks"
  | rounds + 1, b =>
    if b < sb.size then do
      let blk ← bread (sb.BBLOCK b)
      match freeBit sb blk b BPB 0 with
      | some bi =>
        setBlock (sb.BBLOCK b) fun blk => setBit blk bi
        logWrite (sb.BBLOCK b)
        bzero (b + bi)
        return b + bi
      | none => ballocFrom rounds (b + BPB)
    else .panic "balloc: out of blocks"

def balloc : FsCode ℕ := ballocFrom sb (sb.size / BPB + 1) 0

/-- `data[i/8] &= ~(1 << (i % 8))` -/
def clearBit (blk : Block) (i : ℕ) : Block :=
  putNat blk (i / 8) 1 ((byte blk (i / 8)).toNat &&& (255 ^^^ (1 <<< (i % 8))))

def bfree (b : ℕ) : FsCode Unit := do
  let blk ← bread (sb.BBLOCK b)
  if bit blk (b % BPB) = false then .panic "freeing free block"
  else
    setBlock (sb.BBLOCK b) fun blk => clearBit blk (b % BPB)
    logWrite (sb.BBLOCK b)

def iupdate (i : ℕ) : FsCode Unit := do
  let d ← inode i
  setBlock (sb.IBLOCK i) fun blk => d.put blk (i % IPB)
  logWrite (sb.IBLOCK i)

/-- `ip->addrs[k]`, which is allocated if it is 0. -/
def addrOf (i : ℕ) (k : Fin (NDIRECT + 1)) : FsCode ℕ := do
  let addr := (← inode i).addrs k
  if addr = 0 then
    let b ← balloc sb
    setInode i fun d => d.setAddr k (UInt32.ofNat b)
    return b
  else return addr.toNat

def bmap (i bn : ℕ) : FsCode ℕ :=
  if h : bn < NDIRECT then addrOf sb i ⟨bn, Nat.lt_succ_of_lt h⟩
  else if bn - NDIRECT < NINDIRECT then do
    let ind ← addrOf sb i (Fin.last NDIRECT)
    let blk ← bread ind
    let addr := getU32 blk (4 * (bn - NDIRECT))
    if addr = 0 then
      let b ← balloc sb
      setBlock ind fun blk => putU32 blk (4 * (bn - NDIRECT)) (UInt32.ofNat b)
      logWrite ind
      return b
    else return addr.toNat
  else .panic "bmap: out of range"

def freeDirect (i : ℕ) : List (Fin (NDIRECT + 1)) → FsCode Unit
  | [] => return ()
  | k :: ks => do
    let addr := (← inode i).addrs k
    if addr ≠ 0 then
      bfree sb addr.toNat
      setInode i fun d => d.setAddr k 0
    freeDirect i ks

def freeEntries (blk : Block) : List ℕ → FsCode Unit
  | [] => return ()
  | j :: js => do
    if getU32 blk (4 * j) ≠ 0 then bfree sb (getU32 blk (4 * j)).toNat
    freeEntries blk js

def itrunc (i : ℕ) : FsCode Unit := do
  freeDirect sb i ((List.finRange NDIRECT).map Fin.castSucc)
  let ind := (← inode i).addrs (Fin.last NDIRECT)
  if ind ≠ 0 then
    let blk ← bread ind.toNat
    freeEntries sb blk (List.range NINDIRECT)
    bfree sb ind.toNat
    setInode i fun d => d.setAddr (Fin.last NDIRECT) 0
  setInode i fun d => { d with size := 0 }
  iupdate sb i

/-- A byte at each position of a user's memory that can be read. -/
abbrev Source := ℕ → Option UInt8

def copied (src : Source) : ℕ → ℕ → ℕ
  | _, 0 => 0
  | tot, m + 1 => if (src tot).isSome then copied src (tot + 1) m + 1 else 0

/-- The loop of `writei`; the answer is the offset at its end. -/
def writeFrom (i : ℕ) (src : Source) (n : ℕ) : ℕ → ℕ → ℕ → FsCode ℕ
  | 0, _, off => return off
  | rounds + 1, tot, off =>
    if tot < n then do
      let b ← bmap sb i (off / BSIZE)
      let m := min (n - tot) (BSIZE - off % BSIZE)
      let k := copied src tot m
      setBlock b fun blk => setBytes blk (off % BSIZE) k fun j => (src (tot + j)).getD 0
      if k < m then return off
      else
        logWrite b
        writeFrom i src n rounds (tot + m) (off + m)
    else return off

def writei (i : ℕ) (src : Source) (off n : UInt32) : FsCode ℤ := do
  let d ← inode i
  if off > d.size ∨ off + n < off then return -1
  else if off.toNat + n.toNat > MAXFILE * BSIZE then return -1
  else
    let off' ← writeFrom sb i src n.toNat n.toNat 0 off.toNat
    if 0 < n then
      let d ← inode i
      if off' > d.size.toNat then setInode i fun d => { d with size := UInt32.ofNat off' }
      iupdate sb i
    return n.toNat

/-- The loop of `readi`: the bytes read, where `room` can be written at the destination. -/
def readFrom (i n room : ℕ) : ℕ → ℕ → ℕ → FsCode (List UInt8)
  | 0, _, _ => return []
  | rounds + 1, tot, off =>
    if tot < n then do
      let b ← bmap sb i (off / BSIZE)
      let blk ← bread b
      let m := min (n - tot) (BSIZE - off % BSIZE)
      if room < tot + m then return []
      else
        let rest ← readFrom i n room rounds (tot + m) (off + m)
        return (List.range m).map (fun j => byte blk (off % BSIZE + j)) ++ rest
    else return []

def readi (i room : ℕ) (off n : UInt32) : FsCode (List UInt8) := do
  let d ← inode i
  if off > d.size ∨ off + n < off then return []
  else
    let n' := if off + n > d.size then d.size - off else n
    readFrom sb i n'.toNat room n'.toNat 0 off.toNat

structure File where
  fs : Fs
  off : UInt32

def maxWrite : ℕ := (MAXOPBLOCKS - 1 - 1 - 2) / 2 * BSIZE

def onFs {α : Type} (c : FsCode α) : Code File α := c.within File.fs fun fs f => { f with fs := fs }

def filewriteFrom (ip : ℕ) (src : Source) (n : ℤ) : ℕ → ℤ → Code File ℤ
  | 0, _ => .undefined
  | rounds + 1, i =>
    if i < n then do
      let n1 := min (n - i) maxWrite
      let off := (← (Code.get : Code File File)).off
      let r ← onFs (writei sb ip (fun j => src (i.toNat + j)) off (UInt32.ofNat n1.toNat))
      if r > 0 then .modify fun f => { f with off := f.off + UInt32.ofNat r.toNat }
      if r < 0 then return -1
      else if r ≠ n1 then .panic "short filewrite"
      else filewriteFrom ip src n rounds (i + r)
    else return if i = n then n else -1

/-- `filewrite` on a writable file of an inode. -/
def filewrite (ip : ℕ) (src : Source) (n : ℤ) : Code File ℤ :=
  filewriteFrom sb ip src n (n.toNat / maxWrite + 2) 0

end Xv6.BlockCode
