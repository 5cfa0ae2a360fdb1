import Xv6.BlockReads
import Xv6.UserStrings

set_option autoImplicit false

/-! `exec.c`, with `proc_pagetable` and `proc_freepagetable`. The file is what `namei` finds, as the
contents that it keeps while its inode is locked. The process's trapframe, the strings of `argv` and
the array `ustack` on its kernel stack are in the physical memory. -/
namespace Xv6.ExecCode
open Xv6.Sequential ByteFields Paging VmCode UserAccess UserStrings
open BlockFiles (Contents contents)

def ELF_MAGIC : ℕ := 0x464C457F
def ELF_PROG_LOAD : ℕ := 1
def MAXARG : ℕ := 32

/-- `a - b` in 64 bits. -/
def sub64 (a b : ℕ) : ℕ := u64 (a + (2 ^ 64 - u64 b))

/-- The size of a file is a `uint`. -/
abbrev File := { ip : Contents // ip.size < 2 ^ 32 }

/-- The number of bytes that `readi` reads. -/
def count (ip : File) (off n : ℕ) : ℕ :=
  if ip.1.size < off ∨ u32 (off + n) < off then 0
  else if ip.1.size < u32 (off + n) then ip.1.size - off
  else n

def readi (ip : File) (off n : ℕ) : List UInt8 :=
  (List.range (count ip off n)).map fun j => ip.1.byte (off + j)

def fileOf (s : BlockCode.Fs) (i : ℕ) : File := ⟨contents s i, (s.mem i).size.toNat_lt⟩

/-- `readi` reads a file without holes so. -/
theorem readi_refines {sb : DiskFormat.Superblock} {s : BlockCode.Fs} {i room : ℕ}
    (hwhole : BlockReads.NoHoles s i)
    (hsize : (contents s i).size ≤ InodeCode.MAXFILE * LogCode.BSIZE) (off n : UInt32)
    (hroom : n.toNat ≤ room) :
    BlockCode.readi sb i room off n s = .done (readi (fileOf s i) off.toNat n.toNat) s := by
  have hoff : off.toNat < 2 ^ 32 := off.toNat_lt
  have hn : n.toNat < 2 ^ 32 := n.toNat_lt
  have hlt : (contents s i).size < 2 ^ 32 := (fileOf s i).2
  have hcount : count (fileOf s i) off.toNat n.toNat =
      if (contents s i).size < off.toNat ∨ 2 ^ 32 ≤ off.toNat + n.toNat then 0
      else min n.toNat ((contents s i).size - off.toNat) := by
    unfold count fileOf u32
    dsimp only
    split_ifs <;> omega
  rw [BlockReads.readi_eq hwhole hsize off n hroom]
  unfold readi
  rw [hcount]
  split_ifs
  · rfl
  · rfl

def field (f : ℕ → UInt8) (off w : ℕ) : ℕ := leDecode (fun j => f (off + j)) w

structure Elfhdr where
  magic : ℕ
  entry : ℕ
  phoff : ℕ
  phnum : ℕ

/-- `sizeof(struct elfhdr)` -/
def elfSize : ℕ := 64

def Elfhdr.ofBytes (f : ℕ → UInt8) : Elfhdr where
  magic := field f 0 4
  entry := field f 24 8
  phoff := field f 32 8
  phnum := field f 56 2

structure Proghdr where
  type : ℕ
  off : ℕ
  vaddr : ℕ
  filesz : ℕ
  memsz : ℕ

/-- `sizeof(struct proghdr)` -/
def phSize : ℕ := 56

def Proghdr.ofBytes (f : ℕ → UInt8) : Proghdr where
  type := field f 0 4
  off := field f 8 8
  vaddr := field f 16 8
  filesz := field f 32 8
  memsz := field f 40 8

def procPagetable (K : Image) (trapframe : ℕ) : Code Memory ℕ := do
  let pagetable ← uvmcreate
  if pagetable = 0 then return 0
  else if (← mappages pagetable TRAMPOLINE PGSIZE K.trampoline (PTE_R ||| PTE_X)) < 0 then
    uvmfree K pagetable 0
    return 0
  else if (← mappages pagetable TRAPFRAME PGSIZE trapframe (PTE_R ||| PTE_W)) < 0 then
    uvmunmap K pagetable TRAMPOLINE 1 false
    uvmfree K pagetable 0
    return 0
  else return pagetable

def procFreepagetable (K : Image) (pagetable sz : ℕ) : Code Memory Unit := do
  uvmunmap K pagetable TRAMPOLINE 1 false
  uvmunmap K pagetable TRAPFRAME 1 false
  uvmfree K pagetable sz

/-- The copies of `readi` to the kernel's memory. -/
def put : ℕ → List UInt8 → Code Memory Unit
  | _, [] => return ()
  | pa, b :: bs => do
    storeByte pa b
    put (pa + 1) bs

def loadsegFrom (pagetable va : ℕ) (ip : File) (offset sz : ℕ) : ℕ → ℕ → Code Memory ℤ
  | 0, _ => .undefined
  | k + 1, i =>
    if i < sz then do
      let pa ← walkaddr pagetable (u64 (va + i))
      if pa = 0 then .panic "loadseg: address should exist"
      else
        let n := if sz - i < PGSIZE then sz - i else PGSIZE
        let bytes := readi ip (u32 (offset + i)) n
        put pa bytes
        if bytes.length ≠ n then return -1
        else loadsegFrom pagetable va ip offset sz k (u32 (i + PGSIZE))
    else return 0

def loadseg (pagetable va : ℕ) (ip : File) (offset sz : ℕ) : Code Memory ℤ :=
  if va % PGSIZE ≠ 0 then .panic "loadseg: va must be page aligned"
  else loadsegFrom pagetable va ip offset sz maxRounds 0

/-- The loop over the program headers, of which `n` are left. It answers the size so far, and
    whether all of them were loaded. -/
def loadFrom (K : Image) (pagetable : ℕ) (ip : File) : ℕ → ℕ → ℕ → Code Memory (ℕ × Bool)
  | 0, _, sz => return (sz, true)
  | n + 1, off, sz => do
    let bytes := readi ip off phSize
    let ph := Proghdr.ofBytes (bytes.getD · 0)
    if bytes.length ≠ phSize then return (sz, false)
    else if ph.type ≠ ELF_PROG_LOAD then loadFrom K pagetable ip n (u32 (off + phSize)) sz
    else if ph.memsz < ph.filesz then return (sz, false)
    else if u64 (ph.vaddr + ph.memsz) < ph.vaddr then return (sz, false)
    else
      let sz1 ← uvmalloc K pagetable sz (u64 (ph.vaddr + ph.memsz))
      if sz1 = 0 then return (sz, false)
      else if ph.vaddr % PGSIZE ≠ 0 then return (sz1, false)
      else if (← loadseg pagetable ph.vaddr ip (u32 ph.off) (u32 ph.filesz)) < 0 then
        return (sz1, false)
      else loadFrom K pagetable ip n (u32 (off + phSize)) sz1

/-- `exec` up to the end of that loop. It answers the entry point, the new page table and its size,
    or nothing if it has failed. -/
def execLoad (K : Image) (trapframe : ℕ) (ip : File) : Code Memory (Option (ℕ × ℕ × ℕ)) := do
  let bytes := readi ip 0 elfSize
  let elf := Elfhdr.ofBytes (bytes.getD · 0)
  if bytes.length ≠ elfSize then return none
  else if elf.magic ≠ ELF_MAGIC then return none
  else
    let pagetable ← procPagetable K trapframe
    if pagetable = 0 then return none
    else
      let (sz, ok) ← loadFrom K pagetable ip elf.phnum (u32 elf.phoff) 0
      if ok = false then
        procFreepagetable K pagetable sz
        return none
      else return some (elf.entry, pagetable, sz)

def strlenFrom (s : ℕ) : ℕ → ℕ → Code Memory ℕ
  | 0, _ => .undefined
  | k + 1, n => do
    let c ← loadByte (s + n)
    if c = 0 then return n else strlenFrom s k (n + 1)

def strlen (s : ℕ) : Code Memory ℕ := strlenFrom s maxRounds 0

/-- Push the strings from the `argc`-th on. It answers their number and the stack pointer, or
    nothing where the source goes to `bad`. -/
def pushArgs (pagetable ustack stackbase : ℕ) : List ℕ → ℕ → ℕ → Code Memory (Option (ℕ × ℕ))
  | [], argc, sp => return some (argc, sp)
  | arg :: rest, argc, sp =>
    if MAXARG ≤ argc then return none
    else do
      let len ← strlen arg
      let sp := sub64 sp (len + 1)
      let sp := sub64 sp (sp % 16)
      if sp < stackbase then return none
      else if (← copyout pagetable sp arg (len + 1)) < 0 then return none
      else
        store 8 (ustack + 8 * argc) sp
        pushArgs pagetable ustack stackbase rest (argc + 1) sp

/-- The strings, and the array of the pointers to them. -/
def pushStack (pagetable ustack sz : ℕ) (argv : List ℕ) : Code Memory (Option (ℕ × ℕ)) := do
  let stackbase := sub64 sz PGSIZE
  match ← pushArgs pagetable ustack stackbase argv 0 sz with
  | none => return none
  | some (argc, sp) =>
    store 8 (ustack + 8 * argc) 0
    let sp := sub64 sp ((argc + 1) * 8)
    let sp := sub64 sp (sp % 16)
    if sp < stackbase then return none
    else if (← copyout pagetable sp ustack ((argc + 1) * 8)) < 0 then return none
    else return some (argc, sp)

structure Process where
  pagetable : ℕ
  sz : ℕ
  trapframe : ℕ
  ustack : ℕ
  name : List UInt8

/-- The fields of `struct trapframe`. -/
def tfEpc : ℕ := 24
def tfSp : ℕ := 48
def tfA1 : ℕ := 120

/-- The part of the path after its last slash. -/
def lastElem (path : List UInt8) : List UInt8 := (path.reverse.takeWhile (· ≠ 0x2f)).reverse

/-- `exec` once the program is loaded. -/
def execStart (K : Image) (p : Process) (path : List UInt8) (argv : List ℕ)
    (entry pagetable size : ℕ) : Code Memory (ℤ × Process) := do
  let sz := PGROUNDUP size
  let sz1 ← uvmalloc K pagetable sz (u64 (sz + 2 * PGSIZE))
  if sz1 = 0 then
    procFreepagetable K pagetable sz
    return (-1, p)
  else
    uvmclear pagetable (sub64 sz1 (2 * PGSIZE))
    match ← pushStack pagetable p.ustack sz1 argv with
    | none =>
      procFreepagetable K pagetable sz1
      return (-1, p)
    | some (argc, sp) =>
      store 8 (p.trapframe + tfA1) sp
      store 8 (p.trapframe + tfEpc) entry
      store 8 (p.trapframe + tfSp) sp
      procFreepagetable K p.pagetable p.sz
      return (argc, { p with name := (lastElem path).take 15, pagetable := pagetable, sz := sz1 })

def exec (K : Image) (p : Process) (ip : Option File) (path : List UInt8) (argv : List ℕ) :
    Code Memory (ℤ × Process) := do
  match ip with
  | none => return (-1, p)
  | some ip =>
    match ← execLoad K p.trapframe ip with
    | none => return (-1, p)
    | some (entry, pagetable, sz) => execStart K p path argv entry pagetable sz

end Xv6.ExecCode
