import Mathlib.Data.List.FinRange
import Xv6.ByteFields
import Xv6.Paging
import Xv6.Sequential

set_option autoImplicit false

/-! `kalloc.c` and `vm.c` as sequential code over the physical memory, byte by byte. Access to an
address outside the memory is undefined. Spin-locks are left out. `kalloc` may be told to find no
page although there is one; the trace records the pages it gives out and takes back. A loop whose
source would go on for ever is cut off after as many rounds as there are pages. -/
namespace Xv6.VmCode
open Xv6.Sequential ByteFields Paging

abbrev Page := Bytes PGSIZE

/-- The addresses that `kernel.ld` sets. -/
structure Image where
  trampoline : ℕ
  /-- `end` -/
  kend : ℕ
  aligned : trampoline % PGSIZE = 0
  kernbase_le : KERNBASE ≤ trampoline
  etext_le : trampoline + PGSIZE ≤ kend
  kend_le : kend ≤ PHYSTOP

def Image.IsPage (K : Image) (pa : ℕ) : Prop := pa % PGSIZE = 0 ∧ K.kend ≤ pa ∧ pa < PHYSTOP

instance (K : Image) (pa : ℕ) : Decidable (K.IsPage pa) := inferInstanceAs (Decidable (_ ∧ _))

inductive Event where
  | kalloc (pa : ℕ)
  | kfree (pa : ℕ)
  deriving DecidableEq

structure Memory where
  page : ℕ → Page
  /-- `kmem.freelist` -/
  freelist : ℕ
  /-- Which of the next calls of `kalloc` find no page. -/
  denied : List Bool
  trace : List Event

def word (d : Page) (i : ℕ) : ℕ := getNat d (8 * i) 8

/-- `r->next` -/
def next (m : Memory) (pa : ℕ) : ℕ := word (m.page pa) 0

def setPage (m : Memory) (pa : ℕ) (d : Page) : Memory :=
  { m with page := Function.update m.page pa d }

def InRam (pa : ℕ) : Prop := KERNBASE ≤ pa ∧ pa < PHYSTOP

instance (pa : ℕ) : Decidable (InRam pa) := inferInstanceAs (Decidable (_ ∧ _))

/-- More rounds than any loop over pages has. -/
def maxRounds : ℕ := 2 ^ 52 + 1

/-- An unsigned integer of `w` bytes at an aligned address. -/
def load (w pa : ℕ) : Code Memory ℕ := fun m =>
  if InRam pa ∧ pa % w = 0 then .done (getNat (m.page (PGROUNDDOWN pa)) (pa % PGSIZE) w) m
  else .undefined

def store (w pa v : ℕ) : Code Memory Unit := fun m =>
  if InRam pa ∧ pa % w = 0 then
    .done () (setPage m (PGROUNDDOWN pa) (putNat (m.page (PGROUNDDOWN pa)) (pa % PGSIZE) w v))
  else .undefined

/-- `memset(pa, c, PGSIZE)` -/
def memset (pa : ℕ) (c : UInt8) : Code Memory Unit := fun m =>
  if InRam pa ∧ pa % PGSIZE = 0 then .done () (setPage m pa fun _ => c) else .undefined

/-- `memmove(dst, src, PGSIZE)` -/
def memmove (dst src : ℕ) : Code Memory Unit := fun m =>
  if InRam dst ∧ dst % PGSIZE = 0 ∧ InRam src ∧ src % PGSIZE = 0 then
    .done () (setPage m dst (m.page src))
  else .undefined

def kalloc : Code Memory ℕ := fun m =>
  if m.denied.head? = some true ∨ m.freelist = 0 then
    .done 0 { m with denied := m.denied.tail }
  else
    .done m.freelist
      { page := Function.update m.page m.freelist fun _ => 5
        freelist := next m m.freelist
        denied := m.denied.tail
        trace := m.trace ++ [.kalloc m.freelist] }

def kfree (K : Image) (pa : ℕ) : Code Memory Unit := fun m =>
  if pa % PGSIZE ≠ 0 ∨ pa < K.kend ∨ PHYSTOP ≤ pa then .panic "kfree"
  else
    .done ()
      { m with
        page := Function.update m.page pa (putNat (fun _ => 1) 0 8 m.freelist)
        freelist := pa
        trace := m.trace ++ [.kfree pa] }

def walkFrom (va : ℕ) (alloc : Bool) : ℕ → ℕ → Code Memory ℕ
  | 0, pagetable => return pagetable + 8 * PX 0 va
  | level + 1, pagetable => do
    let pte := pagetable + 8 * PX (level + 1) va
    let e ← load 8 pte
    if e &&& PTE_V ≠ 0 then walkFrom va alloc level (PTE2PA e)
    else if alloc = false then return 0
    else
      let page ← kalloc
      if page = 0 then return 0
      else
        memset page 0
        store 8 pte (PA2PTE page ||| PTE_V)
        walkFrom va alloc level page

/-- The address of the entry for `va`, or 0. -/
def walk (pagetable va : ℕ) (alloc : Bool) : Code Memory ℕ :=
  if MAXVA ≤ va then .panic "walk" else walkFrom va alloc 2 pagetable

def walkaddr (pagetable va : ℕ) : Code Memory ℕ :=
  if MAXVA ≤ va then return 0
  else do
    let pte ← walk pagetable va false
    if pte = 0 then return 0
    else
      let e ← load 8 pte
      if e &&& PTE_V = 0 then return 0
      else if e &&& PTE_U = 0 then return 0
      else return PTE2PA e

def mappagesFrom (pagetable perm last : ℕ) : ℕ → ℕ → ℕ → Code Memory ℤ
  | 0, _, _ => .undefined
  | n + 1, a, pa => do
    let pte ← walk pagetable a true
    if pte = 0 then return -1
    else
      let e ← load 8 pte
      if e &&& PTE_V ≠ 0 then .panic "remap"
      else
        store 8 pte (PA2PTE pa ||| perm ||| PTE_V)
        if a = last then return 0
        else mappagesFrom pagetable perm last n (u64 (a + PGSIZE)) (u64 (pa + PGSIZE))

def mappages (pagetable va size pa perm : ℕ) : Code Memory ℤ :=
  mappagesFrom pagetable perm (PGROUNDDOWN (u64 (va + size + (2 ^ 64 - 1)))) maxRounds
    (PGROUNDDOWN va) pa

/-- `uvmunmap` for one page with the entry `e`. -/
def unmapPage (K : Image) (do_free : Bool) (pte e : ℕ) : Code Memory Unit := do
  if do_free = true then kfree K (PTE2PA e)
  store 8 pte 0

def uvmunmapFrom (K : Image) (pagetable bound : ℕ) (do_free : Bool) : ℕ → ℕ → Code Memory Unit
  | 0, _ => .undefined
  | n + 1, a =>
    if a < bound then do
      let pte ← walk pagetable a false
      if pte = 0 then .panic "uvmunmap: walk"
      else
        let e ← load 8 pte
        if e &&& PTE_V = 0 then .panic "uvmunmap: not mapped"
        else if PTE_FLAGS e = PTE_V then .panic "uvmunmap: not a leaf"
        else
          unmapPage K do_free pte e
          uvmunmapFrom K pagetable bound do_free n (u64 (a + PGSIZE))
    else return ()

def uvmunmap (K : Image) (pagetable va npages : ℕ) (do_free : Bool) : Code Memory Unit :=
  if va % PGSIZE ≠ 0 then .panic "uvmunmap: not aligned"
  else uvmunmapFrom K pagetable (u64 (va + npages * PGSIZE)) do_free maxRounds va

def uvmcreate : Code Memory ℕ := do
  let pagetable ← kalloc
  if pagetable = 0 then return 0
  else
    memset pagetable 0
    return pagetable

def uvmdealloc (K : Image) (pagetable oldsz newsz : ℕ) : Code Memory ℕ :=
  if oldsz ≤ newsz then return oldsz
  else do
    if PGROUNDUP newsz < PGROUNDUP oldsz then
      let npages := s32 ((PGROUNDUP oldsz - PGROUNDUP newsz) / PGSIZE)
      uvmunmap K pagetable (PGROUNDUP newsz) npages true
    return newsz

def uvmallocFrom (K : Image) (pagetable oldsz newsz : ℕ) : ℕ → ℕ → Code Memory ℕ
  | 0, _ => .undefined
  | n + 1, a =>
    if a < newsz then do
      let mem ← kalloc
      if mem = 0 then
        let _ ← uvmdealloc K pagetable a oldsz
        return 0
      else
        memset mem 0
        if (← mappages pagetable a PGSIZE mem (PTE_W ||| PTE_X ||| PTE_R ||| PTE_U)) ≠ 0 then
          kfree K mem
          let _ ← uvmdealloc K pagetable a oldsz
          return 0
        else uvmallocFrom K pagetable oldsz newsz n (u64 (a + PGSIZE))
    else return newsz

def uvmalloc (K : Image) (pagetable oldsz newsz : ℕ) : Code Memory ℕ :=
  if newsz < oldsz then return oldsz
  else uvmallocFrom K pagetable (PGROUNDUP oldsz) newsz maxRounds (PGROUNDUP oldsz)

/-- The loop of `freewalk` over the last `n` entries, given what it does with a lower table. -/
def freewalkFrom (down : ℕ → Code Memory Unit) (pagetable : ℕ) : ℕ → Code Memory Unit
  | 0 => return ()
  | n + 1 => do
    let slot := pagetable + 8 * (511 - n)
    let pte ← load 8 slot
    if pte &&& PTE_V ≠ 0 ∧ pte &&& (PTE_R ||| PTE_W ||| PTE_X) = 0 then
      down (PTE2PA pte)
      store 8 slot 0
      freewalkFrom down pagetable n
    else if pte &&& PTE_V ≠ 0 then .panic "freewalk: leaf"
    else freewalkFrom down pagetable n

/-- `freewalk`; the stack bounds the depth of its calls. -/
def freewalk (K : Image) : ℕ → ℕ → Code Memory Unit
  | 0, _ => .undefined
  | depth + 1, pagetable => do
    freewalkFrom (freewalk K depth) pagetable 512
    kfree K pagetable

def stackDepth : ℕ := 64

def uvmfree (K : Image) (pagetable sz : ℕ) : Code Memory Unit := do
  if 0 < sz then uvmunmap K pagetable 0 (PGROUNDUP sz / PGSIZE) true
  freewalk K stackDepth pagetable

def uvmcopyFrom (K : Image) (old new sz : ℕ) : ℕ → ℕ → Code Memory ℤ
  | 0, _ => .undefined
  | n + 1, i =>
    if i < sz then do
      let pte ← walk old i false
      if pte = 0 then .panic "uvmcopy: pte should exist"
      else
        let e ← load 8 pte
        if e &&& PTE_V = 0 then .panic "uvmcopy: page not present"
        else
          let mem ← kalloc
          if mem = 0 then
            uvmunmap K new 0 (i / PGSIZE) true
            return -1
          else
            memmove mem (PTE2PA e)
            if (← mappages new i PGSIZE mem (PTE_FLAGS e)) ≠ 0 then
              kfree K mem
              uvmunmap K new 0 (i / PGSIZE) true
              return -1
            else uvmcopyFrom K old new sz n (u64 (i + PGSIZE))
    else return 0

def uvmcopy (K : Image) (old new sz : ℕ) : Code Memory ℤ :=
  uvmcopyFrom K old new sz maxRounds 0

def uvmclear (pagetable va : ℕ) : Code Memory Unit := do
  let pte ← walk pagetable va false
  if pte = 0 then .panic "uvmclear"
  else
    let e ← load 8 pte
    store 8 pte (e &&& (2 ^ 64 - 1 - PTE_U))

end Xv6.VmCode
