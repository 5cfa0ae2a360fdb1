import Mathlib.Algebra.Group.Int.Defs
import Mathlib.Algebra.Group.Nat.Defs
import Xv6.Sequential

set_option autoImplicit false

/-! A pointer to a `Header` is the number of the header: headers are 16 bytes, and the pointers that
are passed to and from a program are in bytes. `sbrk` may fail at any time; otherwise the new memory
lies above what was returned before, perhaps with a gap below it. `brk` is the first header number
above all that memory; `got` records the memory that `sbrk` has returned. The loops run through
cells below `brk`, which bounds their rounds. -/
namespace Xv6.UmallocCode
open Xv6.Sequential

structure Heap where
  ptr : ℕ → ℕ
  size : ℕ → ℕ
  freep : ℕ
  brk : ℕ
  got : List (ℕ × ℕ)

abbrev HeapCode (α : Type) := Code Heap α

def setPtr (p v : ℕ) : HeapCode Unit :=
  .modify fun s => { s with ptr := Function.update s.ptr p v }

def setSize (p v : ℕ) : HeapCode Unit :=
  .modify fun s => { s with size := Function.update s.size p v }

def setFreep (p : ℕ) : HeapCode Unit := .modify fun s => { s with freep := p }

def freeSearch (s : Heap) (bp : ℕ) : ℕ → ℕ → Option ℕ
  | 0, _ => none
  | rounds + 1, p =>
    if bp > p ∧ bp < s.ptr p then some p
    else if p ≥ s.ptr p ∧ (bp > p ∨ bp < s.ptr p) then some p
    else freeSearch s bp rounds (s.ptr p)

/-- The block behind `p` joins the one at `bp` if they are adjacent. -/
def joinUpper (bp p : ℕ) : HeapCode Unit := do
  let s ← Code.get
  if bp + s.size bp = s.ptr p then
    setSize bp ((s.size bp + s.size (s.ptr p)) % 2 ^ 32)
    setPtr bp (s.ptr (s.ptr p))
  else setPtr bp (s.ptr p)

/-- The block at `bp` joins the one at `p` if they are adjacent. -/
def joinLower (bp p : ℕ) : HeapCode Unit := do
  let s ← Code.get
  if p + s.size p = bp then
    setSize p ((s.size p + s.size bp) % 2 ^ 32)
    setPtr p (s.ptr bp)
  else setPtr p bp

def free (ap : ℕ) : HeapCode Unit := do
  let bp := ap / 16 - 1
  let s ← Code.get
  match freeSearch s bp (s.brk + 2) s.freep with
  | none => .undefined
  | some p =>
    joinUpper bp p
    joinLower bp p
    setFreep p

/-- `sbrk` of `n` bytes, a multiple of 16, with a gap below the memory it returns. A size
    that leaves the range of a `uint` wraps in `growproc`, and the memory stays as it is. -/
def sbrk (gap : Option ℕ) (n : ℤ) : HeapCode (Option ℕ) := fun s =>
  match gap with
  | none => .done none s
  | some gap =>
    let a := s.brk + gap
    let top : ℤ := a + n / 16
    let brk := if 0 ≤ top ∧ top < 2 ^ 28 then top.toNat else a
    .done (some a) { s with brk := brk, got := s.got ++ [(a, brk - a)] }

def morecore (gap : Option ℕ) (nu : ℕ) : HeapCode ℕ := do
  let nu := if nu < 4096 then 4096 else nu
  match ← sbrk gap (Int.bmod (nu * 16) (2 ^ 32)) with
  | none => return 0
  | some hp =>
    setSize hp nu
    free ((hp + 1) * 16)
    return (← Code.get).freep

/-- `nunits` of the block at `p` are taken off the list. -/
def takeUnits (nunits prevp p : ℕ) : HeapCode ℕ := do
  let s ← Code.get
  if s.size p = nunits then
    setPtr prevp (s.ptr p)
    setFreep prevp
    return (p + 1) * 16
  else
    setSize p (s.size p - nunits)
    setSize (p + (s.size p - nunits)) nunits
    setFreep prevp
    return (p + (s.size p - nunits) + 1) * 16

def mallocSearch (gap : Option ℕ) (nunits : ℕ) : ℕ → ℕ → ℕ → HeapCode ℕ
  | 0, _, _ => .undefined
  | rounds + 1, prevp, p => do
    let s ← Code.get
    if s.size p ≥ nunits then takeUnits nunits prevp p
    else if p = s.freep then
      let p ← morecore gap nunits
      if p = 0 then return 0
      else mallocSearch gap nunits rounds p ((← Code.get).ptr p)
    else mallocSearch gap nunits rounds p (s.ptr p)

/-- The header and the units behind it, for `nbytes`. -/
def units (nbytes : ℕ) : ℕ := (nbytes + 16 - 1) / 16 + 1

variable (base : ℕ)

def ready : HeapCode Unit := do
  if (← Code.get).freep = 0 then
    setPtr base base
    setFreep base
    setSize base 0

def malloc (gap : Option ℕ) (nbytes : UInt32) : HeapCode ℕ := do
  ready base
  let s ← Code.get
  mallocSearch gap (units nbytes.toNat) (2 * s.brk + 4) s.freep (s.ptr s.freep)

end Xv6.UmallocCode
