import Mathlib.Data.Fin.Basic
import Mathlib.Algebra.GroupWithZero.Nat
import Xv6.SleepCode

set_option autoImplicit false

/-! `consoleread` and `consoleintr` for any number of processes and interrupts, without echoing and
`procdump`. The history is not part of the kernel: each index has a counter that moves with it but
does not wrap, `text` holds what was stored at each value of the edit counter, and `notes` lists
what `consoleread` did for whom. -/
namespace Xv6.ConsoleCode
open SleepCode

def INPUT_BUF : ℕ := 128

structure Cons where
  buf : Fin INPUT_BUF → UInt8
  r : UInt32
  w : UInt32
  e : UInt32

instance : NeZero INPUT_BUF := ⟨by decide⟩

/-- `buf[i % INPUT_BUF]` -/
def Cons.at (c : Cons) (i : UInt32) : UInt8 := c.buf (Fin.ofNat INPUT_BUF i.toNat)

/-- What happens in a call of `consoleread`. -/
inductive Note where
  | call (m : ℤ)
  /-- A character is copied to the user. -/
  | got (c : UInt8)
  /-- A control-D is found, and kept for the next call or not. -/
  | eof (kept : Bool)
  | ret (r : ℤ)
  deriving DecidableEq

structure Data (n : ℕ) where
  cons : Cons
  rCount : ℕ
  wCount : ℕ
  eCount : ℕ
  text : ℕ → UInt8
  notes : List (Fin n × Note)

variable {n : ℕ}

abbrev ConsProg (n : ℕ) (α : Type) := Code n Unit Unit (Data n) α

/-- `C(x)` -/
def ctrl (x : Char) : UInt8 := UInt8.ofNat (x.toNat - '@'.toNat)

def newline : UInt8 := 10

def carriageReturn : UInt8 := 13

def delete : UInt8 := 0x7f

def cons : ConsProg n Cons := read Data.cons

def Data.note (d : Data n) (p : Fin n) (ν : Note) : Data n :=
  { d with notes := d.notes ++ [(p, ν)] }

/-- `cons.r++` -/
def Data.take (d : Data n) : Data n :=
  { d with cons := { d.cons with r := d.cons.r + 1 }, rCount := d.rCount + 1 }

/-- `cons.r--` -/
def Data.untake (d : Data n) : Data n :=
  { d with cons := { d.cons with r := d.cons.r - 1 }, rCount := d.rCount - 1 }

/-- `cons.e--` -/
def Data.erase (d : Data n) : Data n :=
  { d with cons := { d.cons with e := d.cons.e - 1 }, eCount := d.eCount - 1 }

/-- `cons.buf[cons.e++ % INPUT_BUF] = c` -/
def Data.store (d : Data n) (c : UInt8) : Data n :=
  { d with
    cons := { d.cons with
      buf := Function.update d.cons.buf (Fin.ofNat INPUT_BUF d.cons.e.toNat) c
      e := d.cons.e + 1 }
    eCount := d.eCount + 1
    text := Function.update d.text d.eCount c }

/-- `cons.w = cons.e` -/
def Data.commit (d : Data n) : Data n :=
  { d with cons := { d.cons with w := d.cons.e }, wCount := d.eCount }

/-- Where a process is: outside the kernel, with the result of its last call, or asleep in
    `consoleread`. -/
inductive Loc where
  | user (r : ℤ)
  | reading (target : ℤ) (m room : ℕ)
  deriving DecidableEq

/-- The end of `consoleread`. -/
def finish (p : Fin n) (r : ℤ) : ConsProg n Loc := do
  modify fun d => d.note p (.ret r)
  act (.release (.data ()))
  return .user r

/-- The loop of `consoleread` with `m` bytes to go, of which `room` can be copied out. -/
def consolereadFrom (p : Fin n) (target : ℤ) : ℕ → ℕ → ConsProg n Loc
  | 0, _ => finish p target
  | m + 1, room => do
    let k ← cons
    if k.r = k.w then
      if ← act .killed then finish p (-1)
      else
        sleep p () ()
        return .reading target (m + 1) room
    else
      let c ← data fun d => .done (d.cons.at d.cons.r) d.take
      if c = ctrl 'D' then
        if ((m + 1 : ℕ) : ℤ) < target then
          modify fun d => d.untake.note p (.eof true)
        else
          modify fun d => d.note p (.eof false)
        finish p (target - (m + 1 : ℕ))
      else if room = 0 then finish p (target - (m + 1 : ℕ))
      else
        modify fun d => d.note p (.got c)
        if c = newline then finish p (target - m)
        else consolereadFrom p target m (room - 1)

def consoleread (p : Fin n) (m : ℤ) (room : ℕ) : ConsProg n Loc := do
  act (.acquire (.data ()))
  modify fun d => d.note p (.call m)
  if 0 < m then consolereadFrom p m m.toNat room else finish p 0

/-- The loop of kill-line; it ends after at most `cons.e - cons.w` rounds. -/
def killLine : ℕ → ConsProg n Unit
  | 0 => return ()
  | rounds + 1 => do
    let k ← cons
    if k.e ≠ k.w ∧ k.at (k.e - 1) ≠ newline then
      modify Data.erase
      killLine rounds

def backspace : ConsProg n Unit := do
  let k ← cons
  if k.e ≠ k.w then modify Data.erase

def insert (c : UInt8) : ConsProg n Unit := do
  let k ← cons
  if c ≠ 0 ∧ k.e - k.r < UInt32.ofNat INPUT_BUF then
    let c := if c = carriageReturn then newline else c
    modify fun d => d.store c
    let k ← cons
    if c = newline ∨ c = ctrl 'D' ∨ k.e = k.r + UInt32.ofNat INPUT_BUF then
      modify Data.commit
      wakeup ()

def edit (c : UInt8) : ConsProg n Unit :=
  if c = ctrl 'P' then return ()
  else if c = ctrl 'U' then do
    let k ← cons
    killLine (k.e - k.w).toNat
  else if c = ctrl 'H' ∨ c = delete then backspace
  else insert c

def consoleintr (c : UInt8) : ConsProg n Unit := do
  act (.acquire (.data ()))
  edit c
  act (.release (.data ()))

end Xv6.ConsoleCode
