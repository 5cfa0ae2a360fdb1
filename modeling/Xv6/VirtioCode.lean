import Mathlib.Algebra.GroupWithZero.Nat
import Mathlib.Data.Fintype.Basic
import Mathlib.Data.List.FinRange
import Xv6.Interleaving

set_option autoImplicit false

/-! `virtio_disk.c` from the allocation of descriptors on, and the device. Processes call
`virtio_disk_rw` for a buffer they have locked, and `virtio_disk_intr` runs at any time. A process
that sleeps may be woken at any time. The device takes heads of chains from the ring of available
ones and posts each of them in the used ring, in any order. Every store that it can see is an action
of its own. The trace records what happens to the requests. -/
namespace Xv6.VirtioCode
open Resumption Interleaving
open Function (update)

def NUM : ℕ := 8

instance : NeZero NUM := ⟨by decide⟩

def VRING_DESC_F_NEXT : UInt16 := 1
def VRING_DESC_F_WRITE : UInt16 := 2

/-- What the address in a descriptor points to. -/
inductive Addr (B : Type) where
  | null
  | header (write : Bool) (b : B)
  | data (b : B)
  | status (i : Fin NUM)

structure VRingDesc (B : Type) where
  addr : Addr B
  len : UInt32
  flags : UInt16
  next : UInt16

structure Info (B : Type) where
  b : Option B
  status : UInt8

inductive Event (B : Type) where
  | submit (b : B) (h : Fin NUM)
  | take (h : Fin NUM)
  | post (b : B) (h : Fin NUM)
  | clear (b : B) (h : Fin NUM)
  | advance (h : Fin NUM)
  | retire (b : B) (h : Fin NUM)
  deriving DecidableEq

inductive Party (T : Type) where
  | device
  | cpu (t : T)
  deriving DecidableEq

structure Disk (T B : Type) where
  desc : Fin NUM → VRingDesc B
  -- `avail[2...]`
  ring : Fin NUM → UInt16
  idx : UInt16
  -- `used->elems[].id`
  elems : Fin NUM → UInt32
  id : UInt16
  free : Fin NUM → Bool
  usedIdx : UInt16
  info : Fin NUM → Info B
  vdiskLock : Option (Party T)
  disk : B → Bool
  locked : B → Option (Party T)
  -- how far the device has looked in `avail`
  seen : UInt16
  -- the heads that the device has taken and not begun to post
  taken : List (Fin NUM)
  posting : Option (Fin NUM)
  trace : List (Event B)

inductive Act (B : Type) : Type → Type where
  | acquiresleep (b : B) : Act B Unit
  | releasesleep (b : B) : Act B Unit
  | acquire : Act B Unit
  | release : Act B Unit
  | fail (msg : String) : Act B Unit
  | allocDesc : Act B (Option (Fin NUM))
  | freeDesc (i : ℕ) : Act B Unit
  | getDesc (i : ℕ) : Act B (VRingDesc B)
  | setDesc (i : Fin NUM) (f : VRingDesc B → VRingDesc B) : Act B Unit
  | setStatus (i : Fin NUM) (v : UInt8) : Act B Unit
  | setDisk (b : B) : Act B Unit
  | getDisk (b : B) : Act B Bool
  | setInfo (i : Fin NUM) (b : B) : Act B Unit
  | clearInfo (i : Fin NUM) (b : B) : Act B Unit
  | putAvail (i : Fin NUM) : Act B Unit
  | bumpAvail (b : B) (i : Fin NUM) : Act B Unit
  | more : Act B Bool
  | elem : Act B ℕ
  | getStatus (i : ℕ) : Act B UInt8
  | clearDisk (i : ℕ) : Act B Unit
  | bumpUsed (i : ℕ) : Act B Unit
  | take : Act B Unit
  -- it begins to post one of the heads that it has taken
  | pick (h : Fin NUM) : Act B Unit
  | writeStatus (h : Fin NUM) : Act B Unit
  | putUsed (h : Fin NUM) : Act B Unit
  | bumpId (h : Fin NUM) : Act B Unit

/-- The place of a counter in a ring. -/
def slot (n : UInt16) : Fin NUM := Fin.ofNat NUM n.toNat

variable {T B : Type} [DecidableEq T] [DecidableEq B]

/-- An element of one of the arrays; an index past the end is not checked. -/
def within {β : Type} (i : ℕ) (k : Fin NUM → Outcome β (Disk T B)) : Outcome β (Disk T B) :=
  if h : i < NUM then k ⟨i, h⟩ else .undefined

def firstFree (free : Fin NUM → Bool) : Option (Fin NUM) := (List.finRange NUM).find? free

@[simp] def exec (p : Party T) : {β : Type} → Act B β → Disk T B → Outcome β (Disk T B)
  | _, .acquiresleep b, s =>
    if s.locked b = none then
      .done () { s with locked := update s.locked b (some p) }
    else .blocked
  | _, .releasesleep b, s => .done () { s with locked := update s.locked b none }
  | _, .acquire, s =>
    if s.vdiskLock = none then .done () { s with vdiskLock := some p } else .blocked
  | _, .release, s =>
    if s.vdiskLock = some p then .done () { s with vdiskLock := none } else .panic "release"
  | _, .fail msg, _ => .panic msg
  | _, .allocDesc, s =>
    match firstFree s.free with
    | none => .done none s
    | some i => .done (some i) { s with free := update s.free i false }
  | _, .freeDesc i, s =>
    if h : i < NUM then
      if s.free ⟨i, h⟩ then .panic "virtio_disk_intr 2"
      else .done () { s with
        desc := update s.desc ⟨i, h⟩ { s.desc ⟨i, h⟩ with addr := .null }
        free := update s.free ⟨i, h⟩ true }
    else .panic "virtio_disk_intr 1"
  | _, .getDesc i, s => within i fun i => .done (s.desc i) s
  | _, .setDesc i f, s => .done () { s with desc := update s.desc i (f (s.desc i)) }
  | _, .setStatus i v, s =>
    .done () { s with info := update s.info i { s.info i with status := v } }
  | _, .setDisk b, s => .done () { s with disk := update s.disk b true }
  | _, .getDisk b, s => .done (s.disk b) s
  | _, .setInfo i b, s =>
    .done () { s with info := update s.info i { s.info i with b := some b } }
  | _, .clearInfo i b, s =>
    .done () { s with
      info := update s.info i { s.info i with b := none }
      trace := s.trace ++ [.retire b i] }
  | _, .putAvail i, s =>
    .done () { s with ring := update s.ring (slot s.idx) (UInt16.ofNat i.val) }
  | _, .bumpAvail b i, s =>
    .done () { s with idx := s.idx + 1, trace := s.trace ++ [.submit b i] }
  | _, .more, s => .done (decide (slot s.usedIdx ≠ slot s.id)) s
  | _, .elem, s => within s.usedIdx.toNat fun k => .done (s.elems k).toNat s
  | _, .getStatus i, s => within i fun i => .done (s.info i).status s
  | _, .clearDisk i, s => within i fun i =>
    match (s.info i).b with
    | none => .undefined
    | some b => .done () { s with
      disk := update s.disk b false, trace := s.trace ++ [.clear b i] }
  | _, .bumpUsed i, s => within i fun i =>
    .done () { s with
      usedIdx := (s.usedIdx + 1) % UInt16.ofNat NUM, trace := s.trace ++ [.advance i] }
  | _, .take, s =>
    if s.seen = s.idx then .blocked
    else within (s.ring (slot s.seen)).toNat fun h =>
      .done () { s with
        seen := s.seen + 1, taken := s.taken ++ [h], trace := s.trace ++ [.take h] }
  | _, .pick h, s =>
    if h ∈ s.taken then .done () { s with taken := s.taken.erase h, posting := some h }
    else .blocked
  | _, .writeStatus h, s =>
    within (s.desc h).next.toNat fun i₁ => within (s.desc i₁).next.toNat fun i₂ =>
      match (s.desc i₂).addr with
      | .status i =>
        .done () { s with info := update s.info i { s.info i with status := 0 } }
      | _ => .undefined
  | _, .putUsed h, s =>
    .done () { s with elems := update s.elems (slot s.id) (UInt32.ofNat h.val) }
  | _, .bumpId h, s => within (s.desc h).next.toNat fun i₁ =>
    match (s.desc i₁).addr with
    | .data b =>
      .done () { s with id := s.id + 1, posting := none, trace := s.trace ++ [.post b h] }
    | _ => .undefined

abbrev act {β : Type} (a : Act B β) : Prog (Act B) β := .perform a

/-- Where a process is: asleep in one of the two loops of `virtio_disk_rw`, or at the head of the
    loop of `virtio_disk_intr`, with the lock. -/
inductive Work (B : Type) where
  | idle
  | allocating (b : B) (write : Bool)
  | waiting (b : B) (i₀ : Fin NUM)
  | intr
  deriving DecidableEq

structure Loc (B : Type) where
  bufs : List B
  work : Work B
  deriving DecidableEq

/-- Every round frees a descriptor that was not free, so there are at most `NUM` of them. -/
def freeChain : ℕ → ℕ → Prog (Act B) Unit
  | 0, _ => return ()
  | fuel + 1, i => do
    act (.freeDesc i)
    let d ← act (.getDesc i)
    if d.flags &&& VRING_DESC_F_NEXT ≠ 0 then freeChain fuel d.next.toNat
    else return ()

def alloc3Desc : Prog (Act B) (Option (Fin NUM × Fin NUM × Fin NUM)) := do
  let some i₀ ← act .allocDesc | return none
  let some i₁ ← act .allocDesc | do
    act (.freeDesc i₀)
    return none
  let some i₂ ← act .allocDesc | do
    act (.freeDesc i₀)
    act (.freeDesc i₁)
    return none
  return some (i₀, i₁, i₂)

def format (b : B) (write : Bool) (i₀ i₁ i₂ : Fin NUM) : Prog (Act B) Unit := do
  act (.setDesc i₀ fun d => { d with addr := .header write b })
  act (.setDesc i₀ fun d => { d with len := 16 })
  act (.setDesc i₀ fun d => { d with flags := VRING_DESC_F_NEXT })
  act (.setDesc i₀ fun d => { d with next := UInt16.ofNat i₁.val })
  act (.setDesc i₁ fun d => { d with addr := .data b })
  act (.setDesc i₁ fun d => { d with len := 1024 })
  if write then act (.setDesc i₁ fun d => { d with flags := 0 })
  else act (.setDesc i₁ fun d => { d with flags := VRING_DESC_F_WRITE })
  act (.setDesc i₁ fun d => { d with flags := d.flags ||| VRING_DESC_F_NEXT })
  act (.setDesc i₁ fun d => { d with next := UInt16.ofNat i₂.val })
  act (.setStatus i₀ 0)
  act (.setDesc i₂ fun d => { d with addr := .status i₀ })
  act (.setDesc i₂ fun d => { d with len := 1 })
  act (.setDesc i₂ fun d => { d with flags := VRING_DESC_F_WRITE })
  act (.setDesc i₂ fun d => { d with next := 0 })

/-- Record the buffer for `virtio_disk_intr` and hand the chain to the device. -/
def submit (b : B) (i₀ : Fin NUM) : Prog (Act B) Unit := do
  act (.setDisk b)
  act (.setInfo i₀ b)
  act (.putAvail i₀)
  act (.bumpAvail b i₀)

/-- The second loop of `virtio_disk_rw`, with the lock. -/
def waitDisk (b : B) (i₀ : Fin NUM) : Prog (Act B) (Work B) := do
  if ← act (.getDisk b) then
    act .release
    return .waiting b i₀
  else
    act (.clearInfo i₀ b)
    freeChain (NUM + 1) i₀.val
    act .release
    return .idle

def virtioDiskRw (b : B) (write : Bool) : Prog (Act B) (Work B) := do
  act .acquire
  match ← alloc3Desc with
  | none =>
    act .release
    return .allocating b write
  | some (i₀, i₁, i₂) =>
    format b write i₀ i₁ i₂
    submit b i₀
    waitDisk b i₀

/-- One round of the loop of `virtio_disk_intr`. -/
def intrRound : Prog (Act B) (Work B) := do
  if ← act .more then
    let id ← act .elem
    if (← act (.getStatus id)) ≠ 0 then act (.fail "virtio_disk_intr status")
    act (.clearDisk id)
    act (.bumpUsed id)
    return .intr
  else
    act .release
    return .idle

inductive Calls : Loc B → Prog (Act B) (Loc B) → Prop where
  | lock {bufs : List B} (b : B) :
      Calls ⟨bufs, .idle⟩ do
        act (.acquiresleep b)
        return ⟨b :: bufs, .idle⟩
  | unlock {bufs : List B} (b : B) (h : b ∈ bufs) :
      Calls ⟨bufs, .idle⟩ do
        act (.releasesleep b)
        return ⟨bufs.erase b, .idle⟩
  | rw {bufs : List B} (b : B) (write : Bool) (h : b ∈ bufs) :
      Calls ⟨bufs, .idle⟩ do
        return ⟨bufs, ← virtioDiskRw b write⟩
  | wakeAlloc {bufs : List B} (b : B) (write : Bool) :
      Calls ⟨bufs, .allocating b write⟩ do
        return ⟨bufs, ← virtioDiskRw b write⟩
  | wakeWait {bufs : List B} (b : B) (i₀ : Fin NUM) :
      Calls ⟨bufs, .waiting b i₀⟩ do
        act .acquire
        return ⟨bufs, ← waitDisk b i₀⟩
  | intr {bufs : List B} :
      Calls ⟨bufs, .idle⟩ do
        act .acquire
        return ⟨bufs, .intr⟩
  | round {bufs : List B} :
      Calls ⟨bufs, .intr⟩ do
        return ⟨bufs, ← intrRound⟩

inductive DeviceSteps : Loc B → Prog (Act B) (Loc B) → Prop where
  | take {l : Loc B} :
      DeviceSteps l do
        act .take
        return l
  | post {l : Loc B} (h : Fin NUM) :
      DeviceSteps l do
        act (.pick h)
        act (.writeStatus h)
        act (.putUsed h)
        act (.bumpId h)
        return l

def diskSystem (T B : Type) [DecidableEq T] [DecidableEq B] :
    Setting (Party T) (Act B) (Loc B) (Disk T B) where
  exec := exec
  starts := fun
    | .device => DeviceSteps
    | .cpu _ => Calls
  interrupts := fun _ _ _ => False

def boot (T B : Type) : Sys (Party T) (Act B) (Loc B) (Disk T B) where
  g := {
    desc := fun _ => ⟨.null, 0, 0, 0⟩, ring := fun _ => 0, idx := 0, elems := fun _ => 0, id := 0
    free := fun _ => true, usedIdx := 0, info := fun _ => ⟨none, 0⟩, vdiskLock := none
    disk := fun _ => false, locked := fun _ => none, seen := 0, taken := [], posting := none
    trace := [] }
  thr := fun _ => .ret ⟨[], .idle⟩

end Xv6.VirtioCode
