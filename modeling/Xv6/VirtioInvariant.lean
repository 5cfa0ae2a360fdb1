import Xv6.RingBuffer
import Xv6.VirtioCode

set_option autoImplicit false

namespace Xv6.VirtioInvariant
open Interleaving VirtioCode RingBuffer
open Function (forall_update_iff update update_eq_self update_of_ne update_self)

section Trace

variable {B : Type}

structure Record where
  submits : List (Fin NUM)
  takes : List (Fin NUM)
  posts : List (Fin NUM)
  clears : List (Fin NUM)
  advances : List (Fin NUM)

def Record.after (R : Record) : Event B → Record
  | .submit _ h => { R with submits := R.submits ++ [h] }
  | .take h => { R with takes := R.takes ++ [h] }
  | .post _ h => { R with posts := R.posts ++ [h] }
  | .clear _ h => { R with clears := R.clears ++ [h] }
  | .advance h => { R with advances := R.advances ++ [h] }
  | .retire _ _ => R

def record (l : List (Event B)) : Record := l.foldl Record.after ⟨[], [], [], [], []⟩

theorem record_snoc (l : List (Event B)) (e : Event B) : record (l ++ [e]) = (record l).after e :=
  List.foldl_concat ..

inductive Phase where
  | idle
  | submitted
  | posted
  | cleared
  /-- The events were out of order. -/
  | wrong
  deriving DecidableEq

variable [DecidableEq B]

/-- A request is submitted, posted by the device, completed by the driver and given up, each once
    and in this order. -/
def Phase.after (b : B) : Phase → Event B → Phase
  | p, .submit b' _ => if b' = b then (if p = .idle then .submitted else .wrong) else p
  | p, .post b' _ => if b' = b then (if p = .submitted then .posted else .wrong) else p
  | p, .clear b' _ => if b' = b then (if p = .posted then .cleared else .wrong) else p
  | p, .retire b' _ => if b' = b then (if p = .cleared then .idle else .wrong) else p
  | p, _ => p

def phase (b : B) (l : List (Event B)) : Phase := l.foldl (Phase.after b) .idle

theorem phase_snoc (b : B) (l : List (Event B)) (e : Event B) :
    phase b (l ++ [e]) = (phase b l).after b e := List.foldl_concat ..

end Trace

structure View (B : Type) where
  desc : Fin NUM → VRingDesc B
  ring : Fin NUM → UInt16
  idx : UInt16

inductive Stage where
  | armed
  | ready
  | live
  | ended
  deriving DecidableEq

structure Req (B : Type) where
  b : B
  i₀ : Fin NUM
  i₁ : Fin NUM
  i₂ : Fin NUM
  stage : Stage

/-- How far `virtio_disk_intr` is with an entry of the used ring. -/
inductive Reading where
  | nothing
  | found
  | read (h : Fin NUM)
  | cleared (h : Fin NUM)

structure Ghost (B : Type) where
  bufs : List B
  held : Option (View B)
  owns : List (Fin NUM)
  req : Option (Req B)
  reading : Reading
  post : Option (Fin NUM)
  written : Bool

variable {T B : Type}
variable {desc : Fin NUM → VRingDesc B}

def viewOf (s : Disk T B) : View B := ⟨s.desc, s.ring, s.idx⟩

structure Linked (desc : Fin NUM → VRingDesc B) (r : Req B) : Prop where
  nodup : [r.i₀, r.i₁, r.i₂].Nodup
  flags₀ : (desc r.i₀).flags &&& VRING_DESC_F_NEXT ≠ 0
  next₀ : (desc r.i₀).next.toNat = r.i₁.val
  addr₁ : (desc r.i₁).addr = .data r.b
  flags₁ : (desc r.i₁).flags &&& VRING_DESC_F_NEXT ≠ 0
  next₁ : (desc r.i₁).next.toNat = r.i₂.val
  addr₂ : (desc r.i₂).addr = .status r.i₀
  flags₂ : (desc r.i₂).flags &&& VRING_DESC_F_NEXT = 0

structure Locks (s : Disk T B) (held : Party T → Option (View B)) (bufs : Party T → List B) :
    Prop where
  lock : ∀ p, s.vdiskLock = some p ↔ held p ≠ none
  view : ∀ p v, held p = some v → v = viewOf s
  locked : ∀ p b, s.locked b = some p ↔ b ∈ bufs p
  nodup : ∀ p, (bufs p).Nodup

structure Owners (s : Disk T B) (owns : Party T → List (Fin NUM)) : Prop where
  nodup : ∀ p, (owns p).Nodup
  free : ∀ i, s.free i = true ↔ ∀ p, i ∉ owns p
  own : ∀ p q i, i ∈ owns p → i ∈ owns q → p = q

structure Requests (s : Disk T B) (bufs : Party T → List B) (owns : Party T → List (Fin NUM))
    (req : Party T → Option (Req B)) : Prop where
  buf : ∀ p r, req p = some r → r.b ∈ bufs p
  chain : ∀ p r, req p = some r → owns p = [r.i₀, r.i₁, r.i₂]
  linked : ∀ p r, req p = some r → Linked s.desc r
  info : ∀ h b, (s.info h).b = some b ↔
    ∃ p r, req p = some r ∧ r.i₀ = h ∧ r.b = b ∧ r.stage ≠ .armed
  status : ∀ i, (s.info i).status = 0
  set : ∀ p r, req p = some r → r.stage = .armed ∨ r.stage = .ready → s.disk r.b = true
  ended : ∀ p r, req p = some r → r.stage = .ended → s.disk r.b = false

def pending (R : Record) : List (Fin NUM) := R.submits.drop R.takes.length

/-- The heads that the device has posted and whose buffers have not been cleared. -/
def unread (R : Record) : List (Fin NUM) := R.posts.drop R.clears.length

def inDevice (R : Record) (s : Disk T B) : List (Fin NUM) :=
  pending R ++ (s.taken ++ s.posting.toList)

def queue (R : Record) (s : Disk T B) : List (Fin NUM) := inDevice R s ++ unread R

structure Rings (R : Record) (s : Disk T B) (reading : Party T → Reading) (written : Bool) :
    Prop where
  avail : Ring (2 ^ 16) (UInt16.toNat ∘ s.ring) s.seen.toNat s.idx.toNat
    (R.submits.map Fin.val) (R.takes.map Fin.val)
  used : Ring (2 ^ 16) (UInt32.toNat ∘ s.elems) (R.advances.length % 2 ^ 16) s.id.toNat
    (R.posts.map Fin.val) (R.advances.map Fin.val)
  usedIdx : s.usedIdx.toNat = R.advances.length % NUM
  order : R.clears <+: R.posts
  same : (∀ p h, reading p ≠ .cleared h) → R.clears = R.advances
  cleared : ∀ p h, reading p = .cleared h → R.clears = R.advances ++ [h]
  found : ∀ p, reading p = .found → unread R ≠ []
  read : ∀ p h, reading p = .read h → (unread R).head? = some h
  written : written = true → ∀ h, s.posting = some h → (s.elems (slot s.id)).toNat = h.val

structure Queue (R : Record) (s : Disk T B) (req : Party T → Option (Req B)) : Prop where
  nodup : (queue R s).Nodup
  mem : ∀ h, h ∈ queue R s ↔
    ∃ p r, req p = some r ∧ r.i₀ = h ∧ r.stage = .live ∧ s.disk r.b = true

structure Phases [DecidableEq B] (R : Record) (s : Disk T B) (req : Party T → Option (Req B)) :
    Prop where
  idle : ∀ b, (∀ p r, req p = some r → r.b = b → r.stage = .armed ∨ r.stage = .ready) →
    phase b s.trace = .idle
  submitted : ∀ p r, req p = some r → r.stage = .live → r.i₀ ∈ inDevice R s →
    phase r.b s.trace = .submitted
  posted : ∀ p r, req p = some r → r.stage = .live → r.i₀ ∈ unread R →
    phase r.b s.trace = .posted
  cleared : ∀ p r, req p = some r → r.stage = .live ∨ r.stage = .ended → s.disk r.b = false →
    phase r.b s.trace = .cleared

/-- What holds of a process without the lock: it is not in the used ring, and its descriptors
    are the chain of a request that the device can see. -/
def Calm (ℓ : Ghost B) : Prop :=
  ℓ.reading = .nothing ∧ (ℓ.owns = [] ∨ ∃ r, ℓ.req = some r ∧ r.stage = .live)

structure Inv [DecidableEq B] (s : Disk T B) (Λ : Party T → Ghost B) : Prop where
  locks : Locks s (fun p => (Λ p).held) fun p => (Λ p).bufs
  owners : Owners s fun p => (Λ p).owns
  requests : Requests s (fun p => (Λ p).bufs) (fun p => (Λ p).owns) fun p => (Λ p).req
  rings : Rings (record s.trace) s (fun p => (Λ p).reading) (Λ .device).written
  queue : Queue (record s.trace) s fun p => (Λ p).req
  phases : Phases (record s.trace) s fun p => (Λ p).req
  calm : ∀ p, (Λ p).held = none → Calm (Λ p)
  post : s.posting = (Λ .device).post

variable {s s' : Disk T B} {Λ : Party T → Ghost B} {p q : Party T}
variable {held : Party T → Option (View B)} {bufs : Party T → List B}
variable {owns : Party T → List (Fin NUM)} {req : Party T → Option (Req B)}
variable {reading : Party T → Reading} {written : Bool} {r r' : Req B} {b : B} {i h : Fin NUM}

section

variable (hl : Locks s held bufs)
include hl

theorem Locks.alone (hp : held p ≠ none) (hq : q ≠ p) : held q = none := by
  by_contra hne
  have hlock := (hl.lock p).2 hp
  rw [(hl.lock q).2 hne] at hlock
  exact hq (Option.some.inj hlock)

theorem Locks.touch [DecidableEq T] (hp : held p ≠ none)
    (hlock : s'.vdiskLock = s.vdiskLock) (hlocked : s'.locked = s.locked) :
    Locks s' (update held p (some (viewOf s'))) bufs := by
  refine ⟨?_, ?_, ?_, hl.nodup⟩
  · intro q
    rw [hlock, hl.lock q]
    grind
  · intro q v hv
    by_cases hq : q = p
    · rw [hq, update_self] at hv
      exact (Option.some.inj hv).symm
    · rw [update_of_ne hq, hl.alone hp hq] at hv
      exact absurd hv nofun
  · rw [hlocked]
    exact hl.locked

theorem Locks.keep (hlock : s'.vdiskLock = s.vdiskLock)
    (hlocked : s'.locked = s.locked) (hview : viewOf s' = viewOf s) : Locks s' held bufs := by
  refine ⟨?_, ?_, ?_, hl.nodup⟩
  · rw [hlock]
    exact hl.lock
  · rw [hview]
    exact hl.view
  · rw [hlocked]
    exact hl.locked

theorem Locks.acquire [DecidableEq T] (hfree : s.vdiskLock = none) :
    Locks { s with vdiskLock := some p } (update held p (some (viewOf s))) bufs := by
  have hnone : ∀ q, held q = none := by
    intro q
    by_contra hne
    have hlock := (hl.lock q).2 hne
    rw [hfree] at hlock
    exact absurd hlock nofun
  refine ⟨?_, ?_, hl.locked, hl.nodup⟩
  · grind
  · intro q v hv
    by_cases hq : q = p
    · rw [hq, update_self] at hv
      exact (Option.some.inj hv).symm
    · rw [update_of_ne hq, hnone q] at hv
      exact absurd hv nofun

theorem Locks.release [DecidableEq T] (hp : held p ≠ none) :
    Locks { s with vdiskLock := none } (update held p none) bufs := by
  have hnone : ∀ q, update held p none q = none := by
    exact (forall_update_iff held fun _ o => o = none).2 ⟨rfl, fun q hq => hl.alone hp hq⟩
  refine ⟨?_, ?_, hl.locked, hl.nodup⟩
  · intro q
    exact ⟨nofun, fun hne => absurd (hnone q) hne⟩
  · intro q v hv
    rw [hnone q] at hv
    exact absurd hv nofun

theorem Locks.acquiresleep [DecidableEq T] [DecidableEq B]
    (hfree : s.locked b = none) :
    Locks { s with locked := update s.locked b (some p) } held
      (update bufs p (b :: bufs p)) := by
  have hfresh : ∀ q, b ∉ bufs q := by
    intro q hb
    rw [(hl.locked q b).2 hb] at hfree
    exact absurd hfree nofun
  refine ⟨hl.lock, hl.view, ?_, ?_⟩
  · grind [hl.locked]
  · exact (forall_update_iff bufs fun _ => List.Nodup).2
      ⟨List.nodup_cons.2 ⟨hfresh p, hl.nodup p⟩, fun q _ => hl.nodup q⟩

theorem Locks.releasesleep [DecidableEq T] [DecidableEq B]
    (hb : b ∈ bufs p) :
    Locks { s with locked := update s.locked b none } held
      (update bufs p ((bufs p).erase b)) := by
  refine ⟨hl.lock, hl.view, ?_, ?_⟩
  · have hnodup := hl.nodup p
    have hlocked := hl.locked
    grind
  · exact (forall_update_iff bufs fun _ => List.Nodup).2
      ⟨(hl.nodup p).erase b, fun q _ => hl.nodup q⟩

end

theorem free_of_firstFree {free : Fin NUM → Bool} (hf : firstFree free = some i) : free i = true :=
  List.find?_some hf

theorem Owners.alloc [DecidableEq T] (ho : Owners s owns) (hf : s.free i = true) :
    Owners { s with free := update s.free i false }
      (update owns p (owns p ++ [i])) := by
  have hnew : ∀ q, i ∉ owns q := (ho.free i).1 hf
  have hmem : ∀ q j, j ∈ update owns p (owns p ++ [i]) q ↔ j ∈ owns q ∨ q = p ∧ j = i := by
    intro q j
    grind
  refine ⟨?_, ?_, ?_⟩
  · grind [ho.nodup]
  · grind [ho.free]
  · intro q q' j hj hj'
    rw [hmem] at hj hj'
    rcases hj with hj | ⟨rfl, rfl⟩ <;> rcases hj' with hj' | ⟨rfl, hji⟩
    · exact ho.own q q' j hj hj'
    · rw [hji] at hj
      exact absurd hj (hnew q)
    · exact absurd hj' (hnew q')
    · rfl

theorem Owners.free_desc [DecidableEq T] (ho : Owners s owns) (hi : i ∈ owns p) :
    Owners { s with desc := desc, free := update s.free i true }
      (update owns p ((owns p).erase i)) := by
  have hmem : ∀ q j, j ∈ update owns p ((owns p).erase i) q ↔ j ∈ owns q ∧ j ≠ i := by
    intro q j
    grind [ho.nodup p, ho.own q p j]
  refine ⟨?_, ?_, ?_⟩
  · exact (forall_update_iff owns fun _ => List.Nodup).2
      ⟨(ho.nodup p).erase i, fun q _ => ho.nodup q⟩
  · grind [ho.free]
  · intro q q' j hj hj'
    exact ho.own q q' j ((hmem q j).1 hj).1 ((hmem q' j).1 hj').1

theorem exists_req_update [DecidableEq T] {P : Req B → Prop} {x : Option (Req B)} :
    (∃ q r, update req p x q = some r ∧ P r) ↔
      (∃ r, x = some r ∧ P r) ∨ ∃ q r, q ≠ p ∧ req q = some r ∧ P r := by
  constructor
  · rintro ⟨q, r, hq, hP⟩
    grind
  · rintro (⟨r, hx, hP⟩ | ⟨q, r, hqp, hq, hP⟩)
    · exact ⟨p, r, by rw [update_self, hx], hP⟩
    · exact ⟨q, r, by rw [update_of_ne hqp, hq], hP⟩

theorem exists_req_congr [DecidableEq T] {P : Req B → Prop} {x : Option (Req B)}
    (hx : (∃ r, x = some r ∧ P r) ↔ ∃ r, req p = some r ∧ P r) :
    (∃ q r, update req p x q = some r ∧ P r) ↔ ∃ q r, req q = some r ∧ P r := by
  rw [exists_req_update, hx, ← exists_req_update, update_eq_self]

theorem Linked.congr {desc' : Fin NUM → VRingDesc B} (hk : Linked desc r)
    (h0 : desc' r.i₀ = desc r.i₀) (h1 : desc' r.i₁ = desc r.i₁) (h2 : desc' r.i₂ = desc r.i₂) :
    Linked desc' r := by
  refine ⟨hk.nodup, ?_, ?_, ?_, ?_, ?_, ?_, ?_⟩
  · rw [h0]; exact hk.flags₀
  · rw [h0]; exact hk.next₀
  · rw [h1]; exact hk.addr₁
  · rw [h1]; exact hk.flags₁
  · rw [h1]; exact hk.next₁
  · rw [h2]; exact hk.addr₂
  · rw [h2]; exact hk.flags₂

variable (hr : Requests s bufs owns req)
include hr

theorem Requests.eq_of_buf (hl : Locks s held bufs)
    (hp : req p = some r) (hq : req q = some r') (hb : r.b = r'.b) : p = q := by
  have hlp := (hl.locked p r.b).2 (hr.buf p r hp)
  have hlq := (hl.locked q r'.b).2 (hr.buf q r' hq)
  rw [hb, hlq] at hlp
  exact (Option.some.inj hlp).symm

theorem Requests.other_buf (hl : Locks s held bufs)
    (hp : req p = none) (hb : b ∈ bufs p) (hq : req q = some r) : q ≠ p ∧ r.b ≠ b := by
  have hqp : q ≠ p := by
    rintro rfl
    rw [hp] at hq
    exact absurd hq nofun
  refine ⟨hqp, fun heq => hqp ?_⟩
  have hlq := (hl.locked q r.b).2 (hr.buf q r hq)
  rw [heq, (hl.locked p b).2 hb] at hlq
  exact (Option.some.inj hlq).symm

theorem Requests.mem_owns (hp : req p = some r) :
    r.i₀ ∈ owns p ∧ r.i₁ ∈ owns p ∧ r.i₂ ∈ owns p := by
  rw [hr.chain p r hp]
  simp

theorem Requests.eq_of_head (ho : Owners s owns)
    (hp : req p = some r) (hq : req q = some r') (hh : r.i₀ = r'.i₀) : p = q ∧ r = r' := by
  have hmem := (hr.mem_owns hq).1
  rw [← hh] at hmem
  have hpq := ho.own p q r.i₀ (hr.mem_owns hp).1 hmem
  rw [hpq, hq] at hp
  exact ⟨hpq, (Option.some.inj hp).symm⟩

theorem Requests.own_descs [DecidableEq T] (ho : Owners s owns)
    (hp : req p = none)
    {free : Fin NUM → Bool} (hdesc : ∀ j, j ∉ owns p → desc j = s.desc j) (o : List (Fin NUM)) :
    Requests { s with desc := desc, free := free } bufs (update owns p o) req := by
  have hne : ∀ q r, req q = some r → q ≠ p := by
    rintro q r hq rfl
    rw [hp] at hq
    exact absurd hq nofun
  refine ⟨hr.buf, ?_, ?_, hr.info, hr.status, hr.set, hr.ended⟩
  · intro q r hq
    rw [update_of_ne (hne q r hq)]
    exact hr.chain q r hq
  · intro q r hq
    have hout : ∀ j, j ∈ owns q → desc j = s.desc j :=
      fun j hj => hdesc j fun hjp => hne q r hq (ho.own q p j hj hjp)
    have hmem := hr.mem_owns hq
    exact (hr.linked q r hq).congr (hout _ hmem.1) (hout _ hmem.2.1) (hout _ hmem.2.2)

theorem Requests.set_status :
    Requests { s with info := update s.info i { s.info i with status := 0 } } bufs owns
      req := by
  refine ⟨hr.buf, hr.chain, hr.linked, ?_, ?_, hr.set, hr.ended⟩
  · grind [hr.info]
  · grind [hr.status]

theorem Requests.arm [DecidableEq T] [DecidableEq B]
    (hl : Locks s held bufs) (hp : req p = none)
    (hb : r.b ∈ bufs p) (howns : owns p = [r.i₀, r.i₁, r.i₂]) (hk : Linked s.desc r)
    (hst : r.stage = .armed) :
    Requests { s with disk := update s.disk r.b true } bufs owns
      (update req p (some r)) := by
  have hcase : ∀ {q r'}, update req p (some r) q = some r' →
      q = p ∧ r' = r ∨ req q = some r' ∧ r'.b ≠ r.b := by
    intro q r' hq
    by_cases hqp : q = p
    · rw [hqp, update_self] at hq
      exact .inl ⟨hqp, (Option.some.inj hq).symm⟩
    · rw [update_of_ne hqp] at hq
      exact .inr ⟨hq, (hr.other_buf hl hp hb hq).2⟩
  refine ⟨?_, ?_, ?_, ?_, hr.status, ?_, ?_⟩
  · intro q r' hq
    rcases hcase hq with ⟨rfl, rfl⟩ | ⟨hq, -⟩
    · exact hb
    · exact hr.buf q r' hq
  · intro q r' hq
    rcases hcase hq with ⟨rfl, rfl⟩ | ⟨hq, -⟩
    · exact howns
    · exact hr.chain q r' hq
  · intro q r' hq
    rcases hcase hq with ⟨rfl, rfl⟩ | ⟨hq, -⟩
    · exact hk
    · exact hr.linked q r' hq
  · intro h b
    rw [exists_req_congr, ← hr.info h b]
    rw [hp]
    refine ⟨?_, fun ⟨r', heq, _⟩ => absurd heq nofun⟩
    rintro ⟨r', heq, -, -, hne⟩
    rw [← Option.some.inj heq] at hne
    exact absurd hst hne
  · grind [hr.set]
  · grind [hr.ended]

theorem Requests.restage [DecidableEq T] (ho : Owners s owns)
    (hp : req p = some r) {st : Stage} (hst : st ≠ .armed)
    (hset : st = .ready → s.disk r.b = true) (hover : st = .ended → s.disk r.b = false)
    (hdesc : s'.desc = s.desc) (hdisk : s'.disk = s.disk) (hhead : (s'.info r.i₀).b = some r.b)
    (hrest : ∀ h, h ≠ r.i₀ → (s'.info h).b = (s.info h).b)
    (hstatus : ∀ h, (s'.info h).status = (s.info h).status) :
    Requests s' bufs owns (update req p (some { r with stage := st })) := by
  have hcase : ∀ {q r'}, update req p (some { r with stage := st }) q = some r' →
      q = p ∧ r' = { r with stage := st } ∨ req q = some r' := by
    intro q r' hq
    grind
  refine ⟨?_, ?_, ?_, ?_, ?_, ?_, ?_⟩
  · intro q r' hq
    rcases hcase hq with ⟨rfl, rfl⟩ | hq
    · exact hr.buf q r hp
    · exact hr.buf q r' hq
  · intro q r' hq
    rcases hcase hq with ⟨rfl, rfl⟩ | hq
    · exact hr.chain q r hp
    · exact hr.chain q r' hq
  · intro q r' hq
    rw [hdesc]
    rcases hcase hq with ⟨rfl, rfl⟩ | hq
    · have hk := hr.linked q r hp
      exact { hk with }
    · exact hr.linked q r' hq
  · intro h b
    rw [exists_req_update]
    by_cases hh : h = r.i₀
    · rw [hh, hhead]
      constructor
      · intro heq
        exact .inl ⟨_, rfl, rfl, Option.some.inj heq, hst⟩
      · rintro (⟨r', heq, -, hb, -⟩ | ⟨q, r', hqp, hq, hi, -⟩)
        · rw [← hb, ← Option.some.inj heq]
        · exact absurd (hr.eq_of_head ho hq hp hi).1 hqp
    rw [hrest h hh, hr.info h b]
    constructor
    · rintro ⟨q, r', hq, hi, hb, hne⟩
      refine .inr ⟨q, r', ?_, hq, hi, hb, hne⟩
      rintro rfl
      rw [hp] at hq
      exact hh (by rw [← hi, ← Option.some.inj hq])
    · rintro (⟨r', heq, hi, -⟩ | ⟨q, r', hqp, hq, hall⟩)
      · rw [← Option.some.inj heq] at hi
        exact absurd hi.symm hh
      · exact ⟨q, r', hq, hall⟩
  · intro j
    rw [hstatus j]
    exact hr.status j
  · intro q r' hq hst'
    rw [hdisk]
    rcases hcase hq with ⟨rfl, rfl⟩ | hq
    · exact hset (hst'.resolve_left hst)
    · exact hr.set q r' hq hst'
  · intro q r' hq hst'
    rw [hdisk]
    rcases hcase hq with ⟨rfl, rfl⟩ | hq
    · exact hover hst'
    · exact hr.ended q r' hq hst'

theorem Requests.retire [DecidableEq T] (ho : Owners s owns)
    (hp : req p = some r)
    {tr : List (Event B)} :
    Requests { s with
      info := update s.info r.i₀ { s.info r.i₀ with b := none }, trace := tr } bufs owns
      (update req p none) := by
  have hcase : ∀ {q r'}, update req p none q = some r' → q ≠ p ∧ req q = some r' := by
    intro q r' hq
    grind
  refine ⟨fun q r' hq => hr.buf q r' (hcase hq).2, fun q r' hq => hr.chain q r' (hcase hq).2,
    fun q r' hq => hr.linked q r' (hcase hq).2, ?_, ?_, fun q r' hq => hr.set q r' (hcase hq).2,
    fun q r' hq => hr.ended q r' (hcase hq).2⟩
  · intro h b
    rw [exists_req_update]
    dsimp only
    by_cases hh : h = r.i₀
    · rw [hh, update_self]
      constructor
      · exact nofun
      · rintro (⟨r', heq, -⟩ | ⟨q, r', hqp, hq, hhead, -⟩)
        · exact absurd heq nofun
        · exact absurd (hr.eq_of_head ho hq hp hhead).1 hqp
    rw [update_of_ne hh, hr.info h b]
    constructor
    · rintro ⟨q, r', hq, hhead, hrest⟩
      refine .inr ⟨q, r', ?_, hq, hhead, hrest⟩
      rintro rfl
      rw [hp] at hq
      exact hh (by rw [← hhead, ← Option.some.inj hq])
    · rintro (⟨r', heq, -⟩ | ⟨q, r', hqp, hq, hrest⟩)
      · exact absurd heq nofun
      · exact ⟨q, r', hq, hrest⟩
  · grind [hr.status]

theorem Requests.clear_disk [DecidableEq B] (hl : Locks s held bufs)
    (hp : req p = some r) (hst : r.stage = .live) {tr : List (Event B)} :
    Requests { s with disk := update s.disk r.b false, trace := tr } bufs owns req := by
  refine ⟨hr.buf, hr.chain, hr.linked, hr.info, hr.status, ?_, ?_⟩
  · intro q r' hq hst'
    dsimp only
    by_cases hb : r'.b = r.b
    · have hqp := hr.eq_of_buf hl hq hp hb
      rw [hqp, hp] at hq
      rw [← Option.some.inj hq, hst] at hst'
      simp at hst'
    · rw [update_of_ne hb]
      exact hr.set q r' hq hst'
  · grind [hr.ended]

end Xv6.VirtioInvariant
