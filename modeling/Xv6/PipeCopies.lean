import Xv6.PipeCode
import Xv6.UserStrings

set_option autoImplicit false

/-! `piperead` with its copies to the user, which stop at an address that the user cannot access. A
call is modelled from its last test for an empty pipe on, while it holds the lock; it is blocked
where it would sleep. -/
namespace Xv6.PipeCopies
open Xv6.Sequential Paging PageOwners VmCode PipeCode UserAccess UserStrings

structure Kern where
  pipe : Pipe
  mem : Memory

def inMemory {α : Type} (p : Code Memory α) : Code Kern α :=
  Code.within Kern.mem (fun m s => { s with mem := m }) p

theorem inMemory_done {α : Type} {p : Code Memory α} {s : Kern} {a : α} {m : Memory}
    (h : p s.mem = .done a m) : inMemory p s = .done a { s with mem := m } := by
  unfold inMemory Code.within
  rw [h]

/-- The rounds `i`, `i + 1`, … of the copying loop; `ch` is the address of the variable. -/
def pipereadFrom (pagetable addr ch : ℕ) : ℕ → ℕ → Code Kern ℤ
  | 0, i => return i
  | fuel + 1, i => do
    let s ← Code.get
    if s.pipe.nread = s.pipe.nwrite then return (i : ℤ)
    else
      inMemory (storeByte ch (s.pipe.data (slot s.pipe.nread)))
      Code.modify fun s => { s with pipe := { s.pipe with nread := s.pipe.nread + 1 } }
      if (← inMemory (copyout pagetable (u64 (addr + i)) ch 1)) = -1 then return (i : ℤ)
      else pipereadFrom pagetable addr ch fuel (i + 1)

def piperead (pagetable addr : ℕ) (n : ℤ) (killed : Bool) (ch : ℕ) : Code Kern ℤ := do
  let s ← Code.get
  if s.pipe.nread = s.pipe.nwrite ∧ s.pipe.writeopen = true then
    if killed then return -1 else Code.blocked
  else pipereadFrom pagetable addr ch n.toNat 0

variable {K : Image} {G : Ghost} {m m' : Memory} {r addr ch : ℕ} {s : Kern}

theorem copyout_byte (hI : Inv K G m) (hroot : G.own r = .node r 2 0) (hread : Readable G r)
    (hagree : Agree G r m m') (hch : Within ch 1) (va : ℕ) :
    copyout r va ch 1 m' =
      if Accessible G r va then .done 0 (moved m' (target G r va) ch 1) else .done (-1) m' := by
  obtain ⟨hpage, hframe⟩ := accessible_page G r va
  have hoff := offset_lt va
  have hwalk := walkaddr_eq hI hagree hroot (PGROUNDDOWN va)
  have hone : min (PGSIZE - va % PGSIZE) 1 = 1 := by omega
  refine (bind_of_done hwalk).trans ?_
  by_cases hva : Accessible G r va
  · have hmove : move true (frame G r va + va % PGSIZE) ch 1 m' =
        .done () (moved m' (target G r va) ch 1) :=
      memmove_within (within_target (hread va hva) (by omega)) hch
    rw [if_pos (hpage.2 hva), hframe, if_pos hva, if_neg (ram_ne_zero (hread va hva)), sub_page,
      hone]
    exact bind_of_done hmove
  · rw [if_neg (hpage.not.2 hva), if_neg hva]
    rfl

def held (pi : Pipe) : ℕ := (pi.nwrite - pi.nread).toNat

def taken (pi : Pipe) (k : ℕ) : Pipe := { pi with nread := pi.nread + UInt32.ofNat k }

def nth (pi : Pipe) (k : ℕ) : UInt8 := pi.data (slot (pi.nread + UInt32.ofNat k))

theorem held_taken {pi : Pipe} (h : pi.nread ≠ pi.nwrite) : held (taken pi 1) + 1 = held pi := by
  have hne : pi.nread.toNat ≠ pi.nwrite.toNat := fun he => h (UInt32.toNat.inj he)
  have hr := pi.nread.toNat_lt
  have hw := pi.nwrite.toNat_lt
  change (pi.nwrite - (pi.nread + UInt32.ofNat 1)).toNat + 1 = (pi.nwrite - pi.nread).toNat
  rw [UInt32.toNat_sub, UInt32.toNat_sub, UInt32.toNat_add]
  have hone : (UInt32.ofNat 1).toNat = 1 := rfl
  omega

theorem taken_zero (pi : Pipe) : taken pi 0 = pi := by
  unfold taken
  rw [show UInt32.ofNat 0 = 0 from rfl, UInt32.add_zero]

theorem nread_taken (pi : Pipe) (k : ℕ) :
    (taken pi 1).nread + UInt32.ofNat k = pi.nread + UInt32.ofNat (1 + k) := by
  rw [UInt32.ofNat_add, ← UInt32.add_assoc]
  rfl

theorem taken_taken (pi : Pipe) (k : ℕ) : taken (taken pi 1) k = taken pi (1 + k) := by
  unfold taken
  rw [← nread_taken]
  rfl

theorem nth_taken (pi : Pipe) (k : ℕ) : nth (taken pi 1) k = nth pi (1 + k) := by
  unfold nth
  rw [nread_taken]
  rfl

theorem agree_poke (hI : Inv K G m) (hbuf : Buffer false G r ch 1) (hagree : Agree G r m m')
    (b : UInt8) : Agree G r m (poke m' ch b) := by
  apply agree_of_bytes hI hagree
  intro pa hnode
  rw [byteAt_poke, if_neg]
  rintro rfl
  exact hbuf.table rfl 0 Nat.one_pos hnode

def passed (G : Ghost) (r ch va : ℕ) (s : Kern) : Kern :=
  ⟨taken s.pipe 1, moved (poke s.mem ch (nth s.pipe 0)) (target G r va) ch 1⟩

theorem byteAt_passed (G : Ghost) (r ch va : ℕ) (s : Kern) (pa : ℕ) :
    byteAt (passed G r ch va s).mem pa =
      if pa = target G r va ∨ pa = ch then nth s.pipe 0 else byteAt s.mem pa := by
  unfold passed
  rw [byteAt_moved]
  by_cases htarget : pa = target G r va
  · rw [if_pos (by omega), if_pos (.inl htarget), htarget, Nat.sub_self, add_zero, byteAt_poke,
      if_pos rfl]
  · rw [if_neg (by omega), byteAt_poke]
    simp only [htarget, false_or]

theorem agree_passed (hI : Inv K G m) (hframes : Frames G r) (hbuf : Buffer false G r ch 1)
    (hagree : Agree G r m s.mem) {va : ℕ} (hva : Accessible G r va) :
    Agree G r m (passed G r ch va s).mem := by
  apply agree_of_bytes hI hagree
  intro pa hnode
  rw [byteAt_passed, if_neg]
  rintro (rfl | rfl)
  · rw [target_page] at hnode
    exact hframes.apart va hva hnode
  · exact hbuf.table rfl 0 Nat.one_pos hnode

theorem pipereadFrom_round (hI : Inv K G m) (hroot : G.own r = .node r 2 0)
    (hread : Readable G r) (hbuf : Buffer false G r ch 1) (hagree : Agree G r m s.mem)
    (addr fuel i : ℕ) (hne : s.pipe.nread ≠ s.pipe.nwrite) :
    pipereadFrom r addr ch (fuel + 1) i s =
      if Accessible G r (u64 (addr + i)) then
        pipereadFrom r addr ch fuel (i + 1) (passed G r ch (u64 (addr + i)) s)
      else .done i ⟨taken s.pipe 1, poke s.mem ch (nth s.pipe 0)⟩ := by
  have hstore : storeByte ch (nth s.pipe 0) s.mem = .done () (poke s.mem ch (nth s.pipe 0)) :=
    if_pos hbuf.within
  have hbyte : s.pipe.data (slot s.pipe.nread) = nth s.pipe 0 :=
    congrArg (fun k => s.pipe.data (slot k)) (UInt32.add_zero _).symm
  have hcopy := copyout_byte hI hroot hread (agree_poke hI hbuf hagree (nth s.pipe 0)) hbuf.within
    (u64 (addr + i))
  rw [pipereadFrom, bind_of_done (rfl : Code.get s = .done s s), if_neg hne, hbyte,
    bind_of_done (inMemory_done hstore)]
  change (inMemory (copyout r (u64 (addr + i)) ch 1) >>= _)
    ⟨taken s.pipe 1, poke s.mem ch (nth s.pipe 0)⟩ = _
  by_cases hva : Accessible G r (u64 (addr + i))
  · rw [if_pos hva] at hcopy ⊢
    rw [bind_of_done (inMemory_done hcopy), if_neg (by decide)]
    rfl
  · rw [if_neg hva] at hcopy ⊢
    rw [bind_of_done (inMemory_done hcopy), if_pos rfl]
    rfl

structure Delivered (G : Ghost) (r addr ch i j : ℕ) (s : Kern) (m : Memory) : Prop where
  accessible : ∀ k < j, Accessible G r (u64 (addr + (i + k)))
  new : ∀ k < j, byteAt m (target G r (u64 (addr + (i + k)))) = nth s.pipe k
  old : ∀ pa, pa ≠ ch → (∀ k < j, pa ≠ target G r (u64 (addr + (i + k)))) →
    byteAt m pa = byteAt s.mem pa

theorem delivered_zero (G : Ghost) (r addr ch i : ℕ) (s : Kern) :
    Delivered G r addr ch i 0 s s.mem :=
  ⟨fun k hk => absurd hk (Nat.not_lt_zero k), fun k hk => absurd hk (Nat.not_lt_zero k),
    fun _ _ _ => rfl⟩

theorem Delivered.cons {i j : ℕ} {m' : Memory} (hframes : Frames G r)
    (hbuf : Buffer false G r ch 1) (hva : Accessible G r (u64 (addr + i)))
    (h : Delivered G r addr ch (i + 1) j (passed G r ch (u64 (addr + i)) s) m')
    (hj : j < 2 ^ 64) : Delivered G r addr ch i (1 + j) s m' := by
  have hne : ∀ k < j, target G r (u64 (addr + i)) ≠ target G r (u64 (addr + (i + 1 + k))) := by
    intro k hk he
    have := hframes.target_inj hva (h.accessible k hk) he
    unfold u64 at this
    omega
  refine ⟨fun k hk => ?_, fun k hk => ?_, fun pa hch hpa => ?_⟩
  · cases k with
    | zero => exact hva
    | succ k =>
      have hk' := h.accessible k (by omega)
      rwa [Nat.add_assoc i 1 k, Nat.add_comm 1 k] at hk'
  · cases k with
    | zero =>
      have hbyte := h.old _ (hbuf.apart _ hva 0 Nat.one_pos) hne
      rw [byteAt_passed, if_pos (.inl rfl)] at hbyte
      exact hbyte
    | succ k =>
      have hk' := h.new k (by omega)
      rw [Nat.add_assoc i 1 k, Nat.add_comm 1 k] at hk'
      rw [hk', Nat.add_comm k 1]
      exact nth_taken s.pipe k
  · rw [h.old pa hch fun k hk => ?_, byteAt_passed, if_neg]
    · rintro (he | he)
      · exact hpa 0 (by omega) he
      · exact hch he
    · have := hpa (1 + k) (by omega)
      rwa [← Nat.add_assoc i 1 k] at this

/-- What the loop does: it delivers all it may, or it loses the byte whose copy fails. -/
def Reads (G : Ghost) (r addr ch fuel i : ℕ) (s : Kern) (a : ℤ) (s' : Kern) : Prop :=
  ∃ j : ℕ, a = i + j ∧ Delivered G r addr ch i j s s'.mem ∧
    (j = min fuel (held s.pipe) ∧ s'.pipe = taken s.pipe j ∨
      j < min fuel (held s.pipe) ∧ ¬ Accessible G r (u64 (addr + (i + j))) ∧
        s'.pipe = taken s.pipe (j + 1))

theorem reads_pipereadFrom (hI : Inv K G m) (hroot : G.own r = .node r 2 0)
    (hframes : Frames G r) (hbuf : Buffer false G r ch 1) (hagree : Agree G r m s.mem)
    (addr fuel i : ℕ) (hfuel : i + fuel < 2 ^ 64) :
    Returns (pipereadFrom r addr ch fuel i) (Reads G r addr ch fuel i s) s := by
  induction fuel generalizing i s with
  | zero =>
    refine returns_pure ⟨0, (add_zero _).symm, delivered_zero .., .inl ⟨?_, (taken_zero _).symm⟩⟩
    exact (Nat.zero_min _).symm
  | succ fuel ih =>
    by_cases hne : s.pipe.nread = s.pipe.nwrite
    · have hheld : held s.pipe = 0 := by
        unfold held
        rw [hne, UInt32.sub_self]
        rfl
      refine ⟨i, s, ?_, 0, (add_zero _).symm, delivered_zero .., .inl ⟨?_, (taken_zero _).symm⟩⟩
      · rw [pipereadFrom, bind_of_done (rfl : Code.get s = .done s s), if_pos hne]
        rfl
      · rw [hheld, Nat.min_zero]
    have hheld := held_taken hne
    have hround := pipereadFrom_round hI hroot hframes.ram hbuf hagree addr fuel i hne
    by_cases hva : Accessible G r (u64 (addr + i))
    · rw [if_pos hva] at hround
      obtain ⟨a, s', hrun, j, ha, hdelivered, hend⟩ :=
        ih (agree_passed hI hframes hbuf hagree hva) (i + 1) (by omega)
      have hpipe : (passed G r ch (u64 (addr + i)) s).pipe = taken s.pipe 1 := rfl
      rw [hpipe] at hend
      refine ⟨a, s', hround.trans hrun, 1 + j, ?_, hdelivered.cons hframes hbuf hva ?_, ?_⟩
      · rw [ha]
        push_cast
        ring
      · omega
      · rw [← taken_taken, Nat.add_assoc, ← taken_taken, ← Nat.add_assoc i 1 j]
        exact hend.imp (fun h => ⟨by omega, h.2⟩) fun h => ⟨by omega, h.2⟩
    · rw [if_neg hva] at hround
      refine ⟨i, _, hround, 0, (add_zero _).symm, ?_, .inr ⟨by omega, hva, rfl⟩⟩
      refine ⟨fun k hk => absurd hk (Nat.not_lt_zero k), fun k hk => absurd hk (Nat.not_lt_zero k),
        fun pa hch _ => ?_⟩
      change byteAt (poke s.mem ch (nth s.pipe 0)) pa = _
      rw [byteAt_poke, if_neg hch]

/-- A read of a pipe that it need not wait for takes as many bytes as it returns just when the
    user may access the addresses of all the bytes that there are for it. -/
theorem piperead_takes_iff (hI : Inv K G m) (hroot : G.own r = .node r 2 0)
    (hframes : Frames G r) (addr : ℕ) {n : ℤ} (hn : n < 2 ^ 31) (killed : Bool)
    (hbuf : Buffer false G r ch 1) (pi : Pipe) :
    (pi.nread = pi.nwrite ∧ pi.writeopen = true →
      piperead r addr n killed ch ⟨pi, m⟩ =
        if killed then .done (-1) ⟨pi, m⟩ else .blocked) ∧
    (¬ (pi.nread = pi.nwrite ∧ pi.writeopen = true) →
      ∃ (j : ℕ) (pi' : Pipe) (m' : Memory),
        piperead r addr n killed ch ⟨pi, m⟩ = .done (j : ℤ) ⟨pi', m'⟩ ∧
        Delivered G r addr ch 0 j ⟨pi, m⟩ m' ∧
        (pi' = taken pi j ∨ pi' = taken pi (j + 1)) ∧
        (pi'.nread = pi.nread + UInt32.ofNat j ↔
          ∀ i < min n.toNat (held pi), Accessible G r (u64 (addr + i)))) := by
  refine ⟨fun hempty => ?_, fun hready => ?_⟩
  · unfold piperead
    rw [bind_of_done (rfl : Code.get (⟨pi, m⟩ : Kern) = .done ⟨pi, m⟩ ⟨pi, m⟩), if_pos hempty]
    cases killed <;> rfl
  · obtain ⟨a, s', hrun, j, ha, hdelivered, hend⟩ :=
      reads_pipereadFrom (s := ⟨pi, m⟩) hI hroot hframes hbuf agree_self addr n.toNat 0 (by omega)
    obtain ⟨pi', m'⟩ := s'
    refine ⟨j, pi', m', ?_, hdelivered, ?_, ?_⟩
    · unfold piperead
      rw [bind_of_done (rfl : Code.get (⟨pi, m⟩ : Kern) = .done ⟨pi, m⟩ ⟨pi, m⟩), if_neg hready,
        hrun, ha, Nat.cast_zero, zero_add]
    · exact hend.imp And.right fun h => h.2.2
    · rcases hend with ⟨hj, hpi⟩ | ⟨hj, hnot, hpi⟩
      · have hpi' : pi' = taken pi j := hpi
        subst hpi'
        refine ⟨fun _ i hi => ?_, fun _ => rfl⟩
        have := hdelivered.accessible i (by rw [hj]; exact hi)
        rwa [zero_add] at this
      have hpi' : pi' = taken pi (j + 1) := hpi
      subst hpi'
      rw [zero_add] at hnot
      refine ⟨fun h => ?_, fun h => absurd (h j hj) hnot⟩
      have hlost : (pi.nread + UInt32.ofNat (j + 1)).toNat = (pi.nread + UInt32.ofNat j).toNat :=
        congrArg UInt32.toNat h
      rw [UInt32.toNat_add, UInt32.toNat_add, UInt32.toNat_ofNat', UInt32.toNat_ofNat'] at hlost
      omega

def twoBytes : Pipe := ⟨fun _ => 97, 0, 2, true, true⟩

theorem piperead_takes_two : ∃ (j : ℕ) (pi' : Pipe) (m' : Memory),
    piperead (lastPage 8) 7 2 false KERNBASE ⟨twoBytes, forkMemory⟩ = .done (j : ℤ) ⟨pi', m'⟩ ∧
      pi'.nread = UInt32.ofNat j := by
  obtain ⟨-, htaken⟩ := piperead_takes_iff inv_fork (by decide) frames_fork 7 (n := 2) (by decide)
    false (buffer_fork (by decide) false) twoBytes
  obtain ⟨j, pi', m', hrun, -, -, hiff⟩ := htaken (by decide)
  refine ⟨j, pi', m', hrun, ?_⟩
  rw [hiff.2 (by decide)]
  exact UInt32.zero_add _

/-- The second byte is neither delivered nor left in the pipe. -/
theorem piperead_loses_byte : ∃ s',
    piperead (lastPage 8) 4095 2 false KERNBASE ⟨twoBytes, forkMemory⟩ = .done 1 s' ∧
      s'.pipe.nread = 2 := by
  obtain ⟨a, s', hrun, j, ha, hdelivered, hend⟩ :=
    reads_pipereadFrom (s := ⟨twoBytes, forkMemory⟩) inv_fork (by decide) frames_fork
      (buffer_fork (by decide) false) agree_self 4095 2 0 (by decide)
  have hfirst : Accessible forkGhost (lastPage 8) (u64 (4095 + (0 + 0))) := by decide
  have hsecond : ¬ Accessible forkGhost (lastPage 8) (u64 (4095 + (0 + 1))) := by decide
  have hheld : min 2 (held twoBytes) = 2 := by decide
  rw [hheld] at hend
  rcases hend with ⟨rfl, -⟩ | ⟨hj, hnot, hpipe⟩
  · exact absurd (hdelivered.accessible 1 (by decide)) hsecond
  obtain rfl : j = 1 := by
    by_contra hne
    obtain rfl : j = 0 := by omega
    exact hnot hfirst
  refine ⟨s', ?_, by rw [hpipe]; rfl⟩
  rw [ha] at hrun
  exact hrun

end Xv6.PipeCopies
